import DistLLM.Library.Relocation
import DistLLM.Paged.Tensors

/-!
# The memory defragmenter

`MemoryDefragmenter` on the block manager of a single node. Swapping cold sequences out first moves
their tensors to another device and changes no contents, so a pass is the same on every level.
Fragmentation ratios and statistics are left out.
-/
namespace DistLLM.Paged

open DistLLM.Library DistLLM.Library.RefCounts DistLLM.Library.Relocation DistLLM.Scheduler

variable {ρ τ : Type} [DecidableEq ρ]

/-- `maxBlocksPerPass` is from the configuration. The times are those of the monotonic clock. -/
structure MemoryDefragmenter where
  maxBlocksPerPass : Int := 0
  blockCooldownSeconds : Rat := 30
  blockLastMoved : Dict Nat Rat := ∅

/-- A source, a destination, and the references of the source. -/
structure Move where
  src : Nat
  dst : Nat
  refCount : Int
  deriving DecidableEq, Repr

/-- The loop of `compute_compaction_plan`: the free blocks, and the blocks behind the first of them
that are not shared. -/
def scanBlock (blocks : Nat → KVCacheBlock) (found : List Nat × List Nat) (i : Nat) :
    List Nat × List Nat :=
  if (blocks i).isAllocated = false then (found.1 ++ [i], found.2)
  else if found.1 ≠ [] ∧ (blocks i).refCount ≤ 1 then (found.1, found.2 ++ [i])
  else found

/-- Only so many of each are used where the configuration says so. -/
def limited (maxBlocks : Int) (found : List Nat × List Nat) : List Nat × List Nat :=
  if 0 < maxBlocks ∧ maxBlocks < found.2.length then
    (found.1.take maxBlocks.toNat, found.2.take maxBlocks.toNat)
  else found

def computeCompactionPlan (maxBlocks : Int) (numBlocks : Nat) (blocks : Nat → KVCacheBlock) :
    List Move :=
  let found := limited maxBlocks ((List.range numBlocks).foldl (scanBlock blocks) ([], []))
  ((found.2.reverse.zip found.1).filter fun m => decide (m.2 < m.1)).map fun m =>
    ⟨m.1, m.2, (blocks m.1).refCount⟩

namespace CachedManager

variable (mgr : CachedManager ρ τ)

/-- The tensors of a block are copied to another one, and the block is free. A block without
tensors is skipped. -/
def moveBlock (mgr : CachedManager ρ τ) (m : Move) : CachedManager ρ τ :=
  match mgr.kvCache m.src with
  | none => mgr
  | some content =>
    { base := { mgr.base with
        blocks := Function.update (Function.update mgr.base.blocks m.dst ⟨true, m.refCount⟩) m.src {}
        numTokens := Function.update (Function.update mgr.base.numTokens m.dst
          (mgr.base.numTokens m.src)) m.src 0 }
      kvCache := Function.update (Function.update mgr.kvCache m.dst (some content)) m.src none }

/-- The references of a table to one block go to another one. -/
def redirect (m : Move) (seq : SequenceBlocks) : SequenceBlocks :=
  { seq with blockIds := seq.blockIds.map fun bid => if bid = m.src then m.dst else bid }

/-- Every table is changed for every move, also one that was skipped. -/
def redirectTables (mgr : CachedManager ρ τ) (moves : List Move) : CachedManager ρ τ :=
  { mgr with
    base := { mgr.base with
      seqBlocks := moves.foldl (fun seqs m => seqs.mapValues fun _ seq => redirect m seq)
        mgr.base.seqBlocks } }

/-- `set_free_blocks`, with the blocks that are not allocated. -/
def rebuildFreeList (mgr : CachedManager ρ τ) : CachedManager ρ τ :=
  { mgr with
    base := { mgr.base with
      freeBlocks := (List.range mgr.base.numBlocks).filter fun b =>
        !(mgr.base.blocks b).isAllocated } }

def compact (moves : List Move) : CachedManager ρ τ :=
  ((moves.foldl moveBlock mgr).redirectTables moves).rebuildFreeList

end CachedManager

namespace MemoryDefragmenter

variable (defrag : MemoryDefragmenter)

/-- The planned moves of blocks that were not moved within the cooldown. -/
def chosenMoves (now : Rat) (mgr : CachedManager ρ τ) : List Move :=
  (computeCompactionPlan defrag.maxBlocksPerPass mgr.base.numBlocks mgr.base.blocks).filter fun m =>
    decide (defrag.blockCooldownSeconds < now - defrag.blockLastMoved.getD m.src 0)

/-- `_defragment_impl`: the number of moves, and what they leave. -/
def defragment (now movedAt : Rat) (mgr : CachedManager ρ τ) :
    Nat × MemoryDefragmenter × CachedManager ρ τ :=
  let moves := defrag.chosenMoves now mgr
  if moves = [] then (0, defrag, mgr)
  else
    (moves.length,
      { defrag with
        blockLastMoved := moves.foldl (fun times m => times.set m.src movedAt)
          defrag.blockLastMoved },
      mgr.compact moves)

end MemoryDefragmenter

/-! ### The plan keeps sources and destinations apart -/

section Plan

variable {blocks : Nat → KVCacheBlock}

theorem scan_spec (l : List Nat) (found : List Nat × List Nat) :
    ∃ unshared, l.foldl (scanBlock blocks) found =
        (found.1 ++ l.filter (fun i => !(blocks i).isAllocated), found.2 ++ unshared) ∧
      unshared.Sublist (l.filter fun i => (blocks i).isAllocated) := by
  induction l generalizing found with
  | nil => exact ⟨[], by simp, List.Sublist.refl _⟩
  | cons i rest ih =>
    obtain ⟨unshared, scanned, part⟩ := ih (scanBlock blocks found i)
    rw [List.foldl_cons, scanned]
    unfold scanBlock
    cases allocated : (blocks i).isAllocated with
    | false => exact ⟨unshared, by simp [allocated], by simpa [allocated] using part⟩
    | true =>
      simp only [Bool.true_eq_false, if_false]
      split
      · exact ⟨i :: unshared, by simp [allocated], by simpa [allocated] using part⟩
      · refine ⟨unshared, by simp [allocated], ?_⟩
        have more := part.cons i
        simpa [allocated] using more

theorem map_fst_zip_isPrefix {α β : Type} (as : List α) (bs : List β) :
    (as.zip bs).map Prod.fst <+: as := by
  induction as generalizing bs with
  | nil => simp
  | cons a rest ih =>
    cases bs with
    | nil => simp
    | cons b bs => simpa using ih bs

theorem map_snd_zip_isPrefix {α β : Type} (as : List α) (bs : List β) :
    (as.zip bs).map Prod.snd <+: bs := by
  induction as generalizing bs with
  | nil => simp
  | cons a rest ih =>
    cases bs with
    | nil => simp
    | cons b bs => simpa using ih bs

def Move.pair (m : Move) : Nat × Nat := (m.src, m.dst)

/-- Allocated blocks move to free ones, each block once. -/
structure Planned (numBlocks : Nat) (blocks : Nat → KVCacheBlock) (moves : List Move) : Prop where
  separate : Separate (moves.map Move.pair)
  source : ∀ m ∈ moves, (blocks m.src).isAllocated = true ∧ m.refCount = (blocks m.src).refCount
  destination : ∀ m ∈ moves, (blocks m.dst).isAllocated = false ∧ m.dst < numBlocks

theorem Planned.sublist {numBlocks : Nat} {moves chosen : List Move}
    (planned : Planned numBlocks blocks moves) (part : chosen.Sublist moves) :
    Planned numBlocks blocks chosen where
  separate :=
    { sources := planned.separate.sources.sublist ((part.map _).map _)
      destinations := planned.separate.destinations.sublist ((part.map _).map _)
      apart := fun i here there => planned.separate.apart i
        (((part.map Move.pair).map Prod.fst).subset here)
        (((part.map Move.pair).map Prod.snd).subset there) }
  source m member := planned.source m (part.subset member)
  destination m member := planned.destination m (part.subset member)

theorem computeCompactionPlan_planned (maxBlocks : Int) (numBlocks : Nat)
    (blocks : Nat → KVCacheBlock) :
    Planned numBlocks blocks (computeCompactionPlan maxBlocks numBlocks blocks) := by
  obtain ⟨unshared, scanned, part⟩ :=
    (scan_spec (List.range numBlocks) ([], []) : ∃ unshared,
      (List.range numBlocks).foldl (scanBlock blocks) ([], []) = _ ∧ _)
  have found_free : (limited maxBlocks ((List.range numBlocks).foldl (scanBlock blocks)
      ([], []))).1.Sublist ((List.range numBlocks).filter fun i => !(blocks i).isAllocated) := by
    rw [scanned, limited]
    split
    · exact List.take_sublist _ _
    · exact List.Sublist.refl _
  have found_allocated : (limited maxBlocks ((List.range numBlocks).foldl (scanBlock blocks)
      ([], []))).2.Sublist ((List.range numBlocks).filter fun i => (blocks i).isAllocated) := by
    rw [scanned, limited]
    split
    · exact (List.take_sublist _ _).trans part
    · exact part
  unfold computeCompactionPlan
  generalize limited maxBlocks _ = found at *
  dsimp only
  -- the moves kept are a part of the pairs, so sources and destinations are parts of the scan
  have pairs : ((found.2.reverse.zip found.1).filter fun m => decide (m.2 < m.1)).Sublist
      (found.2.reverse.zip found.1) := List.filter_sublist
  generalize List.filter _ (found.2.reverse.zip found.1) = moves at *
  have sources : (moves.map Prod.fst).Sublist found.2.reverse :=
    (pairs.map Prod.fst).trans (map_fst_zip_isPrefix _ _).sublist
  have destinations : (moves.map Prod.snd).Sublist found.1 :=
    (pairs.map Prod.snd).trans (map_snd_zip_isPrefix _ _).sublist
  have allocated : ∀ i ∈ moves.map Prod.fst, (blocks i).isAllocated = true := fun i member =>
    (List.mem_filter.mp (found_allocated.subset (List.mem_reverse.mp (sources.subset member)))).2
  have free : ∀ i ∈ moves.map Prod.snd, i < numBlocks ∧ (blocks i).isAllocated = false := by
    intro i member
    have inside := List.mem_filter.mp (found_free.subset (destinations.subset member))
    simpa using inside
  have same : (moves.map fun m => (⟨m.1, m.2, (blocks m.1).refCount⟩ : Move)).map Move.pair =
      moves := by
    simp [Function.comp_def, Move.pair]
  refine ⟨?_, ?_, ?_⟩
  · rw [same]
    constructor
    · apply List.Nodup.sublist sources
      rw [List.nodup_reverse]
      exact (List.nodup_range.filter _).sublist found_allocated
    · exact ((List.nodup_range.filter _).sublist found_free).sublist destinations
    · intro i here there
      have := allocated i here
      rw [(free i there).2] at this
      cases this
  · intro m member
    obtain ⟨pair, inside, rfl⟩ := List.mem_map.mp member
    exact ⟨allocated pair.1 (List.mem_map_of_mem inside), rfl⟩
  · intro m member
    obtain ⟨pair, inside, rfl⟩ := List.mem_map.mp member
    exact (free pair.2 (List.mem_map_of_mem inside)).symm

end Plan

end DistLLM.Paged
