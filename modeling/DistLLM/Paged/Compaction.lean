import DistLLM.Paged.Defragmenter

/-!
# What a compaction preserves

A pass moves blocks, tables and counts alike, so every sequence reads what it read before. Counts
and free list are exact afterwards if they were before.
-/
namespace DistLLM.Paged

open DistLLM.Library DistLLM.Library.RefCounts DistLLM.Library.Relocation DistLLM.Scheduler

variable {ρ τ : Type} [DecidableEq ρ] {lost : Multiset Nat}

namespace CachedManager

/-- What a sequence reads: the tensors of its blocks, each with its number of tokens. -/
def read (mgr : CachedManager ρ τ) (sequenceId : ρ) : List (Option τ × Nat) :=
  (mgr.base.table sequenceId).map fun b => (mgr.kvCache b, mgr.base.numTokens b)

variable {mgr : CachedManager ρ τ} {moves : List Move}

section

omit [DecidableEq ρ]

theorem moveBlock_eq {m : Move} (source : mgr.base.blocks m.src = ⟨true, m.refCount⟩)
    (tensors : (mgr.kvCache m.src).isSome = true) :
    mgr.moveBlock m =
      { base := { mgr.base with
          blocks := move {} mgr.base.blocks m.pair
          numTokens := move 0 mgr.base.numTokens m.pair }
        kvCache := move none mgr.kvCache m.pair } := by
  obtain ⟨content, present⟩ := Option.isSome_iff_exists.mp tensors
  simp [moveBlock, present, move, Move.pair, source]

theorem moveBlocks_eq (separate : Separate (moves.map Move.pair))
    (source : ∀ m ∈ moves, mgr.base.blocks m.src = ⟨true, m.refCount⟩)
    (tensors : ∀ m ∈ moves, (mgr.kvCache m.src).isSome = true) :
    moves.foldl moveBlock mgr =
      { base := { mgr.base with
          blocks := relocate {} (moves.map Move.pair) mgr.base.blocks
          numTokens := relocate 0 (moves.map Move.pair) mgr.base.numTokens }
        kvCache := relocate none (moves.map Move.pair) mgr.kvCache } := by
  induction moves generalizing mgr with
  | nil => rfl
  | cons m rest ih =>
    -- the block of a later move is neither emptied nor filled by this one
    have apart : ∀ m' ∈ rest, m'.src ≠ m.src ∧ m'.src ≠ m.dst := by
      intro m' later
      have here : m'.src ∈ (rest.map Move.pair).map Prod.fst :=
        List.mem_map_of_mem (f := Prod.fst) (List.mem_map_of_mem (f := Move.pair) later)
      constructor
      · intro same
        rw [same] at here
        exact (List.nodup_cons.mp separate.sources).1 here
      · intro same
        rw [same] at here
        exact separate.head_destination.2.1 here
    have one := moveBlock_eq (source m List.mem_cons_self) (tensors m List.mem_cons_self)
    rw [List.foldl_cons, one, ih separate.tail]
    · rfl
    · intro m' later
      obtain ⟨notEmptied, notFilled⟩ := apart m' later
      simpa [move, Move.pair, notEmptied, notFilled] using source m' (List.mem_cons_of_mem _ later)
    · intro m' later
      obtain ⟨notEmptied, notFilled⟩ := apart m' later
      simpa [move, Move.pair, notEmptied, notFilled] using tensors m' (List.mem_cons_of_mem _ later)

theorem redirectTables_tables (mgr : CachedManager ρ τ) (moves : List Move) :
    (mgr.redirectTables moves).base.tables =
      mgr.base.tables.map (target (moves.map Move.pair)) := by
  simp only [redirectTables, PagedAttentionManager.tables]
  generalize mgr.base.seqBlocks = seqs
  induction moves generalizing seqs with
  | nil => simp [target_nil]
  | cons m rest ih =>
    have renamed : references SequenceBlocks.blockIds (seqs.mapValues fun _ seq => redirect m seq) =
        (references SequenceBlocks.blockIds seqs).map fun bid => if bid = m.src then m.dst else bid :=
      references_mapValues SequenceBlocks.blockIds seqs fun _ _ => rfl
    rw [List.foldl_cons, ih, renamed, Multiset.map_map]
    rfl

end

theorem redirectTables_get? (mgr : CachedManager ρ τ) (moves : List Move) (sequenceId : ρ) :
    (mgr.redirectTables moves).base.seqBlocks.get? sequenceId =
      (mgr.base.seqBlocks.get? sequenceId).map fun seq =>
        { seq with blockIds := seq.blockIds.map (target (moves.map Move.pair)) } := by
  simp only [redirectTables]
  generalize mgr.base.seqBlocks = seqs
  induction moves generalizing seqs with
  | nil => simp [target_nil]
  | cons m rest ih =>
    rw [List.foldl_cons, ih, Dict.get?_mapValues, Option.map_map]
    congr 1
    funext seq
    simp only [Function.comp_apply, redirect, List.map_map]
    rfl

/-! ### A pass -/

structure Movable (mgr : CachedManager ρ τ) (moves : List Move) : Prop where
  planned : Planned mgr.base.numBlocks mgr.base.blocks moves
  backed : mgr.Backed

omit [DecidableEq ρ] in
theorem Movable.compact_eq (movable : mgr.Movable moves) :
    mgr.compact moves = (CachedManager.rebuildFreeList (CachedManager.redirectTables
      { base := { mgr.base with
          blocks := relocate {} (moves.map Move.pair) mgr.base.blocks
          numTokens := relocate 0 (moves.map Move.pair) mgr.base.numTokens }
        kvCache := relocate none (moves.map Move.pair) mgr.kvCache } moves)) := by
  obtain ⟨planned, backed⟩ := movable
  rw [compact, moveBlocks_eq planned.separate]
  · intro m member
    obtain ⟨allocated, count⟩ := planned.source m member
    cases block : mgr.base.blocks m.src with
    | mk isAllocated refCount => simp_all
  · intro m member
    rw [backed.tensors]
    exact (planned.source m member).1

section

variable (movable : mgr.Movable moves)

include movable

section

omit [DecidableEq ρ]

theorem Movable.compact_backed : (mgr.compact moves).Backed := by
  obtain ⟨planned, backed⟩ := movable
  rw [Movable.compact_eq ⟨planned, backed⟩]
  constructor
  · intro b
    exact relocate_rel (fun (content : Option τ) (block : KVCacheBlock) =>
      content.isSome = block.isAllocated) rfl _ backed.tensors b
  · intro b
    exact relocate_all (fun block : KVCacheBlock => block.isAllocated = true ↔ 0 < block.refCount)
      (by simp) _ backed.referred b

theorem Movable.unfilled (leaking : mgr.base.Leaking lost) {b : Nat}
    (held : b ∈ mgr.base.tables + lost) : b ∉ (moves.map Move.pair).map Prod.snd := by
  intro filled
  obtain ⟨_, inside, rfl⟩ := List.mem_map.mp filled
  obtain ⟨m, member, rfl⟩ := List.mem_map.mp inside
  have count := leaking.counted m.dst
  have positive : 0 < (mgr.base.tables + lost).count m.dst := Multiset.count_pos.mpr held
  simp only [PagedAttentionManager.pool] at count
  have allocated := (movable.backed.referred m.dst).mpr (by omega)
  rw [(movable.planned.destination m member).1] at allocated
  cases allocated

theorem Movable.compact_leaking (leaking : mgr.base.Leaking lost) :
    (mgr.compact moves).base.Leaking (lost.map (target (moves.map Move.pair))) := by
  have separate := movable.planned.separate
  have backed := movable.compact_backed
  have tables : (mgr.compact moves).base.tables =
      mgr.base.tables.map (target (moves.map Move.pair)) := by
    rw [movable.compact_eq]
    exact redirectTables_tables _ moves
  have size : (mgr.compact moves).base.numBlocks = mgr.base.numBlocks := by
    rw [movable.compact_eq]
    rfl
  have free : (mgr.compact moves).base.freeBlocks = (List.range mgr.base.numBlocks).filter fun b =>
      !((mgr.compact moves).base.blocks b).isAllocated := by
    rw [movable.compact_eq]
    rfl
  -- a destination held nothing before, so its count is that of the block moved there
  have counted : ∀ b, ((mgr.compact moves).base.blocks b).refCount =
      ((mgr.base.tables + lost).map (target (moves.map Move.pair))).count b := by
    intro b
    rw [separate.count_map_target fun i held => movable.unfilled leaking held, movable.compact_eq]
    exact relocate_rel (fun (block : KVCacheBlock) (count : Nat) => block.refCount = count) rfl _
      leaking.counted b
  unfold PagedAttentionManager.Leaking
  rw [tables, size, ← Multiset.map_add]
  refine ⟨counted, ?_, fun b => ?_, fun b held => ?_⟩
  · show (mgr.compact moves).base.freeBlocks.Nodup
    rw [free]
    exact List.nodup_range.filter _
  · show b ∈ (mgr.compact moves).base.freeBlocks ↔ _
    have referred := backed.referred b
    rw [free, List.mem_filter, List.mem_range, Finset.mem_range, ← Multiset.count_eq_zero]
    rw [counted b] at referred
    have allocated_iff : (!((mgr.compact moves).base.blocks b).isAllocated) = true ↔
        ¬ ((mgr.compact moves).base.blocks b).isAllocated = true := by simp
    rw [allocated_iff, referred]
    omega
  · obtain ⟨a, before, rfl⟩ := Multiset.mem_map.mp held
    rw [Finset.mem_range]
    by_cases moved : a ∈ (moves.map Move.pair).map Prod.fst
    · obtain ⟨_, inside, rfl⟩ := List.mem_map.mp moved
      obtain ⟨m, member, rfl⟩ := List.mem_map.mp inside
      rw [separate.target_of_mem inside]
      exact (movable.planned.destination m member).2
    · rw [target_of_not_mem moved]
      exact Finset.mem_range.mp (leaking.inside a before)

end

theorem Movable.compact_table (sequenceId : ρ) : (mgr.compact moves).base.table sequenceId =
      (mgr.base.table sequenceId).map (target (moves.map Move.pair)) := by
  rw [movable.compact_eq]
  simp only [rebuildFreeList, PagedAttentionManager.table]
  rw [redirectTables_get?]
  cases mgr.base.seqBlocks.get? sequenceId <;> rfl

omit movable in
theorem mem_tables {b : Nat} {sequenceId : ρ} (member : b ∈ mgr.base.table sequenceId) :
    b ∈ mgr.base.tables := by
  unfold PagedAttentionManager.table at member
  cases found : mgr.base.seqBlocks.get? sequenceId with
  | none => simp [found] at member
  | some seq => exact mem_references_of_get? found (by simpa [found] using member)

theorem Movable.compact_read (leaking : mgr.base.Leaking lost)
    (sequenceId : ρ) : (mgr.compact moves).read sequenceId = mgr.read sequenceId := by
  unfold read
  rw [movable.compact_table, List.map_map]
  apply List.map_congr_left
  intro b member
  have unfilled := movable.unfilled leaking (Multiset.mem_add.mpr (.inl (mem_tables member)))
  have separate := movable.planned.separate
  rw [movable.compact_eq]
  exact Prod.ext (separate.relocate_target none _ unfilled) (separate.relocate_target 0 _ unfilled)

theorem Movable.compact_shared (leaking : mgr.base.Leaking lost) (sequenceId sequenceId' : ρ)
    (i j : Nat) : ((mgr.compact moves).base.table sequenceId)[i]? =
        ((mgr.compact moves).base.table sequenceId')[j]? ↔
      (mgr.base.table sequenceId)[i]? = (mgr.base.table sequenceId')[j]? := by
  rw [movable.compact_table, movable.compact_table, List.getElem?_map, List.getElem?_map]
  have held : ∀ (k : Nat) (id : ρ) b, (mgr.base.table id)[k]? = some b →
      b ∉ (moves.map Move.pair).map Prod.snd := fun k id b there =>
    movable.unfilled leaking
      (Multiset.mem_add.mpr (.inl (mem_tables (List.mem_of_getElem? there))))
  cases here : (mgr.base.table sequenceId)[i]? with
  | none => cases (mgr.base.table sequenceId')[j]? <;> simp
  | some b =>
    cases there : (mgr.base.table sequenceId')[j]? with
    | none => simp
    | some b' =>
      simp only [Option.map_some, Option.some.injEq]
      constructor
      · exact movable.planned.separate.target_inj (held i _ b here) (held j _ b' there)
      · rintro rfl
        rfl

end

end CachedManager

/-! ### Runs -/

structure DefragState (ρ τ : Type) where
  defrag : MemoryDefragmenter := {}
  mgr : CachedManager ρ τ

/-- A call of the manager, a write of the forward pass, another configuration, and a pass. -/
inductive DefragAction (ρ τ : Type)
  | call (act : Action ρ)
  | write (bid : Nat) (content : τ)
  | reconfigure (maxBlocksPerPass : Int)
  | defragment (now movedAt : Rat)

variable [Zero τ] [ToString ρ]

namespace DefragState

def exec (s : DefragState ρ τ) : DefragAction ρ τ → DefragState ρ τ
  | .call act => { s with mgr := s.mgr.exec act }
  | .write bid content => { s with mgr := s.mgr.write bid content }
  | .reconfigure maxBlocksPerPass => { s with defrag := { s.defrag with maxBlocksPerPass } }
  | .defragment now movedAt =>
    let r := s.defrag.defragment now movedAt s.mgr
    { defrag := r.2.1, mgr := r.2.2 }

end DefragState

def defragmenting (ρ τ : Type) [DecidableEq ρ] [Zero τ] [ToString ρ] :
    Machine (DefragState ρ τ) (DefragAction ρ τ) where
  init s := (∃ numBlocks blockSize,
    PagedAttentionManager.create numBlocks blockSize = .ok s.mgr.base) ∧
      s.mgr.kvCache = (fun _ => none) ∧ s.defrag.blockLastMoved = ∅
  enabled _ _ := True
  exec := DefragState.exec

structure Preserved (mgr mgr' : CachedManager ρ τ) : Prop where
  live : ∀ sequenceId, mgr'.base.Live sequenceId ↔ mgr.base.Live sequenceId
  content : ∀ sequenceId, mgr'.read sequenceId = mgr.read sequenceId
  shared : ∀ (sequenceId sequenceId' : ρ) (i j : Nat),
    (mgr'.base.table sequenceId)[i]? = (mgr'.base.table sequenceId')[j]? ↔
      (mgr.base.table sequenceId)[i]? = (mgr.base.table sequenceId')[j]?

def KeepsCounts (s : DefragState ρ τ) : DefragAction ρ τ → Prop
  | .call act => KeepsReferences s.mgr.base act
  | _ => True

namespace DefragState

variable {s : DefragState ρ τ}

/-- Counted up to lost references, with tensors where they belong. -/
def Sound (s : DefragState ρ τ) (lost : Multiset Nat) : Prop :=
  s.mgr.base.Leaking lost ∧ s.mgr.Backed

section

omit [DecidableEq ρ] [Zero τ] [ToString ρ]

theorem Sound.movable (sound : s.Sound lost) (now : Rat) :
    s.mgr.Movable (s.defrag.chosenMoves now s.mgr) :=
  ⟨(computeCompactionPlan_planned _ _ _).sublist List.filter_sublist, sound.2⟩

theorem defragment_cases (s : DefragState ρ τ) (now movedAt : Rat) :
    (s.defrag.defragment now movedAt s.mgr).2.2 = s.mgr ∨
      (s.defrag.defragment now movedAt s.mgr).2.2 =
        s.mgr.compact (s.defrag.chosenMoves now s.mgr) := by
  unfold MemoryDefragmenter.defragment
  dsimp only
  split
  · exact .inl rfl
  · exact .inr rfl

end

/-- A pass loses no reference; a call loses those of a table that it overwrites. -/
theorem Sound.exec (sound : s.Sound lost) (act : DefragAction ρ τ) :
    ∃ lost', (s.exec act).Sound lost' ∧ (lost' = 0 ↔ KeepsCounts s act ∧ lost = 0) := by
  obtain ⟨leaking, backed⟩ := sound
  cases act with
  | call act =>
    refine ⟨overwritten s.mgr.base act + lost, ⟨?_, backed.exec leaking act⟩, ?_⟩
    · simp only [DefragState.exec, CachedManager.exec_below]
      exact leaking.step act
    · rw [KeepsCounts, keepsReferences_iff, ← Multiset.coe_eq_zero, ← Multiset.card_eq_zero,
        ← Multiset.card_eq_zero, ← Multiset.card_eq_zero, Multiset.card_add]
      omega
  | write bid content =>
    refine ⟨lost, ⟨leaking, fun b => ?_, backed.referred⟩, by simp [KeepsCounts]⟩
    have tensors := backed.tensors b
    by_cases here : b = bid
    · subst here
      simpa [DefragState.exec, CachedManager.write] using tensors
    · simpa [DefragState.exec, CachedManager.write, here] using tensors
  | reconfigure maxBlocksPerPass =>
    exact ⟨lost, ⟨leaking, backed⟩, by simp [KeepsCounts]⟩
  | defragment now movedAt =>
    have movable := Sound.movable ⟨leaking, backed⟩ now
    rcases s.defragment_cases now movedAt with same | compacted
    · refine ⟨lost, ⟨?_, ?_⟩, by simp [KeepsCounts]⟩
      · simpa only [DefragState.exec, same] using leaking
      · simpa only [DefragState.exec, same] using backed
    · refine ⟨lost.map (target ((s.defrag.chosenMoves now s.mgr).map Move.pair)), ⟨?_, ?_⟩,
        by simp [KeepsCounts]⟩
      · simpa only [DefragState.exec, compacted] using movable.compact_leaking leaking
      · simpa only [DefragState.exec, compacted] using movable.compact_backed

omit [Zero τ] [ToString ρ] in
theorem Sound.preserved (sound : s.Sound lost) (now movedAt : Rat) :
    Preserved s.mgr (s.defrag.defragment now movedAt s.mgr).2.2 := by
  have movable := sound.movable now
  rcases s.defragment_cases now movedAt with same | compacted
  · rw [same]
    exact ⟨fun _ => .rfl, fun _ => rfl, fun _ _ _ _ => .rfl⟩
  · rw [compacted]
    refine ⟨fun sequenceId => ?_, movable.compact_read sound.1, movable.compact_shared sound.1⟩
    simp only [PagedAttentionManager.Live]
    rw [movable.compact_eq]
    simp only [CachedManager.rebuildFreeList]
    rw [CachedManager.redirectTables_get?, Option.isSome_map]

theorem init_sound (start : (defragmenting ρ τ).init s) : s.Sound 0 := by
  obtain ⟨⟨numBlocks, blockSize, created⟩, bare, -⟩ := start
  have blank : ∀ b, s.mgr.base.blocks b = {} := by
    simp only [PagedAttentionManager.create] at created
    split at created
    · cases created
    · split at created
      · cases created
      · intro b
        rw [← Except.ok.inj created]
        rfl
  refine ⟨PagedAttentionManager.create_leaking created, fun b => ?_, fun b => ?_⟩
  · rw [bare, blank b]
    rfl
  · simp [blank b]

end DefragState

open DefragState

theorem defragment_reads {s : DefragState ρ τ} (reached : (defragmenting ρ τ).Reachable s)
    (now movedAt : Rat) : Preserved s.mgr (s.defrag.defragment now movedAt s.mgr).2.2 := by
  have sound : ∃ lost, s.Sound lost := by
    apply Machine.Reaches.invariant (I := fun s => ∃ lost, s.Sound lost) _ _ reached
    · intro s start
      exact ⟨0, init_sound start⟩
    · rintro s act ⟨lost, sound⟩ - -
      obtain ⟨lost', after, -⟩ := sound.exec act
      exact ⟨lost', after⟩
  obtain ⟨lost, sound⟩ := sound
  exact sound.preserved now movedAt

/-- **Defragmentation.** In every run whose calls overwrite no table of a live sequence, a pass
leaves every sequence what it reads and every shared block shared, and after it, as before, each
count is the number of references and the free list has the blocks that nobody refers to. The
condition is exact: a step keeps the counts right if and only if it meets it. -/
theorem defragment_preserves {s : DefragState ρ τ}
    (reached : (defragmenting ρ τ).Reaches KeepsCounts s) :
    (∀ now movedAt, Preserved s.mgr (s.defrag.defragment now movedAt s.mgr).2.2 ∧
      (s.defrag.defragment now movedAt s.mgr).2.2.base.RefCountsExact) ∧
      ∀ act, (s.exec act).mgr.base.RefCountsExact ↔ KeepsCounts s act := by
  have sound : s.Sound 0 := by
    apply Machine.Reaches.invariant (I := fun s => s.Sound 0) _ _ reached
    · intro s start
      exact init_sound start
    · intro s act sound _ keeps
      obtain ⟨lost, after, none_lost⟩ := sound.exec act
      rwa [none_lost.mpr ⟨keeps, rfl⟩] at after
  have exact_iff : ∀ act, (s.exec act).mgr.base.RefCountsExact ↔ KeepsCounts s act := by
    intro act
    obtain ⟨lost, after, none_lost⟩ := sound.exec act
    rw [PagedAttentionManager.refCountsExact_iff after.1, none_lost]
    simp
  refine ⟨fun now movedAt => ⟨sound.preserved now movedAt, ?_⟩, exact_iff⟩
  exact (exact_iff (.defragment now movedAt)).mpr trivial

/-- A manager of three blocks of four tokens, before any call. -/
def threeBlocks : DefragState String Int where
  mgr := { base := { Scheduler.PagedAttentionManager.init 3 4 with numTokens := fun _ => 0 }
           kvCache := fun _ => none }

theorem threeBlocks_init : (defragmenting String Int).init threeBlocks := ⟨⟨3, 4, rfl⟩, rfl, rfl⟩

/-- The second sequence's block has been written and the first one's is free: a pass moves it. -/
theorem defragment_preserves_moved :
    let s := [DefragAction.call (.allocateSequence "a" 4), .call (.allocateSequence "b" 4),
      .write 1 7, .call (.freeSequence "a")].foldl (defragmenting String Int).exec threeBlocks
    (s.mgr.base.table "b", s.mgr.read "b") = ([1], [(some 7, 0)]) ∧
      (s.defrag.defragment 100 100 s.mgr).2.2.base.table "b" = [0] ∧
      (s.defrag.defragment 100 100 s.mgr).2.2.read "b" = s.mgr.read "b" := by
  refine ⟨by decide +kernel, by decide +kernel, ?_⟩
  refine ((defragment_preserves (.of_follows (.init threeBlocks_init) _ ?_)).1 100 100).1.content "b"
  exact ⟨trivial, .inr (by decide), trivial, .inr (by decide), trivial, trivial, trivial, trivial,
    trivial⟩

/-- Block 1 is lost when its sequence is allocated again; a pass moves block 2, which that reads. -/
theorem defragment_reads_again :
    let s := [DefragAction.call (.allocateSequence "a" 4), .call (.allocateSequence "b" 4),
      .call (.allocateSequence "b" 4), .write 2 7,
      .call (.freeSequence "a")].foldl (defragmenting String Int).exec threeBlocks
    (s.mgr.base.table "b", s.mgr.read "b") = ([2], [(some 7, 0)]) ∧
      (s.defrag.defragment 100 100 s.mgr).2.2.base.table "b" = [0] ∧
      (s.defrag.defragment 100 100 s.mgr).2.2.read "b" = s.mgr.read "b" := by
  refine ⟨by decide +kernel, by decide +kernel, ?_⟩
  refine (defragment_reads (.of_follows (.init threeBlocks_init) _ ?_) 100 100).content "b"
  exact ⟨trivial, trivial, trivial, trivial, trivial, trivial, trivial, trivial, trivial, trivial,
    trivial⟩

/-- Block 1 is no longer in any table when it keeps its reference through a pass. -/
theorem defragmented_leak : ¬ ∀ s, (defragmenting String Int).Reachable s → ∀ now movedAt,
      Preserved s.mgr (s.defrag.defragment now movedAt s.mgr).2.2 ∧
        (s.defrag.defragment now movedAt s.mgr).2.2.base.RefCountsExact := by
  intro all
  have reached : (defragmenting String Int).Reachable _ := .of_follows (.init threeBlocks_init)
    [.call (.allocateSequence "a" 4), .call (.allocateSequence "b" 4),
      .call (.allocateSequence "b" 4), .call (.freeSequence "a")]
    ⟨trivial, trivial, trivial, trivial, trivial, trivial, trivial, trivial, trivial⟩
  have count := (all _ reached 100 100).2.counted 1
  revert count
  decide +kernel

end DistLLM.Paged
