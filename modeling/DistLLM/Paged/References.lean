import DistLLM.Library.RefCounts
import DistLLM.Paged.Manager
import DistLLM.Scheduler.Blocks

/-!
# Reference counts and block tables

The count of a block against its occurrences in the tables of the live sequences. Counts and
occurrences come apart only where a call overwrites the table of a live sequence: the references
of that table are then lost, and its blocks are never free again.
-/
namespace DistLLM.Paged

open DistLLM.Library DistLLM.Library.RefCounts DistLLM.Scheduler

variable {ρ : Type} [DecidableEq ρ] {mgr : PagedAttentionManager ρ} {lost : Multiset Nat}

namespace PagedAttentionManager

def table (mgr : PagedAttentionManager ρ) (sequenceId : ρ) : List Nat :=
  ((mgr.seqBlocks.get? sequenceId).map SequenceBlocks.blockIds).getD []

def Live (mgr : PagedAttentionManager ρ) (sequenceId : ρ) : Prop :=
  (mgr.seqBlocks.get? sequenceId).isSome = true

instance (sequenceId : ρ) : Decidable (mgr.Live sequenceId) :=
  inferInstanceAs (Decidable (_ = true))

/-- The counts are the occurrences in tables, and the free blocks are those with count zero. -/
structure RefCountsExact (mgr : PagedAttentionManager ρ) : Prop where
  counted : ∀ b, (mgr.blocks b).refCount = mgr.held.count b
  distinct : mgr.freeBlocks.Nodup
  free_iff : ∀ b, b ∈ mgr.freeBlocks ↔ b < mgr.numBlocks ∧ (mgr.blocks b).refCount = 0

def pool (mgr : PagedAttentionManager ρ) : Pool Nat :=
  { refs := fun b => (mgr.blocks b).refCount, free := mgr.freeBlocks }

def tables (mgr : PagedAttentionManager ρ) : Multiset Nat :=
  references SequenceBlocks.blockIds mgr.seqBlocks

omit [DecidableEq ρ] in
theorem tables_eq (mgr : PagedAttentionManager ρ) : mgr.tables = (mgr.held : List Nat) := rfl

/-- Balanced against the tables and the references that were lost. -/
def Leaking (mgr : PagedAttentionManager ρ) (lost : Multiset Nat) : Prop :=
  Balanced (Finset.range mgr.numBlocks) mgr.pool (mgr.tables + lost)

omit [DecidableEq ρ] in
theorem refCountsExact_iff (leaking : mgr.Leaking lost) :
    mgr.RefCountsExact ↔ lost = 0 := by
  constructor
  · intro exact
    ext b
    have count := (leaking.counted b).symm.trans (exact.counted b)
    rw [Multiset.count_add, tables_eq, Multiset.coe_count] at count
    rw [Multiset.count_zero]
    omega
  · rintro rfl
    simp only [Leaking] at leaking
    rw [add_zero] at leaking
    refine ⟨fun b => ?_, leaking.distinct, fun b => ?_⟩
    · simpa [tables_eq, pool] using leaking.counted b
    · simpa [pool] using leaking.free_iff_zero b

/-! ### What the operations do to the counts -/

omit [DecidableEq ρ] in
theorem create_leaking {numBlocks blockSize : Int}
    (created : create numBlocks blockSize = .ok mgr) : mgr.Leaking 0 := by
  simp only [create] at created
  split at created
  · cases created
  · split at created
    · cases created
    · cases created
      have none : references SequenceBlocks.blockIds (∅ : Dict ρ SequenceBlocks) = 0 := rfl
      refine ⟨fun b => ?_, List.nodup_range, fun b => ?_, fun b member => ?_⟩
      · rfl
      · simp [pool, tables, Scheduler.PagedAttentionManager.init, none]
      · simp [tables, Scheduler.PagedAttentionManager.init, none] at member

theorem refs_update (blocks : Nat → KVCacheBlock) (bid : Nat) (block : KVCacheBlock) :
    (fun b => (Function.update blocks bid block b).refCount) =
      Function.update (fun b => (blocks b).refCount) bid block.refCount := by
  funext b
  by_cases here : b = bid <;> simp [here]

section

omit [DecidableEq ρ]

theorem releaseBlock_pool (bid : Nat) : (mgr.releaseBlock bid).pool = mgr.pool.release bid := by
  simp only [releaseBlock, Scheduler.PagedAttentionManager.releaseBlock, pool, Pool.release]
  by_cases last : (mgr.blocks bid).refCount - 1 ≤ 0 <;> simp [last, refs_update]

theorem releaseBlock_frame (bid : Nat) : (mgr.releaseBlock bid).seqBlocks = mgr.seqBlocks ∧
      (mgr.releaseBlock bid).numBlocks = mgr.numBlocks ∧
      (mgr.releaseBlock bid).blockSize = mgr.blockSize := by
  simp only [releaseBlock, Scheduler.PagedAttentionManager.releaseBlock]
  split <;> simp

theorem releaseBlocks_spec (bids : List Nat) (mgr : PagedAttentionManager ρ) :
    (bids.foldl releaseBlock mgr).pool = bids.foldl Pool.release mgr.pool ∧
      (bids.foldl releaseBlock mgr).seqBlocks = mgr.seqBlocks ∧
      (bids.foldl releaseBlock mgr).numBlocks = mgr.numBlocks ∧
      (bids.foldl releaseBlock mgr).blockSize = mgr.blockSize := by
  induction bids generalizing mgr with
  | nil => simp
  | cons bid rest ih => simpa [releaseBlock_pool, releaseBlock_frame] using ih (mgr.releaseBlock bid)

theorem retainBlocks_spec (bids : List Nat) (mgr : PagedAttentionManager ρ) :
    (bids.foldl retainBlock mgr).pool = bids.foldl Pool.retain mgr.pool ∧
      (bids.foldl retainBlock mgr).seqBlocks = mgr.seqBlocks ∧
      (bids.foldl retainBlock mgr).numBlocks = mgr.numBlocks ∧
      (bids.foldl retainBlock mgr).blockSize = mgr.blockSize ∧
      (bids.foldl retainBlock mgr).numTokens = mgr.numTokens := by
  induction bids generalizing mgr with
  | nil => simp
  | cons bid rest ih =>
    have one : (mgr.retainBlock bid).pool = mgr.pool.retain bid := by
      simp [retainBlock, pool, Pool.retain, refs_update]
    simp only [List.foldl_cons, ← one]
    exact ih (mgr.retainBlock bid)

end

theorem tables_set (sequenceId : ρ) (seq : SequenceBlocks) :
    references SequenceBlocks.blockIds (mgr.seqBlocks.set sequenceId seq) + mgr.table sequenceId =
      seq.blockIds + mgr.tables := by
  have written := references_set SequenceBlocks.blockIds mgr.seqBlocks sequenceId seq
  unfold table tables
  cases found : mgr.seqBlocks.get? sequenceId <;> simpa [found] using written

variable {seq : SequenceBlocks} {mgr' : PagedAttentionManager ρ} {sequenceId : ρ}

theorem Leaking.write (size : mgr'.numBlocks = mgr.numBlocks)
    (written : mgr'.seqBlocks = mgr.seqBlocks.set sequenceId seq)
    (balanced : Balanced (Finset.range mgr.numBlocks) mgr'.pool
      (seq.blockIds + (mgr.tables + lost))) : mgr'.Leaking (mgr.table sequenceId + lost) := by
  simp only [Leaking]
  rw [size, ← add_assoc, tables, written, tables_set, add_assoc]
  exact balanced

theorem Leaking.allocateSequence (leaking : mgr.Leaking lost) (sequenceId : ρ) (numTokens : Nat)
    (enough : mgr.blocksNeeded numTokens ≤ mgr.freeBlocks.length) :
    (mgr.allocateSequence sequenceId numTokens).2.Leaking (mgr.table sequenceId + lost) := by
  have found := mgr.findFragmentedBlocks_subperm (mgr.blocksNeeded numTokens)
  have once : (mgr.findFragmentedBlocks (mgr.blocksNeeded numTokens)).Nodup := by
    obtain ⟨blocks, perm, sub⟩ := found
    exact perm.nodup_iff.mp (leaking.distinct.sublist sub)
  have acquired := leaking.acquire once fun b member => found.subset member
  simp only [PagedAttentionManager.allocateSequence,
    Scheduler.PagedAttentionManager.allocateSequence, not_lt.mpr enough, if_false]
  refine Leaking.write rfl rfl ?_
  convert acquired using 1
  simp only [pool, Pool.acquire, Pool.mk.injEq, and_true]
  funext b
  split <;> rfl

theorem Leaking.copyOnWrite (leaking : mgr.Leaking lost) {sourceId : ρ} {source : SequenceBlocks}
    (found : mgr.seqBlocks.get? sourceId = some source)
    (destId : ρ) : (mgr.copyOnWrite sourceId destId).Leaking (mgr.table destId + lost) := by
  have held : ∀ b ∈ source.blockIds, b ∈ mgr.tables + lost := fun b member =>
    Multiset.mem_add.mpr (.inl (mem_references_of_get? found member))
  have retained := leaking.retainAll source.blockIds held
  simp only [PagedAttentionManager.copyOnWrite, found]
  obtain ⟨pool, seqs, size, _, _⟩ :=
    retainBlocks_spec source.blockIds (mgr.setSequence destId source)
  exact Leaking.write size seqs (pool ▸ retained)

theorem Leaking.freeSequence (leaking : mgr.Leaking lost)
    (sequenceId : ρ) : (mgr.freeSequence sequenceId).Leaking lost := by
  simp only [PagedAttentionManager.freeSequence]
  cases found : mgr.seqBlocks.get? sequenceId with
  | none => exact leaking
  | some seq =>
    obtain ⟨pool, seqs, size, _⟩ := releaseBlocks_spec seq.blockIds
      { mgr with seqBlocks := mgr.seqBlocks.filterKeys fun k => decide (k ≠ sequenceId) }
    simp only [Leaking] at *
    rw [tables, references_drop _ _ found, add_assoc] at leaking
    simp only [tables, pool, seqs, size]
    exact leaking.releaseAll seq.blockIds

/-! ### Appending a token -/

theorem Leaking.exchange (mgr : PagedAttentionManager ρ) (gone came : Multiset Nat)
    {held : Multiset Nat} (size : mgr'.numBlocks = mgr.numBlocks)
    (written : mgr'.seqBlocks = mgr.seqBlocks.set sequenceId seq)
    (table : gone + seq.blockIds = came + mgr.table sequenceId)
    (balanced : Balanced (Finset.range mgr.numBlocks) mgr'.pool held)
    (exchanged : gone + held = came + (mgr.tables + lost)) : mgr'.Leaking lost := by
  have tables := mgr.tables_set sequenceId seq
  simp only [Leaking]
  rw [size, PagedAttentionManager.tables, written]
  convert balanced using 1
  -- all these are equations between numbers of occurrences
  ext b
  have table := congrArg (Multiset.count b) table
  have tables := congrArg (Multiset.count b) tables
  have exchanged := congrArg (Multiset.count b) exchanged
  simp only [Multiset.count_add] at *
  omega

theorem table_of_get?
    (present : mgr.seqBlocks.get? sequenceId = some seq) : mgr.table sequenceId = seq.blockIds := by
  simp [table, present]

theorem Leaking.setTokens (leaking : mgr.Leaking lost)
    (present : mgr.seqBlocks.get? sequenceId = some seq) (numTokens : Nat) :
    (mgr.setSequence sequenceId { seq with numTokens }).Leaking lost :=
  Leaking.exchange mgr 0 0 rfl rfl (by rw [table_of_get? present]) leaking rfl

theorem Leaking.unshareBlock (leaking : mgr.Leaking lost) (seq' : SequenceBlocks)
    (present : mgr.seqBlocks.get? sequenceId = some seq) {lastBid newBid : Nat}
    (last : seq.blockIds.getLast? = some lastBid) (shared : 1 < (mgr.blocks lastBid).refCount)
    (unshared : mgr.unshareBlock lastBid = (.ok newBid, mgr'))
    (replaced : seq'.blockIds = seq.blockIds.dropLast ++ [newBid]) :
    (mgr'.setSequence sequenceId seq').Leaking lost := by
  have table : seq.blockIds = seq.blockIds.dropLast ++ [lastBid] :=
    (List.dropLast_append_getLast? lastBid last).symm
  simp only [PagedAttentionManager.unshareBlock, not_le.mpr shared, if_false] at unshared
  split at unshared
  · cases unshared
  next top =>
    cases unshared
    have free : mgr.pool.free = mgr.freeBlocks.dropLast ++ [newBid] :=
      (List.dropLast_append_getLast? newBid top).symm
    have inside : lastBid ∈ mgr.tables + lost := by
      refine Multiset.mem_add.mpr (.inl (mem_references_of_get? present ?_))
      exact List.mem_of_getLast? last
    -- the copy is a free block, hence not the shared one
    have apart : lastBid ≠ newBid := by
      rintro rfl
      exact ((leaking.free_iff lastBid).mp (by simp [free])).2 inside
    have popped := leaking.pop free
    rw [← Multiset.cons_erase (Multiset.mem_cons_of_mem inside)] at popped
    have released := popped.release
    refine Leaking.exchange mgr {lastBid} {newBid} rfl rfl ?_ (by
      convert released using 1
      have stays : ¬ (mgr.blocks lastBid).refCount - 1 ≤ 0 := by omega
      simp [setSequence, pool, Pool.release, apart, stays, refs_update]) ?_
    · rw [table_of_get? present, replaced, table]
      simp only [← Multiset.coe_add, List.dropLast_concat, Multiset.coe_singleton]
      ext b
      simp only [Multiset.count_add]
      omega
    · rw [Multiset.singleton_add, Multiset.cons_erase (Multiset.mem_cons_of_mem inside),
        Multiset.singleton_add]

omit [DecidableEq ρ] in
theorem unshareBlock_raised {bid : Nat} {raised : Raised}
    (failed : mgr.unshareBlock bid = (.error raised, mgr')) : mgr' = mgr := by
  simp only [PagedAttentionManager.unshareBlock] at failed
  split at failed
  · cases failed
  · split at failed <;> cases failed
    rfl

theorem Leaking.placeToken (leaking : mgr.Leaking lost)
    (present : mgr.seqBlocks.get? sequenceId = some seq) (lastBid : Nat) :
    (mgr.placeToken sequenceId seq lastBid).2.Leaking lost := by
  simp only [PagedAttentionManager.placeToken]
  split
  · exact leaking
  · split
    · exact leaking
    next newBid top =>
      have free : mgr.pool.free = mgr.freeBlocks.dropLast ++ [newBid] :=
        (List.dropLast_append_getLast? newBid top).symm
      have popped := leaking.pop free
      refine Leaking.exchange mgr 0 {newBid} rfl rfl ?_ (by
        convert popped using 1
        simp [pool, refs_update]) ?_
      · rw [table_of_get? present, ← Multiset.coe_add, Multiset.coe_singleton, zero_add, add_comm]
      · rw [zero_add, Multiset.singleton_add]

theorem Leaking.appendToken [ToString ρ] (leaking : mgr.Leaking lost)
    (sequenceId : ρ) : (mgr.appendToken sequenceId).2.Leaking lost := by
  simp only [PagedAttentionManager.appendToken]
  cases present : mgr.seqBlocks.get? sequenceId with
  | none => exact leaking
  | some found =>
    have counted := leaking.setTokens present (found.numTokens + 1)
    have present' : (mgr.setSequence sequenceId { found with
        numTokens := found.numTokens + 1 }).seqBlocks.get? sequenceId =
          some { found with numTokens := found.numTokens + 1 } := by simp [setSequence]
    dsimp only
    cases last : found.blockIds.getLast? with
    | none => exact counted
    | some lastBid =>
      dsimp only
      split
      next shared =>
        split
        next raised mgr' unshared =>
          -- the sequence keeps the token that it counted
          rw [unshareBlock_raised unshared]
          exact counted
        next newBid mgr' unshared =>
          have copied := counted.unshareBlock { found with
            blockIds := found.blockIds.dropLast ++ [newBid]
            numTokens := found.numTokens + 1 } present' last shared unshared rfl
          exact copied.placeToken (by simp [setSequence]) newBid
      next => exact counted.placeToken present' lastBid

end PagedAttentionManager

/-! ### Runs -/

open PagedAttentionManager

/-- The table that a call writes over without releasing its blocks. -/
def overwritten (mgr : PagedAttentionManager ρ) : Action ρ → List Nat
  | .allocateSequence sequenceId numTokens =>
    if mgr.freeBlocks.length < mgr.blocksNeeded numTokens then [] else mgr.table sequenceId
  | .copyOnWrite sourceId destId => if mgr.Live sourceId then mgr.table destId else []
  | _ => []

/-- A call loses no references: `allocate_sequence` raises, or nothing is listed under its id;
`copy_on_write` has no live source, or nothing is listed under its destination. -/
def KeepsReferences (mgr : PagedAttentionManager ρ) : Action ρ → Prop
  | .allocateSequence sequenceId numTokens =>
    mgr.freeBlocks.length < mgr.blocksNeeded numTokens ∨ mgr.table sequenceId = []
  | .copyOnWrite sourceId destId => ¬ mgr.Live sourceId ∨ mgr.table destId = []
  | _ => True

instance (mgr : PagedAttentionManager ρ) (act : Action ρ) : Decidable (KeepsReferences mgr act) := by
  cases act <;> unfold KeepsReferences <;> infer_instance

theorem keepsReferences_iff (act : Action ρ) :
    KeepsReferences mgr act ↔ overwritten mgr act = [] := by
  cases act <;> simp [KeepsReferences, overwritten, or_iff_not_imp_left]

variable [ToString ρ]

/-- A call loses the references of the table that it overwrites, and no other. -/
theorem PagedAttentionManager.Leaking.step (leaking : mgr.Leaking lost)
    (act : Action ρ) : (exec mgr act).Leaking (overwritten mgr act + lost) := by
  cases act with
  | allocateSequence sequenceId numTokens =>
    by_cases few : mgr.freeBlocks.length < mgr.blocksNeeded numTokens
    · have raised : mgr.toPagedAttentionManager.allocateSequence sequenceId numTokens = none := by
        simp [Scheduler.PagedAttentionManager.allocateSequence, few]
      simpa [exec, overwritten, few, PagedAttentionManager.allocateSequence, raised] using leaking
    · have allocated := leaking.allocateSequence sequenceId numTokens (not_lt.mp few)
      simpa [exec, overwritten, few] using allocated
  | appendToken sequenceId => simpa [exec, overwritten] using leaking.appendToken sequenceId
  | copyOnWrite sourceId destId =>
    cases found : mgr.seqBlocks.get? sourceId with
    | none =>
      have dead : ¬ mgr.Live sourceId := by simp [Live, found]
      simpa [exec, overwritten, dead, PagedAttentionManager.copyOnWrite, found] using leaking
    | some source =>
      have live : mgr.Live sourceId := by simp [Live, found]
      simpa [exec, overwritten, live] using leaking.copyOnWrite found destId
  | freeSequence sequenceId => simpa [exec, overwritten] using leaking.freeSequence sequenceId

theorem exact_of_reaches (reached : (machine ρ).Reaches KeepsReferences mgr) : mgr.Leaking 0 := by
  apply Machine.Reaches.invariant (I := fun mgr => mgr.Leaking 0) _ _ reached
  · rintro mgr ⟨numBlocks, blockSize, created⟩
    exact create_leaking created
  · intro mgr act leaking _ keeps
    have stepped := leaking.step act
    rwa [(keepsReferences_iff act).mp keeps] at stepped

omit [ToString ρ] in
theorem freeSequence_frame (mgr : PagedAttentionManager ρ) (sequenceId : ρ) :
    (mgr.freeSequence sequenceId).numBlocks = mgr.numBlocks ∧
      ∀ other, (mgr.freeSequence sequenceId).Live other ↔ mgr.Live other ∧ other ≠ sequenceId := by
  simp only [PagedAttentionManager.freeSequence]
  cases found : mgr.seqBlocks.get? sequenceId with
  | none =>
    refine ⟨rfl, fun other => ⟨fun live => ⟨live, ?_⟩, And.left⟩⟩
    rintro rfl
    simp [Live, found] at live
  | some seq =>
    obtain ⟨_, seqs, size, _⟩ := releaseBlocks_spec seq.blockIds
      { mgr with seqBlocks := mgr.seqBlocks.filterKeys fun k => decide (k ≠ sequenceId) }
    refine ⟨size, fun other => ?_⟩
    simp only [Live]
    rw [seqs, Dict.get?_filterKeys]
    by_cases same : other = sequenceId <;> simp [same]

omit [ToString ρ] in
theorem free_all (leaking : mgr.Leaking 0) (order : List ρ)
    (all : ∀ sequenceId, mgr.Live sequenceId → sequenceId ∈ order) :
    (order.foldl PagedAttentionManager.freeSequence mgr).freeBlocks.Perm
      (List.range mgr.numBlocks) := by
  induction order generalizing mgr with
  | nil =>
    have empty : mgr.tables + 0 = 0 := by
      rw [add_zero]
      refine Multiset.eq_zero_of_forall_notMem fun b member => ?_
      obtain ⟨sequenceId, seq, found, _⟩ := mem_references_iff.mp member
      exact List.not_mem_nil (all sequenceId (by simp [Live, found]))
    refine (List.perm_ext_iff_of_nodup leaking.distinct List.nodup_range).mpr fun b => ?_
    rw [leaking.free_iff, empty]
    simp
  | cons sequenceId rest ih =>
    obtain ⟨size, live⟩ := freeSequence_frame mgr sequenceId
    have freed := ih (leaking.freeSequence sequenceId) fun other alive =>
      (List.mem_cons.mp (all other ((live other).mp alive).1)).resolve_left ((live other).mp alive).2
    rwa [size] at freed

/-- **Reference counts.** In every run whose calls overwrite no table of a live sequence, each
count is the number of occurrences in the tables, the free blocks are those with count zero, and
freeing the live sequences in any order frees all blocks. The condition is exact: a call keeps
the counts right if and only if it meets it. -/
theorem refCounts_exact (reached : (machine ρ).Reaches KeepsReferences mgr) : mgr.RefCountsExact ∧
      (∀ order : List ρ, (∀ sequenceId, mgr.Live sequenceId → sequenceId ∈ order) →
        (order.foldl PagedAttentionManager.freeSequence mgr).freeBlocks.Perm
          (List.range mgr.numBlocks)) ∧
      ∀ act, (exec mgr act).RefCountsExact ↔ KeepsReferences mgr act := by
  have leaking := exact_of_reaches reached
  refine ⟨(refCountsExact_iff leaking).mpr rfl, free_all leaking, fun act => ?_⟩
  rw [refCountsExact_iff (leaking.step act), keepsReferences_iff]
  simp

/-- Two blocks of four tokens; `"a"` is shared with `"b"`, then writes and is freed. -/
theorem refCounts_exact_shared :
    let mgr := [Action.allocateSequence "a" 3, .copyOnWrite "a" "b", .appendToken "a",
      .freeSequence "a"].foldl (machine String).exec
        { Scheduler.PagedAttentionManager.init 2 4 with numTokens := fun _ => 0 }
    mgr.table "b" = [0] ∧ mgr.freeBlocks = [1] ∧ mgr.RefCountsExact := by
  have fresh : (machine String).init
      { Scheduler.PagedAttentionManager.init 2 4 with numTokens := fun _ => 0 } := ⟨2, 4, rfl⟩
  refine ⟨by decide, by decide, (refCounts_exact (.of_follows (.init fresh) _ ?_)).1⟩
  exact ⟨trivial, by decide, trivial, by decide, trivial, by decide, trivial, by decide, trivial⟩

/-- Allocating again for a live sequence: block 0 keeps its reference, and no table lists it. -/
theorem reallocation_leaks : ¬ ∀ mgr, (machine String).Reachable mgr → mgr.RefCountsExact := by
  intro all
  have fresh : (machine String).init
      { Scheduler.PagedAttentionManager.init 2 4 with numTokens := fun _ => 0 } := ⟨2, 4, rfl⟩
  have reached : (machine String).Reachable _ := .of_follows (.init fresh)
    [.allocateSequence "a" 4, .allocateSequence "a" 4] ⟨trivial, trivial, trivial, trivial, trivial⟩
  have count := (all _ reached).counted 0
  revert count
  decide

end DistLLM.Paged
