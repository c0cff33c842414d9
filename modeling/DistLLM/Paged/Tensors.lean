import DistLLM.Paged.References

/-!
# The block manager with its tensors

Each block with the contents of its key and value tensors. New tensors are zero, and the forward
pass writes into those of allocated blocks. Moving tensors between devices changes no contents.
-/
namespace DistLLM.Paged

open DistLLM.Library DistLLM.Scheduler

variable {ρ τ : Type} [DecidableEq ρ]

/-- `kvCache` stands for the `key_cache` and `value_cache` of each block. -/
structure CachedManager (ρ τ : Type) where
  base : PagedAttentionManager ρ
  kvCache : Nat → Option τ

namespace CachedManager

variable [Zero τ] (mgr : CachedManager ρ τ)

/-- The tensors of a block that is taken from the free list: a block that is not allocated gets
new ones. -/
def provided (bid : Nat) : Option τ :=
  if (mgr.base.blocks bid).isAllocated then mgr.kvCache bid else some 0

def allocateSequence (sequenceId : ρ) (numTokens : Nat) :
    Except Raised (List Nat) × CachedManager ρ τ :=
  match mgr.base.allocateSequence sequenceId numTokens with
  | (.ok blockIds, base) =>
    (.ok blockIds, { base
                     kvCache := fun b => if b ∈ blockIds then mgr.provided b else mgr.kvCache b })
  | (.error raised, base) => (.error raised, { mgr with base })

omit [Zero τ] in
def releaseBlock (mgr : CachedManager ρ τ) (bid : Nat) : CachedManager ρ τ :=
  { base := mgr.base.releaseBlock bid
    kvCache :=
      if (mgr.base.blocks bid).refCount - 1 ≤ 0 then Function.update mgr.kvCache bid none
      else mgr.kvCache }

def freeSequence (mgr : CachedManager ρ τ) (sequenceId : ρ) : CachedManager ρ τ :=
  match mgr.base.seqBlocks.get? sequenceId with
  | none => mgr
  | some seq =>
    seq.blockIds.foldl releaseBlock
      { mgr with
        base := { mgr.base with
          seqBlocks := mgr.base.seqBlocks.filterKeys fun k => decide (k ≠ sequenceId) } }

/-- `_unshare_block`. The copy has the contents of the block. -/
def unshareBlock (bid : Nat) : Except Raised Nat × CachedManager ρ τ :=
  match mgr.base.unshareBlock bid with
  | (.ok newBid, base) =>
    (.ok newBid, { base
                   kvCache :=
                     if (mgr.base.blocks bid).refCount ≤ 1 then mgr.kvCache
                     else Function.update mgr.kvCache newBid
                       ((mgr.kvCache bid).or (mgr.provided newBid)) })
  | (.error raised, base) => (.error raised, { mgr with base })

def setSequence (sequenceId : ρ) (seq : SequenceBlocks) : CachedManager ρ τ :=
  { mgr with
    base := mgr.base.setSequence sequenceId seq }

def placeToken (sequenceId : ρ) (seq : SequenceBlocks) (lastBid : Nat) :
    Except Raised Nat × CachedManager ρ τ :=
  let placed := mgr.base.placeToken sequenceId seq lastBid
  (placed.1, { base := placed.2
               kvCache :=
                 if mgr.base.numTokens lastBid < mgr.base.blockSize then mgr.kvCache
                 else
                   match mgr.base.freeBlocks.getLast? with
                   | none => mgr.kvCache
                   | some newBid => Function.update mgr.kvCache newBid (mgr.provided newBid) })

def appendToken [ToString ρ] (sequenceId : ρ) : Except Raised Nat × CachedManager ρ τ :=
  match mgr.base.seqBlocks.get? sequenceId with
  | none => (.error (.valueError s!"Unknown sequence: {sequenceId}"), mgr)
  | some found =>
    let seq := { found with numTokens := found.numTokens + 1 }
    let counted := mgr.setSequence sequenceId seq
    match seq.blockIds.getLast? with
    | none => (.error (.indexError "list index out of range"), counted)
    | some lastBid =>
      if 1 < (mgr.base.blocks lastBid).refCount then
        match counted.unshareBlock lastBid with
        | (.error raised, mgr') => (.error raised, mgr')
        | (.ok newBid, mgr') =>
          let seq := { seq with blockIds := seq.blockIds.dropLast ++ [newBid] }
          (mgr'.setSequence sequenceId seq).placeToken sequenceId seq newBid
      else counted.placeToken sequenceId seq lastBid

def copyOnWrite (sourceId destId : ρ) : CachedManager ρ τ :=
  { mgr with
    base := mgr.base.copyOnWrite sourceId destId }

def write (bid : Nat) (content : τ) : CachedManager ρ τ :=
  { mgr with
    kvCache := Function.update mgr.kvCache bid ((mgr.kvCache bid).map fun _ => content) }

/-- What a call leaves, whether it returns or raises. -/
def exec [ToString ρ] : Action ρ → CachedManager ρ τ
  | .allocateSequence sequenceId numTokens => (mgr.allocateSequence sequenceId numTokens).2
  | .appendToken sequenceId => (mgr.appendToken sequenceId).2
  | .copyOnWrite sourceId destId => mgr.copyOnWrite sourceId destId
  | .freeSequence sequenceId => mgr.freeSequence sequenceId

section Below

omit [DecidableEq ρ] [Zero τ] in
theorem releaseBlocks_below (bids : List Nat) (mgr : CachedManager ρ τ) :
    (bids.foldl releaseBlock mgr).base =
      bids.foldl PagedAttentionManager.releaseBlock mgr.base := by
  induction bids generalizing mgr with
  | nil => rfl
  | cons bid rest ih => exact ih (mgr.releaseBlock bid)

theorem exec_below [ToString ρ] (act : Action ρ) : (mgr.exec act).base = Paged.exec mgr.base act := by
  cases act with
  | allocateSequence sequenceId numTokens =>
    simp only [exec, allocateSequence, Paged.exec]
    split <;> rename_i allocated <;> simp [allocated]
  | copyOnWrite => rfl
  | freeSequence sequenceId =>
    simp only [exec, freeSequence, Paged.exec, PagedAttentionManager.freeSequence]
    cases mgr.base.seqBlocks.get? sequenceId with
    | none => rfl
    | some seq => exact releaseBlocks_below _ _
  | appendToken sequenceId =>
    simp only [exec, appendToken, Paged.exec, PagedAttentionManager.appendToken]
    cases mgr.base.seqBlocks.get? sequenceId with
    | none => rfl
    | some found =>
      dsimp only
      cases found.blockIds.getLast? with
      | none => rfl
      | some lastBid =>
        dsimp only
        split
        · simp only [setSequence, unshareBlock]
          rcases (mgr.base.setSequence sequenceId { found with
            numTokens := found.numTokens + 1 }).unshareBlock lastBid with ⟨_ | _, mgr'⟩ <;> rfl
        · rfl

end Below

/-! ### Blocks with and without tensors -/

variable {mgr}

/-- The allocated blocks are those that have tensors, and those that are referred to. -/
structure Backed (mgr : CachedManager ρ τ) : Prop where
  tensors : ∀ b, (mgr.kvCache b).isSome = (mgr.base.blocks b).isAllocated
  referred : ∀ b, (mgr.base.blocks b).isAllocated = true ↔ 0 < (mgr.base.blocks b).refCount

omit [DecidableEq ρ] in
theorem Backed.provided_isSome (backed : mgr.Backed) (b : Nat) :
    (mgr.provided b).isSome = true := by
  unfold provided
  split
  next allocated => exact (backed.tensors b).trans allocated
  next => rfl

section

omit [DecidableEq ρ] [Zero τ]

variable (backed : mgr.Backed)

include backed

theorem Backed.update {mgr' : CachedManager ρ τ} {bid : Nat} {block : KVCacheBlock}
    {content : Option τ} (blocks : mgr'.base.blocks = Function.update mgr.base.blocks bid block)
    (kvCache : mgr'.kvCache = Function.update mgr.kvCache bid content)
    (tensors : content.isSome = block.isAllocated)
    (referred : block.isAllocated = true ↔ 0 < block.refCount) : mgr'.Backed := by
  constructor
  · intro b
    rw [blocks, kvCache]
    by_cases here : b = bid
    · subst here
      simpa using tensors
    · simpa [here] using backed.tensors b
  · intro b
    rw [blocks]
    by_cases here : b = bid
    · subst here
      simpa using referred
    · simpa [here] using backed.referred b

theorem Backed.recount {mgr' : CachedManager ρ τ} {bid : Nat} {refCount : Int}
    (blocks : mgr'.base.blocks =
      Function.update mgr.base.blocks bid { mgr.base.blocks bid with refCount })
    (kvCache : mgr'.kvCache = mgr.kvCache)
    (positive : 0 < (mgr.base.blocks bid).refCount ↔ 0 < refCount) : mgr'.Backed :=
  backed.update blocks (kvCache.trans (Function.update_eq_self bid _).symm) (backed.tensors bid)
    ((backed.referred bid).trans positive)

theorem Backed.releaseBlock (bid : Nat) : (mgr.releaseBlock bid).Backed := by
  by_cases last : (mgr.base.blocks bid).refCount - 1 ≤ 0
  · have blocks : (mgr.releaseBlock bid).base.blocks =
        Function.update mgr.base.blocks bid {} := by
      simp [CachedManager.releaseBlock, PagedAttentionManager.releaseBlock,
        Scheduler.PagedAttentionManager.releaseBlock, last]
    have kvCache : (mgr.releaseBlock bid).kvCache = Function.update mgr.kvCache bid none := by
      simp [CachedManager.releaseBlock, last]
    exact backed.update blocks kvCache rfl (by simp)
  · have blocks : (mgr.releaseBlock bid).base.blocks = Function.update mgr.base.blocks bid
        { mgr.base.blocks bid with refCount := (mgr.base.blocks bid).refCount - 1 } := by
      simp [CachedManager.releaseBlock, PagedAttentionManager.releaseBlock,
        Scheduler.PagedAttentionManager.releaseBlock, last]
    exact backed.recount blocks (by simp [CachedManager.releaseBlock, last]) (by omega)

theorem Backed.releaseBlocks (bids : List Nat) :
    (bids.foldl CachedManager.releaseBlock mgr).Backed := by
  induction bids generalizing mgr with
  | nil => exact backed
  | cons bid rest ih => exact ih (backed.releaseBlock bid)

theorem Backed.retainBlocks (bids : List Nat)
    (held : ∀ b ∈ bids, 0 < (mgr.base.blocks b).refCount) :
    Backed { mgr with base := bids.foldl PagedAttentionManager.retainBlock mgr.base } := by
  induction bids generalizing mgr with
  | nil => exact backed
  | cons bid rest ih =>
    have here := held bid List.mem_cons_self
    have retained : Backed { mgr with base := mgr.base.retainBlock bid } :=
      backed.recount rfl rfl ⟨fun _ => by omega, fun _ => here⟩
    apply ih retained
    · intro b later
      have before := held b (List.mem_cons_of_mem _ later)
      by_cases same : b = bid
      · subst same
        simp only [PagedAttentionManager.retainBlock, Function.update_self]
        omega
      · simpa [PagedAttentionManager.retainBlock, same] using before

end

theorem Backed.allocateSequence (backed : mgr.Backed) (sequenceId : ρ) (numTokens : Nat) :
    (mgr.allocateSequence sequenceId numTokens).2.Backed := by
  unfold CachedManager.allocateSequence
  cases allocated : mgr.base.allocateSequence sequenceId numTokens with
  | mk result base =>
    unfold PagedAttentionManager.allocateSequence
      Scheduler.PagedAttentionManager.allocateSequence at allocated
    by_cases few : mgr.base.freeBlocks.length < mgr.base.blocksNeeded numTokens
    · rw [if_pos few] at allocated
      cases allocated
      exact backed
    · rw [if_neg few] at allocated
      cases allocated
      constructor
      · intro b
        dsimp only
        split
        · simpa using backed.provided_isSome b
        · exact backed.tensors b
      · intro b
        dsimp only
        split
        · simp
        · exact backed.referred b

omit [DecidableEq ρ] in
theorem Backed.unshareBlock (backed : mgr.Backed) (bid : Nat)
    (free : ∀ b ∈ mgr.base.freeBlocks, (mgr.base.blocks b).refCount = 0) :
    (mgr.unshareBlock bid).2.Backed := by
  unfold CachedManager.unshareBlock
  cases unshared : mgr.base.unshareBlock bid with
  | mk result base =>
    unfold PagedAttentionManager.unshareBlock at unshared
    split at unshared
    next alone =>
      cases unshared
      dsimp only
      rw [if_pos alone]
      exact backed
    next shared =>
      split at unshared
      · cases unshared
        exact backed
      next newBid top =>
        cases unshared
        dsimp only
        rw [if_neg shared]
        have none_left := free newBid (List.mem_of_getLast? top)
        have apart : bid ≠ newBid := by
          rintro rfl
          omega
        have copied : Backed
            { base := { mgr.base with blocks := Function.update mgr.base.blocks newBid ⟨true, 1⟩ }
              kvCache := Function.update mgr.kvCache newBid
                ((mgr.kvCache bid).or (mgr.provided newBid)) } := by
          refine backed.update rfl rfl ?_ (by simp)
          simp [backed.provided_isSome newBid]
        refine copied.recount rfl rfl ?_
        dsimp only
        rw [Function.update_of_ne apart]
        omega

theorem Backed.placeToken (backed : mgr.Backed) (sequenceId : ρ) (seq : SequenceBlocks)
    (lastBid : Nat) : (mgr.placeToken sequenceId seq lastBid).2.Backed := by
  unfold CachedManager.placeToken PagedAttentionManager.placeToken
  split
  · exact ⟨backed.tensors, backed.referred⟩
  · cases mgr.base.freeBlocks.getLast? with
    | none => exact backed
    | some newBid => exact backed.update rfl rfl (backed.provided_isSome newBid) (by simp)

theorem Backed.appendToken [ToString ρ] (backed : mgr.Backed) (sequenceId : ρ)
    (free : ∀ b ∈ mgr.base.freeBlocks, (mgr.base.blocks b).refCount = 0) :
    (mgr.appendToken sequenceId).2.Backed := by
  unfold CachedManager.appendToken
  cases mgr.base.seqBlocks.get? sequenceId with
  | none => exact backed
  | some found =>
    have counted : (mgr.setSequence sequenceId
        { found with numTokens := found.numTokens + 1 }).Backed :=
      ⟨backed.tensors, backed.referred⟩
    dsimp only
    cases found.blockIds.getLast? with
    | none => exact counted
    | some lastBid =>
      dsimp only
      split
      · have copied := counted.unshareBlock lastBid free
        split
        next raised mgr' unshared => exact unshared ▸ copied
        next newBid mgr' unshared =>
          rw [unshared] at copied
          apply Backed.placeToken
          exact ⟨copied.tensors, copied.referred⟩
      · exact counted.placeToken sequenceId _ lastBid

theorem Backed.exec [ToString ρ] {lost : Multiset Nat} (backed : mgr.Backed)
    (leaking : mgr.base.Leaking lost) (act : Action ρ) : (mgr.exec act).Backed := by
  cases act with
  | allocateSequence sequenceId numTokens => exact backed.allocateSequence sequenceId numTokens
  | appendToken sequenceId =>
    exact backed.appendToken sequenceId fun b member => ((leaking.free_iff_zero b).mp member).2
  | copyOnWrite sourceId destId =>
    simp only [CachedManager.exec, CachedManager.copyOnWrite, PagedAttentionManager.copyOnWrite]
    cases found : mgr.base.seqBlocks.get? sourceId with
    | none => exact backed
    | some source =>
      have written : (mgr.setSequence destId source).Backed := ⟨backed.tensors, backed.referred⟩
      refine written.retainBlocks source.blockIds fun b member => ?_
      -- a block in a table is counted
      have held : b ∈ mgr.base.tables + lost :=
        Multiset.mem_add.mpr (.inl (RefCounts.mem_references_of_get? found member))
      have count := leaking.counted b
      have positive := Multiset.count_pos.mpr held
      simp only [PagedAttentionManager.pool] at count
      simp only [setSequence, PagedAttentionManager.setSequence]
      omega
  | freeSequence sequenceId =>
    simp only [CachedManager.exec, CachedManager.freeSequence]
    cases mgr.base.seqBlocks.get? sequenceId with
    | none => exact backed
    | some seq =>
      apply Backed.releaseBlocks
      exact ⟨backed.tensors, backed.referred⟩

end CachedManager

end DistLLM.Paged
