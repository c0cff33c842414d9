import DistLLM.Paged.Capacity

/-!
# Appends that raise

`append_token` counts the token of the sequence before it looks for room, and puts a copy in the
place of a shared block before it looks for a further one. So a call for a known sequence that
raises never leaves the manager as it was, and atomic are exactly the calls that need not raise.
-/
namespace DistLLM.Paged

open DistLLM.Library DistLLM.Scheduler

variable {ρ : Type} [DecidableEq ρ]

namespace PagedAttentionManager

variable {mgr : PagedAttentionManager ρ}

/-- What the counters keep to in all runs. -/
structure Bounded (mgr : PagedAttentionManager ρ) : Prop where
  positive : 0 < mgr.blockSize
  fits : ∀ b, mgr.numTokens b ≤ mgr.blockSize

/-- The free blocks that the next token takes: one for the copy of a shared last block, and one
more after a full last block. -/
def blocksForToken (mgr : PagedAttentionManager ρ) (lastBid : Nat) : Nat :=
  (if 1 < (mgr.blocks lastBid).refCount then 1 else 0) +
    if mgr.numTokens lastBid = mgr.blockSize then 1 else 0

def HasRoom (mgr : PagedAttentionManager ρ) (seq : SequenceBlocks) : Prop :=
  ∃ lastBid, seq.blockIds.getLast? = some lastBid ∧
    mgr.blocksForToken lastBid ≤ mgr.freeBlocks.length

instance (seq : SequenceBlocks) : Decidable (mgr.HasRoom seq) :=
  match last : seq.blockIds.getLast? with
  | none => .isFalse (by simp [HasRoom, last])
  | some lastBid =>
    decidable_of_iff (mgr.blocksForToken lastBid ≤ mgr.freeBlocks.length) (by simp [HasRoom, last])

theorem getLast?_isSome_iff {blocks : List Nat} :
    (∃ bid, blocks.getLast? = some bid) ↔ 1 ≤ blocks.length := by
  cases blocks with
  | nil => simp
  | cons b rest => simp [List.getLast?_cons]

omit [DecidableEq ρ] in
theorem unshareBlock_isOk_iff (mgr : PagedAttentionManager ρ) {bid : Nat}
    (shared : 1 < (mgr.blocks bid).refCount) :
    (mgr.unshareBlock bid).1.isOk = true ↔ 1 ≤ mgr.freeBlocks.length := by
  rw [unshareBlock, if_neg (not_le.mpr shared), ← getLast?_isSome_iff]
  cases mgr.freeBlocks.getLast? with
  | none => simp [Except.isOk, Except.toBool]
  | some newBid => simp [Except.isOk, Except.toBool]

theorem placeToken_isOk_iff (mgr : PagedAttentionManager ρ) (sequenceId : ρ)
    (seq : SequenceBlocks) {lastBid : Nat} (fits : mgr.numTokens lastBid ≤ mgr.blockSize) :
    (mgr.placeToken sequenceId seq lastBid).1.isOk = true ↔
      (if mgr.numTokens lastBid = mgr.blockSize then 1 else 0) ≤ mgr.freeBlocks.length := by
  simp only [placeToken]
  by_cases full : mgr.numTokens lastBid = mgr.blockSize
  · rw [if_neg full.not_lt, if_pos full, ← getLast?_isSome_iff]
    cases mgr.freeBlocks.getLast? with
    | none => simp [Except.isOk, Except.toBool]
    | some newBid => simp [Except.isOk, Except.toBool]
  · rw [if_pos (fits.lt_of_ne full), if_neg full]
    simp [Except.isOk, Except.toBool]

variable {sequenceId : ρ}

theorem appendToken_isOk_iff [ToString ρ] (bounded : mgr.Bounded) {found : SequenceBlocks}
    (present : mgr.seqBlocks.get? sequenceId = some found) :
    (mgr.appendToken sequenceId).1.isOk = true ↔ mgr.HasRoom found := by
  simp only [appendToken, present, HasRoom, blocksForToken]
  cases last : found.blockIds.getLast? with
  | none => simp [Except.isOk, Except.toBool]
  | some lastBid =>
    simp only [Option.some.injEq, exists_eq_left']
    generalize counting : mgr.setSequence sequenceId
      { found with numTokens := found.numTokens + 1 } = counted
    have same : counted.blocks = mgr.blocks ∧ counted.freeBlocks = mgr.freeBlocks ∧
        counted.numTokens = mgr.numTokens ∧ counted.blockSize = mgr.blockSize := by
      subst counting
      exact ⟨rfl, rfl, rfl, rfl⟩
    obtain ⟨blocks, free, tokens, size⟩ := same
    by_cases shared : 1 < (mgr.blocks lastBid).refCount
    · simp only [if_pos shared]
      rw [← blocks] at shared
      have copies := unshareBlock_isOk_iff counted shared
      cases unshared : counted.unshareBlock lastBid with
      | mk result mgr' =>
        rw [unshared, free] at copies
        cases result with
        | error raised =>
          have none_free : ¬ 1 ≤ mgr.freeBlocks.length := by
            simpa [Except.isOk, Except.toBool] using copies
          simp only [Except.isOk, Except.toBool, Bool.false_eq_true, false_iff]
          omega
        | ok newBid =>
          -- the copy takes one block, and has as many tokens as the shared one
          obtain ⟨popped, _, size', tokens'⟩ := unshareBlock_ok shared unshared
          have copied : mgr'.numTokens newBid = mgr.numTokens lastBid := by
            rw [tokens', Function.update_self, tokens]
          have left : mgr.freeBlocks.length = mgr'.freeBlocks.length + 1 := by
            rw [← free, popped, List.length_append, List.length_singleton]
          rw [placeToken_isOk_iff]
          · simp only [setSequence, copied, size', size, left]
            omega
          · simp only [setSequence, copied, size', size]
            exact bounded.fits lastBid
    · simp only [if_neg shared, Nat.zero_add]
      rw [placeToken_isOk_iff]
      · rw [tokens, size, free]
      · rw [tokens, size]
        exact bounded.fits lastBid

theorem placeToken_counts {seq : SequenceBlocks} (lastBid : Nat)
    (present : mgr.seqBlocks.get? sequenceId = some seq) :
    ∃ seq', (mgr.placeToken sequenceId seq lastBid).2.seqBlocks.get? sequenceId = some seq' ∧
      seq'.numTokens = seq.numTokens := by
  simp only [placeToken]
  split
  · exact ⟨seq, present, rfl⟩
  · split
    · exact ⟨seq, present, rfl⟩
    · exact ⟨_, Dict.get?_set_self _ _ _, rfl⟩

theorem appendToken_counts [ToString ρ] {found : SequenceBlocks}
    (present : mgr.seqBlocks.get? sequenceId = some found) :
    ∃ seq, (mgr.appendToken sequenceId).2.seqBlocks.get? sequenceId = some seq ∧
      seq.numTokens = found.numTokens + 1 := by
  simp only [appendToken, present]
  cases found.blockIds.getLast? with
  | none => exact ⟨_, Dict.get?_set_self _ _ _, rfl⟩
  | some lastBid =>
    dsimp only
    split
    · split
      next raised mgr' failed =>
        rw [unshareBlock_raised failed]
        exact ⟨_, Dict.get?_set_self _ _ _, rfl⟩
      next newBid mgr' unshared =>
        exact placeToken_counts newBid (Dict.get?_set_self _ _ _)
    · exact placeToken_counts lastBid (Dict.get?_set_self _ _ _)

/-! ### Counters stay within the blocks -/

omit [DecidableEq ρ] in
theorem create_bounded {numBlocks blockSize : Int}
    (created : create numBlocks blockSize = .ok mgr) : mgr.Bounded := by
  simp only [create] at created
  split at created
  · cases created
  split at created
  · cases created
  next size =>
    simp only [Except.ok.injEq] at created
    subst created
    simp only [not_or, not_le] at size
    exact ⟨Int.lt_toNat.mpr size.1, fun _ => Nat.zero_le _⟩

namespace Bounded

omit [DecidableEq ρ] in
theorem congr {mgr' : PagedAttentionManager ρ} (bounded : mgr.Bounded)
    (size : mgr'.blockSize = mgr.blockSize) (fits : ∀ b, mgr'.numTokens b ≤ mgr.blockSize) :
    mgr'.Bounded := by
  constructor
  · rw [size]
    exact bounded.positive
  · rw [size]
    exact fits

theorem allocateSequence (bounded : mgr.Bounded) (sequenceId : ρ) (numTokens : Nat) :
    (mgr.allocateSequence sequenceId numTokens).2.Bounded := by
  simp only [PagedAttentionManager.allocateSequence]
  cases allocated : mgr.toPagedAttentionManager.allocateSequence sequenceId numTokens with
  | none => exact bounded
  | some base =>
    have size : base.blockSize = mgr.blockSize := by
      simp only [Scheduler.PagedAttentionManager.allocateSequence] at allocated
      split at allocated
      · cases allocated
      · cases allocated
        rfl
    apply bounded.congr size
    intro b
    dsimp only
    split
    · exact Nat.zero_le _
    · exact bounded.fits b

omit [DecidableEq ρ] in
theorem releaseBlock (bounded : mgr.Bounded) (bid : Nat) : (mgr.releaseBlock bid).Bounded := by
  apply bounded.congr (releaseBlock_frame bid).2.2
  intro b
  simp only [PagedAttentionManager.releaseBlock]
  split
  · by_cases here : b = bid
    · simp [here]
    · simpa [here] using bounded.fits b
  · exact bounded.fits b

theorem freeSequence (bounded : mgr.Bounded) (sequenceId : ρ) :
    (mgr.freeSequence sequenceId).Bounded := by
  simp only [PagedAttentionManager.freeSequence]
  cases mgr.seqBlocks.get? sequenceId with
  | none => exact bounded
  | some seq =>
    have dropped : Bounded { mgr with
        seqBlocks := mgr.seqBlocks.filterKeys fun k => decide (k ≠ sequenceId) } :=
      bounded.congr rfl bounded.fits
    exact List.foldlRecOn seq.blockIds _ dropped fun _ before bid _ => before.releaseBlock bid

theorem copyOnWrite (bounded : mgr.Bounded) (sourceId destId : ρ) :
    (mgr.copyOnWrite sourceId destId).Bounded := by
  simp only [PagedAttentionManager.copyOnWrite]
  cases mgr.seqBlocks.get? sourceId with
  | none => exact bounded
  | some source =>
    obtain ⟨_, _, _, size, tokens⟩ := retainBlocks_spec source.blockIds
      (mgr.setSequence destId source)
    apply bounded.congr size
    rw [tokens]
    exact bounded.fits

omit [DecidableEq ρ] in
theorem unshareBlock (bounded : mgr.Bounded) (bid : Nat) : (mgr.unshareBlock bid).2.Bounded := by
  simp only [PagedAttentionManager.unshareBlock]
  split
  · exact bounded
  · split
    · exact bounded
    next newBid top =>
      apply bounded.congr
      · rfl
      · intro b
        by_cases here : b = newBid
        · simpa [here] using bounded.fits bid
        · simpa [here] using bounded.fits b

theorem placeToken (bounded : mgr.Bounded) (sequenceId : ρ) (seq : SequenceBlocks)
    (lastBid : Nat) : (mgr.placeToken sequenceId seq lastBid).2.Bounded := by
  simp only [PagedAttentionManager.placeToken]
  split
  next room =>
    apply bounded.congr
    · rfl
    · intro b
      by_cases here : b = lastBid
      · simpa [here] using Nat.succ_le_of_lt room
      · simpa [here] using bounded.fits b
  · split
    · exact bounded
    next newBid top =>
      apply bounded.congr
      · rfl
      · intro b
        by_cases here : b = newBid
        · simpa [here] using Nat.one_le_iff_ne_zero.mpr bounded.positive.ne'
        · simpa [here] using bounded.fits b

theorem appendToken [ToString ρ] (bounded : mgr.Bounded) (sequenceId : ρ) :
    (mgr.appendToken sequenceId).2.Bounded := by
  simp only [PagedAttentionManager.appendToken]
  cases mgr.seqBlocks.get? sequenceId with
  | none => exact bounded
  | some found =>
    have counted : (mgr.setSequence sequenceId
        { found with numTokens := found.numTokens + 1 }).Bounded := bounded.congr rfl bounded.fits
    dsimp only
    cases found.blockIds.getLast? with
    | none => exact counted
    | some lastBid =>
      dsimp only
      split
      · have copied := counted.unshareBlock lastBid
        split
        next raised mgr' failed => rwa [failed] at copied
        next newBid mgr' unshared =>
          rw [unshared] at copied
          have replaced : (mgr'.setSequence sequenceId
              { found with
                blockIds := found.blockIds.dropLast ++ [newBid]
                numTokens := found.numTokens + 1 }).Bounded := copied.congr rfl copied.fits
          exact replaced.placeToken sequenceId _ newBid
      · exact counted.placeToken sequenceId _ lastBid

end Bounded

end PagedAttentionManager

open PagedAttentionManager

variable [ToString ρ] {mgr : PagedAttentionManager ρ}

theorem bounded_of_reaches (reached : (machine ρ).Reachable mgr) : mgr.Bounded := by
  apply Machine.Reaches.invariant (I := fun mgr => mgr.Bounded) _ _ reached
  · rintro mgr ⟨numBlocks, blockSize, created⟩
    exact create_bounded created
  · intro mgr act bounded _ _
    cases act with
    | allocateSequence sequenceId numTokens => exact bounded.allocateSequence sequenceId numTokens
    | appendToken sequenceId => exact bounded.appendToken sequenceId
    | copyOnWrite sourceId destId => exact bounded.copyOnWrite sourceId destId
    | freeSequence sequenceId => exact bounded.freeSequence sequenceId

/-- **When an append is atomic.** In every state of every run: a call of `append_token` that raises
leaves the manager as it was iff the sequence is unknown or has room for a token, so that a call for
a known sequence raises nothing. -/
theorem append_atomic_iff (reached : (machine ρ).Reachable mgr) (sequenceId : ρ) :
    (∀ raised, (mgr.appendToken sequenceId).1 = .error raised →
        (mgr.appendToken sequenceId).2 = mgr) ↔
      ∀ seq, mgr.seqBlocks.get? sequenceId = some seq → mgr.HasRoom seq := by
  cases present : mgr.seqBlocks.get? sequenceId with
  | none => simp [appendToken, present]
  | some found =>
    simp only [Option.some.injEq, forall_eq']
    rw [← appendToken_isOk_iff (bounded_of_reaches reached) present]
    constructor
    · intro atomic
      cases result : (mgr.appendToken sequenceId).1 with
      | ok bid => rfl
      | error raised =>
        -- the token is counted, so the manager is not as it was
        obtain ⟨seq, present', counted⟩ := appendToken_counts present
        rw [atomic raised result, present] at present'
        cases present'
        omega
    · intro fine raised result
      rw [result] at fine
      cases fine

/-- A full block of its own, and a free one. -/
theorem append_atomic_one_left :
    let mgr := [Action.allocateSequence "a" 1, .appendToken "a"].foldl (machine String).exec
      { Scheduler.PagedAttentionManager.init 2 1 with numTokens := fun _ => 0 }
    ∀ raised, (mgr.appendToken "a").1 = .error raised → (mgr.appendToken "a").2 = mgr := by
  have fresh : (machine String).init
      { Scheduler.PagedAttentionManager.init 2 1 with numTokens := fun _ => 0 } := ⟨2, 1, rfl⟩
  refine (append_atomic_iff (.of_follows (.init fresh) _ ?_) "a").mpr ?_
  · exact ⟨trivial, trivial, trivial, trivial, trivial⟩
  · intro seq present
    obtain rfl : seq = ⟨[0], 2⟩ := Option.some.inj (present.symm.trans (by decide))
    decide

/-- Blocks of one token. The last block of `"b"` is shared and full, and one block is free: it
becomes the copy of the shared block, and then the call raises. -/
theorem append_leaves_copy : ∃ mgr, (machine String).Reachable mgr ∧ (mgr.appendToken "b").1 =
        .error (.runtimeError "No free KV cache blocks available") ∧
      mgr.seqBlocks.get? "b" = some ⟨[0], 2⟩ ∧ mgr.freeBlocks = [1] ∧
      (mgr.appendToken "b").2.seqBlocks.get? "b" = some ⟨[1], 3⟩ ∧
      (mgr.appendToken "b").2.freeBlocks = [] := by
  have fresh : (machine String).init
      { Scheduler.PagedAttentionManager.init 2 1 with numTokens := fun _ => 0 } := ⟨2, 1, rfl⟩
  have reached : (machine String).Reachable _ := .of_follows (.init fresh)
    [.allocateSequence "a" 1, .appendToken "a", .copyOnWrite "a" "b"]
    ⟨trivial, trivial, trivial, trivial, trivial, trivial, trivial⟩
  exact ⟨_, reached, by decide, by decide, by decide, by decide, by decide⟩

end DistLLM.Paged
