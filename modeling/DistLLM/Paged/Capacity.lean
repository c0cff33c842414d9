import DistLLM.Paged.References

/-!
# Block tables and token positions

Where the tokens of a sequence are written, against the layout that the block table is sized for:
the token at position k in the block at index k / block_size. Allocation sizes the table for the
prompt but leaves the counters of its blocks at zero, so the tokens appended later go into the
last prompt block again. The two views agree exactly as long as one block holds all tokens.
-/
namespace DistLLM.Paged

open DistLLM.Library DistLLM.Library.RefCounts DistLLM.Scheduler PagedAttentionManager

variable {ρ : Type} [DecidableEq ρ] [ToString ρ]

/-- The manager and, for each token of a sequence in order, the index in the block table of the
block that it was given. -/
structure Tracked (ρ : Type) where
  mgr : PagedAttentionManager ρ
  slots : ρ → List Nat

variable {lost : Multiset Nat} {seq : SequenceBlocks} {sequenceId : ρ} {slots : List Nat}
  {blockSize : Nat}

namespace Tracked

/-- The prompt fills the blocks in order; a generated token goes into the block that
`append_token` returns; `copy_on_write` shares the places with the blocks. -/
def exec (t : Tracked ρ) (act : Action ρ) : Tracked ρ :=
  { mgr := Paged.exec t.mgr act
    slots := match act with
      | .allocateSequence sequenceId numTokens =>
        match t.mgr.allocateSequence sequenceId numTokens with
        | (.ok _, _) => Function.update t.slots sequenceId
            ((List.range numTokens).map (· / t.mgr.blockSize))
        | (.error _, _) => t.slots
      | .appendToken sequenceId =>
        match t.mgr.appendToken sequenceId with
        | (.ok bid, mgr') => Function.update t.slots sequenceId
            (t.slots sequenceId ++ [(mgr'.table sequenceId).idxOf bid])
        | (.error _, _) => t.slots
      | .copyOnWrite sourceId destId =>
        if t.mgr.Live sourceId then Function.update t.slots destId (t.slots sourceId) else t.slots
      | .freeSequence _ => t.slots }

def machine (ρ : Type) [DecidableEq ρ] [ToString ρ] : Machine (Tracked ρ) (Action ρ) where
  init t := (Paged.machine ρ).init t.mgr ∧ t.slots = fun _ => []
  enabled _ _ := True
  exec := exec

/-- Prompts have at least one token, and appending succeeds. -/
def Served (t : Tracked ρ) : Action ρ → Prop
  | .allocateSequence _ numTokens => 1 ≤ numTokens
  | .appendToken sequenceId => (t.mgr.appendToken sequenceId).1.isOk = true
  | _ => True

instance (t : Tracked ρ) (act : Action ρ) : Decidable (Served t act) :=
  match act with
  | .allocateSequence _ numTokens => inferInstanceAs (Decidable (1 ≤ numTokens))
  | .appendToken _ => inferInstanceAs (Decidable (_ = true))
  | .copyOnWrite _ _ => .isTrue trivial
  | .freeSequence _ => .isTrue trivial

/-- The table covers the tokens of the sequence: it has just enough blocks, those before the last
one are full, and each token is in the block that its position stands for. -/
structure Covered (t : Tracked ρ) (sequenceId : ρ) (seq : SequenceBlocks) : Prop where
  enough : seq.numTokens ≤ seq.blockIds.length * t.mgr.blockSize
  tight : (seq.blockIds.length - 1) * t.mgr.blockSize < seq.numTokens
  full : ∀ b ∈ seq.blockIds.dropLast, t.mgr.numTokens b = t.mgr.blockSize
  placed : t.slots sequenceId = (List.range seq.numTokens).map (· / t.mgr.blockSize)

/-- All tokens in one block with fewer tokens counted; or a token over the first block, yet placed
in it; or a prompt over several blocks, the first of them counted as empty. -/
inductive Layout (blockSize : Nat) (numTokens : Nat → Nat) : List Nat → List Nat → Prop
  | single {b count} : numTokens b < count → count ≤ blockSize →
      Layout blockSize numTokens [b] (List.replicate count 0)
  | crossed {blockIds slots} : slots[blockSize]? = some 0 →
      Layout blockSize numTokens blockIds slots
  | prompt {b c rest slots} : numTokens b = 0 → blockSize < slots.length →
      Layout blockSize numTokens (b :: c :: rest) slots

theorem Layout.congr {numTokens numTokens' : Nat → Nat} {blockIds : List Nat}
    (layout : Layout blockSize numTokens blockIds slots)
    (same : ∀ b ∈ blockIds, numTokens' b = numTokens b) :
    Layout blockSize numTokens' blockIds slots := by
  cases layout with
  | single fewer fits => exact .single (by simpa [same] using fewer) fits
  | crossed placed => exact .crossed placed
  | prompt empty longer => exact .prompt (by simpa [same] using empty) longer

structure Laid (t : Tracked ρ) : Prop where
  leaking : ∃ lost, t.mgr.Leaking lost
  positive : 0 < t.mgr.blockSize
  blank : ∀ b ∈ t.mgr.freeBlocks, t.mgr.numTokens b = 0
  distinct : ∀ sequenceId seq, t.mgr.seqBlocks.get? sequenceId = some seq → seq.blockIds.Nodup
  counted : ∀ sequenceId seq, t.mgr.seqBlocks.get? sequenceId = some seq →
    seq.numTokens = (t.slots sequenceId).length
  layout : ∀ sequenceId seq, t.mgr.seqBlocks.get? sequenceId = some seq →
    Layout t.mgr.blockSize t.mgr.numTokens seq.blockIds (t.slots sequenceId)

theorem slots_of_fits {numTokens : Nat} (fits : numTokens ≤ blockSize) :
    (List.range numTokens).map (· / blockSize) = List.replicate numTokens 0 := by
  refine List.eq_replicate_iff.mpr ⟨by simp, fun slot member => ?_⟩
  obtain ⟨k, inside, rfl⟩ := List.mem_map.mp member
  exact Nat.div_eq_of_lt ((List.mem_range.mp inside).trans_le fits)

omit [ToString ρ] in
theorem Laid.covered_iff {t : Tracked ρ} (laid : t.Laid)
    (found : t.mgr.seqBlocks.get? sequenceId = some seq) :
    t.Covered sequenceId seq ↔ (t.slots sequenceId).length ≤ t.mgr.blockSize := by
  have counted := laid.counted sequenceId seq found
  have layout := laid.layout sequenceId seq found
  have positive := laid.positive
  generalize slots_eq : t.slots sequenceId = slots at *
  obtain ⟨blockIds, numTokens⟩ := seq
  dsimp only at *
  cases layout with
  | @single b count fewer fits =>
    simp only [List.length_replicate] at counted ⊢
    subst counted
    refine ⟨fun _ => fits, fun _ => ⟨by simpa using fits, by simp; omega, by simp, ?_⟩⟩
    rw [slots_eq, slots_of_fits fits]
  | crossed placed =>
    have longer : t.mgr.blockSize < slots.length := by
      obtain ⟨inside, _⟩ := List.getElem?_eq_some_iff.mp placed
      exact inside
    refine ⟨fun covered => ?_, fun short => absurd short (not_le.mpr longer)⟩
    -- the token at position block_size belongs into the second block
    have expected := covered.placed
    dsimp only at expected
    rw [slots_eq] at expected
    rw [expected, List.getElem?_map, List.getElem?_range (by omega)] at placed
    simp [Nat.div_self positive] at placed
  | @prompt b c rest slots empty longer =>
    refine ⟨fun covered => ?_, fun short => absurd short (not_le.mpr longer)⟩
    have full := covered.full b (by simp)
    omega

end Tracked

/-! ### What the operations leave -/

variable {bid : Nat}

namespace PagedAttentionManager

variable {mgr mgr' : PagedAttentionManager ρ}

omit [ToString ρ] in
theorem Leaking.shared (leaking : mgr.Leaking lost) {one two : ρ} (apart : one ≠ two)
    {seq seq' : SequenceBlocks} (first : mgr.seqBlocks.get? one = some seq)
    (second : mgr.seqBlocks.get? two = some seq') {b : Nat} (here : b ∈ seq.blockIds)
    (there : b ∈ seq'.blockIds) : 1 < (mgr.blocks b).refCount := by
  have count := leaking.counted b
  have kept : (mgr.seqBlocks.filterKeys fun k => decide (k ≠ one)).get? two = some seq' := by
    simpa [Dict.get?_filterKeys, apart.symm] using second
  have rest := mem_references_of_get? (f := SequenceBlocks.blockIds) kept there
  rw [tables, references_drop _ _ first, Multiset.count_add, Multiset.count_add] at count
  have some := Multiset.count_pos.mpr rest
  have other := List.count_pos_iff.mpr here
  simp only [pool, Multiset.coe_count] at count
  omega

omit [ToString ρ] in
theorem Leaking.not_free (leaking : mgr.Leaking lost)
    (found : mgr.seqBlocks.get? sequenceId = some seq) {b : Nat}
    (member : b ∈ seq.blockIds) : b ∉ mgr.freeBlocks := fun free =>
  ((leaking.free_iff b).mp free).2
    (Multiset.mem_add.mpr (.inl (mem_references_of_get? found member)))

omit [DecidableEq ρ] [ToString ρ] in
theorem unshareBlock_ok {newBid : Nat} (shared : 1 < (mgr.blocks bid).refCount)
    (unshared : mgr.unshareBlock bid = (.ok newBid, mgr')) :
    mgr.freeBlocks = mgr'.freeBlocks ++ [newBid] ∧ mgr'.seqBlocks = mgr.seqBlocks ∧
      mgr'.blockSize = mgr.blockSize ∧
      mgr'.numTokens = Function.update mgr.numTokens newBid (mgr.numTokens bid) := by
  simp only [unshareBlock, not_le.mpr shared, if_false] at unshared
  split at unshared
  · cases unshared
  next top =>
    cases unshared
    exact ⟨(List.dropLast_append_getLast? newBid top).symm, rfl, rfl, rfl⟩

omit [ToString ρ] in
theorem placeToken_ok {lastBid : Nat}
    (placed : mgr.placeToken sequenceId seq lastBid = (.ok bid, mgr')) :
    mgr'.blockSize = mgr.blockSize ∧
      (mgr.numTokens lastBid < mgr.blockSize ∧ bid = lastBid ∧
          mgr'.seqBlocks = mgr.seqBlocks ∧ mgr'.freeBlocks = mgr.freeBlocks ∧
          mgr'.numTokens = Function.update mgr.numTokens bid (mgr.numTokens lastBid + 1) ∨
        ¬ mgr.numTokens lastBid < mgr.blockSize ∧ mgr.freeBlocks = mgr'.freeBlocks ++ [bid] ∧
          mgr'.seqBlocks = mgr.seqBlocks.set sequenceId
            { seq with blockIds := seq.blockIds ++ [bid] } ∧
          mgr'.numTokens = Function.update mgr.numTokens bid 1) := by
  simp only [placeToken] at placed
  split at placed
  next room =>
    cases placed
    exact ⟨rfl, .inl ⟨room, rfl, rfl, rfl, rfl⟩⟩
  next full =>
    split at placed
    · cases placed
    next top =>
      cases placed
      exact ⟨rfl, .inr ⟨full, (List.dropLast_append_getLast? bid top).symm, rfl, rfl⟩⟩

/-- A sequence after a token was appended: the block `w` keeps the place of its last block. It is
that block if nobody else has a reference, and otherwise a free block. The token is in `w`, or in
a further block `bid`. -/
structure Appended (mgr mgr' : PagedAttentionManager ρ) (sequenceId : ρ) (bid : Nat)
    (found : SequenceBlocks) (front : List Nat) (lastBid w : Nat) (tail : List Nat) : Prop where
  present : mgr.seqBlocks.get? sequenceId = some found
  table : found.blockIds = front ++ [lastBid]
  own : w = lastBid ∧ ¬ 1 < (mgr.blocks lastBid).refCount ∨ w ∈ mgr.freeBlocks
  free : ∀ b ∈ mgr'.freeBlocks, b ∈ mgr.freeBlocks
  size : mgr'.blockSize = mgr.blockSize
  written : ∀ other, mgr'.seqBlocks.get? other = if sequenceId = other then
    some { blockIds := front ++ w :: tail, numTokens := found.numTokens + 1 }
    else mgr.seqBlocks.get? other
  placed : mgr.numTokens lastBid < mgr.blockSize ∧ bid = w ∧ tail = [] ∧
      mgr'.numTokens = Function.update mgr.numTokens w (mgr.numTokens lastBid + 1) ∨
    ¬ mgr.numTokens lastBid < mgr.blockSize ∧ bid ∈ mgr.freeBlocks ∧ bid ≠ w ∧ tail = [bid] ∧
      mgr'.numTokens =
        Function.update (Function.update mgr.numTokens w (mgr.numTokens lastBid)) bid 1

theorem Leaking.appended {lost : Multiset Nat} (leaking : mgr.Leaking lost)
    (appended : mgr.appendToken sequenceId = (.ok bid, mgr')) :
    ∃ found front lastBid w tail, Appended mgr mgr' sequenceId bid found front lastBid w tail := by
  unfold PagedAttentionManager.appendToken at appended
  split at appended
  · cases appended
  next found present =>
  dsimp only at appended
  split at appended
  · cases appended
  next lastBid last =>
  have table := (List.dropLast_append_getLast? lastBid last).symm
  generalize found.blockIds.dropLast = front at *
  split at appended
  next shared =>
    -- a shared last block is copied first
    split at appended
    · cases appended
    next w mid unshared =>
    obtain ⟨free, seqs, size, tokens⟩ := unshareBlock_ok (by exact shared) unshared
    have copy : mid.numTokens w = mgr.numTokens lastBid := by simp [tokens, setSequence]
    obtain ⟨size', placed⟩ := placeToken_ok appended
    simp only [setSequence] at *
    have distinct : (mid.freeBlocks ++ [w]).Nodup := free ▸ leaking.distinct
    rcases placed with ⟨room, rfl, seqs', left, tokens'⟩ | ⟨full, left, seqs', tokens'⟩
    · refine ⟨found, front, lastBid, bid, [], present, table, .inr (by simp [free]), ?_,
        size'.trans size, ?_, .inl ⟨?_, rfl, rfl, ?_⟩⟩
      · intro b member
        simp [free, ← left, member]
      · intro other
        rw [seqs', seqs, Dict.get?_set, Dict.get?_set]
        split <;> rfl
      · rwa [copy, size] at room
      · rw [tokens', copy, tokens, Function.update_idem]
    · -- the copy is not free any more, so the new block is another one
      have apart : bid ≠ w := by
        rintro rfl
        exact (List.nodup_append.mp distinct).2.2 bid (by simp [left]) bid (by simp) rfl
      refine ⟨found, front, lastBid, w, [bid], present, table, .inr (by simp [free]), ?_,
        size'.trans size, ?_, .inr ⟨?_, ?_, apart, rfl, ?_⟩⟩
      · intro b member
        simp [free, left, member]
      · intro other
        rw [seqs', seqs, Dict.get?_set, Dict.get?_set, Dict.get?_set]
        split <;> simp
      · rwa [copy, size] at full
      · simp [free, left]
      · rw [tokens', tokens]
  next unshared =>
    obtain ⟨size, placed⟩ := placeToken_ok appended
    simp only [setSequence] at *
    have own : lastBid = lastBid ∧ ¬ 1 < (mgr.blocks lastBid).refCount := ⟨rfl, unshared⟩
    rcases placed with ⟨room, rfl, seqs, left, tokens⟩ | ⟨full, left, seqs, tokens⟩
    · refine ⟨found, front, bid, bid, [], present, table, .inl own, ?_, size, ?_,
        .inl ⟨room, rfl, rfl, tokens⟩⟩
      · intro b member
        rwa [← left]
      · intro other
        rw [seqs, Dict.get?_set, ← table]
    · have apart : bid ≠ lastBid := by
        rintro rfl
        exact leaking.not_free (b := bid) present (by simp [table]) (by simp [left])
      refine ⟨found, front, lastBid, lastBid, [bid], present, table, .inl own, ?_, size, ?_,
        .inr ⟨full, by simp [left], apart, rfl, by rw [tokens, Function.update_eq_self]⟩⟩
      · intro b member
        simp [left, member]
      · intro other
        rw [seqs, Dict.get?_set, Dict.get?_set]
        split <;> simp [table]

omit [DecidableEq ρ] [ToString ρ] in
theorem releaseBlocks_tokens (bids : List Nat) (mgr : PagedAttentionManager ρ) :
    let mgr' := bids.foldl releaseBlock mgr
    ((∀ b ∈ mgr.freeBlocks, mgr.numTokens b = 0) → ∀ b ∈ mgr'.freeBlocks, mgr'.numTokens b = 0) ∧
      (∀ b ∈ mgr.freeBlocks, b ∈ mgr'.freeBlocks) ∧
      ∀ b, b ∉ mgr'.freeBlocks → mgr'.numTokens b = mgr.numTokens b := by
  induction bids generalizing mgr with
  | nil => simp
  | cons bid rest ih =>
    obtain ⟨blank, more, kept⟩ := ih (mgr.releaseBlock bid)
    simp only [List.foldl_cons]
    -- the last reference frees the block and clears its counter
    by_cases last : (mgr.blocks bid).refCount - 1 ≤ 0
    · have free : (mgr.releaseBlock bid).freeBlocks = mgr.freeBlocks ++ [bid] := by
        simp [releaseBlock, Scheduler.PagedAttentionManager.releaseBlock, last]
      have tokens : (mgr.releaseBlock bid).numTokens = Function.update mgr.numTokens bid 0 := by
        simp [releaseBlock, last]
      simp only [free, tokens] at blank more kept
      refine ⟨fun before => blank fun b member => ?_, fun b member => more b (by simp [member]),
        fun b taken => ?_⟩
      · by_cases here : b = bid
        · simp [here]
        · simpa [here] using before b (by simpa [here] using member)
      · have apart : b ≠ bid := by
          rintro rfl
          exact taken (more b (by simp))
        simpa [apart] using kept b taken
    · have free : (mgr.releaseBlock bid).freeBlocks = mgr.freeBlocks := by
        simp [releaseBlock, Scheduler.PagedAttentionManager.releaseBlock, last]
      have tokens : (mgr.releaseBlock bid).numTokens = mgr.numTokens := by
        simp [releaseBlock, last]
      rw [free, tokens] at blank
      rw [free] at more
      rw [tokens] at kept
      exact ⟨blank, more, kept⟩

end PagedAttentionManager

omit [ToString ρ] in
theorem retainAll_free (bids : List Nat) (pool : Pool Nat) :
    (bids.foldl Pool.retain pool).free = pool.free := by
  induction bids generalizing pool with
  | nil => rfl
  | cons bid rest ih => exact ih (pool.retain bid)

/-! ### Every step keeps the layout -/

namespace Tracked

variable {t : Tracked ρ}

omit [ToString ρ] in
theorem Laid.write (laid : t.Laid) {mgr' : PagedAttentionManager ρ} {written : SequenceBlocks}
    (leaking : ∃ lost, mgr'.Leaking lost) (size : mgr'.blockSize = t.mgr.blockSize)
    (seqs : ∀ other, mgr'.seqBlocks.get? other =
      if sequenceId = other then some written else t.mgr.seqBlocks.get? other)
    (blank : ∀ b ∈ mgr'.freeBlocks, mgr'.numTokens b = 0)
    (kept : ∀ other seq, sequenceId ≠ other → t.mgr.seqBlocks.get? other = some seq →
      ∀ b ∈ seq.blockIds, mgr'.numTokens b = t.mgr.numTokens b) (once : written.blockIds.Nodup)
    (counted : written.numTokens = slots.length)
    (layout : Layout t.mgr.blockSize mgr'.numTokens written.blockIds slots) :
    Laid { mgr := mgr', slots := Function.update t.slots sequenceId slots } := by
  constructor
  case leaking => exact leaking
  case positive => exact size ▸ laid.positive
  case blank => exact blank
  case distinct =>
    intro other seq present
    rw [seqs] at present
    split at present
    · cases present
      exact once
    · exact laid.distinct other seq present
  case counted =>
    intro other seq present
    dsimp only
    rw [seqs] at present
    split at present
    next same =>
      cases present
      rw [← same, Function.update_self]
      exact counted
    next apart =>
      rw [Function.update_of_ne (Ne.symm apart)]
      exact laid.counted other seq present
  case layout =>
    intro other seq present
    dsimp only
    rw [size]
    rw [seqs] at present
    split at present
    next same =>
      cases present
      rw [← same, Function.update_self]
      exact layout
    next apart =>
      rw [Function.update_of_ne (Ne.symm apart)]
      exact (laid.layout other seq present).congr (kept other seq apart present)

theorem Laid.allocateSequence (laid : t.Laid) (sequenceId : ρ) {numTokens : Nat}
    (some : 1 ≤ numTokens) : (t.exec (.allocateSequence sequenceId numTokens)).Laid := by
  obtain ⟨lost, leaking⟩ := laid.leaking
  have stepped := leaking.step (.allocateSequence sequenceId numTokens)
  by_cases few : t.mgr.freeBlocks.length < t.mgr.blocksNeeded numTokens
  · have raised : t.mgr.toPagedAttentionManager.allocateSequence sequenceId numTokens = none := by
      simp [Scheduler.PagedAttentionManager.allocateSequence, few]
    simpa [exec, Paged.exec, PagedAttentionManager.allocateSequence, raised] using laid
  · have found := t.mgr.findFragmentedBlocks_subperm (t.mgr.blocksNeeded numTokens)
    have length := t.mgr.findFragmentedBlocks_length leaking.distinct (not_lt.mp few)
    have once : (t.mgr.findFragmentedBlocks (t.mgr.blocksNeeded numTokens)).Nodup := by
      obtain ⟨blocks, perm, sub⟩ := found
      exact perm.nodup_iff.mp (leaking.distinct.sublist sub)
    simp only [Paged.exec, exec, PagedAttentionManager.allocateSequence,
      Scheduler.PagedAttentionManager.allocateSequence, few, if_false] at stepped ⊢
    generalize t.mgr.findFragmentedBlocks (t.mgr.blocksNeeded numTokens) = candidates at *
    have blank : ∀ b ∈ candidates, (if b ∈ candidates ∧ (t.mgr.blocks b).isAllocated = false
        then 0 else t.mgr.numTokens b) = 0 := by
      intro b member
      simp [laid.blank b (found.subset member)]
    apply laid.write ⟨_, stepped⟩
    case size => rfl
    case seqs => exact fun other => Dict.get?_set ..
    case blank =>
      intro b member
      simp only [List.mem_filter, decide_eq_true_eq] at member
      simpa [member.2] using laid.blank b member.1
    case kept =>
      intro other seq _ present b member
      -- the blocks of the others are not free
      have taken : b ∉ candidates := fun free =>
        leaking.not_free present member (found.subset free)
      simp [taken]
    case once => exact once
    case counted => simp
    case layout =>
      have positive := laid.positive
      rw [Scheduler.PagedAttentionManager.blocksNeeded] at length
      by_cases fits : numTokens ≤ t.mgr.blockSize
      · have one : (numTokens + t.mgr.blockSize - 1) / t.mgr.blockSize = 1 :=
          Nat.div_eq_of_lt_le (by omega) (by omega)
        obtain ⟨b, rfl⟩ := List.length_eq_one_iff.mp (length.trans one)
        rw [slots_of_fits fits]
        exact .single (lt_of_eq_of_lt (blank b (List.mem_singleton.mpr rfl)) some) fits
      · have two : 2 ≤ (numTokens + t.mgr.blockSize - 1) / t.mgr.blockSize := by
          rw [Nat.le_div_iff_mul_le positive]
          omega
        obtain ⟨b, c, rest, rfl⟩ : ∃ b c rest, candidates = b :: c :: rest := by
          rcases candidates with _ | ⟨b, _ | ⟨c, rest⟩⟩
          · simp at length
            omega
          · simp at length
            omega
          · exact ⟨b, c, rest, rfl⟩
        refine Layout.prompt ?_ (by simpa using fits)
        exact blank b (List.mem_cons_self ..)

theorem Layout.append {numTokens numTokens' : Nat → Nat} {front tail : List Nat} {lastBid w : Nat}
    (layout : Layout blockSize numTokens (front ++ [lastBid]) slots)
    (first : ∀ b ∈ front, numTokens' b = numTokens b) (fresh : w ∉ front) (fresh' : bid ∉ front)
    (placed : numTokens lastBid < blockSize ∧ bid = w ∧ tail = [] ∧
        numTokens' w = numTokens lastBid + 1 ∨
      ¬ numTokens lastBid < blockSize ∧ bid ≠ w ∧ tail = [bid]) :
    Layout blockSize numTokens' (front ++ w :: tail)
      (slots ++ [(front ++ w :: tail).idxOf bid]) := by
  generalize table : front ++ [lastBid] = blockIds at layout
  cases layout with
  | @single b count fewer fits =>
    obtain ⟨rfl, rfl⟩ : front = [] ∧ lastBid = b := by
      cases front <;> simp_all
    -- the only block has room, since it counts none of the tokens that it began with
    rcases placed with ⟨_, rfl, rfl, tokens⟩ | ⟨full, _⟩
    · have slots : List.replicate count 0 ++ [0] = List.replicate (count + 1) 0 :=
        List.replicate_succ'.symm
      simp only [List.nil_append, List.idxOf_cons_self, slots]
      by_cases more : count + 1 ≤ blockSize
      · exact .single (by omega) more
      · apply Layout.crossed
        rw [List.getElem?_replicate, if_pos (by omega)]
    · omega
  | crossed before =>
    apply Layout.crossed
    rw [List.getElem?_append_left]
    · exact before
    · exact (List.getElem?_eq_some_iff.mp before).1
  | @prompt b c rest slots empty longer =>
    obtain ⟨front', rfl⟩ : ∃ front', front = b :: front' := by
      cases front with
      | nil => simp at table
      | cons x front' =>
        simp only [List.cons_append, List.cons.injEq] at table
        exact ⟨front', by rw [table.1]⟩
    obtain ⟨c', rest', shape⟩ : ∃ c' rest', front' ++ w :: tail = c' :: rest' := by
      cases front' <;> simp
    rw [List.cons_append, shape]
    refine .prompt ?_ (by simp; omega)
    rw [first b (by simp), empty]

theorem Laid.appendToken (laid : t.Laid) (served : (t.mgr.appendToken sequenceId).1.isOk = true) :
    (t.exec (.appendToken sequenceId)).Laid := by
  obtain ⟨lost, leaking⟩ := laid.leaking
  have stepped := leaking.appendToken sequenceId
  simp only [exec, Paged.exec]
  generalize outcome : t.mgr.appendToken sequenceId = result at *
  obtain ⟨returned, mgr'⟩ := result
  cases returned with
  | error raised => cases served
  | ok bid =>
  obtain ⟨found, front, lastBid, w, tail, appended⟩ := leaking.appended outcome
  have once : (front ++ [lastBid]).Nodup :=
    appended.table ▸ laid.distinct sequenceId found appended.present
  have held : ∀ b ∈ front ++ [lastBid], b ∉ t.mgr.freeBlocks := fun b member =>
    leaking.not_free appended.present (appended.table ▸ member)
  have fresh : w ∉ front := by
    rcases appended.own with ⟨rfl, _⟩ | free
    · exact fun member => (List.nodup_append.mp once).2.2 w member w (by simp) rfl
    · exact fun member => held w (by simp [member]) free
  have fresh' : bid ∉ front := by
    rcases appended.placed with ⟨_, rfl, _⟩ | ⟨_, free, _⟩
    · exact fresh
    · exact fun member => held bid (by simp [member]) free
  -- only the blocks `w` and `bid` change their counters
  have kept : ∀ b, b ≠ w → b ≠ bid → mgr'.numTokens b = t.mgr.numTokens b := by
    intro b one two
    rcases appended.placed with ⟨_, _, _, tokens⟩ | ⟨_, _, _, _, tokens⟩ <;>
      simp [tokens, one, two]
  have table' := appended.written sequenceId
  rw [if_pos rfl] at table'
  have distinct' : (front ++ w :: tail).Nodup := by
    apply (List.nodup_append.mp once).1.append
    · rcases appended.placed with ⟨_, _, rfl, _⟩ | ⟨_, _, apart, rfl, _⟩
      · simp
      · simpa using Ne.symm apart
    · intro b member end_
      have cases : b = w ∨ b = bid := by
        rcases appended.placed with ⟨_, _, rfl, _⟩ | ⟨_, _, _, rfl, _⟩
        · exact .inl (by simpa using end_)
        · simpa using end_
      rcases cases with rfl | rfl
      · exact fresh member
      · exact fresh' member
  apply laid.write ⟨_, stepped⟩ appended.size appended.written
  case blank =>
    intro b free
    have taken : b ∉ front ++ w :: tail := fun member => stepped.not_free table' member free
    have one : b ≠ w := fun same => taken (by simp [same])
    have two : b ≠ bid := by
      rintro rfl
      rcases appended.placed with ⟨_, same, _⟩ | ⟨_, _, _, rfl, _⟩
      · exact one same
      · exact taken (by simp)
    exact (kept b one two).trans (laid.blank b (appended.free b free))
  case kept =>
    intro other seq apart present
    -- nobody else lists the blocks that were written
    have one : ∀ b ∈ seq.blockIds, b ≠ w := by
      rintro b member rfl
      rcases appended.own with ⟨rfl, alone⟩ | free
      · have listed : b ∈ found.blockIds := by simp [appended.table]
        exact alone (leaking.shared apart appended.present present listed member)
      · exact leaking.not_free present member free
    refine fun b member => kept b (one b member) ?_
    rintro rfl
    rcases appended.placed with ⟨_, same, _⟩ | ⟨_, free, _⟩
    · exact one b member same
    · exact leaking.not_free present member free
  case once => exact distinct'
  case counted => simp [laid.counted sequenceId found appended.present]
  case layout =>
    rw [table_of_get? table']
    have before := laid.layout sequenceId found appended.present
    rw [appended.table] at before
    refine before.append (fun b member => kept b ?_ ?_) fresh fresh' ?_
    · exact fun same => fresh (same ▸ member)
    · exact fun same => fresh' (same ▸ member)
    · rcases appended.placed with ⟨room, same, empty, tokens⟩ | ⟨full, _, apart, one, _⟩
      · exact .inl ⟨room, same, empty, by simp [tokens]⟩
      · exact .inr ⟨full, apart, one⟩

theorem Laid.copyOnWrite (laid : t.Laid) (sourceId destId : ρ) :
    (t.exec (.copyOnWrite sourceId destId)).Laid := by
  obtain ⟨lost, leaking⟩ := laid.leaking
  have stepped := leaking.step (.copyOnWrite sourceId destId)
  simp only [exec, Paged.exec] at stepped ⊢
  cases found : t.mgr.seqBlocks.get? sourceId with
  | none =>
    have dead : ¬ t.mgr.Live sourceId := by simp [Live, found]
    simpa [PagedAttentionManager.copyOnWrite, found, dead] using laid
  | some source =>
    have live : t.mgr.Live sourceId := by simp [Live, found]
    obtain ⟨pool, seqs, _, size, tokens⟩ :=
      retainBlocks_spec source.blockIds (t.mgr.setSequence destId source)
    -- retaining blocks changes reference counts only
    have free : (source.blockIds.foldl retainBlock (t.mgr.setSequence destId source)).freeBlocks =
        t.mgr.freeBlocks := by
      have lists := congrArg Pool.free pool
      rwa [retainAll_free] at lists
    simp only [PagedAttentionManager.copyOnWrite, found, if_pos live] at stepped ⊢
    apply laid.write ⟨_, stepped⟩ size
    case seqs =>
      intro other
      rw [seqs, setSequence, Dict.get?_set]
    case blank =>
      intro b member
      rw [tokens]
      exact laid.blank b (free ▸ member)
    case kept => exact fun _ _ _ _ b _ => congrFun tokens b
    case once => exact laid.distinct sourceId source found
    case counted => exact laid.counted sourceId source found
    case layout =>
      rw [tokens]
      exact laid.layout sourceId source found

theorem Laid.freeSequence (laid : t.Laid) (sequenceId : ρ) :
    (t.exec (.freeSequence sequenceId)).Laid := by
  obtain ⟨lost, leaking⟩ := laid.leaking
  have stepped := leaking.step (.freeSequence sequenceId)
  simp only [exec, Paged.exec] at stepped ⊢
  cases found : t.mgr.seqBlocks.get? sequenceId with
  | none => simpa [PagedAttentionManager.freeSequence, found] using laid
  | some seq =>
    simp only [PagedAttentionManager.freeSequence, found] at stepped ⊢
    obtain ⟨_, seqs, _, size⟩ := releaseBlocks_spec seq.blockIds
      { t.mgr with seqBlocks := t.mgr.seqBlocks.filterKeys fun k => decide (k ≠ sequenceId) }
    obtain ⟨blank, _, kept⟩ := releaseBlocks_tokens seq.blockIds
      { t.mgr with seqBlocks := t.mgr.seqBlocks.filterKeys fun k => decide (k ≠ sequenceId) }
    dsimp only at *
    generalize seq.blockIds.foldl _ _ = mgr' at *
    have remaining : ∀ other seq', mgr'.seqBlocks.get? other = some seq' →
        t.mgr.seqBlocks.get? other = some seq' := by
      intro other seq' present
      rw [seqs, Dict.get?_filterKeys] at present
      split at present
      · exact present
      · cases present
    constructor
    case leaking => exact ⟨_, stepped⟩
    case positive => exact size ▸ laid.positive
    case blank => exact blank laid.blank
    case distinct =>
      exact fun other seq' present => laid.distinct other seq' (remaining other seq' present)
    case counted =>
      exact fun other seq' present => laid.counted other seq' (remaining other seq' present)
    case layout =>
      intro other seq' present
      dsimp only at present ⊢
      rw [size]
      apply (laid.layout other seq' (remaining other seq' present)).congr
      -- what a remaining table lists was not freed
      exact fun b member => kept b (stepped.not_free present member)

theorem laid_of_reaches (reached : (machine ρ).Reaches Served t) : t.Laid := by
  apply Machine.Reaches.invariant (I := Laid) _ _ reached
  · rintro t ⟨⟨numBlocks, blockSize, created⟩, start⟩
    have leaking := create_leaking created
    simp only [create] at created
    split at created
    · cases created
    split at created
    · cases created
    next size =>
      simp only [Except.ok.injEq] at created
      rw [← created] at leaking
      constructor
      case leaking => exact ⟨0, created ▸ leaking⟩
      case positive =>
        rw [← created]
        simp only [Scheduler.PagedAttentionManager.init]
        omega
      case blank => simp [← created]
      all_goals
        intro sequenceId seq present
        rw [← created] at present
        cases present
  · intro t act laid _ served
    cases act with
    | allocateSequence sequenceId numTokens => exact laid.allocateSequence sequenceId served
    | appendToken sequenceId => exact laid.appendToken served
    | copyOnWrite sourceId destId => exact laid.copyOnWrite sourceId destId
    | freeSequence sequenceId => exact laid.freeSequence sequenceId

/-- **Capacity.** In every run with prompts of at least one token and successful appends, the
block table of a live sequence covers its tokens if and only if they all fit into one block. -/
theorem covered_iff_one_block (reached : (machine ρ).Reaches Served t) {sequenceId : ρ}
    {seq : SequenceBlocks} (found : t.mgr.seqBlocks.get? sequenceId = some seq) :
    t.Covered sequenceId seq ↔ (t.slots sequenceId).length ≤ t.mgr.blockSize :=
  (laid_of_reaches reached).covered_iff found

/-- A prompt of two tokens, shared and extended within its block of four. -/
theorem covered_iff_one_block_shared :
    let start : Tracked String :=
      ⟨{ Scheduler.PagedAttentionManager.init 4 4 with numTokens := fun _ => 0 }, fun _ => []⟩
    let t := [Action.allocateSequence "a" 2, .copyOnWrite "a" "b", .appendToken "b"].foldl
      (machine String).exec start
    t.slots "b" = [0, 0, 0] ∧ t.Covered "b" ⟨[3], 3⟩ := by
  have fresh : (machine String).init
      ⟨{ Scheduler.PagedAttentionManager.init 4 4 with numTokens := fun _ => 0 }, fun _ => []⟩ :=
    ⟨⟨4, 4, rfl⟩, rfl⟩
  refine ⟨by decide, (covered_iff_one_block (.of_follows (.init fresh) _ ?_) ?_).mpr ?_⟩
  · exact ⟨trivial, by decide, trivial, by decide, trivial, by decide, trivial⟩
  · decide
  · decide

/-- Blocks of two tokens: the third token goes into the full block of the prompt. -/
theorem appended_over_prompt : ¬ ∀ t, (machine String).Reaches Served t → ∀ sequenceId seq,
      t.mgr.seqBlocks.get? sequenceId = some seq → t.Covered sequenceId seq := by
  intro all
  have fresh : (machine String).init
      ⟨{ Scheduler.PagedAttentionManager.init 4 2 with numTokens := fun _ => 0 }, fun _ => []⟩ :=
    ⟨⟨4, 2, rfl⟩, rfl⟩
  have reached : (machine String).Reaches Served _ := .of_follows (.init fresh)
    [.allocateSequence "a" 2, .appendToken "a"] ⟨trivial, by decide, trivial, by decide, trivial⟩
  have covered := all _ reached "a" ⟨[0], 3⟩ (by decide)
  exact absurd covered.enough (by decide)

end Tracked

end DistLLM.Paged
