import DistLLM.Scheduler.Requests
import Mathlib.Algebra.BigOperators.Ring.Finset
import Mathlib.Algebra.Order.BigOperators.Group.List
import Mathlib.Data.Finset.Powerset

/-!
# The token budget of a batch

The budget is charged while the sequences of a batch are chosen, and the tokens are cut later. The
batch stays within the budget where what is cut is covered by what was charged. It is not always:
an active prompt that was fed and not stepped is charged one token and fed again, a weight above
one makes a chunk longer than its charge, running chunks are charged whatever the batch holds, and
a candidate whose charge exceeds the prefill budget is refused only if it exceeds the total budget
as well.
-/
namespace DistLLM.Scheduler

open DistLLM.Library

variable {ρ : Type} [LinearOrder ρ]

def ScheduledBatch.Within (budget : IterationBudget) (batch : ScheduledBatch ρ) : Prop :=
  (batch.totalTokens : Int) ≤ budget.maxTotalTokens ∧
    (batch.prefillTokens : Int) ≤ budget.maxPrefillTokens ∧
    (batch.length : Int) ≤ budget.maxBatchSize

instance (budget : IterationBudget) (batch : ScheduledBatch ρ) :
    Decidable (batch.Within budget) :=
  inferInstanceAs (Decidable (_ ∧ _ ∧ _))

variable (s : BatchScheduler ρ)

namespace BatchScheduler

variable {s s' : BatchScheduler ρ} {budget : IterationBudget}

/-! ### What sequences are fed -/

/-- How many tokens a sequence would be fed now: the next piece of a prompt that goes in chunks,
the prompt after the matched prefix (its last token, where all of it matched), or one token. -/
def feedLength (budget : IterationBudget) (rid : ρ) : Nat :=
  let seq := s.sequences rid
  let promptLen := seq.promptTokens.length
  match s.chunkedPrefill.get? rid with
  | some info =>
    min (s.maxChunk budget seq.priority) (promptLen - (seq.prefixMatchLen + info.tokensProcessed))
  | none =>
    if seq.generatedTokens = [] then
      if promptLen ≤ seq.prefixMatchLen then min promptLen 1 else promptLen - seq.prefixMatchLen
    else 1

def feedsPrompt (rid : ρ) : Bool :=
  (s.chunkedPrefill.get? rid).isSome || (s.sequences rid).generatedTokens.isEmpty

theorem row_feeds (budget : IterationBudget) (rid : ρ) :
    (s.row budget rid).tokens.length = s.feedLength budget rid ∧
      (s.row budget rid).isPrefill = s.feedsPrompt rid := by
  unfold row buildSeqTokens feedLength feedsPrompt
  dsimp only
  cases s.chunkedPrefill.get? rid with
  | some info =>
    dsimp only
    split <;>
    · refine ⟨?_, rfl⟩
      simp only [List.length_take, List.length_drop]
      omega
  | none =>
    dsimp only
    by_cases fresh : (s.sequences rid).generatedTokens = []
    · rw [if_pos fresh, if_pos fresh, fresh]
      split
      · -- an empty prompt is fed as an empty slice
        next empty =>
        refine ⟨?_, rfl⟩
        rw [empty]
        simp
      · next some =>
        refine ⟨?_, rfl⟩
        rw [List.length_drop]
        split <;> omega
    · rw [if_neg fresh, if_neg fresh]
      refine ⟨rfl, ?_⟩
      simpa using fresh

def fed (budget : IterationBudget) (rids : List ρ) : Nat :=
  (rids.map (s.feedLength budget)).sum

def fedPrefill (budget : IterationBudget) (rids : List ρ) : Nat :=
  s.fed budget (rids.filter s.feedsPrompt)

theorem fed_append (first second : List ρ) :
    s.fed budget (first ++ second) = s.fed budget first + s.fed budget second := by
  simp [fed]

theorem fedPrefill_append (first second : List ρ) : s.fedPrefill budget (first ++ second) =
      s.fedPrefill budget first + s.fedPrefill budget second := by
  simp [fedPrefill, fed_append]

section

variable (budget : IterationBudget)

theorem fed_perm {rids rids' : List ρ} (perm : rids.Perm rids') :
    s.fed budget rids = s.fed budget rids' :=
  (perm.map _).sum_eq

theorem fedPrefill_perm {rids rids' : List ρ} (perm : rids.Perm rids') :
    s.fedPrefill budget rids = s.fedPrefill budget rids' :=
  fed_perm budget (perm.filter _)

/-- Sequences are fed by their rows, which may be those of different states. -/
theorem fed_congr (rids : List ρ) {own : ρ → BatchScheduler ρ}
    (same : ∀ rid ∈ rids, s.row budget rid = (own rid).row budget rid) :
    s.fed budget rids = (rids.map fun rid => (own rid).feedLength budget rid).sum ∧
      s.fedPrefill budget rids = ((rids.filter fun rid => (own rid).feedsPrompt rid).map
        fun rid => (own rid).feedLength budget rid).sum := by
  have length : ∀ rid ∈ rids, s.feedLength budget rid = (own rid).feedLength budget rid := by
    intro rid member
    rw [← (s.row_feeds budget rid).1, ← ((own rid).row_feeds budget rid).1, same rid member]
  have prompt : ∀ rid ∈ rids, s.feedsPrompt rid = (own rid).feedsPrompt rid := by
    intro rid member
    rw [← (s.row_feeds budget rid).2, ← ((own rid).row_feeds budget rid).2, same rid member]
  unfold fedPrefill fed
  constructor
  · rw [List.map_congr_left length]
  · rw [List.filter_congr prompt,
      List.map_congr_left fun rid member => length rid (List.mem_of_mem_filter member)]

theorem fedPrefill_le (rids : List ρ) : s.fedPrefill budget rids ≤ s.fed budget rids := by
  unfold fedPrefill fed
  exact ((List.filter_sublist).map _).sum_le_sum fun _ _ => Nat.zero_le _

theorem fed_decodes {rids : List ρ} (decodes : ∀ rid ∈ rids, ¬ s.feedsPrompt rid = true) :
    s.fed budget rids = rids.length ∧ s.fedPrefill budget rids = 0 := by
  have length : ∀ rid ∈ rids, s.feedLength budget rid = 1 := by
    intro rid member
    have decode := decodes rid member
    rw [feedsPrompt, Bool.or_eq_true, not_or] at decode
    have cursor : s.chunkedPrefill.get? rid = none := by simpa using decode.1
    have started : (s.sequences rid).generatedTokens ≠ [] := by simpa using decode.2
    simp [feedLength, cursor, started]
  unfold fedPrefill fed
  constructor
  · rw [List.map_congr_left length]
    simp
  · rw [List.filter_eq_nil_iff.mpr decodes]
    rfl

end

theorem fed_le_charged {charges : List (ρ × Int)}
    (each : ∀ charge ∈ charges, (s.feedLength budget charge.1 : Int) ≤ charge.2) :
    (s.fed budget (charges.map Prod.fst) : Int) ≤ charged charges := by
  induction charges with
  | nil => exact le_rfl
  | cons charge rest ih =>
    have first := each charge (List.mem_cons_self ..)
    have others := ih fun other member => each other (List.mem_cons_of_mem _ member)
    simp only [fed, charged, List.map_cons, List.sum_cons] at *
    omega

theorem totalTokens_rows (budget : IterationBudget) (rids : List ρ) :
    ScheduledBatch.totalTokens (rids.map (s.row budget)) = s.fed budget rids ∧
      ScheduledBatch.prefillTokens (rids.map (s.row budget)) = s.fedPrefill budget rids := by
  have lengths : ∀ rids : List ρ,
      ScheduledBatch.totalTokens (rids.map (s.row budget)) = s.fed budget rids := by
    intro rids
    simp only [ScheduledBatch.totalTokens, fed, List.map_map, Function.comp_def, row_feeds]
  refine ⟨lengths rids, ?_⟩
  unfold ScheduledBatch.prefillTokens fedPrefill
  rw [List.filter_map, lengths]
  simp only [Function.comp_def, row_feeds]

/-- The active sequences that are taken for a decode and not for a chunk. -/
def plainDecodes (budget : IterationBudget) : List ρ :=
  (s.decodes budget).filter fun rid => decide (rid ∉ (s.chunkCharges budget).map Prod.fst)

/-- The active sequences are fed what they are charged: a decode is not fed from the prompt, a chunk
is no longer than its charge, and where chunks run all of it fits into the budget. -/
def ActiveWithinCharge (budget : IterationBudget) : Prop :=
  (∀ rid ∈ s.plainDecodes budget, ¬ s.feedsPrompt rid = true) ∧
  (∀ charge ∈ s.chunkCharges budget,
    (s.feedLength budget charge.1 : Int) ≤ charge.2) ∧
  (s.chunkCharges budget ≠ [] →
    (s.plainDecodes budget).length + charged (s.chunkCharges budget) ≤ budget.maxTotalTokens ∧
    (s.plainDecodes budget).length + ((s.chunkCharges budget).length : Int) ≤
      budget.maxBatchSize)

instance : Decidable (s.ActiveWithinCharge budget) := inferInstanceAs (Decidable (_ ∧ _ ∧ _))

/-- The pending requests that are not active. -/
def waiting : Finset ρ := (s.pendingIds.filter fun rid => decide (rid ∉ s.active)).toFinset

/-- The charge of a pending request that is not cut down to keep some slack. -/
def fullCharge (budget : IterationBudget) (rid : ρ) : Int :=
  if s.chunks budget (s.totalLen rid) then budget.maxPrefillTokens else s.totalLen rid

def slack (budget : IterationBudget) (decodeAdded : Nat) : ℚ :=
  s.floats (s.floats decodeAdded * budget.prefillSlackRatio)

/-- What the active sequences leave of the batch size and of the total budget admits no set of
pending requests with more prompt tokens than what they leave of the prefill budget. -/
def PrefillSuffices (budget : IterationBudget) : Prop :=
  let running := charged (s.chunkCharges budget)
  ∀ chosen ∈ s.waiting.powerset,
    (((s.plainDecodes budget).length + (s.chunkCharges budget).length + chosen.card : Nat) : Int) ≤
      budget.maxBatchSize →
    (s.decodes budget).length + running + ∑ rid ∈ chosen, s.fullCharge budget rid ≤
      budget.maxTotalTokens →
    running + ((∑ rid ∈ chosen.filter fun rid => (s.activate budget rid).feedsPrompt rid,
      (s.activate budget rid).feedLength budget rid : Nat) : Int) ≤ budget.maxPrefillTokens

/-- A pending request would be fed no more than its charge, and its charge would not be cut. -/
def PendingWithinCharge (budget : IterationBudget) : Prop :=
  ∀ rid ∈ s.waiting,
    ((s.activate budget rid).feedLength budget rid : Int) ≤ s.fullCharge budget rid ∧
    (budget.maxPrefillTokens < s.totalLen rid → s.slack budget (s.decodes budget).length ≤
      ((s.totalLen rid - s.fullCharge budget rid : Int) : ℚ))

/-- What can be cut is covered by what is charged, in both passes. -/
def Covered (budget : IterationBudget) : Prop :=
  let s := s.evictCompleted.2
  0 ≤ budget.maxPrefillTokens ∧ s.ActiveWithinCharge budget ∧ s.PendingWithinCharge budget ∧
    s.PrefillSuffices budget

instance : Decidable (s.PrefillSuffices budget) :=
  inferInstanceAs (Decidable (∀ chosen ∈ s.waiting.powerset, _))

instance : Decidable (s.PendingWithinCharge budget) :=
  inferInstanceAs (Decidable (∀ rid ∈ s.waiting, _))

instance : Decidable (s.Covered budget) := inferInstanceAs (Decidable (_ ∧ _ ∧ _ ∧ _))

/-- The same of a call, after the preemption and under the adjusted budget. -/
def CoveredCall (budget : IterationBudget) (policy : BudgetPolicy) (shouldPreempt : Bool) : Prop :=
  ∀ out ∈ (s.preemptIfNeeded shouldPreempt).toOption, out.2.Covered (s.adjust budget policy)

instance (policy : BudgetPolicy) (shouldPreempt : Bool) :
    Decidable (s.CoveredCall budget policy shouldPreempt) :=
  inferInstanceAs (Decidable (∀ out ∈ (s.preemptIfNeeded shouldPreempt).toOption, _))

/-! ### The passes -/

/-- What the active pass takes: it is fed no more than it is charged. -/
structure ActiveFits (budget : IterationBudget) : Prop where
  length : (s.buildActiveBatch budget).batch.length =
    (s.plainDecodes budget).length + (s.chunkCharges budget).length
  fed : (s.fed budget (s.buildActiveBatch budget).batch : Int) ≤
    (s.decodes budget).length + charged (s.chunkCharges budget)
  prefill : (s.fedPrefill budget (s.buildActiveBatch budget).batch : Int) ≤
    charged (s.chunkCharges budget)
  charges : charged (s.chunkCharges budget) ≤ budget.maxPrefillTokens
  bounded : (s.buildActiveBatch budget).batch ≠ [] →
    (s.fed budget (s.buildActiveBatch budget).batch : Int) ≤ budget.maxTotalTokens ∧
      ((s.buildActiveBatch budget).batch.length : Int) ≤ budget.maxBatchSize

theorem ActiveWithinCharge.fits (covered : s.ActiveWithinCharge budget)
    (nonneg : 0 ≤ budget.maxPrefillTokens) (distinct : s.active.Nodup) : s.ActiveFits budget := by
  obtain ⟨decodes, chunks, room⟩ := covered
  have items := s.activeItems_perm.nodup_iff.mpr distinct
  have decodesOnce : (s.decodes budget).Nodup :=
    (items.filter _).sublist (List.take_sublist _ _)
  have chargesOnce : ((s.chunkCharges budget).map Prod.fst).Nodup := by
    unfold chunkCharges
    split
    · exact items.sublist (s.chargeChunks_sublist budget _ _)
    · exact List.nodup_nil
  -- a sequence that runs a chunk may be among the decodes, and is fed its chunk
  have batch : (s.buildActiveBatch budget).batch.Perm
      (s.plainDecodes budget ++ (s.chunkCharges budget).map Prod.fst) := by
    rw [buildActiveBatch_eq]
    exact foldl_insertKey_perm decodesOnce chargesOnce
  obtain ⟨fedPlain, promptPlain⟩ := fed_decodes budget decodes
  have fedChunks := fed_le_charged chunks
  have within : charged (s.chunkCharges budget) ≤ budget.maxPrefillTokens := by
    unfold chunkCharges
    split
    · exact s.charged_chargeChunks_le budget _ nonneg
    · exact nonneg
  have promptChunks := s.fedPrefill_le budget ((s.chunkCharges budget).map Prod.fst)
  have fewer : (s.plainDecodes budget).length ≤ (s.decodes budget).length :=
    List.length_filter_le _ _
  have fed := s.fed_perm budget batch
  have fedPrefill := s.fedPrefill_perm budget batch
  rw [fed_append, fedPlain] at fed
  rw [fedPrefill_append, promptPlain, zero_add] at fedPrefill
  have length := batch.length_eq
  rw [List.length_append, List.length_map] at length
  refine ⟨length, by omega, by omega, within, fun some => ?_⟩
  by_cases running : s.chunkCharges budget = []
  · -- only decodes, which were counted against both bounds
    have most : (s.decodes budget).length ≤
        (min budget.decodeSlots budget.maxTotalTokens).toNat := List.length_take_le _ _
    have least := List.length_pos_iff.mpr some
    have slots : budget.decodeSlots ≤ budget.maxBatchSize := min_le_left _ _
    rw [running] at fedChunks length fed
    simp only [charged, List.map_nil, List.sum_nil, List.length_nil] at fedChunks length fed
    omega
  · -- with chunks only the condition bounds the batch, the code does not
    obtain ⟨tokens, sequences⟩ := room running
    omega

theorem get?_startChunks {rid other : ρ} (apart : other ≠ rid) :
    (s.startChunks budget rid).get? other = s.chunkedPrefill.get? other := by
  unfold startChunks
  dsimp only
  split
  · rw [Dict.get?_set, if_neg (Ne.symm apart)]
  · rfl

theorem startChunks_congr {rid : ρ} (same : (s.sequences rid).SameTokens (s'.sequences rid))
    (cursor : s'.chunkedPrefill.get? rid = s.chunkedPrefill.get? rid)
    (pieces : s'.chunks = s.chunks) (floats : s'.floats = s.floats) :
    (s'.startChunks budget rid).get? rid = (s.startChunks budget rid).get? rid := by
  unfold startChunks
  dsimp only
  rw [pieces, floats, same.totalLen, same.prefixMatchLen]
  split
  · rw [Dict.get?_set_self, Dict.get?_set_self]
  · exact cursor

omit [LinearOrder ρ] in
theorem fullCharge_le (budget : IterationBudget) (rid : ρ) :
    s.fullCharge budget rid ≤ s.totalLen rid := by
  unfold fullCharge
  split
  next pieces =>
    unfold chunks at pieces
    rw [Bool.and_eq_true, decide_eq_true_eq] at pieces
    exact pieces.2.1.le
  next => exact le_rfl

theorem Promoting.waiting {chosen promoted : List ρ} {gone : List (PendingEntry ρ)}
    {st : Promotion ρ} (so : Promoting s chosen promoted gone st) {rid : ρ}
    (member : rid ∈ promoted) : rid ∈ s.waiting := by
  obtain ⟨e, known, own⟩ := so.promotedGone rid member
  refine List.mem_toFinset.mpr (List.mem_filter.mpr ⟨?_, by simpa using so.fresh rid member⟩)
  exact own ▸ List.mem_map_of_mem (so.heap.mem_iff.mpr (List.mem_append_left _ known))

/-- The promotions of the loop so far, each charged in full, with the chunk cursors they set. -/
structure Charged (s : BatchScheduler ρ) (budget : IterationBudget) (promoted : List ρ)
    (st : Promotion ρ) : Prop where
  slots : st.batch.length + st.remainSlots = budget.maxBatchSize
  total : (promoted.map (s.fullCharge budget)).sum + st.remainT =
    (s.buildActiveBatch budget).remainT
  left : promoted ≠ [] → 0 ≤ st.remainT ∧ 0 ≤ st.remainSlots
  cursors : ∀ rid, st.scheduler.chunkedPrefill.get? rid =
    if rid ∈ promoted then (s.startChunks budget rid).get? rid else s.chunkedPrefill.get? rid

omit [LinearOrder ρ] in
/-- A charge that would not be cut is the full one. -/
theorem charge_full {decodeAdded : Nat} {st : Promotion ρ} {tokens chunk : Int}
    (charged : st.charge budget decodeAdded tokens = some chunk) {full : Int}
    (own : full = if st.scheduler.chunks budget tokens then budget.maxPrefillTokens else tokens)
    (slack : budget.maxPrefillTokens < tokens →
      st.scheduler.slack budget decodeAdded ≤ ((tokens - full : Int) : ℚ)) :
    chunk = full ∧ 0 < st.remainSlots ∧ tokens ≤ st.remainT := by
  unfold Promotion.charge at charged
  dsimp only at charged
  split at charged
  · cases charged
  next room =>
  rw [not_or, not_or, not_le, not_lt] at room
  refine ⟨?_, room.1, room.2.2⟩
  rw [← own] at charged
  split at charged
  · cases charged
  next short =>
  have loose : ¬ ((st.remainT - full : Int) : ℚ) <
      st.scheduler.floats (st.scheduler.floats decodeAdded * budget.prefillSlackRatio) := by
    intro tight
    have long : budget.maxPrefillTokens < tokens := by
      rw [decide_eq_true tight, Bool.true_and, decide_eq_true_eq] at short
      exact not_le.mp short
    have enough : ((tokens - full : Int) : ℚ) ≤ ((st.remainT - full : Int) : ℚ) := by
      exact_mod_cast Int.sub_le_sub_right room.2.2 full
    exact absurd tight (not_lt.mpr ((slack long).trans enough))
  simp only [loose, decide_false, Bool.false_eq_true, if_false] at charged
  split at charged
  · cases charged
  split at charged
  · cases charged
    rfl
  · cases charged

theorem Charged.round {s : BatchScheduler ρ} {promoted : List ρ} {gone : List (PendingEntry ρ)}
    {st : Promotion ρ} {entry : PendingEntry ρ} {heap : Array (PendingEntry ρ)}
    (pending : s.PendingWithinCharge budget)
    (so : Promoting s (s.buildActiveBatch budget).batch promoted gone st)
    (charges : Charged s budget promoted st)
    (popped : Heap.heappop PendingEntry.lt st.scheduler.pendingHeap = .ok (some (entry, heap))) :
    ∃ promoted' gone', Promoting s (s.buildActiveBatch budget).batch promoted' gone'
        ((st.withHeap heap).consider budget (s.decodes budget).length entry) ∧
      Charged s budget promoted'
        ((st.withHeap heap).consider budget (s.decodes budget).length entry) := by
  obtain ⟨promoted', gone', next⟩ : ∃ promoted' gone', Promoting s
      (s.buildActiveBatch budget).batch promoted' gone'
      ((st.withHeap heap).consider budget (s.decodes budget).length entry) := so.round popped
  refine ⟨promoted', gone', next, ?_⟩
  have grown {more : List ρ} (batch : ((st.withHeap heap).consider budget
      (s.decodes budget).length entry).batch = st.batch ++ more) : promoted' = promoted ++ more := by
    rw [next.batch, so.batch, List.append_assoc] at batch
    exact List.append_cancel_left batch
  rcases consider_cases budget (s.decodes budget).length (st.withHeap heap) entry with
    ⟨-, same⟩ | ⟨-, same⟩ | ⟨chunk, absent, charged, same⟩
  · obtain rfl := (grown (by rw [same, List.append_nil]; rfl)).trans (List.append_nil _)
    rw [same]
    exact { charges with }
  · obtain rfl := (grown (by rw [same, List.append_nil]; rfl)).trans (List.append_nil _)
    rw [same]
    exact { charges with }
  have one : promoted' = promoted ++ [entry.requestId] := grown (by rw [same]; rfl)
  have new : entry.requestId ∉ promoted := by
    intro member
    have distinct := next.distinct
    rw [one] at distinct
    exact (List.nodup_append.mp distinct).2.2 _ member _ (List.mem_singleton_self _) rfl
  -- it waited, and its length and the settings are what they were before the loop
  have waited : entry.requestId ∈ s.waiting := by
    refine next.waiting ?_
    rw [one]
    exact List.mem_append_right _ (List.mem_singleton_self _)
  obtain ⟨-, slack⟩ := pending _ waited
  have length : st.scheduler.totalLen entry.requestId = s.totalLen entry.requestId :=
    so.sameTokens.totalLen _
  have pieces : st.scheduler.chunks = s.chunks := by rw [so.frame]; rfl
  have floats : st.scheduler.floats = s.floats := by rw [so.frame]
  have own : s.fullCharge budget entry.requestId =
      if (st.withHeap heap).scheduler.chunks budget (st.scheduler.totalLen entry.requestId)
      then budget.maxPrefillTokens else (st.scheduler.totalLen entry.requestId : Int) := by
    have same : (st.withHeap heap).scheduler.chunks = st.scheduler.chunks := rfl
    rw [same, pieces, length]
    rfl
  obtain ⟨full, slot, room⟩ := charge_full charged own (by
    have same : (st.withHeap heap).scheduler.slack = s.slack := by
      funext budget decodes
      exact congrArg (fun fl : Rounding => fl (fl decodes * budget.prefillSlackRatio)) floats
    have length : (st.withHeap heap).scheduler.totalLen entry.requestId = _ := length
    rw [same, length]
    exact slack)
  rw [same, one]
  constructor
  case slots =>
    have slots := charges.slots
    simp only [List.length_append, List.length_singleton, Promotion.withHeap]
    omega
  case total =>
    have total := charges.total
    simp only [List.map_append, List.map_cons, List.map_nil, List.sum_append, List.sum_cons,
      List.sum_nil, full, Promotion.withHeap]
    omega
  case left =>
    intro _
    have less := s.fullCharge_le budget entry.requestId
    have room : (s.totalLen entry.requestId : Int) ≤ st.remainT := length ▸ room
    have slot : 0 < st.remainSlots := slot
    simp only [full, Promotion.withHeap]
    omega
  case cursors =>
    intro rid
    have before := charges.cursors rid
    have set : ((st.withHeap heap).scheduler.activate budget entry.requestId).chunkedPrefill =
        st.scheduler.startChunks budget entry.requestId := rfl
    simp only [set]
    by_cases own : rid = entry.requestId
    · subst own
      rw [if_neg new] at before
      rw [if_pos (by simp)]
      exact startChunks_congr (so.sameTokens _) before pieces floats
    · rw [get?_startChunks own, before]
      simp [own]

theorem row_promoted {rid : ρ} (same : s.SameTokens s')
    (cursor : s'.chunkedPrefill.get? rid = (s.startChunks budget rid).get? rid)
    (pieces : s'.maxChunk = s.maxChunk) :
    s'.row budget rid = (s.activate budget rid).row budget rid := by
  let started : BatchScheduler ρ := { s with chunkedPrefill := s.startChunks budget rid }
  have first : s'.row budget rid = started.row budget rid := row_congr (same rid) cursor pieces
  have second : (s.activate budget rid).row budget rid = started.row budget rid :=
    row_congr (setStatus_sameTokens s rid .prefilling rid) rfl rfl
  exact first.trans second.symm

theorem charged_start :
    Charged s budget [] (Promotion.start s budget (s.buildActiveBatch budget)) where
  slots := by simp [Promotion.start]
  total := by simp [Promotion.start]
  left none := absurd rfl none
  cursors rid := by simp [Promotion.start]

/-- What the promotions are fed, with what the active sequences are. -/
theorem Charged.within {promoted : List ρ} {gone : List (PendingEntry ρ)} {st : Promotion ρ}
    (fits : s.ActiveFits budget) (pending : s.PendingWithinCharge budget)
    (prefill : s.PrefillSuffices budget) (charges : Charged s budget promoted st)
    (so : Promoting s (s.buildActiveBatch budget).batch promoted gone st) (some : st.batch ≠ [])
    (inside : ∀ rid ∈ (s.buildActiveBatch budget).batch, rid ∈ s.active) :
    (st.scheduler.fed budget st.batch : Int) ≤ budget.maxTotalTokens ∧
      (st.scheduler.fedPrefill budget st.batch : Int) ≤ budget.maxPrefillTokens ∧
      (st.batch.length : Int) ≤ budget.maxBatchSize := by
  have pieces : st.scheduler.maxChunk = s.maxChunk := by rw [so.frame]; rfl
  -- the active sequences are fed as before, the others as if each were promoted alone
  have before (rid : ρ) (member : rid ∈ (s.buildActiveBatch budget).batch) :
      st.scheduler.row budget rid = s.row budget rid := by
    refine row_congr (so.sameTokens rid) ?_ pieces
    rw [charges.cursors, if_neg fun new => so.fresh rid new (inside rid member)]
  have new (rid : ρ) (member : rid ∈ promoted) :
      st.scheduler.row budget rid = (s.activate budget rid).row budget rid :=
    row_promoted so.sameTokens (by rw [charges.cursors, if_pos member]) pieces
  obtain ⟨fedBefore, promptBefore⟩ := fed_congr budget _ before
  obtain ⟨fedNew, promptNew⟩ := fed_congr budget _ new
  rw [so.batch, fed_append, fedPrefill_append]
  change _ = s.fed budget _ at fedBefore
  change _ = s.fedPrefill budget _ at promptBefore
  rw [fedBefore, promptBefore, fedNew, promptNew]
  obtain ⟨length, fed, prompt, charged, bounded⟩ := fits
  by_cases none : promoted = []
  · subst none
    obtain ⟨tokens, sequences⟩ := bounded (by simpa [so.batch] using some)
    simp only [List.map_nil, List.filter_nil, List.sum_nil, List.append_nil]
    omega
  have slots := charges.slots
  have total : (promoted.map fun rid => s.fullCharge budget rid).sum + st.remainT = _ :=
    charges.total
  obtain ⟨leftT, leftSlots⟩ := charges.left none
  rw [so.batch] at slots
  rw [buildActiveBatch_eq] at total
  dsimp only at total
  simp only [List.length_append] at slots ⊢
  have waited : ∀ rid ∈ promoted, rid ∈ s.waiting := fun rid => so.waiting
  have each : ((promoted.map fun rid => (s.activate budget rid).feedLength budget rid).sum : Int) ≤
      (promoted.map fun rid => s.fullCharge budget rid).sum := by
    rw [Nat.cast_list_sum, List.map_map]
    exact List.sum_le_sum fun rid member => (pending rid (waited rid member)).1
  have chosen := prefill promoted.toFinset
    (Finset.mem_powerset.mpr fun rid member => waited rid (List.mem_toFinset.mp member))
  rw [List.toFinset_card_of_nodup so.distinct, List.sum_toFinset _ so.distinct,
    ← List.toFinset_filter, List.sum_toFinset _ (so.distinct.filter _)] at chosen
  have least := chosen (by omega) (by omega)
  omega

theorem Covered.within {victim : Option ρ} {out : Scheduled ρ} (covered : s.Covered budget)
    (distinct : s.active.Nodup) (done : s.buildBatch budget victim = .ok out)
    {batch : ScheduledBatch ρ} (built : batch ∈ out.batch) : batch.Within budget := by
  obtain ⟨nonneg, active, pending, prefill⟩ := covered
  have added : (s.evictCompleted.2.buildActiveBatch budget).decodeAdded =
      (s.evictCompleted.2.decodes budget).length := by rw [buildActiveBatch_eq]
  obtain ⟨st, s', ⟨promoted, gone, so, charges⟩, after, -, result⟩ := buildBatch_rule
    (I := fun st => ∃ promoted gone, Promoting s.evictCompleted.2
      (s.evictCompleted.2.buildActiveBatch budget).batch promoted gone st ∧
        Charged s.evictCompleted.2 budget promoted st)
    ⟨[], [], promoting_start .., charged_start⟩
    (fun st entry heap so popped _ => by
      obtain ⟨promoted, gone, so, charges⟩ := so
      rw [added]
      exact charges.round pending so popped)
    (eachPromoted_true s budget) done
  rcases result with ⟨-, none, -⟩ | ⟨some, rids, perm, same, -⟩
  · rw [none] at built
    cases built
  rw [same] at built
  cases built
  have kept : s.evictCompleted.2.active.Nodup := distinct.filter _
  obtain ⟨once, inside⟩ := buildActiveBatch_ids budget kept
  obtain ⟨tokens, prompts, sequences⟩ := charges.within
    (active.fits nonneg kept) pending prefill so some inside
  have apart : st.batch.Nodup := by
    rw [so.batch]
    refine once.append so.distinct fun rid old new => so.fresh rid new (inside rid old)
  rw [buildBatchTensors_rows budget (perm.nodup_iff.mpr apart) s']
  -- returning the rejected entries changes nothing that is fed
  have unchanged : ∀ rid, s'.row budget rid = st.scheduler.row budget rid := by
    intro rid
    rw [after]
    exact row_congr (Sequence.SameTokens.refl _) rfl rfl
  have rows : rids.map (s'.row budget) = rids.map (st.scheduler.row budget) :=
    List.map_congr_left fun rid _ => unchanged rid
  obtain ⟨total, prompt⟩ := st.scheduler.totalTokens_rows budget rids
  unfold ScheduledBatch.Within
  rw [rows, total, prompt, List.length_map, perm.length_eq, fed_perm budget perm,
    fedPrefill_perm budget perm]
  exact ⟨tokens, prompts, sequences⟩

end BatchScheduler

/-- In every state that a run reaches, the batch of a call in which all that is cut is covered by
what is charged is within the adjusted budget. -/
theorem batch_within_budget {s : System ρ} (reachable : (batching Initial).Reachable s)
    {budget : IterationBudget} {policy : BudgetPolicy} {shouldPreempt : Bool}
    (covered : s.scheduler.CoveredCall budget policy shouldPreempt)
    {out : BatchScheduler.Scheduled ρ}
    (done : s.scheduler.scheduleWithBudget budget policy shouldPreempt = .ok out)
    {batch : ScheduledBatch ρ} (built : batch ∈ out.batch) :
    batch.Within (s.scheduler.adjust budget policy) := by
  have known := System.known_reaches reachable
  obtain ⟨victim, s1, preempts, builds⟩ := BatchScheduler.scheduleWithBudget_ok done
  have ids : s1.KnownIds s.added := known.ids.preemptIfNeeded preempts
  have coveredNow : s1.Covered (s.scheduler.adjust budget policy) :=
    covered (victim, s1) (System.mem_toOption.mpr preempts)
  exact coveredNow.within ids.active builds built

def twoOfTwo : List (Action Nat) :=
  [.add 0 { promptTokens := [1, 2] }, .add 1 { promptTokens := [3, 4] }]

theorem batch_within_budget_example :
    ScheduledBatch.Within { maxPrefillTokens := 4, maxTotalTokens := 6 }
      [{ requestId := 0, tokens := [1, 2], isPrefill := true, positionOffset := 0 },
        { requestId := 1, tokens := [3, 4], isPrefill := true, positionOffset := 0 }] := by
  have run := (System.fresh_reaches (fun _ _ => True) none).of_follows twoOfTwo
    (by decide +kernel)
  have issued : ((twoOfTwo.foldl (batching Initial).exec
      (System.fresh none)).scheduler.scheduleWithBudget
        { maxPrefillTokens := 4, maxTotalTokens := 6 } .unchanged
          false).toOption.bind BatchScheduler.Scheduled.batch =
      some [{ requestId := 0, tokens := [1, 2], isPrefill := true, positionOffset := 0 },
        { requestId := 1, tokens := [3, 4], isPrefill := true, positionOffset := 0 }] := by
    decide +kernel
  obtain ⟨out, done, built⟩ := Option.bind_eq_some_iff.mp issued
  exact batch_within_budget run (by decide +kernel) (System.mem_toOption.mp done) built

/-- A prefill budget of three tokens lets both of them in. -/
theorem prefill_over_budget :
    ¬ ∀ s, (batching (Initial (ρ := Nat))).Reachable s → ∀ budget policy shouldPreempt out,
      s.scheduler.scheduleWithBudget budget policy shouldPreempt = .ok out →
      ∀ batch ∈ out.batch, batch.Within (s.scheduler.adjust budget policy) := by
  intro within
  have run := (System.fresh_reaches (fun _ _ => True) none).of_follows twoOfTwo
    (by decide +kernel)
  have both : ∀ out ∈ ((twoOfTwo.foldl (batching Initial).exec
        (System.fresh none)).scheduler.scheduleWithBudget { maxPrefillTokens := 3 } .unchanged
          false).toOption, ∀ batch ∈ out.batch, batch.Within { maxPrefillTokens := 3 } :=
    fun out member => within _ run _ _ _ out (System.mem_toOption.mp member)
  exact absurd both (by decide +kernel)

end DistLLM.Scheduler
