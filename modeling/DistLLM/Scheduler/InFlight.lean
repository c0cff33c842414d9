import DistLLM.Scheduler.Building
import Mathlib.Algebra.Order.BigOperators.Group.List

/-!
# Live sequences and the decode slots

The slots that an adapted budget has for the sequences in flight, and which of them the pass over
the active sequences reaches. It takes one decode each for the first ones, and then those with an
unfinished prompt as long as prefill budget is left.
-/
namespace DistLLM.Scheduler

open DistLLM.Library

variable {ρ : Type}

/-- `compute_sarathi_budget` with its early return for a WAN policy. -/
def adaptBudget (fl : Rounding) (disabled : Bool) (pressure : ℚ) (active : List Sequence)
    (budget : IterationBudget) : IterationBudget :=
  if disabled then budget else computeSarathiBudget fl pressure active budget

def decodeDemand (active : List Sequence) : Nat :=
  (active.countP fun s => s.status == .decoding) +
    active.countP fun s => s.status == .prefilling && !s.generatedTokens.isEmpty

/-- Where the slots suffice: always when they are relaxed, under high pressure by what the demand is
scaled to, and else by the slots that the budget came with. -/
def SlotsSuffice (fl : Rounding) (disabled : Bool) (pressure : ℚ) (active : List Sequence)
    (budget : IterationBudget) : Prop :=
  let held : Int := min (active.countP Sequence.inFlight : Int) budget.maxBatchSize
  if disabled = false ∧ fl (7 / 10) < pressure then
    (held : ℚ) ≤ fl (fl (max budget.decodeSlots (decodeDemand active) : Int) * fl (1 + pressure))
  else disabled = false ∧ pressure < fl (3 / 10) ∨ held ≤ budget.maxDecodeTokens

variable {fl : Rounding}

instance (disabled : Bool) (pressure : ℚ) (active : List Sequence) (budget : IterationBudget) :
    Decidable (SlotsSuffice fl disabled pressure active budget) :=
  inferInstanceAs (Decidable (if _ ∧ _ then _ else _ ∨ _))

theorem le_truncate_iff {q : ℚ} (nonneg : 0 ≤ q) (n : Int) : n ≤ truncate q ↔ (n : ℚ) ≤ q := by
  rw [truncate, if_pos nonneg]
  exact Int.le_floor

theorem le_ite_max {c : Prop} [Decidable c] {slots size scaled : Int} (within : slots ≤ size) :
    slots ≤ if c then max slots scaled else size := by
  split
  · exact le_max_left _ _
  · exact within

/-- No batch size of an adapted budget is below its decode slots. -/
theorem computeSarathiBudget_decodeSlots (pressure : ℚ) (active : List Sequence)
    (budget : IterationBudget) : (computeSarathiBudget fl pressure active budget).decodeSlots =
      (computeSarathiBudget fl pressure active budget).maxDecodeTokens :=
  min_eq_right (le_ite_max (min_le_right _ _))

theorem adaptBudget_decodeSlots_iff (disabled : Bool) (pressure : ℚ) (active : List Sequence)
    (budget : IterationBudget) : min (active.countP Sequence.inFlight : Int) budget.maxBatchSize ≤
        (adaptBudget fl disabled pressure active budget).decodeSlots ↔
      SlotsSuffice fl disabled pressure active budget := by
  unfold SlotsSuffice adaptBudget
  cases disabled with
  | true => simp [IterationBudget.decodeSlots]
  | false =>
    simp only [Bool.false_eq_true, if_false, true_and]
    rw [computeSarathiBudget_decodeSlots]
    dsimp only [computeSarathiBudget]
    rw [le_min_iff, and_iff_left (min_le_right _ _)]
    by_cases high : fl (7 / 10) < pressure
    · rw [if_pos high, if_pos high, le_min_iff, and_iff_right (min_le_right _ _)]
      have scaled : 0 ≤ fl (fl (max budget.decodeSlots (decodeDemand active) : Int) *
          fl (1 + pressure)) := by
        have demand : (0 : Int) ≤ max budget.decodeSlots (decodeDemand active) :=
          le_max_of_le_right (Int.natCast_nonneg _)
        have positive := fl.nonneg (by norm_num : (0 : ℚ) ≤ 7 / 10)
        exact fl.nonneg (mul_nonneg (fl.nonneg (by exact_mod_cast demand))
          (fl.nonneg (by linarith)))
      have rounded := le_truncate_iff scaled
      simp only [IterationBudget.decodeSlots, decodeDemand, Nat.cast_add] at rounded ⊢
      exact rounded _
    · rw [if_neg high, if_neg high]
      by_cases low : pressure < fl (3 / 10)
      · -- the slots are relaxed to no less than what is in flight
        simp only [low, if_true, true_or, iff_true]
        exact (min_le_left _ _).trans ((le_max_left _ _).trans (le_max_left _ _))
      · simp [low]

theorem eq_filter_append {α : Type} {r : α → α → Prop} [DecidableRel r]
    (asymm : ∀ a b, r a b → ¬ r b a) {l : List α} (sorted : l.Pairwise r) {x : α} (member : x ∈ l) :
    ∃ post, l = l.filter (fun a => decide (r a x)) ++ x :: post := by
  induction l with
  | nil => cases member
  | cons first rest ih =>
    obtain ⟨before, sorted⟩ := List.pairwise_cons.mp sorted
    rcases List.mem_cons.mp member with rfl | later
    · refine ⟨rest, ?_⟩
      have none : rest.filter (fun a => decide (r a x)) = [] := by
        rw [List.filter_eq_nil_iff]
        intro a listed
        simpa using asymm x a (before a listed)
      have own : ¬ r x x := fun loop => asymm x x loop loop
      rw [List.filter_cons_of_neg (by simpa using own), none, List.nil_append]
    · obtain ⟨post, split⟩ := ih sorted later
      refine ⟨post, ?_⟩
      rw [List.filter_cons_of_pos (by simpa using before x later), List.cons_append, ← split]

variable [LinearOrder ρ] (s : BatchScheduler ρ)

namespace BatchScheduler

variable (s : BatchScheduler ρ)

/-- The pass comes to `other` before `rid`. -/
def Ahead (other rid : ρ) : Prop :=
  s.isUrgent rid < s.isUrgent other ∨ s.isUrgent other = s.isUrgent rid ∧ other < rid

instance : DecidableRel s.Ahead := fun _ _ => inferInstanceAs (Decidable (_ ∨ _))

theorem Ahead.asymm (a b : ρ) (ahead : s.Ahead a b) : ¬ s.Ahead b a := by
  rcases ahead with urgent | ⟨same, before⟩
  · rintro (back | ⟨same, -⟩)
    · exact lt_asymm urgent back
    · exact urgent.ne same
  · rintro (back | ⟨-, back⟩)
    · exact back.ne same
    · exact lt_asymm before back

theorem activeItems_pairwise (distinct : s.active.Nodup) : s.activeItems.Pairwise s.Ahead := by
  let before (a b : ρ) : Prop :=
    s.isUrgent b < s.isUrgent a ∨ s.isUrgent a = s.isUrgent b ∧ a ≤ b
  have total : Std.Total before := ⟨fun a b => by
    rcases lt_trichotomy (s.isUrgent a) (s.isUrgent b) with less | same | less
    · exact .inr (.inl less)
    · rcases le_total a b with le | le
      · exact .inl (.inr ⟨same, le⟩)
      · exact .inr (.inr ⟨same.symm, le⟩)
    · exact .inl (.inl less)⟩
  have trans : IsTrans ρ before := ⟨fun a b c => by
    rintro (less | ⟨same, le⟩) (less' | ⟨same', le'⟩)
    · exact .inl (less'.trans less)
    · exact .inl (same' ▸ less)
    · exact .inl (same.symm ▸ less')
    · exact .inr ⟨same.trans same', le.trans le'⟩⟩
  have sorted : s.activeItems.Pairwise before := List.pairwise_insertionSort before s.active
  have once : s.activeItems.Nodup := s.activeItems_perm.nodup_iff.mpr distinct
  refine (sorted.and once).imp fun {a b} ⟨ordered, different⟩ => ?_
  rcases ordered with less | ⟨same, le⟩
  · exact .inl less
  · exact .inr ⟨same, lt_of_le_of_ne le different⟩

variable {s} {rid : ρ}

theorem activeItems_split (distinct : s.active.Nodup) (member : rid ∈ s.active) :
    ∃ post, s.activeItems =
      s.activeItems.filter (fun other => decide (s.Ahead other rid)) ++ rid :: post :=
  eq_filter_append (Ahead.asymm s) (activeItems_pairwise s distinct)
    (s.activeItems_perm.mem_iff.mpr member)

/-- The sequences in flight that the pass comes to before `rid`. -/
def flyingAhead (rid : ρ) : Nat :=
  s.active.countP fun other => (s.sequences other).inFlight && decide (s.Ahead other rid)

theorem mem_take_filter_iff {α : Type} [DecidableEq α] {p : α → Bool} {pre post : List α} {x : α}
    (once : (pre ++ x :: post).Nodup) {n : Nat} :
    x ∈ ((pre ++ x :: post).filter p).take n ↔ p x = true ∧ pre.countP p < n := by
  have absent : x ∉ pre := by
    intro listed
    exact (List.nodup_append.mp once).2.2 x listed x (List.mem_cons_self ..) rfl
  have behind : x ∉ post := (List.nodup_cons.mp (List.nodup_append.mp once).2.1).1
  have notBefore (k : Nat) : x ∉ (pre.filter p).take k := fun taken =>
    absent (List.mem_filter.mp (List.mem_of_mem_take taken)).1
  have notAfter (k : Nat) : x ∉ (post.filter p).take k := fun taken =>
    behind (List.mem_filter.mp (List.mem_of_mem_take taken)).1
  rw [List.filter_append, List.take_append, List.mem_append, or_iff_right (notBefore n),
    ← List.countP_eq_length_filter]
  by_cases chosen : p x = true
  · rw [List.filter_cons_of_pos chosen, and_iff_right chosen]
    -- it is the first of what is left of the `n` after those before it
    cases left : n - pre.countP p with
    | zero => simpa using Nat.sub_eq_zero_iff_le.mp left
    | succ more => simpa using by omega
  · rw [List.filter_cons_of_neg chosen]
    simp [chosen, notAfter]

variable {budget : IterationBudget}

theorem mem_decodes_iff (distinct : s.active.Nodup) (member : rid ∈ s.active)
    (flying : (s.sequences rid).inFlight = true) :
    rid ∈ s.decodes budget ↔
      (s.flyingAhead rid : Int) < min budget.decodeSlots budget.maxTotalTokens := by
  obtain ⟨post, split⟩ := activeItems_split distinct member
  have once : s.activeItems.Nodup := s.activeItems_perm.nodup_iff.mpr distinct
  have ahead : (s.activeItems.filter fun other => decide (s.Ahead other rid)).countP
      (fun other => (s.sequences other).inFlight) = s.flyingAhead rid := by
    rw [List.countP_filter, s.activeItems_perm.countP_eq]
    rfl
  rw [split] at once
  rw [decodes, split, mem_take_filter_iff once, ahead, and_iff_right flying]
  omega

/-! ### The chunks -/

def hasChunk (rid : ρ) : Bool :=
  (s.chunkedPrefill.get? rid).any fun info => !info.isComplete

def chunkLeft (rid : ρ) : Int :=
  (s.chunkedPrefill.get? rid).elim 0 ChunkedPrefillInfo.remaining

theorem chunkLeft_pos (running : s.hasChunk rid = true) : 0 < s.chunkLeft rid := by
  unfold hasChunk at running
  unfold chunkLeft
  cases found : s.chunkedPrefill.get? rid with
  | none => simp [found] at running
  | some info =>
    have under : ¬ info.totalPromptTokens ≤ info.tokensProcessed := by
      simpa [found, ChunkedPrefillInfo.isComplete] using running
    simp only [Option.elim_some, ChunkedPrefillInfo.remaining]
    omega

def chunksLeft (rids : List ρ) : Int :=
  ((rids.filter s.hasChunk).map s.chunkLeft).sum

theorem chunksLeft_nonneg (rids : List ρ) : 0 ≤ s.chunksLeft rids := by
  refine List.sum_nonneg fun left listed => ?_
  obtain ⟨rid, kept, rfl⟩ := List.mem_map.mp listed
  exact (chunkLeft_pos (List.mem_filter.mp kept).2).le

theorem chunksLeft_eq_zero {rids : List ρ} (none : ∀ rid ∈ rids, s.hasChunk rid = false) :
    s.chunksLeft rids = 0 := by
  have nothing : rids.filter s.hasChunk = [] :=
    List.filter_eq_nil_iff.mpr fun rid listed => by simp [none rid listed]
  rw [chunksLeft, nothing, List.map_nil, List.sum_nil]

variable {remainP : Int}

theorem chargeChunks_idle {rest : List ρ} (idle : s.hasChunk rid = false) :
    s.chargeChunks budget (rid :: rest) remainP = s.chargeChunks budget rest remainP := by
  conv_lhs => unfold chargeChunks
  cases found : s.chunkedPrefill.get? rid with
  | none => rfl
  | some info =>
    have finished : info.isComplete = true := by simpa [hasChunk, found] using idle
    simp [finished]

theorem chargeChunks_running {rest : List ρ} (running : s.hasChunk rid = true)
    (within : remainP ≤ budget.maxPrefillTokens) :
    s.chargeChunks budget (rid :: rest) remainP =
      (rid, min (s.chunkLeft rid) remainP) ::
        if remainP ≤ s.chunkLeft rid then []
        else s.chargeChunks budget rest (remainP - s.chunkLeft rid) := by
  conv_lhs => unfold chargeChunks
  cases found : s.chunkedPrefill.get? rid with
  | none => simp [hasChunk, found] at running
  | some info =>
    have unfinished : info.isComplete = false := by simpa [hasChunk, found] using running
    have own : s.chunkLeft rid = info.remaining := by simp [chunkLeft, found]
    have chunk : min (min info.remaining budget.maxPrefillTokens) remainP =
        min (s.chunkLeft rid) remainP := by omega
    simp only [unfinished, Bool.false_eq_true, if_false, chunk]
    by_cases used : remainP ≤ s.chunkLeft rid
    · rw [if_pos (by omega), if_pos used]
    · rw [if_neg (by omega), if_neg used, min_eq_left (by omega)]

/-- The pass reaches a sequence iff the prompts before it are less than the prefill budget, or it is
the first one with a chunk. -/
theorem mem_chargeChunks_iff {pre post : List ρ} (absent : rid ∉ pre)
    (within : remainP ≤ budget.maxPrefillTokens) :
    rid ∈ (s.chargeChunks budget (pre ++ rid :: post) remainP).map Prod.fst ↔
      s.hasChunk rid = true ∧
        ((∀ other ∈ pre, s.hasChunk other = false) ∨ s.chunksLeft pre < remainP) := by
  induction pre generalizing remainP with
  | nil =>
    simp only [List.nil_append, List.not_mem_nil, false_imp_iff, implies_true, true_or, and_true]
    constructor
    · intro charged
      obtain ⟨-, info, found, running⟩ := mem_chargeChunks charged
      simp [hasChunk, found, running]
    · intro running
      rw [chargeChunks_running running within]
      exact List.mem_cons_self ..
  | cons first pre ih =>
    obtain ⟨different, absent⟩ := not_or.mp (mt List.mem_cons.mpr absent)
    rw [List.cons_append, List.forall_mem_cons]
    cases running : s.hasChunk first with
    | false =>
      have same : s.chunksLeft (first :: pre) = s.chunksLeft pre := by simp [chunksLeft, running]
      rw [chargeChunks_idle running, same, ih absent within]
      simp
    | true =>
      have more : s.chunksLeft (first :: pre) = s.chunkLeft first + s.chunksLeft pre := by
        simp [chunksLeft, running]
      have later := chunksLeft_nonneg (s := s) pre
      have positive := chunkLeft_pos running
      rw [chargeChunks_running running within, List.map_cons, List.mem_cons, or_iff_right different,
        more]
      -- with the prompt of `first` the budget is used up, or there is that much less of it
      split
      next used =>
        simp only [List.map_nil, List.not_mem_nil, Bool.true_eq_false, false_and, false_or,
          false_iff, not_and, not_lt]
        omega
      next left =>
        rw [ih absent (by omega)]
        refine and_congr_right fun _ => ?_
        simp only [Bool.true_eq_false, false_and, false_or]
        constructor
        · rintro (none | room)
          · rw [chunksLeft_eq_zero none]
            omega
          · omega
        · exact fun room => .inr (by omega)

/-- The pass over the chunks comes to the sequence while at least `room` is left, or to it first. -/
def ChunkReached (room : Int) (rid : ρ) : Prop :=
  let ahead := s.active.filter fun other => decide (s.Ahead other rid)
  s.enableChunkedPrefill = true ∧ s.hasChunk rid = true ∧
    ((∀ other ∈ ahead, s.hasChunk other = false) ∨ s.chunksLeft ahead < room)

theorem mem_chunkCharges_iff (distinct : s.active.Nodup) (member : rid ∈ s.active) :
    rid ∈ (s.chunkCharges budget).map Prod.fst ↔ s.ChunkReached budget.maxPrefillTokens rid := by
  obtain ⟨post, split⟩ := activeItems_split distinct member
  have once : s.activeItems.Nodup := s.activeItems_perm.nodup_iff.mpr distinct
  have same : (s.activeItems.filter fun other => decide (s.Ahead other rid)).Perm
      (s.active.filter fun other => decide (s.Ahead other rid)) := s.activeItems_perm.filter _
  have left : s.chunksLeft (s.activeItems.filter fun other => decide (s.Ahead other rid)) =
      s.chunksLeft (s.active.filter fun other => decide (s.Ahead other rid)) :=
    ((same.filter _).map _).sum_eq
  unfold chunkCharges ChunkReached
  by_cases enabled : s.enableChunkedPrefill = true
  · rw [if_pos enabled, and_iff_right enabled, split, mem_chargeChunks_iff ?_ le_rfl, left]
    · simp only [same.mem_iff]
    · intro listed
      rw [split] at once
      exact (List.nodup_append.mp once).2.2 rid listed rid (List.mem_cons_self ..) rfl
  · simp [enabled]

/-! ### The batch -/

/-- The batch of the active sequences has all that are in flight. -/
def KeepsInFlight (budget : IterationBudget) : Prop :=
  ∀ rid ∈ s.active, (s.sequences rid).inFlight = true → rid ∈ (s.buildActiveBatch budget).batch

/-- Each sequence in flight for which no tokens are left is reached by the pass over the chunks. -/
def RestReached (tokens room : Int) : Prop :=
  ∀ rid ∈ s.active, (s.sequences rid).inFlight = true → tokens ≤ s.flyingAhead rid →
    s.ChunkReached room rid

theorem flyingAhead_lt (member : rid ∈ s.active) (flying : (s.sequences rid).inFlight = true) :
    s.flyingAhead rid < s.active.countP fun rid => (s.sequences rid).inFlight := by
  have own : ¬ s.Ahead rid rid := fun loop => Ahead.asymm s rid rid loop loop
  -- the sequence itself is counted only without the order
  obtain ⟨front, back, split⟩ := List.append_of_mem member
  have front_le : front.countP (fun other => (s.sequences other).inFlight && s.Ahead other rid) ≤
      front.countP fun other => (s.sequences other).inFlight :=
    List.countP_mono_left fun other _ both => (Bool.and_eq_true_iff.mp both).1
  have back_le : back.countP (fun other => (s.sequences other).inFlight && s.Ahead other rid) ≤
      back.countP fun other => (s.sequences other).inFlight :=
    List.countP_mono_left fun other _ both => (Bool.and_eq_true_iff.mp both).1
  have ahead : s.flyingAhead rid =
      front.countP (fun other => (s.sequences other).inFlight && s.Ahead other rid) +
        back.countP fun other => (s.sequences other).inFlight && s.Ahead other rid := by
    simp [flyingAhead, split, own]
  have all : s.active.countP (fun rid => (s.sequences rid).inFlight) =
      front.countP (fun other => (s.sequences other).inFlight) +
        (back.countP (fun other => (s.sequences other).inFlight) + 1) := by
    simp [split, flying]
  omega

theorem keepsInFlight_iff (distinct : s.active.Nodup)
    (slots : ((s.active.countP fun rid => (s.sequences rid).inFlight : Nat) : Int) ≤
      budget.decodeSlots) :
    s.KeepsInFlight budget ↔ s.RestReached budget.maxTotalTokens budget.maxPrefillTokens := by
  refine forall₃_congr fun rid member flying => ?_
  have below := flyingAhead_lt member flying
  rw [mem_buildActiveBatch, mem_decodes_iff distinct member flying,
    mem_chunkCharges_iff distinct member]
  by_cases left : budget.maxTotalTokens ≤ s.flyingAhead rid
  · rw [or_iff_right (by omega), imp_iff_right left]
  · exact iff_of_true (.inl (by omega)) fun absurd => (left absurd).elim

theorem computeSarathiBudget_maxPrefillTokens {pressure : ℚ} {active : List Sequence}
    (short : budget.maxTotalTokens ≤
      (computeSarathiBudget fl pressure active budget).decodeSlots) :
    (computeSarathiBudget fl pressure active budget).maxPrefillTokens ≤ 0 := by
  rw [computeSarathiBudget_decodeSlots] at short
  refine (min_le_right _ _).trans (max_le le_rfl ?_)
  exact Int.sub_nonpos_of_le short

theorem chunkReached_of_nonpos {room : Int} (nonpos : room ≤ 0) (rid : ρ) :
    s.ChunkReached room rid ↔ s.ChunkReached 0 rid := by
  have left := s.chunksLeft_nonneg (s.active.filter fun other => decide (s.Ahead other rid))
  unfold ChunkReached
  simp only [not_lt.mpr left, not_lt.mpr (nonpos.trans left)]

/-- **When no live sequence is left out.** The slots of an adapted budget cover the sequences in
flight, and the batch has them all as long as they are few, iff the slots suffice and each one that
the tokens do not last for is reached as a chunk. An adapted budget has no prefill tokens then, so
only the first chunk is reached; one that a WAN policy leaves alone still has its own. -/
theorem in_flight_kept_iff (distinct : s.active.Nodup) (disabled : Bool) (pressure : ℚ)
    (budget : IterationBudget) :
    let active := s.active.map s.sequences
    let adapted := adaptBudget s.floats disabled pressure active budget
    let few : Prop := (active.length : Int) ≤ budget.maxBatchSize ∧
      ((active.countP fun seq => seq.status == .decoding : Nat) : Int) ≤ budget.maxTotalTokens
    (min (active.countP Sequence.inFlight : Int) budget.maxBatchSize ≤ adapted.decodeSlots ∧
        (few → s.KeepsInFlight adapted)) ↔
      SlotsSuffice s.floats disabled pressure active budget ∧
        (few → s.RestReached budget.maxTotalTokens
          (if disabled then budget.maxPrefillTokens else 0)) := by
  intro active adapted few
  rw [adaptBudget_decodeSlots_iff]
  refine and_congr_right fun suffice => imp_congr_right fun ⟨small, _⟩ => ?_
  have held : min (active.countP Sequence.inFlight : Int) budget.maxBatchSize ≤
      adapted.decodeSlots := (adaptBudget_decodeSlots_iff ..).mpr suffice
  have count : active.countP Sequence.inFlight =
      s.active.countP fun rid => (s.sequences rid).inFlight := List.countP_map
  have all := active.countP_le_length (p := Sequence.inFlight)
  have slots : ((s.active.countP fun rid => (s.sequences rid).inFlight : Nat) : Int) ≤
      adapted.decodeSlots := by
    rw [← count]
    omega
  rw [keepsInFlight_iff distinct slots]
  cases disabled with
  | true => rfl
  | false =>
    refine forall₄_congr fun rid member flying left => ?_
    have below := flyingAhead_lt member flying
    have tokens : adapted.maxTotalTokens = budget.maxTotalTokens := rfl
    have short : budget.maxTotalTokens ≤ adapted.decodeSlots := by omega
    exact chunkReached_of_nonpos (computeSarathiBudget_maxPrefillTokens short) rid

end BatchScheduler

def twoDecoding : BatchScheduler Nat :=
  { BatchScheduler.init true ∅ false (fun _ _ _ _ => 0) .exact none 4 with
    sequences := fun _ => { promptTokens := [1], generatedTokens := [2], status := .decoding }
    active := [0, 1] }

theorem in_flight_kept_two :
    twoDecoding.KeepsInFlight (adaptBudget .exact false (1 / 2) (twoDecoding.active.map
      twoDecoding.sequences) { maxDecodeTokens := 2 }) := by
  have kept := (BatchScheduler.in_flight_kept_iff (s := twoDecoding) (by decide) false (1 / 2)
    { maxDecodeTokens := 2 }).mpr ⟨?_, ?_⟩
  · exact kept.2 (by decide)
  · decide +kernel
  · intro _ rid member flying left
    have below := BatchScheduler.flyingAhead_lt member flying
    have two :
        twoDecoding.active.countP (fun rid => (twoDecoding.sequences rid).inFlight) = 2 := rfl
    rw [two] at below
    exact absurd left (by dsimp only; omega)

/-- At a middle pressure one slot stays one slot, and the second of them is left out. -/
theorem second_left_out :
    ¬ ∀ (s : BatchScheduler Nat) (pressure : ℚ) (budget : IterationBudget),
      s.active.Nodup → 0 ≤ pressure → pressure ≤ 1 →
      let active := s.active.map s.sequences
      let adapted := adaptBudget s.floats false pressure active budget
      min (active.countP Sequence.inFlight : Int) budget.maxBatchSize ≤ adapted.decodeSlots ∧
        ((active.length : Int) ≤ budget.maxBatchSize →
          ((active.countP fun seq => seq.status == .decoding : Nat) : Int) ≤
            budget.maxTotalTokens → s.KeepsInFlight adapted) := by
  intro kept
  have slots := (kept twoDecoding (1 / 2) { maxDecodeTokens := 1 } (by decide) (by norm_num)
    (by norm_num)).1
  exact absurd slots (by decide +kernel)

end DistLLM.Scheduler
