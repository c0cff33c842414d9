import DistLLM.DeltaLog.Replay
import DistLLM.Library.Machine

/-!
# Replay against a log of states

Beside the delta log runs a log of the states that were passed to `save_delta`. While every delta is
taken against the state passed last, over the same parameters, and no delta past the checkpoint is
evicted or cleared, replaying the deltas over the checkpoint's state gives the logged state.
-/
namespace DistLLM.DeltaLog

open Library

/-- The delta log beside the states passed to `save_delta`, each with its step, the last one first;
the state of the first checkpoint is at the end. -/
structure Run where
  log : IncrementalRecovery
  last : Int × Params
  before : List (Int × Params)

inductive Action
  | saveDelta (step : Int) (params : Params) (baseParams : Option Params)
  | setCheckpoint (step : Int)
  | clear

variable (w : Run)

def Run.stateAt (step : Int) : Params :=
  (((w.last :: w.before).find? fun saved => decide (saved.1 ≤ step)).map Prod.snd).getD ∅

/-- Steps increase, and a base that is given is the state passed last. -/
def enabled : Action → Prop
  | .saveDelta step _ baseParams => w.last.1 < step ∧ baseParams.all (agree w.last.2) = true
  | _ => True

instance (w : Run) : ∀ a, Decidable (enabled w a)
  | .saveDelta .. => inferInstanceAs (Decidable (_ ∧ _))
  | .setCheckpoint _ => .isTrue trivial
  | .clear => .isTrue trivial

def exec : Action → Run
  | .saveDelta step params baseParams =>
    match w.log.saveDelta step params baseParams with
    | .ok log => ⟨log, (step, params), w.last :: w.before⟩
    | .error _ => w
  | .setCheckpoint step =>
    match w.log.setCheckpoint step with
    | .ok log => { w with log := log }
    | .error _ => w
  | .clear => { w with log := w.log.clear }

def recoverySystem : Machine Run Action where
  init w := ∃ maxDeltas, ∃ positive, ∃ checkpointStep params,
    w = ⟨.new maxDeltas positive checkpointStep, (checkpointStep, params), []⟩
  enabled := enabled
  exec := exec

/-- From the checkpoint's state, replay gives the state that was passed or raises. -/
def Reconstructs : Prop :=
  ∀ targetStep params, Agree params (w.stateAt w.log.checkpointStep) →
    ∀ recovered, w.log.recoverTo targetStep params = .ok recovered →
      Agree recovered (w.stateAt targetStep)

/-- Within the recorded range replay does not raise. -/
def Recovers : Prop :=
  ∀ targetStep params, Agree params (w.stateAt w.log.checkpointStep) →
    w.log.checkpointStep ≤ targetStep → targetStep ≤ w.log.latestStep →
      ∃ recovered, w.log.recoverTo targetStep params = .ok recovered

/-- No recorded step past the checkpoint is evicted to record `params`. -/
def hasRoom (params : Params) : Bool :=
  decide (w.log.stepOrder.length < w.log.maxDeltas) || agree params w.last.2 ||
    w.log.stepOrder.head?.all fun oldest => decide (oldest ≤ w.log.checkpointStep)

/-- The base is given, over the same parameters, and no delta past the checkpoint is lost. -/
def keepsLog : Action → Prop
  | .saveDelta step params baseParams =>
    w.log.latestStep < step →
      baseParams.isSome = true ∧ sameLayout params w.last.2 = true ∧ hasRoom w params = true
  | .setCheckpoint _ => True
  | .clear => ∀ s ∈ w.log.stepOrder, s ≤ w.log.checkpointStep

instance (w : Run) : ∀ a, Decidable (keepsLog w a)
  | .saveDelta .. => inferInstanceAs (Decidable (_ → _))
  | .setCheckpoint _ => .isTrue trivial
  | .clear => inferInstanceAs (Decidable (∀ s ∈ w.log.stepOrder, s ≤ w.log.checkpointStep))

/-! ### What recording does -/

/-- The deltas of a step are appended; what is evicted lies at or before the checkpoint. -/
structure Stores (r r' : IncrementalRecovery) (step : Int)
    (stepDeltas : Dict String ParameterDelta) : Prop where
  checkpoint : r'.checkpointStep = r.checkpointStep
  evicted : ∃ old, r.stepOrder ++ [step] = old ++ r'.stepOrder ∧ ∀ s ∈ old, s ≤ r.checkpointStep
  others : ∀ s ∈ r'.stepOrder, s ≠ step → r'.deltasAt s = r.deltasAt s
  stored : r'.deltasAt step = stepDeltas

variable {stepDeltas : Dict String ParameterDelta}

namespace IncrementalRecovery

variable (r : IncrementalRecovery)

theorem deltasAt_set (step s : Int) (stepDeltas : Dict String ParameterDelta) :
    (r.deltas.set step stepDeltas).getD s ∅ = if step = s then stepDeltas else r.deltasAt s :=
  Dict.getD_set r.deltas step s stepDeltas ∅

theorem store_stores {step : Int} (some_recorded : stepDeltas.size ≠ 0)
    (ordered : r.stepOrder.Pairwise (· < ·)) (later : ∀ s ∈ r.stepOrder, s < step)
    (room : r.stepOrder.length < r.maxDeltas ∨
      ∀ oldest ∈ r.stepOrder.head?, oldest ≤ r.checkpointStep) :
    Stores r (r.store step stepDeltas) step stepDeltas := by
  have positive := r.positive
  simp only [store, if_neg some_recorded, evictOldest]
  cases order : r.stepOrder with
  | nil =>
    have kept : ¬ r.maxDeltas < 1 := by omega
    simp only [List.nil_append, List.length_singleton, kept, if_false]
    constructor
    · rfl
    · exact ⟨[], by simp [order], by simp⟩
    · intro s inside other
      exact absurd (List.mem_singleton.mp inside) other
    · simp [deltasAt, Dict.getD_set]
  | cons oldest rest =>
    rw [order] at ordered later room
    simp only [List.cons_append, List.length_cons, List.length_append, List.length_nil]
    by_cases full : r.maxDeltas < rest.length + (0 + 1) + 1
    · -- the step that is evicted is not past the checkpoint, so no reader needs it
      have past : oldest ≤ r.checkpointStep := by
        rcases room with short | past
        · simp only [List.length_cons] at short
          omega
        · exact past oldest rfl
      rw [if_pos full]
      have not_oldest : ∀ s ∈ rest ++ [step], s ≠ oldest := by
        intro s inside
        have after : oldest < s := by
          rcases List.mem_append.mp inside with among | here
          · exact (List.pairwise_cons.mp ordered).1 s among
          · rw [List.mem_singleton.mp here]
            exact later oldest List.mem_cons_self
        omega
      constructor
      · rfl
      · exact ⟨[oldest], by simp [order], by simpa using past⟩
      · intro s inside other
        simp only [deltasAt, Dict.getD_filterKeys, not_oldest s inside, ne_eq, not_false_eq_true,
          decide_true, if_true]
        rw [deltasAt_set, if_neg (Ne.symm other)]
        rfl
      · simp only [deltasAt, Dict.getD_filterKeys, not_oldest step (by simp), ne_eq,
          not_false_eq_true, decide_true, if_true]
        rw [deltasAt_set, if_pos rfl]
    · rw [if_neg full]
      constructor
      · rfl
      · exact ⟨[], by simp [order], by simp⟩
      · intro s inside other
        exact (r.deltasAt_set step s stepDeltas).trans (if_neg (Ne.symm other))
      · exact (r.deltasAt_set step step stepDeltas).trans (if_pos rfl)

end IncrementalRecovery

/-- Replay from the checkpoint's state gives the logged state at every later step. -/
structure Consistent (w : Run) : Prop where
  ordered : w.log.stepOrder.Pairwise (· < ·)
  within : ∀ s ∈ w.log.stepOrder, s ≤ w.last.1
  replays : ∀ targetStep, w.log.checkpointStep ≤ targetStep →
    ∃ recovered, (w.log.stepsToApply targetStep).foldlM w.log.applyStep
        (w.stateAt w.log.checkpointStep) = .ok recovered ∧
      Agree recovered (w.stateAt targetStep)

namespace Run

variable {w : Run}

theorem stateAt_last {step : Int} (reached : w.last.1 ≤ step) : w.stateAt step = w.last.2 := by
  simp [stateAt, reached]

theorem stateAt_passed (log : IncrementalRecovery) (step s : Int) (params : Params) :
    (⟨log, (step, params), w.last :: w.before⟩ : Run).stateAt s =
      if step ≤ s then params else w.stateAt s := by
  unfold stateAt
  rw [List.find?_cons]
  by_cases reached : step ≤ s <;> simp [reached]

end Run

namespace Consistent

variable {w : Run}

theorem reconstructs (consistent : Consistent w) : Reconstructs w := by
  intro targetStep params checkpoint recovered returned
  unfold IncrementalRecovery.recoverTo at returned
  split at returned
  next => cases returned
  next reached =>
    split at returned
    next => cases returned
    next =>
      obtain ⟨replayed, same, agrees⟩ := consistent.replays targetStep (Int.not_lt.mp reached)
      obtain ⟨expected, again, related⟩ :=
        IncrementalRecovery.replay_follows (fun _ _ => rfl) checkpoint returned
      obtain rfl := Except.ok.inj (same.symm.trans again)
      exact related.trans agrees

theorem recovers (consistent : Consistent w) : Recovers w := by
  intro targetStep params checkpoint reached recorded
  unfold IncrementalRecovery.recoverTo
  rw [if_neg (Int.not_lt.mpr reached), if_neg (Int.not_lt.mpr recorded)]
  obtain ⟨replayed, same, -⟩ := consistent.replays targetStep reached
  obtain ⟨recovered, returned, -⟩ :=
    IncrementalRecovery.replay_follows (fun _ _ => rfl) checkpoint.symm same
  exact ⟨recovered, returned⟩

/-! ### Passing a state -/

variable {step : Int} {params : Params}

section

variable (consistent : Consistent w)

include consistent

theorem pass_unchanged (later : w.last.1 < step)
    (same : Agree w.last.2 params) : Consistent ⟨w.log, (step, params), w.last :: w.before⟩ := by
  have agrees : ∀ s, Agree (w.stateAt s)
      ((⟨w.log, (step, params), w.last :: w.before⟩ : Run).stateAt s) := by
    intro s
    rw [Run.stateAt_passed]
    split
    next reached =>
      rw [Run.stateAt_last (by omega)]
      exact same
    next => exact fun _ => rfl
  constructor
  · exact consistent.ordered
  · intro s inside
    exact le_of_lt (lt_of_le_of_lt (consistent.within s inside) later)
  · intro targetStep reached
    obtain ⟨recovered, replayed, before⟩ := consistent.replays targetStep reached
    obtain ⟨again, replayed', related⟩ :=
      IncrementalRecovery.replay_follows (fun _ _ => rfl) (agrees w.log.checkpointStep) replayed
    exact ⟨again, replayed', related.symm.trans (before.trans (agrees targetStep))⟩

theorem pass_stored {base : Params} {log : IncrementalRecovery} (later : w.last.1 < step)
    (given : Agree w.last.2 base) (layout : sameLayout params base = true)
    (recorded : IncrementalRecovery.IsDelta step params.entries base stepDeltas)
    (stores : Stores w.log log step stepDeltas) :
    Consistent ⟨log, (step, params), w.last :: w.before⟩ := by
  obtain ⟨old, order, evicted⟩ := stores.evicted
  have earlier : ∀ s ∈ w.log.stepOrder, s < step := fun s inside =>
    lt_of_le_of_lt (consistent.within s inside) later
  have ordered : (w.log.stepOrder ++ [step]).Pairwise (· < ·) := by
    rw [List.pairwise_append]
    refine ⟨consistent.ordered, List.pairwise_singleton _ _, ?_⟩
    intro s inside s' single
    rw [List.mem_singleton.mp single]
    exact earlier s inside
  have upTo : ∀ s ∈ log.stepOrder, s ≤ step := by
    intro s inside
    have among : s ∈ w.log.stepOrder ++ [step] := by
      rw [order]
      exact List.mem_append_right _ inside
    rcases List.mem_append.mp among with before | here
    · exact le_of_lt (earlier s before)
    · exact le_of_eq (List.mem_singleton.mp here)
  -- what is evicted is not replayed
  have toApply : ∀ targetStep, log.stepsToApply targetStep =
      w.log.stepsToApply targetStep ++
        [step].filter fun s => decide (w.log.checkpointStep < s ∧ s ≤ targetStep) := by
    intro targetStep
    have gone : old.filter (fun s => decide (w.log.checkpointStep < s ∧ s ≤ targetStep)) = [] := by
      apply List.filter_eq_nil_iff.mpr
      intro s inside
      have := evicted s inside
      simp only [decide_eq_true_eq]
      omega
    rw [IncrementalRecovery.stepsToApply, IncrementalRecovery.stepsToApply, ← List.filter_append,
      order, List.filter_append, gone, stores.checkpoint, List.nil_append]
  constructor
  · rw [order] at ordered
    exact (List.pairwise_append.mp ordered).2.1
  · exact upTo
  · intro targetStep reached
    simp only [Run.stateAt_passed, stores.checkpoint] at reached ⊢
    by_cases past : w.log.checkpointStep < step
    · -- the checkpoint's state is the one it was
      rw [if_neg (by omega)]
      have deltas : ∀ s ∈ w.log.stepsToApply targetStep, log.deltasAt s = w.log.deltasAt s := by
        intro s inside
        have kept : s ∈ log.stepsToApply targetStep := by
          rw [toApply]
          exact List.mem_append_left _ inside
        have before := earlier s (List.mem_of_mem_filter inside)
        exact stores.others s (List.mem_of_mem_filter kept) (ne_of_lt before)
      obtain ⟨recovered, replayed, agrees⟩ := consistent.replays targetStep reached
      obtain ⟨next, replayed', related⟩ :=
        IncrementalRecovery.replay_follows deltas (fun _ => rfl) replayed
      have same : Agree next (w.stateAt targetStep) := related.symm.trans agrees
      rw [toApply]
      by_cases included : step ≤ targetStep
      · -- the step's own deltas come last
        rw [if_pos included, List.filter_cons_of_pos (by simp [past, included]), List.filter_nil,
          List.foldlM_append, replayed']
        rw [Run.stateAt_last (by omega)] at same
        obtain ⟨result, applied, reaches⟩ := recorded.leads layout (same.trans given)
        refine ⟨result, ?_, reaches⟩
        change log.applyStep next step >>= pure = _
        rw [IncrementalRecovery.applyStep, stores.stored, applied]
        rfl
      · rw [if_neg included, List.filter_cons_of_neg (by simp [included]), List.filter_nil,
          List.append_nil]
        exact ⟨next, replayed', same⟩
    · -- the checkpoint has been moved past the step
      have none_apply : log.stepsToApply targetStep = [] := by
        apply List.filter_eq_nil_iff.mpr
        intro s inside
        have := upTo s inside
        simp only [decide_eq_true_eq, stores.checkpoint]
        omega
      rw [none_apply, if_pos (by omega), if_pos (by omega)]
      exact ⟨params, rfl, fun _ => rfl⟩

theorem pass {base : Params} (later : w.last.1 < step) (newer : w.log.latestStep < step)
    (given : Agree w.last.2 base) (layout : sameLayout params w.last.2 = true)
    (room : hasRoom w params = true) :
    ∃ log, w.log.saveDelta step params (some base) = .ok log ∧
      Consistent ⟨log, (step, params), w.last :: w.before⟩ := by
  have layout : sameLayout params base = true := by
    rw [sameLayout, sameBy_iff] at layout ⊢
    intro name
    rw [layout name, given name]
  obtain ⟨stepDeltas, computed, recorded⟩ := w.log.stepDeltas_spec step layout
  have saved : w.log.saveDelta step params (some base) = .ok (w.log.store step stepDeltas) := by
    rw [IncrementalRecovery.saveDelta, if_neg (Int.not_le.mpr newer), computed]
    rfl
  refine ⟨_, saved, ?_⟩
  -- a step without deltas is not listed, and reads as the step before it
  by_cases nothing : stepDeltas.size = 0
  · rw [IncrementalRecovery.store, if_pos nothing]
    exact consistent.pass_unchanged later (given.trans (recorded.unchanged layout nothing))
  · by_cases same : Agree params w.last.2
    · -- nothing has changed, so nothing is recorded
      exfalso
      apply nothing
      have unrecorded : stepDeltas.entries = [] := by
        apply List.eq_nil_iff_forall_not_mem.mpr
        rintro ⟨name, delta⟩ member
        obtain ⟨current, old, passed, before, changed, -⟩ :=
          (recorded name delta).mp ((stepDeltas.mem_entries_iff name delta).mp member)
        rw [params.mem_entries_iff, same name, given name, before] at passed
        exact changed (Option.some.inj (Option.some.inj passed)).symm
      rw [Dict.size, unrecorded, List.length_nil]
    · have room : w.log.stepOrder.length < w.log.maxDeltas ∨
          ∀ oldest ∈ w.log.stepOrder.head?, oldest ≤ w.log.checkpointStep := by
        have differ : agree params w.last.2 = false := by
          rw [Bool.eq_false_iff, ne_eq, agree_iff]
          exact same
        simpa [hasRoom, differ, Option.all_eq_true] using room
      have earlier : ∀ s ∈ w.log.stepOrder, s < step := fun s inside =>
        lt_of_le_of_lt (consistent.within s inside) later
      exact consistent.pass_stored later given layout recorded
        (w.log.store_stores nothing consistent.ordered earlier room)

/-! ### Checkpoints -/

theorem setCheckpoint {step : Int} {log : IncrementalRecovery}
    (moved : w.log.setCheckpoint step = .ok log) : Consistent { w with log := log } := by
  rw [IncrementalRecovery.setCheckpoint] at moved
  split at moved
  next => cases moved
  next ahead =>
    have ahead := Int.not_lt.mp ahead
    obtain rfl := Except.ok.inj moved
    constructor
    · exact consistent.ordered.filter _
    · intro s inside
      exact consistent.within s (List.mem_of_mem_filter inside)
    · intro targetStep reached
      obtain ⟨middle, replayed, agrees⟩ := consistent.replays step ahead
      obtain ⟨recovered, replayed', agrees'⟩ := consistent.replays targetStep
        (le_trans ahead reached)
      -- the steps up to the new checkpoint lead to its state
      have split := IncrementalRecovery.filter_split consistent.ordered ahead reached
      rw [IncrementalRecovery.stepsToApply, split, List.foldlM_append] at replayed'
      obtain ⟨middle', first, second⟩ := bind_eq_ok_iff.mp replayed'
      obtain rfl := Except.ok.inj (replayed.symm.trans first)
      have steps : (w.log.stepOrder.filter fun s => decide (¬ s ≤ step)).filter
          (fun s => decide (step < s ∧ s ≤ targetStep)) =
          w.log.stepOrder.filter fun s => decide (step < s ∧ s ≤ targetStep) := by
        rw [List.filter_filter]
        apply List.filter_congr
        intro s _
        rw [← Bool.decide_and]
        apply decide_eq_decide.mpr
        omega
      have deltas : ∀ s ∈ w.log.stepOrder.filter fun s => decide (step < s ∧ s ≤ targetStep),
          (w.log.deltas.filterKeys fun s => decide (s ∉ w.log.stepOrder.filter fun s =>
            decide (s ≤ step))).getD s ∅ = w.log.deltasAt s := by
        intro s inside
        have past : step < s := by
          have := List.of_mem_filter inside
          simp only [decide_eq_true_eq] at this
          exact this.1
        rw [Dict.getD_filterKeys, if_pos]
        · rfl
        · simp [List.mem_filter, past]
      let moved : IncrementalRecovery :=
        { w.log with
          deltas := w.log.deltas.filterKeys fun s => decide (s ∉ w.log.stepOrder.filter fun s =>
            decide (s ≤ step))
          stepOrder := w.log.stepOrder.filter fun s => decide (¬ s ≤ step)
          checkpointStep := step }
      have kept : ∀ s ∈ w.log.stepOrder.filter fun s => decide (step < s ∧ s ≤ targetStep),
          moved.deltasAt s = w.log.deltasAt s := deltas
      obtain ⟨result, again, related⟩ :=
        IncrementalRecovery.replay_follows kept agrees second
      refine ⟨result, ?_, related.symm.trans agrees'⟩
      rw [IncrementalRecovery.stepsToApply, steps]
      exact again

theorem clear (nothing : ∀ s ∈ w.log.stepOrder, s ≤ w.log.checkpointStep) :
    Consistent { w with log := w.log.clear } := by
  constructor
  · exact List.Pairwise.nil
  · intro s inside
    cases inside
  · intro targetStep reached
    have none_apply : w.log.stepsToApply targetStep = [] := by
      apply List.filter_eq_nil_iff.mpr
      intro s inside
      have := nothing s inside
      simp only [decide_eq_true_eq]
      omega
    obtain ⟨recovered, replayed, agrees⟩ := consistent.replays targetStep reached
    rw [none_apply] at replayed
    obtain rfl := Except.ok.inj replayed
    exact ⟨_, rfl, agrees⟩

end

theorem initial (maxDeltas : Nat) (positive : 1 ≤ maxDeltas) (checkpointStep : Int)
    (params : Params) :
    Consistent ⟨.new maxDeltas positive checkpointStep, (checkpointStep, params), []⟩ := by
  constructor
  · exact List.Pairwise.nil
  · intro s inside
    cases inside
  · intro targetStep reached
    rw [Run.stateAt_last (le_refl checkpointStep), Run.stateAt_last reached]
    exact ⟨params, rfl, fun _ => rfl⟩

theorem exec (consistent : Consistent w) {a : Action} (can : enabled w a) (kept : keepsLog w a) :
    Consistent (DeltaLog.exec w a) := by
  cases a with
  | saveDelta step params baseParams =>
    obtain ⟨later, given⟩ := can
    by_cases newer : w.log.latestStep < step
    · obtain ⟨present, layout, room⟩ := kept newer
      obtain ⟨base, rfl⟩ := Option.isSome_iff_exists.mp present
      have given : Agree w.last.2 base := (agree_iff _ _).mp given
      obtain ⟨log, saved, after⟩ := consistent.pass later newer given layout room
      simp only [DeltaLog.exec, saved]
      exact after
    · -- the call raises
      have raised : ∃ e, w.log.saveDelta step params baseParams = .error e :=
        ⟨_, if_pos (Int.not_lt.mp newer)⟩
      obtain ⟨e, raised⟩ := raised
      simp only [DeltaLog.exec, raised]
      exact consistent
  | setCheckpoint step =>
    simp only [DeltaLog.exec]
    cases moved : w.log.setCheckpoint step with
    | ok log => exact consistent.setCheckpoint moved
    | error e => exact consistent
  | clear => exact consistent.clear kept

theorem of_reaches (reached : recoverySystem.Reaches keepsLog w) : Consistent w := by
  apply reached.invariant
  · rintro _ ⟨maxDeltas, positive, checkpointStep, params, rfl⟩
    exact initial maxDeltas positive checkpointStep params
  · intro w a consistent can kept
    exact consistent.exec can kept

end Consistent

/-- In a run that loses no delta, replay reconstructs the state that was passed. -/
theorem deltaReplay_reconstructs (w : Run) (reached : recoverySystem.Reaches keepsLog w) :
    Reconstructs w ∧ Recovers w :=
  ⟨(Consistent.of_reaches reached).reconstructs, (Consistent.of_reaches reached).recovers⟩

instance (w : Run) (a : Action) : Decidable (recoverySystem.enabled w a) :=
  inferInstanceAs (Decidable (enabled w a))

def oneParam (value : ℚ) : Params := (∅ : Dict String (Option Tensor)).set "w" (some [value])

def atCheckpoint : Run := ⟨.new 2 (by decide) 0, (0, oneParam 1), []⟩

theorem atCheckpoint_init : recoverySystem.init atCheckpoint :=
  ⟨2, by decide, 0, oneParam 1, rfl⟩

def checkpointMoves : List Action :=
  [.saveDelta 1 (oneParam 2) (some (oneParam 1)), .saveDelta 4 (oneParam 5) (some (oneParam 2)),
    .setCheckpoint 2, .saveDelta 6 (oneParam 7) (some (oneParam 5))]

theorem deltaReplay_reconstructs_moved :
    Reconstructs (checkpointMoves.foldl recoverySystem.exec atCheckpoint) ∧
      Recovers (checkpointMoves.foldl recoverySystem.exec atCheckpoint) :=
  deltaReplay_reconstructs _
    (.of_follows (.init atCheckpoint_init) checkpointMoves (by decide +kernel))

/-- The base of the second delta is omitted. -/
def baseOmitted : List Action :=
  [.saveDelta 1 (oneParam 2) (some (oneParam 1)), .saveDelta 2 (oneParam 5) none]

/-- An omitted base is the sum of the recorded deltas: the step from 2 to 5 after the step from 1
to 2 is recorded as 4, and replay from 1 ends at 6. -/
theorem deltaReplay_omitted_base : ¬ ∀ w, recoverySystem.Reachable w → Reconstructs w := by
  intro all
  have reached : recoverySystem.Reachable (baseOmitted.foldl recoverySystem.exec atCheckpoint) :=
    .of_follows (.init atCheckpoint_init) baseOmitted
      ⟨by decide +kernel, trivial, by decide +kernel, trivial, trivial⟩
  have differs : ((baseOmitted.foldl recoverySystem.exec atCheckpoint).log.recoverTo 2
      (oneParam 1)).toOption.any (fun recovered => !agree recovered
        ((baseOmitted.foldl recoverySystem.exec atCheckpoint).stateAt 2)) = true := by
    decide +kernel
  have checkpoint : Agree (oneParam 1)
      ((baseOmitted.foldl recoverySystem.exec atCheckpoint).stateAt
        (baseOmitted.foldl recoverySystem.exec atCheckpoint).log.checkpointStep) := by
    rw [← agree_iff]
    decide +kernel
  cases returned : (baseOmitted.foldl recoverySystem.exec atCheckpoint).log.recoverTo 2
      (oneParam 1) with
  | error e =>
    rw [returned] at differs
    cases differs
  | ok recovered =>
    have same := (agree_iff _ _).mpr (all _ reached 2 (oneParam 1) checkpoint recovered returned)
    simp [returned, Except.toOption, same] at differs

end DistLLM.DeltaLog
