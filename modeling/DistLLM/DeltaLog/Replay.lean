import DistLLM.DeltaLog.Incremental
import Mathlib.Algebra.Order.Ring.Rat

/-!
# Recording and replaying deltas

The deltas recorded against a base lead from the base to the state that was passed; replaying
several steps depends on the values of the parameters only.
-/
namespace DistLLM.DeltaLog

open Library

/-- The same values by name; the order of the names does not count. -/
def Agree (p q : Params) : Prop := ∀ name, p.get? name = q.get? name

/-- Both states have the same at each name, as far as `view` shows it. -/
def sameBy {τ : Type} [DecidableEq τ] (view : Option (Option Tensor) → τ) (p q : Params) : Bool :=
  (p.keys ++ q.keys).all fun name => decide (view (p.get? name) = view (q.get? name))

def agree (p q : Params) : Bool := sameBy id p q

/-- The same names, and at each name tensors of one size or None twice. -/
def sameLayout (p q : Params) : Bool := sameBy (Option.map (Option.map List.length)) p q

theorem sameBy_iff {τ : Type} [DecidableEq τ] (view : Option (Option Tensor) → τ) (p q : Params) :
    sameBy view p q = true ↔ ∀ name, view (p.get? name) = view (q.get? name) := by
  simp only [sameBy, List.all_eq_true, decide_eq_true_eq]
  constructor
  · intro same name
    by_cases inside : name ∈ p.keys ++ q.keys
    · exact same name inside
    · -- a name of neither state
      have absent (d : Params) (out : name ∉ d.keys) : d.get? name = none := by
        rw [Dict.mem_keys_iff] at out
        cases found : d.get? name with
        | none => rfl
        | some v => exact absurd ⟨v, found⟩ out
      simp only [List.mem_append, not_or] at inside
      rw [absent p inside.1, absent q inside.2]
  · intro same name _
    exact same name

theorem agree_iff (p q : Params) : agree p q = true ↔ Agree p q := sameBy_iff id p q

variable {q p : Params}

theorem Agree.symm (same : Agree p q) : Agree q p := fun name => (same name).symm

theorem Agree.trans {r : Params} (first : Agree p q) (second : Agree q r) : Agree p r :=
  fun name => (first name).trans (second name)

variable {current : Tensor}

namespace Tensor

theorem elementwise_of_length {f : ℚ → ℚ → ℚ} {a b : Tensor} (sizes : a.length = b.length) :
    elementwise f a b = .ok (List.zipWith f a b) := if_pos sizes

variable {base : Tensor} (sizes : current.length = base.length)

include sizes

theorem add_sub :
    List.zipWith (· + ·) base (List.zipWith (· - ·) current base) = current := by
  induction current generalizing base with
  | nil => cases base <;> rfl
  | cons x current ih =>
    cases base with
    | nil => simp at sizes
    | cons y base =>
      simp only [List.length_cons, Nat.add_right_cancel_iff] at sizes
      simp only [List.zipWith_cons_cons, ih sizes]
      congr 1
      exact add_sub_cancel y x

theorem isZero_sub_iff :
    isZero (List.zipWith (· - ·) current base) = true ↔ current = base := by
  induction current generalizing base with
  | nil =>
    cases base with
    | nil => simp [isZero]
    | cons y base => simp at sizes
  | cons x current ih =>
    cases base with
    | nil => simp at sizes
    | cons y base =>
      simp only [List.length_cons, Nat.add_right_cancel_iff] at sizes
      have tail := ih sizes
      simp only [isZero] at tail
      simp [isZero, tail, sub_eq_zero]

end Tensor

namespace IncrementalRecovery

variable (r : IncrementalRecovery)

/-- What `save_delta` records for a state `params` when it is given the state `base`. -/
def IsDelta (step : Int) (params : List (String × Option Tensor)) (base : Params)
    (stepDeltas : Dict String ParameterDelta) : Prop :=
  ∀ name recorded, stepDeltas.get? name = some recorded ↔
    ∃ current old, (name, some current) ∈ params ∧ base.get? name = some (some old) ∧
      current ≠ old ∧ recorded = ⟨step, name, List.zipWith (· - ·) current old⟩

variable {base : Params}

theorem addDelta_given {step : Int} {name : String} {old : Tensor}
    (stepDeltas : Dict String ParameterDelta) (given : base.get? name = some (some old))
    (sizes : current.length = old.length) :
    r.addDelta step (some base) stepDeltas (name, some current) =
      .ok (if current = old then stepDeltas
        else stepDeltas.set name ⟨step, name, List.zipWith (· - ·) current old⟩) := by
  have taken : r.baseValue step (some base) name current = .ok old := by
    simp [baseValue, given]
  simp only [addDelta, taken]
  by_cases empty : current.length = 0
  · -- an empty tensor has not changed
    have same : current = old := by
      have empty' : old.length = 0 := sizes.symm.trans empty
      rw [List.length_eq_zero_iff.mp empty, List.length_eq_zero_iff.mp empty']
    rw [if_pos empty, if_pos same]
  · rw [if_neg empty]
    change ((Tensor.elementwise (· - ·) current old).bind fun delta =>
      Except.ok (if Tensor.isZero delta = true then stepDeltas
        else stepDeltas.set name ⟨step, name, delta⟩)) = _
    rw [Tensor.elementwise_of_length sizes]
    simp only [Except.bind, Tensor.isZero_sub_iff sizes]

variable {params : Params}

theorem stepDeltas_spec (step : Int) (layout : sameLayout params base = true) :
    ∃ stepDeltas, params.entries.foldlM (r.addDelta step (some base)) ∅ = .ok stepDeltas ∧
      IsDelta step params.entries base stepDeltas := by
  have layout := (sameBy_iff _ _ _).mp layout
  apply foldlM_returns fun seen stepDeltas => IsDelta step seen base stepDeltas
  · rintro seen ⟨name, value⟩ later stepDeltas all recorded
    have present : params.get? name = some value :=
      (params.mem_entries_iff name value).mp (by simp [all])
    have shapes := layout name
    rw [present] at shapes
    cases value with
    | none =>
      refine ⟨stepDeltas, rfl, ?_⟩
      intro other delta
      rw [recorded other delta]
      simp
    | some current =>
      obtain ⟨old, given, sizes⟩ : ∃ old, base.get? name = some (some old) ∧
          current.length = old.length := by
        obtain ⟨value, given, sized⟩ := Option.map_eq_some_iff.mp shapes.symm
        obtain ⟨old, rfl, sizes⟩ := Option.map_eq_some_iff.mp sized
        exact ⟨old, given, sizes.symm⟩
      refine ⟨_, r.addDelta_given stepDeltas given sizes, ?_⟩
      -- the names of a dictionary are distinct, so this one has not been met
      have fresh : ∀ value, (name, value) ∉ seen := by
        intro value member
        have distinct := params.distinct
        rw [all, List.map_append, List.map_cons, List.nodup_append] at distinct
        exact distinct.2.2 name (List.mem_map_of_mem (f := Prod.fst) member) name
          List.mem_cons_self rfl
      intro other delta
      by_cases here : name = other
      · subst other
        have unrecorded : stepDeltas.get? name = none := by
          cases found : stepDeltas.get? name with
          | none => rfl
          | some delta =>
            obtain ⟨_, _, member, -⟩ := (recorded name delta).mp found
            exact absurd member (fresh _)
        by_cases same : current = old
        · subst old
          simp [unrecorded, fresh, given]
        · simp [same, fresh, given, eq_comm]
      · have kept : (if current = old then stepDeltas
            else stepDeltas.set name ⟨step, name, List.zipWith (· - ·) current old⟩).get? other =
            stepDeltas.get? other := by
          split
          · rfl
          · rw [Dict.get?_set, if_neg here]
        rw [kept, recorded other delta]
        simp [Ne.symm here]
  · intro name recorded
    simp

theorem applyDeltas_leads {items : List (String × ParameterDelta)}
    (distinct : (items.map Prod.fst).Nodup) {after : Params}
    (changed : ∀ name recorded, (name, recorded) ∈ items → ∃ value new,
      params.get? name = some (some value) ∧ after.get? name = some (some new) ∧
      Tensor.elementwise (· + ·) value recorded.delta = .ok new)
    (others : ∀ name, name ∉ items.map Prod.fst → params.get? name = after.get? name) :
    ∃ result, items.foldlM applyDelta params = .ok result ∧ Agree result after := by
  induction items generalizing params with
  | nil => exact ⟨params, rfl, fun name => others name List.not_mem_nil⟩
  | cons item items ih =>
    obtain ⟨name, recorded⟩ := item
    simp only [List.map_cons, List.nodup_cons] at distinct
    obtain ⟨value, new, before, afterwards, sum⟩ := changed name recorded List.mem_cons_self
    have first : applyDelta params (name, recorded) = .ok (params.set name (some new)) := by
      simp only [applyDelta, before, sum]
      rfl
    rw [List.foldlM_cons, first]
    apply ih distinct.2
    · intro other delta member
      have elsewhere : name ≠ other := by
        rintro rfl
        exact distinct.1 (List.mem_map_of_mem (f := Prod.fst) member)
      rw [Dict.get?_set, if_neg elsewhere]
      exact changed other delta (List.mem_cons_of_mem _ member)
    · intro other unmet
      rw [Dict.get?_set]
      split
      next here => rw [← here, afterwards]
      next elsewhere =>
        apply others
        simp only [List.map_cons, List.mem_cons, not_or]
        exact ⟨Ne.symm elsewhere, unmet⟩

variable {stepDeltas : Dict String ParameterDelta}

section

variable {step : Int} (recorded : IsDelta step params.entries base stepDeltas)
  (layout : sameLayout params base = true)

include recorded layout

theorem IsDelta.leads {start : Params} (same : Agree start base) :
    ∃ result, stepDeltas.entries.foldlM applyDelta start = .ok result ∧ Agree result params := by
  have layout := (sameBy_iff _ _ _).mp layout
  apply applyDeltas_leads stepDeltas.distinct
  · intro name delta member
    obtain ⟨current, old, passed, given, _, rfl⟩ :=
      (recorded name delta).mp ((stepDeltas.mem_entries_iff name delta).mp member)
    rw [params.mem_entries_iff] at passed
    have sizes := layout name
    simp only [passed, given, Option.map_some, Option.some.injEq] at sizes
    refine ⟨old, current, (same name).trans given, passed, ?_⟩
    rw [Tensor.elementwise_of_length (by simp [sizes]), Tensor.add_sub sizes]
  · intro name unrecorded
    rw [same name]
    have shapes := layout name
    cases passed : params.get? name with
    | none => simpa [passed] using shapes.symm
    | some value =>
      cases value with
      | none =>
        rw [passed] at shapes
        obtain ⟨value, given, none_value⟩ := Option.map_eq_some_iff.mp shapes.symm
        rw [given, Option.map_eq_none_iff.mp none_value]
      | some current =>
        rw [passed] at shapes
        obtain ⟨value, given, sized⟩ := Option.map_eq_some_iff.mp shapes.symm
        obtain ⟨old, rfl, _⟩ := Option.map_eq_some_iff.mp sized
        rw [given]
        -- a parameter that changed would have been recorded
        by_contra different
        have changed : current ≠ old := fun equal => different (by rw [equal])
        apply unrecorded
        have found := (recorded name _).mpr
          ⟨current, old, (params.mem_entries_iff _ _).mpr passed, given, changed, rfl⟩
        exact List.mem_map_of_mem (f := Prod.fst) ((stepDeltas.mem_entries_iff _ _).mpr found)

theorem IsDelta.unchanged (none_recorded : stepDeltas.size = 0) :
    Agree base params := by
  obtain ⟨result, replayed, same⟩ := recorded.leads layout (fun _ => rfl : Agree base base)
  rw [List.length_eq_zero_iff.mp none_recorded] at replayed
  obtain rfl : base = result := Except.ok.inj replayed
  exact same

end

theorem applyDelta_follows {p' : Params} (same : Agree p q) {item : String × ParameterDelta}
    (applied : applyDelta p item = .ok p') :
    ∃ q', applyDelta q item = .ok q' ∧ Agree p' q' := by
  simp only [applyDelta, ← same item.1] at applied ⊢
  split at applied
  next value found =>
    obtain ⟨sum, added, written⟩ := bind_eq_ok_iff.mp applied
    obtain rfl := Except.ok.inj written
    refine ⟨q.set item.1 (some sum), ?_, ?_⟩
    · rw [added]
      rfl
    · intro name
      rw [Dict.get?_set, Dict.get?_set, same name]
  next other =>
    obtain rfl := Except.ok.inj applied
    exact ⟨q, rfl, same⟩

theorem replay_follows {r r' : IncrementalRecovery} {steps : List Int}
    (deltas : ∀ s ∈ steps, r'.deltasAt s = r.deltasAt s) {p' : Params} (same : Agree p q)
    (replayed : steps.foldlM r.applyStep p = .ok p') :
    ∃ q', steps.foldlM r'.applyStep q = .ok q' ∧ Agree p' q' := by
  refine foldlM_follows Agree ?_ same replayed
  intro p q s inside p' same applied
  rw [applyStep, deltas s inside]
  apply foldlM_follows Agree ?_ same applied
  intro p q item _ p' same applied
  exact applyDelta_follows same applied

theorem filter_split {steps : List Int} (ordered : steps.Pairwise (· < ·)) {low mid high : Int}
    (low_le : low ≤ mid) (le_high : mid ≤ high) :
    steps.filter (fun s => decide (low < s ∧ s ≤ high)) =
      steps.filter (fun s => decide (low < s ∧ s ≤ mid)) ++
        steps.filter fun s => decide (mid < s ∧ s ≤ high) := by
  induction ordered with
  | nil => rfl
  | @cons s steps later _ ih =>
    by_cases early : s ≤ mid
    · have not_late : ¬ (mid < s ∧ s ≤ high) := by omega
      have within : (low < s ∧ s ≤ high) ↔ (low < s ∧ s ≤ mid) := by omega
      simp only [List.filter_cons, within, not_late, decide_false, Bool.false_eq_true, if_false, ih]
      split <;> simp
    · -- every step from here on is past `mid`
      have none_early : (s :: steps).filter (fun s => decide (low < s ∧ s ≤ mid)) = [] := by
        apply List.filter_eq_nil_iff.mpr
        intro s' inside
        have past : s ≤ s' := by
          rcases List.mem_cons.mp inside with rfl | after
          · exact le_refl s'
          · exact le_of_lt (later s' after)
        simp only [decide_eq_true_eq]
        omega
      have past_mid : ∀ s' ∈ s :: steps, decide (low < s' ∧ s' ≤ high) =
          decide (mid < s' ∧ s' ≤ high) := by
        intro s' inside
        have past : s ≤ s' := by
          rcases List.mem_cons.mp inside with rfl | after
          · exact le_refl s'
          · exact le_of_lt (later s' after)
        apply decide_eq_decide.mpr
        omega
      rw [none_early, List.nil_append]
      exact List.filter_congr past_mid

end IncrementalRecovery

end DistLLM.DeltaLog
