import Mathlib.Data.List.Basic

/-!
# Common prefixes

How far two lists agree from the start, up to a relation on their elements.
-/
namespace DistLLM.Library

variable {α β : Type}

/-- The number of leading positions at which the lists are related. -/
def commonPrefixBy (r : α → β → Prop) [∀ a b, Decidable (r a b)] : List α → List β → Nat
  | a :: as, b :: bs => if r a b then commonPrefixBy r as bs + 1 else 0
  | _, _ => 0

abbrev commonPrefixLength [DecidableEq α] : List α → List α → Nat :=
  commonPrefixBy fun a b => a = b

section Lemmas

variable (r : α → β → Prop) [∀ a b, Decidable (r a b)] (as : List α) (bs : List β)

include as bs

theorem le_commonPrefixBy_iff (k : Nat) :
    k ≤ commonPrefixBy r as bs ↔ ∀ j < k, ∃ a ∈ as[j]?, ∃ b ∈ bs[j]?, r a b := by
  induction as generalizing bs k with
  | nil =>
    constructor
    · intro none j inside
      have : k ≤ 0 := none
      omega
    · intro related
      by_contra positive
      obtain ⟨a, found, _⟩ := related 0 (by omega)
      cases found
  | cons a as ih =>
    cases bs with
    | nil =>
      constructor
      · intro none j inside
        have : k ≤ 0 := none
        omega
      · intro related
        by_contra positive
        obtain ⟨_, _, b, found, _⟩ := related 0 (by omega)
        cases found
    | cons b bs =>
      cases k with
      | zero => simp
      | succ k =>
        by_cases first : r a b
        · simp only [commonPrefixBy, first, if_true, Nat.add_le_add_iff_right, ih]
          constructor
          · intro rest j inside
            cases j with
            | zero => exact ⟨a, rfl, b, rfl, first⟩
            | succ j => exact rest j (by omega)
          · intro related j inside
            exact related (j + 1) (by omega)
        · simp only [commonPrefixBy, first, if_false]
          refine ⟨fun none => absurd none (by omega), fun related => ?_⟩
          obtain ⟨_, ⟨⟩, _, ⟨⟩, both⟩ := related 0 (by omega)
          exact absurd both first

theorem commonPrefixBy_le_left :
    commonPrefixBy r as bs ≤ as.length := by
  by_contra longer
  obtain ⟨a, found, _⟩ :=
    (le_commonPrefixBy_iff r as bs _).mp (Nat.le_refl _) as.length (by omega)
  simp at found

theorem commonPrefixBy_le_right :
    commonPrefixBy r as bs ≤ bs.length := by
  by_contra longer
  obtain ⟨_, _, b, found, _⟩ :=
    (le_commonPrefixBy_iff r as bs _).mp (Nat.le_refl _) bs.length (by omega)
  simp at found

end Lemmas

theorem take_commonPrefixLength [DecidableEq α] (as bs : List α) :
    as.take (commonPrefixLength as bs) = bs.take (commonPrefixLength as bs) := by
  induction as generalizing bs with
  | nil => simp [commonPrefixLength, commonPrefixBy]
  | cons a as ih =>
    cases bs with
    | nil => simp [commonPrefixLength, commonPrefixBy]
    | cons b bs =>
      by_cases same : a = b
      · simpa [commonPrefixLength, commonPrefixBy, same] using ih bs
      · simp [commonPrefixLength, commonPrefixBy, same]

end DistLLM.Library
