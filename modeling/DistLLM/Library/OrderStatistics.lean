import Mathlib.Data.List.Sort

/-!
# Order statistics

The element at a position of a sorted list, described by counting: it is at least
`m` exactly when enough elements of the list are.
-/
namespace DistLLM.Library

variable {α : Type} [LinearOrder α]

theorem le_getElem_sorted_iff (l : List α) (sorted : l.Pairwise (· ≤ ·)) (i : Nat)
    (h : i < l.length) (m : α) : m ≤ l[i] ↔ l.length - i ≤ l.countP fun x => decide (m ≤ x) := by
  have cut : l.countP (fun x => decide (m ≤ x)) =
      (l.take i).countP (fun x => decide (m ≤ x)) + (l.drop i).countP fun x => decide (m ≤ x) := by
    rw [← List.countP_append, List.take_append_drop]
  constructor
  · intro reached
    -- everything from position `i` on counts
    have all : (l.drop i).countP (fun x => decide (m ≤ x)) = (l.drop i).length := by
      rw [List.countP_eq_length]
      intro x member
      obtain ⟨j, inside, rfl⟩ := List.mem_iff_getElem.mp member
      rw [List.length_drop] at inside
      have later : l[i] ≤ l[i + j] := by
        rcases Nat.eq_zero_or_pos j with rfl | positive
        · exact le_rfl
        · exact List.pairwise_iff_getElem.mp sorted i (i + j) h (by omega) (by omega)
      simpa using reached.trans later
    rw [cut, all, List.length_drop]
    omega
  · intro enough
    by_contra below
    rw [not_le] at below
    -- nothing up to position `i` counts
    have none : (l.take (i + 1)).countP (fun x => decide (m ≤ x)) = 0 := by
      rw [List.countP_eq_zero]
      intro x member
      obtain ⟨j, inside, rfl⟩ := List.mem_iff_getElem.mp member
      rw [List.length_take] at inside
      have earlier : l[j] ≤ l[i] := by
        rcases Nat.lt_or_ge j i with before | after
        · exact List.pairwise_iff_getElem.mp sorted j i (by omega) h before
        · have : j = i := by omega
          subst this
          exact le_rfl
      simpa using lt_of_le_of_lt earlier below
    have rest : (l.drop (i + 1)).countP (fun x => decide (m ≤ x)) ≤ l.length - (i + 1) := by
      rw [← List.length_drop]
      exact List.countP_le_length
    have split : l.countP (fun x => decide (m ≤ x)) =
        (l.take (i + 1)).countP (fun x => decide (m ≤ x)) +
          (l.drop (i + 1)).countP fun x => decide (m ≤ x) := by
      rw [← List.countP_append, List.take_append_drop]
    omega

/-- The element at position `i` after sorting is at least `m` exactly when all but `i`
elements are. -/
theorem le_getD_insertionSort_iff (l : List α) (i : Nat) (h : i < l.length) (m fallback : α) :
    m ≤ (l.insertionSort (· ≤ ·)).getD i fallback ↔
      l.length - i ≤ l.countP fun x => decide (m ≤ x) := by
  have perm := List.perm_insertionSort (· ≤ ·) l
  have inside : i < (l.insertionSort (· ≤ ·)).length := by
    rw [List.length_insertionSort]
    exact h
  rw [List.getD_eq_getElem?_getD, List.getElem?_eq_getElem inside, Option.getD_some,
    le_getElem_sorted_iff _ (List.pairwise_insertionSort (· ≤ ·) l) i inside m, perm.countP_eq,
    List.length_insertionSort]

end DistLLM.Library
