import Mathlib.Data.List.Sort

/-!
# The closest elements of a list

So many elements of least cost, cheapest first.
-/
namespace DistLLM.Library

variable {α β : Type} [LinearOrder β]

/-- `chosen` are `count` elements of `items`, or all where there are fewer, none of them costs more
than an element left behind, and they stand in the order of their costs. -/
structure Closest (cost : α → β) (count : Nat) (items chosen : List α) : Prop where
  length : chosen.length = min count items.length
  ordered : chosen.Pairwise fun a b => cost a ≤ cost b
  least : ∃ others, (chosen ++ others).Perm items ∧
    ∀ a ∈ chosen, ∀ b ∈ others, cost a ≤ cost b

def byCost (cost : α → β) (a b : α) : Prop := cost a ≤ cost b

instance (cost : α → β) : DecidableRel (byCost cost) :=
  fun _ _ => inferInstanceAs (Decidable (_ ≤ _))

instance (cost : α → β) : Std.Total (byCost cost) := ⟨fun _ _ => le_total _ _⟩

instance (cost : α → β) : IsTrans α (byCost cost) := ⟨fun _ _ _ => le_trans⟩

theorem closest_take_insertionSort (cost : α → β) (count : Nat) (items : List α) :
    Closest cost count items ((items.insertionSort (byCost cost)).take count) := by
  have sorted := List.pairwise_insertionSort (byCost cost) items
  have halves := List.take_append_drop count (items.insertionSort (byCost cost))
  constructor
  · rw [List.length_take, List.length_insertionSort]
  · exact sorted.sublist (List.take_sublist _ _)
  · refine ⟨(items.insertionSort (byCost cost)).drop count, ?_, ?_⟩
    · rw [halves]
      exact List.perm_insertionSort _ _
    · rw [← halves] at sorted
      exact (List.pairwise_append.mp sorted).2.2

namespace Closest

variable {cost : α → β} {count : Nat} {items chosen : List α}

section

variable (closest : Closest cost count items chosen)

include closest

theorem perm {items' : List α} (same : items.Perm items') : Closest cost count items' chosen := by
  obtain ⟨others, split, behind⟩ := closest.least
  exact ⟨same.length_eq ▸ closest.length, closest.ordered, others, split.trans same, behind⟩

theorem take_insertionSort_eq :
    (chosen.insertionSort (byCost cost)).take count = chosen := by
  have small : chosen.length ≤ count := by
    rw [closest.length]
    exact Nat.min_le_left ..
  have ordered : chosen.Pairwise (byCost cost) := closest.ordered
  rw [ordered.insertionSort_eq, List.take_of_length_le small]

theorem full {others : List α} (split : (chosen ++ others).Perm items)
    (left : others ≠ []) : chosen.length = count := by
  have length := closest.length
  have total := split.length_eq
  have some_left := List.length_pos_iff.mpr left
  rw [List.length_append] at total
  omega

end

theorem least_of_full {others : List α} (full : chosen.length = count)
    (behind : ∀ a ∈ chosen, ∀ b ∈ others, cost a ≤ cost b) {new dropped more : List α}
    (split : (new ++ dropped).Perm (chosen ++ more)) (small : new.length ≤ count)
    (least : ∀ a ∈ new, ∀ b ∈ dropped, cost a ≤ cost b) :
    ∀ a ∈ new, ∀ b ∈ others, cost a ≤ cost b := by
  intro a member b left
  by_contra more_costly
  rw [not_le] at more_costly
  -- the elements that were chosen cost less than `a`, so none of them is dropped
  let cheaper : α → Bool := fun c => decide (cost c < cost a)
  have none_dropped : dropped.countP cheaper = 0 := by
    rw [List.countP_eq_zero]
    intro c inside
    simpa [cheaper] using least a member c inside
  have all_chosen : chosen.countP cheaper = chosen.length := by
    rw [List.countP_eq_length]
    intro c inside
    simpa [cheaper] using (behind c inside b left).trans_lt more_costly
  have same := split.countP_eq cheaper
  rw [List.countP_append, List.countP_append, none_dropped, all_chosen] at same
  have not_all : new.countP cheaper < new.length := by
    refine lt_of_le_of_ne List.countP_le_length fun all => ?_
    rw [List.countP_eq_length] at all
    simpa [cheaper] using all a member
  omega

theorem append (closest : Closest cost count items chosen) (more : List α) :
    Closest cost count (items ++ more)
      (((chosen ++ more).insertionSort (byCost cost)).take count) := by
  obtain ⟨others, split, behind⟩ := closest.least
  have merged := closest_take_insertionSort cost count (chosen ++ more)
  obtain ⟨dropped, split', least⟩ := merged.least
  have length := closest.length
  refine ⟨?_, merged.ordered, dropped ++ others, ?_, ?_⟩
  · have length' := merged.length
    rw [List.length_append] at length' ⊢
    omega
  · have moved : (chosen ++ more ++ others).Perm (chosen ++ others ++ more) := by
      rw [List.append_assoc, List.append_assoc]
      exact List.perm_append_comm.append_left chosen
    rw [← List.append_assoc]
    exact (split'.append_right others).trans (moved.trans (split.append_right more))
  · intro a member b left
    rcases List.mem_append.mp left with now | before
    · exact least a member b now
    · have some_left : others ≠ [] := List.ne_nil_of_mem before
      exact least_of_full (closest.full split some_left) behind split'
        (List.length_take_le ..) least a member b before

end Closest

end DistLLM.Library
