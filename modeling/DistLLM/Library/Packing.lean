import Mathlib.Algebra.BigOperators.Group.List.Basic
import Mathlib.Algebra.GroupWithZero.Nat

/-!
# Packed chunks

Chunks of one capacity that are filled one after the other: all but the last one are full.
-/
namespace DistLLM.Library

def Packed (size : Nat) (counts : List Nat) (total : Nat) : Prop :=
  ∃ full last, counts = List.replicate full size ++ [last] ∧ last ≤ size ∧
    total = full * size + last

namespace Packed

variable {size total count : Nat} {counts front : List Nat}

theorem empty (size : Nat) : Packed size [0] 0 := ⟨0, 0, rfl, Nat.zero_le size, by simp⟩

section

variable (packed : Packed size counts total)

include packed

theorem sum_eq : counts.sum = total := by
  obtain ⟨full, last, rfl, _, rfl⟩ := packed
  simp

theorem full_of_mem_dropLast (member : count ∈ counts.dropLast) : count = size := by
  obtain ⟨full, last, rfl, _, _⟩ := packed
  rw [List.dropLast_concat] at member
  exact List.eq_of_mem_replicate member

theorem ne_nil : counts ≠ [] := by
  obtain ⟨full, last, rfl, _, _⟩ := packed
  simp

theorem total_le : total ≤ counts.length * size := by
  obtain ⟨full, last, rfl, fits, rfl⟩ := packed
  simp only [List.length_append, List.length_replicate, List.length_singleton, Nat.add_mul]
  omega

end

theorem last_le (packed : Packed size (front ++ [count]) total) : count ≤ size := by
  obtain ⟨full, last, split, fits, _⟩ := packed
  obtain ⟨_, here⟩ := List.append_inj' split rfl
  cases here
  exact fits

theorem uncons (packed : Packed size (count :: counts) total) :
    counts = [] ∧ total = count ∧ count ≤ size ∨
      count = size ∧ ∃ rest, total = size + rest ∧ Packed size counts rest := by
  obtain ⟨full, last, split, fits, rfl⟩ := packed
  cases full with
  | zero =>
    obtain ⟨rfl, rfl⟩ : count = last ∧ counts = [] := by simpa using split
    exact .inl ⟨rfl, by simp, fits⟩
  | succ full =>
    obtain ⟨rfl, rfl⟩ : count = size ∧ counts = List.replicate full size ++ [last] := by
      simpa [List.replicate_succ] using split
    exact .inr ⟨rfl, full * count + last, by rw [Nat.succ_mul]; omega, full, last, rfl, fits, rfl⟩

theorem fill (packed : Packed size (front ++ [count]) total) {more : Nat}
    (fits : count + more ≤ size) : Packed size (front ++ [count + more]) (total + more) := by
  obtain ⟨full, last, split, _, rfl⟩ := packed
  obtain ⟨rfl, here⟩ := List.append_inj' split rfl
  cases here
  exact ⟨full, count + more, rfl, fits, by omega⟩

theorem extend (packed : Packed size (front ++ [size]) total) (fits : count ≤ size) :
    Packed size (front ++ [size] ++ [count]) (total + count) := by
  obtain ⟨full, last, split, _, rfl⟩ := packed
  obtain ⟨rfl, here⟩ := List.append_inj' split rfl
  cases here
  exact ⟨full + 1, count, by simp [List.replicate_succ'], fits, by rw [Nat.succ_mul]⟩

theorem cut (packed : Packed size counts total) {total' : Nat} (some : 0 < total')
    (less : total' ≤ total) (positive : 0 < size) :
    let needed := (total' + size - 1) / size
    0 < needed ∧ needed ≤ counts.length ∧ total' - (needed - 1) * size ≤ size ∧
      0 < total' - (needed - 1) * size ∧
      Packed size (counts.take (needed - 1) ++ [total' - (needed - 1) * size]) total' := by
  intro needed
  have bound := packed.total_le
  have upper : needed * size ≤ total' + size - 1 := Nat.div_mul_le_self _ _
  have lower : total' + size - 1 < (needed + 1) * size := by
    rw [Nat.mul_comm]
    exact Nat.lt_mul_div_succ _ positive
  have first : 0 < needed := Nat.div_pos (by omega) positive
  obtain ⟨before, here⟩ : ∃ before, needed = before + 1 := ⟨needed - 1, by omega⟩
  rw [here] at upper lower ⊢
  simp only [Nat.succ_mul, Nat.add_sub_cancel] at upper lower ⊢
  have enough : before + 1 ≤ counts.length := by
    by_contra few
    have : counts.length * size ≤ before * size := Nat.mul_le_mul_right size (by omega)
    omega
  refine ⟨Nat.succ_pos _, enough, by omega, by omega, before, total' - before * size, ?_, by omega,
    by omega⟩
  obtain ⟨full, last, rfl, _, _⟩ := packed
  rw [List.length_append, List.length_replicate, List.length_singleton] at enough
  rw [List.take_append_of_le_length (by simpa using enough), List.take_replicate,
    Nat.min_eq_left (by omega)]

end Packed

end DistLLM.Library
