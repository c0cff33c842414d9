import Mathlib.Data.List.Basic
import Mathlib.Order.Lattice

/-!
# Tilings of an interval

Half-open ranges that follow each other from one end of an interval to the other, none of them
empty.
-/
namespace DistLLM.Library

section Order

variable {α : Type} [LinearOrder α]

/-- `ranges` follow each other from `low` to `high`, and none is empty. -/
def Tiles : α → List (α × α) → α → Prop
  | low, [], high => low = high
  | low, (start, stop) :: rest, high => start = low ∧ start < stop ∧ Tiles stop rest high

namespace Tiles

variable {low high start stop : α} {ranges more : List (α × α)}

instance decidable : ∀ (low : α) ranges high, Decidable (Tiles low ranges high)
  | low, [], high => inferInstanceAs (Decidable (low = high))
  | low, (start, stop) :: rest, high =>
    have := decidable stop rest high
    inferInstanceAs (Decidable (start = low ∧ start < stop ∧ Tiles stop rest high))

theorem le (tiles : Tiles low ranges high) : low ≤ high := by
  induction ranges generalizing low with
  | nil => exact le_of_eq tiles
  | cons r rest ih =>
    obtain ⟨rfl, some, later⟩ := tiles
    exact le_trans (le_of_lt some) (ih later)

theorem append_iff : Tiles low (ranges ++ more) high ↔
    ∃ middle, Tiles low ranges middle ∧ Tiles middle more high := by
  induction ranges generalizing low with
  | nil => simp [Tiles]
  | cons r rest ih =>
    simp only [List.cons_append, Tiles, ih]
    constructor
    · rintro ⟨begins, some, middle, before, after⟩
      exact ⟨middle, ⟨begins, some, before⟩, after⟩
    · rintro ⟨middle, ⟨begins, some, before⟩, after⟩
      exact ⟨begins, some, middle, before, after⟩

theorem concat_iff : Tiles low (ranges ++ [(start, stop)]) high ↔
    Tiles low ranges start ∧ start < stop ∧ stop = high := by
  rw [append_iff]
  constructor
  · rintro ⟨middle, before, rfl, some, rfl⟩
    exact ⟨before, some, rfl⟩
  · rintro ⟨before, some, rfl⟩
    exact ⟨start, before, rfl, some, rfl⟩

theorem bounds (tiles : Tiles low ranges high) {r : α × α} (member : r ∈ ranges) :
    low ≤ r.1 ∧ r.1 < r.2 ∧ r.2 ≤ high := by
  induction ranges generalizing low with
  | nil => simp at member
  | cons first rest ih =>
    obtain ⟨rfl, some, later⟩ := tiles
    have ends := le later
    rcases List.mem_cons.mp member with rfl | inside
    · exact ⟨le_refl _, some, ends⟩
    · obtain ⟨above, wide, below⟩ := ih later inside
      exact ⟨le_trans (le_of_lt some) above, wide, below⟩

theorem covers (tiles : Tiles low ranges high) {x : α} (above : low ≤ x) (below : x < high) :
    ∃ r ∈ ranges, r.1 ≤ x ∧ x < r.2 := by
  induction ranges generalizing low with
  | nil =>
    obtain rfl : low = high := tiles
    exact absurd below (not_lt_of_ge above)
  | cons first rest ih =>
    obtain ⟨rfl, some, later⟩ := tiles
    by_cases here : x < first.2
    · exact ⟨first, List.mem_cons_self, above, here⟩
    · obtain ⟨r, inside, place⟩ := ih later (le_of_not_gt here)
      exact ⟨r, List.mem_cons_of_mem _ inside, place⟩

theorem pairwise (tiles : Tiles low ranges high) : ranges.Pairwise fun r r' => r.2 ≤ r'.1 := by
  induction ranges generalizing low with
  | nil => exact .nil
  | cons first rest ih =>
    obtain ⟨rfl, some, later⟩ := tiles
    exact .cons (fun r' inside => (bounds later inside).1) (ih later)

theorem cut {middle : α} (tiles : Tiles low (ranges ++ (start, stop) :: more) high)
    (above : start < middle) (below : middle < stop) :
    Tiles low (ranges ++ (start, middle) :: (middle, stop) :: more) high := by
  obtain ⟨place, before, rfl, _, after⟩ := append_iff.mp tiles
  exact append_iff.mpr ⟨_, before, rfl, above, rfl, below, after⟩

end Tiles

end Order

namespace Tiles

variable {low high : Nat} {ranges : List (Nat × Nat)}

theorem mul_length_le (tiles : Tiles low ranges high) {width : Nat}
    (wide : ∀ r ∈ ranges, width ≤ r.2 - r.1) : low + ranges.length * width ≤ high := by
  induction ranges generalizing low with
  | nil =>
    have : low = high := tiles
    simp [this]
  | cons first rest ih =>
    obtain ⟨rfl, some, later⟩ := tiles
    have rest_le := ih later fun r inside => wide r (List.mem_cons_of_mem _ inside)
    have first_le := wide first List.mem_cons_self
    simp only [List.length_cons, Nat.add_mul] at first_le ⊢
    omega

end Tiles

end DistLLM.Library
