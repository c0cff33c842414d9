import Mathlib.Data.List.Basic

/-!
# Slices

A list that is handed out in slices, each with its index in the whole.
-/
namespace DistLLM.Library

variable {α : Type}

def Consecutive (whole : List α) : Nat → List (Nat × List α) → Prop
  | _, [] => True
  | start, slice :: rest =>
    slice.1 = start ∧ slice.2 <+: whole.drop start ∧
      Consecutive whole (start + slice.2.length) rest

instance Consecutive.decidable [DecidableEq α] (whole : List α) :
    ∀ start slices, Decidable (Consecutive whole start slices)
  | _, [] => .isTrue trivial
  | start, slice :: rest =>
    have := Consecutive.decidable whole (start + slice.2.length) rest
    inferInstanceAs (Decidable (_ ∧ _ ∧ _))

namespace Consecutive

variable {whole : List α} {start : Nat} {slices : List (Nat × List α)} {slice : Nat × List α}
  (so : Consecutive whole start slices)

include so

theorem append_one (here : slice.1 = start + (slices.flatMap Prod.snd).length)
    (next : slice.2 <+: whole.drop slice.1) : Consecutive whole start (slices ++ [slice]) := by
  induction slices generalizing start with
  | nil =>
    simp only [List.flatMap_nil, List.length_nil, Nat.add_zero] at here
    exact ⟨here, here ▸ next, trivial⟩
  | cons first rest ih =>
    obtain ⟨index, piece, later⟩ := so
    refine ⟨index, piece, ?_⟩
    apply ih later
    rw [here, List.flatMap_cons, List.length_append, Nat.add_assoc]

theorem flatMap_beginning : slices.flatMap Prod.snd <+: whole.drop start := by
  induction slices generalizing start with
  | nil => exact List.nil_prefix
  | cons first rest ih =>
    obtain ⟨-, ⟨tail, split⟩, later⟩ := so
    have after : whole.drop (start + first.2.length) = tail := by
      rw [← List.drop_drop, ← split, List.drop_left]
    rw [List.flatMap_cons, ← split]
    apply (List.prefix_append_right_inj first.2).mpr
    exact after ▸ ih later

theorem end_le (member : slice ∈ slices) :
    slice.1 + slice.2.length ≤ start + (slices.flatMap Prod.snd).length := by
  induction slices generalizing start with
  | nil => cases member
  | cons first rest ih =>
    obtain ⟨index, -, later⟩ := so
    rw [List.flatMap_cons, List.length_append]
    rcases List.mem_cons.mp member with rfl | tail
    · omega
    · have := ih later tail
      omega

theorem flatMap_eq (member : slice ∈ slices) (last : slice.1 + slice.2.length = whole.length) :
    slices.flatMap Prod.snd = whole.drop start := by
  apply so.flatMap_beginning.eq_of_length_le
  have := so.end_le member
  rw [List.length_drop]
  omega

end Consecutive

end DistLLM.Library
