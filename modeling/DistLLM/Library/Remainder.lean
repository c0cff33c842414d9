import Mathlib.Data.List.Basic

/-!
# Texts and what remains of them

A piece of a grammar relates a text to the remainder after it. Put before a language it gives a
language again, and the lemmas say what is left of that language behind its first letter.
-/
namespace DistLLM.Library

variable {α : Type}

/-- A stretch of letters that have the property, not always the longest one. -/
inductive Skips (p : α → Bool) : List α → List α → Prop
  | stop (s : List α) : Skips p s s
  | skip {a : α} {s t : List α} : p a = true → Skips p s t → Skips p (a :: s) t

def Before (piece : List α → List α → Prop) (language : List α → Prop) (s : List α) : Prop :=
  ∃ t, piece s t ∧ language t

def Starts (a : α) (language : List α → Prop) : List α → Prop
  | [] => False
  | b :: s => b = a ∧ language s

section

variable {p : α → Bool} {piece : List α → List α → Prop} {L M : List α → Prop} {a b : α}
  {s t : List α}

@[simp] theorem starts_nil : Starts a L [] ↔ False := Iff.rfl

@[simp] theorem starts_cons : Starts a L (b :: s) ↔ b = a ∧ L s := Iff.rfl

theorem starts_iff : Starts a L s ↔ ∃ t, s = a :: t ∧ L t := by
  cases s with
  | nil => simp
  | cons b s =>
    constructor
    · rintro ⟨rfl, rest⟩
      exact ⟨s, rfl, rest⟩
    · rintro ⟨t, equal, rest⟩
      obtain ⟨rfl, rfl⟩ := List.cons.inj equal
      exact ⟨rfl, rest⟩

theorem before_congr (same : ∀ t, L t ↔ M t) : Before piece L s ↔ Before piece M s := by
  simp only [Before, same]

theorem skips_cons_iff : Skips p (a :: s) t ↔ t = a :: s ∨ p a = true ∧ Skips p s t := by
  constructor
  · intro skips
    cases skips with
    | stop => exact .inl rfl
    | skip letter rest => exact .inr ⟨letter, rest⟩
  · rintro (rfl | ⟨letter, rest⟩)
    · exact .stop _
    · exact .skip letter rest

@[simp] theorem skips_nil_iff : Skips p [] t ↔ t = [] := by
  constructor
  · rintro ⟨⟩
    rfl
  · rintro rfl
    exact .stop _

@[simp] theorem before_skips_nil : Before (Skips p) L [] ↔ L [] := by
  simp [Before]

theorem before_skips_cons (letter : p a = true) (starts : ¬ L (a :: s)) :
    Before (Skips p) L (a :: s) ↔ Before (Skips p) L s := by
  constructor
  · rintro ⟨t, skips, rest⟩
    obtain rfl | ⟨-, later⟩ := skips_cons_iff.mp skips
    · exact absurd rest starts
    · exact ⟨t, later, rest⟩
  · rintro ⟨t, skips, rest⟩
    exact ⟨t, .skip letter skips, rest⟩

theorem before_skips_cons_of_not (letter : p a = false) :
    Before (Skips p) L (a :: s) ↔ L (a :: s) := by
  constructor
  · rintro ⟨t, skips, rest⟩
    obtain rfl | ⟨skipped, -⟩ := skips_cons_iff.mp skips
    · exact rest
    · simp [letter] at skipped
  · intro rest
    exact ⟨_, .stop _, rest⟩

end

end DistLLM.Library
