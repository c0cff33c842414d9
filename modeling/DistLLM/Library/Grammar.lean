import Mathlib.Data.List.Basic

/-!
# Grammars read from the left

A form is a list of symbols, each a nonterminal or a class of characters. It derives the words that
are left when its first symbol is replaced or matched, over and over: what stands behind the first
symbol is what has to follow.
-/
namespace DistLLM.Library

inductive Sym (N α : Type)
  | nt (n : N)
  | one (p : α → Bool)

/-- The bodies that each nonterminal can be replaced by. -/
abbrev Rules (N α : Type) := N → List (List (Sym N α))

variable {N α : Type}

def Sym.chr [DecidableEq α] (a : α) : Sym N α := .one fun b => decide (b = a)

def spell [DecidableEq α] (word : List α) : List (Sym N α) := word.map Sym.chr

inductive Derives (rules : Rules N α) : List (Sym N α) → List α → Prop
  | nil : Derives rules [] []
  | one {p a form w} : p a = true → Derives rules form w → Derives rules (.one p :: form) (a :: w)
  | nt {n body form w} : body ∈ rules n → Derives rules (body ++ form) w →
      Derives rules (.nt n :: form) w

section

variable {rules : Rules N α} {form : List (Sym N α)} {w : List α}

@[simp] theorem derives_nil : Derives rules [] w ↔ w = [] := by
  constructor
  · intro derives
    cases derives
    rfl
  · rintro rfl
    exact .nil

@[simp] theorem derives_one_nil (p : α → Bool) : ¬ Derives rules (.one p :: form) [] := by
  intro derives
  cases derives

@[simp] theorem derives_one_cons (p : α → Bool) (a : α) :
    Derives rules (.one p :: form) (a :: w) ↔ p a = true ∧ Derives rules form w := by
  constructor
  · intro derives
    cases derives with
    | one class' rest => exact ⟨class', rest⟩
  · rintro ⟨class', rest⟩
    exact .one class' rest

@[simp] theorem derives_chr_nil [DecidableEq α] (a : α) : ¬ Derives rules (.chr a :: form) [] :=
  derives_one_nil _

@[simp] theorem derives_chr_cons [DecidableEq α] (a b : α) :
    Derives rules (.chr a :: form) (b :: w) ↔ b = a ∧ Derives rules form w := by
  rw [Sym.chr, derives_one_cons, decide_eq_true_eq]

theorem derives_nt (n : N) :
    Derives rules (.nt n :: form) w ↔ ∃ body ∈ rules n, Derives rules (body ++ form) w := by
  constructor
  · intro derives
    cases derives with
    | nt member rest => exact ⟨_, member, rest⟩
  · rintro ⟨body, member, rest⟩
    exact .nt member rest

end

end DistLLM.Library
