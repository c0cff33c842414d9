import Mathlib.Logic.Basic

/-!
# State machines and guarded runs

A machine has initial states, actions that may be enabled, and an effect for
each action. A guard restricts the runs one speaks about; the trivial guard
gives plain reachability.
-/
namespace DistLLM.Library

structure Machine (σ α : Type) where
  init : σ → Prop
  enabled : σ → α → Prop
  exec : σ → α → σ

namespace Machine

variable {σ α : Type} (m : Machine σ α)

/-- States reached by runs whose every step is enabled and satisfies `ok`. -/
inductive Reaches (ok : σ → α → Prop) : σ → Prop
  | init {s} : m.init s → Reaches ok s
  | step {s} (a : α) : Reaches ok s → m.enabled s a → ok s a → Reaches ok (m.exec s a)

/-- Plain reachability: no step is excluded. -/
abbrev Reachable : σ → Prop := m.Reaches fun _ _ => True

variable {m}

/-- The invariant rule: true initially and kept by every guarded step. -/
theorem Reaches.invariant {ok : σ → α → Prop} {I : σ → Prop} (initial : ∀ s, m.init s → I s)
    (preserved : ∀ s a, I s → m.enabled s a → ok s a → I (m.exec s a))
    {s : σ} (h : m.Reaches ok s) : I s := by
  induction h with
  | init start => exact initial _ start
  | step a _ enabled allowed ih => exact preserved _ a ih enabled allowed

/-- Every action of the list is enabled and allowed where it is taken. -/
def Follows (m : Machine σ α) (ok : σ → α → Prop) : σ → List α → Prop
  | _, [] => True
  | s, a :: rest => m.enabled s a ∧ ok s a ∧ Follows m ok (m.exec s a) rest

instance Follows.decidable (ok : σ → α → Prop) [∀ s a, Decidable (m.enabled s a)]
    [∀ s a, Decidable (ok s a)] : ∀ s acts, Decidable (m.Follows ok s acts)
  | _, [] => .isTrue trivial
  | s, a :: rest =>
    have := Follows.decidable ok (m.exec s a) rest
    inferInstanceAs (Decidable (m.enabled s a ∧ ok s a ∧ m.Follows ok (m.exec s a) rest))

theorem Reaches.of_follows {ok : σ → α → Prop} {s : σ} (h : m.Reaches ok s) (acts : List α)
    (follows : m.Follows ok s acts) : m.Reaches ok (acts.foldl m.exec s) := by
  induction acts generalizing s with
  | nil => exact h
  | cons a rest ih =>
    obtain ⟨enabled, allowed, later⟩ := follows
    exact ih (.step a h enabled allowed) later

end Machine

end DistLLM.Library
