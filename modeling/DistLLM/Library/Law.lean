import Mathlib.Algebra.BigOperators.Field
import Mathlib.Algebra.Order.BigOperators.Ring.Finset
import Mathlib.Algebra.Order.Field.Basic
import Mathlib.Tactic.Linarith

/-!
# Laws of finite random programs

The law of a random program, given by the expectation of every function of its result, and
distributions over a finite type. Rejection sampling with the resampling step drawn from a
distribution of one's choice.
-/
namespace DistLLM.Library

variable {F : Type} [Field F] [LinearOrder F] {α β V : Type}

/-- The law of a result: a positive linear expectation of total mass one. -/
@[ext] structure Law (F : Type) [Field F] [LinearOrder F] (α : Type) where
  expect : (α → F) → F
  expect_add : ∀ f g, expect (fun a => f a + g a) = expect f + expect g
  expect_mul : ∀ c f, expect (fun a => c * f a) = c * expect f
  expect_one : expect (fun _ => 1) = 1
  expect_nonneg : ∀ f, (∀ a, 0 ≤ f a) → 0 ≤ expect f

structure Dist (F : Type) [Field F] [LinearOrder F] (V : Type) [Fintype V] where
  mass : V → F
  nonneg : ∀ x, 0 ≤ mass x
  total : ∑ x, mass x = 1

namespace Law

theorem expect_const (m : Law F α) (c : F) : m.expect (fun _ => c) = c := by
  have scaled := m.expect_mul c fun _ => 1
  simpa [m.expect_one] using scaled

instance : Monad (Law F) where
  pure a :=
    { expect f := f a
      expect_add _ _ := rfl
      expect_mul _ _ := rfl
      expect_one := rfl
      expect_nonneg _ nonneg := nonneg a }
  bind m k :=
    { expect f := m.expect fun a => (k a).expect f
      expect_add f g := by simp [expect_add]
      expect_mul c f := by simp [expect_mul]
      expect_one := by simp [expect_one]
      expect_nonneg f nonneg := m.expect_nonneg _ fun a => (k a).expect_nonneg f nonneg }

@[simp] theorem expect_pure (a : α) (f : α → F) : (pure a : Law F α).expect f = f a := rfl

@[simp] theorem expect_bind (m : Law F α) (k : α → Law F β) (f : β → F) :
    (m >>= k).expect f = m.expect fun a => (k a).expect f := rfl

@[simp] theorem expect_map (m : Law F α) (g : α → β) (f : β → F) :
    (g <$> m).expect f = m.expect fun a => f (g a) := rfl

variable [IsStrictOrderedRing F]

def draw [Fintype V] (p : Dist F V) : Law F V where
  expect f := ∑ x, p.mass x * f x
  expect_add f g := by simp [mul_add, Finset.sum_add_distrib]
  expect_mul c f := by simp [Finset.mul_sum, mul_left_comm]
  expect_one := by simp [p.total]
  expect_nonneg f nonneg := Finset.sum_nonneg fun x _ => mul_nonneg (p.nonneg x) (nonneg x)

@[simp] theorem expect_draw [Fintype V] (p : Dist F V) (f : V → F) :
    (draw p).expect f = ∑ x, p.mass x * f x := rfl

/-- The probability that a uniform number of the unit interval is below `r`. -/
def clamp (r : F) : F := max 0 (min 1 r)

/-- Whether a uniform number of the unit interval is below `r`. -/
def below (r : F) : Law F Bool where
  expect f := clamp r * f true + (1 - clamp r) * f false
  expect_add f g := by ring
  expect_mul c f := by ring
  expect_one := by ring
  expect_nonneg f nonneg := by
    have low : 0 ≤ clamp r := le_max_left _ _
    have high : clamp r ≤ 1 := max_le (by simp) (min_le_left _ _)
    exact add_nonneg (mul_nonneg low (nonneg _)) (mul_nonneg (by linarith) (nonneg _))

@[simp] theorem expect_below (r : F) (f : Bool → F) :
    (below r).expect f = clamp r * f true + (1 - clamp r) * f false := rfl

theorem draw_eq_iff [Fintype V] [DecidableEq V] (p q : Dist F V) :
    draw p = draw q ↔ ∀ x, p.mass x = q.mass x := by
  constructor
  · intro same x
    have here := congrArg (fun m => m.expect fun y => if y = x then 1 else 0) same
    simpa using here
  · intro same
    ext f
    simp [same]

omit [IsStrictOrderedRing F] in
theorem map_eq_map_iff {g : α → β} (back : β → α) (undone : ∀ a, back (g a) = a)
    {m m' : Law F α} : g <$> m = g <$> m' ↔ m = m' := by
  constructor
  · intro same
    ext f
    have here := congrArg (fun m => m.expect fun b => f (back b)) same
    simpa [undone] using here
  · intro same
    rw [same]

/-- A property that the results of a program surely have: they are all that functions see. -/
def Sure (m : Law F α) (P : α → Prop) : Prop :=
  ∀ f g, (∀ a, P a → f a = g a) → m.expect f = m.expect g

omit [IsStrictOrderedRing F] in
theorem Sure.pure {P : α → Prop} {a : α} (holds : P a) : Sure (Pure.pure a : Law F α) P :=
  fun _ _ same => same a holds

omit [IsStrictOrderedRing F] in
theorem Sure.bind {m : Law F α} {k : α → Law F β} {P : β → Prop}
    (each : ∀ a, Sure (k a) P) : Sure (m >>= k) P := by
  intro f g same
  simp only [expect_bind]
  congr
  funext a
  exact each a f g same

end Law

namespace Dist

variable [IsStrictOrderedRing F] [Fintype V] (p q : Dist F V)

/-- The probability that a proposal from `q` is accepted against `p`. -/
def overlap : F := ∑ x, min (p.mass x) (q.mass x)

theorem overlap_le_one : overlap p q ≤ 1 := by
  rw [← p.total]
  exact Finset.sum_le_sum fun x _ => min_le_left _ _

/-- What rejection sampling emits when a rejected proposal from `q` is replaced by a fresh draw from
`p` itself. -/
def resampled : Dist F V where
  mass x := min (p.mass x) (q.mass x) + (1 - overlap p q) * p.mass x
  nonneg x := by
    have rejects := sub_nonneg.mpr (overlap_le_one p q)
    exact add_nonneg (le_min (p.nonneg x) (q.nonneg x)) (mul_nonneg rejects (p.nonneg x))
  total := by
    rw [Finset.sum_add_distrib, ← Finset.mul_sum, p.total, overlap]
    ring

/-- On the outcomes that `p` can have, `q` is a multiple of `p`. -/
def ProportionalOn : Prop := ∃ c, ∀ x, 0 < p.mass x → q.mass x = c * p.mass x

theorem mass_mul_clamp (x : V) :
    q.mass x * Law.clamp (p.mass x / q.mass x) = min (p.mass x) (q.mass x) := by
  rcases (q.nonneg x).eq_or_lt with none | some_
  · rw [← none, zero_mul, min_eq_right (p.nonneg x)]
  · have ratio : 0 ≤ p.mass x / q.mass x := div_nonneg (p.nonneg x) some_.le
    rw [Law.clamp, max_eq_right (le_min zero_le_one ratio), mul_min_of_nonneg _ _ some_.le, mul_one,
      mul_div_cancel₀ _ some_.ne', min_comm]

/-- Draw from `q`, accept against the ratio of the masses, and replace a rejected proposal by a draw
from `p`. -/
def resample : Law F V := do
  let x ← Law.draw q
  let accept ← Law.below (p.mass x / q.mass x)
  if accept then pure x else Law.draw p

theorem resample_eq : resample p q = Law.draw (resampled p q) := by
  ext f
  have each : ∀ x, q.mass x * (Law.clamp (p.mass x / q.mass x) * f x
      + (1 - Law.clamp (p.mass x / q.mass x)) * ∑ y, p.mass y * f y)
      = min (p.mass x) (q.mass x) * f x
        + (q.mass x - min (p.mass x) (q.mass x)) * ∑ y, p.mass y * f y := by
    intro x
    rw [← mass_mul_clamp]
    ring
  simp only [resample, Law.expect_bind, Law.expect_draw, Law.expect_below, if_true,
    Bool.false_eq_true, if_false, Law.expect_pure, each, resampled, add_mul]
  rw [Finset.sum_add_distrib, Finset.sum_add_distrib, ← Finset.sum_mul, Finset.sum_sub_distrib,
    q.total]
  simp only [mul_assoc, ← Finset.mul_sum, overlap]

/-- An outcome whose proposals are short of `p` by a factor below one is never over-proposed. -/
theorem mass_eq_of_min {c : F} {x : V} (short : min (p.mass x) (q.mass x) = c * p.mass x)
    (below : c < 1) (some_ : 0 < p.mass x) : q.mass x = c * p.mass x := by
  have less : c * p.mass x < p.mass x := by nlinarith
  rcases min_choice (p.mass x) (q.mass x) with left | right
  · rw [left] at short
    linarith
  · rw [← short, right]

/-- A factor of proportionality is the overlap: every proposal beyond it is one `p` cannot have. -/
theorem min_eq_of_proportional {c : F} (proportional : ∀ x, 0 < p.mass x → q.mass x = c * p.mass x)
    (x : V) : min (p.mass x) (q.mass x) = c * p.mass x := by
  have below : ∀ y, c * p.mass y ≤ q.mass y := by
    intro y
    rcases (p.nonneg y).eq_or_lt with none | some_
    · simpa [← none] using q.nonneg y
    · exact (proportional y some_).ge
  have le_one : c ≤ 1 := by
    have sums : ∑ y, c * p.mass y ≤ ∑ y, q.mass y := Finset.sum_le_sum fun y _ => below y
    rwa [← Finset.mul_sum, p.total, q.total, mul_one] at sums
  rcases (p.nonneg x).eq_or_lt with none | some_
  · simpa [← none] using q.nonneg x
  · rw [proportional x some_, min_eq_right]
    nlinarith

/-- Resampling from `p` keeps `p` exactly where the proposals are proportional to it on its
outcomes. -/
theorem resampled_eq_iff : (∀ x, (resampled p q).mass x = p.mass x) ↔ ProportionalOn p q := by
  constructor
  · intro same
    have short : ∀ x, min (p.mass x) (q.mass x) = overlap p q * p.mass x := by
      intro x
      have := same x
      simp only [resampled] at this
      linarith
    rcases (overlap_le_one p q).eq_or_lt with whole | part
    · -- every proposal is accepted, so the two are the same
      refine ⟨1, ?_⟩
      have under : ∀ x ∈ Finset.univ, p.mass x ≤ q.mass x := by
        intro x _
        rw [← min_eq_left_iff, short, whole, one_mul]
      have equal := (Finset.sum_eq_sum_iff_of_le under).mp (p.total.trans q.total.symm)
      intro x _
      rw [one_mul, equal x (Finset.mem_univ x)]
    · exact ⟨overlap p q, fun x some_ => mass_eq_of_min p q (short x) part some_⟩
  · rintro ⟨c, proportional⟩ x
    have short := min_eq_of_proportional p q proportional
    have factor : overlap p q = c := by
      rw [overlap, Finset.sum_congr rfl fun x _ => short x, ← Finset.mul_sum, p.total, mul_one]
    simp only [resampled, short, factor]
    ring

end Dist

end DistLLM.Library
