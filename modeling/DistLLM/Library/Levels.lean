import Mathlib.Algebra.BigOperators.Ring.Finset
import Mathlib.Algebra.Order.BigOperators.Group.Finset
import Mathlib.Algebra.Order.Field.Basic
import Mathlib.Tactic.Linarith
import Mathlib.Tactic.Ring

/-!
# Levels that are raised together and drawn from at the top

In each round some of finitely many levels are raised, and then a fixed amount is drawn from the
highest of those raised, once it has that amount. Where a round raises no more than is drawn, no
level ever gets beyond a bound, whichever levels the rounds choose.
-/
namespace DistLLM.Library

open Finset

variable {ι K : Type} [DecidableEq ι] [Field K] [LinearOrder K] [IsStrictOrderedRing K]

/-- What `j` of `n` levels may hold together: the first of them `n` units, each other one unit
less than the one before. -/
def capacity (unit : K) (n : ℕ) : ℕ → K
  | 0 => 0
  | j + 1 => capacity unit n j + unit * (n - j)

/-- All levels are within the capacities, however they are taken together. -/
structure Leveled (all : Finset ι) (unit : K) (level : ι → K) : Prop where
  nonneg : ∀ i ∈ all, 0 ≤ level i
  within : ∀ J ⊆ all, ∑ i ∈ J, level i ≤ capacity unit all.card J.card

section

variable {all Q J : Finset ι} {unit amount x : K} {level raised : ι → K} {i : ι}

theorem capacity_add_le (unit_nonneg : 0 ≤ unit) {n q p : ℕ}
    (share : x ≤ unit * (n - (q + p : ℕ) + 1)) :
    capacity unit n q + p * x ≤ capacity unit n (q + p) := by
  induction p with
  | zero => simp
  | succ p ih =>
    have smaller : x ≤ unit * (n - (q + p : ℕ)) := by
      refine share.trans (le_of_eq ?_)
      push_cast
      ring
    have earlier : capacity unit n q + p * x ≤ capacity unit n (q + p) := by
      refine ih (smaller.trans ?_)
      linarith [mul_add unit ((n : K) - (q + p : ℕ)) 1]
    have next : capacity unit n (q + (p + 1))
        = capacity unit n (q + p) + unit * (n - (q + p : ℕ)) := rfl
    rw [next]
    push_cast at earlier smaller ⊢
    linarith

omit [DecidableEq ι] [IsStrictOrderedRing K] in
theorem Leveled.le (leveled : Leveled all unit level) (member : i ∈ all) :
    level i ≤ unit * all.card := by
  have alone := leveled.within {i} (by simpa using member)
  simpa [capacity] using alone

omit [DecidableEq ι] in
theorem Leveled.of_le (nonneg : ∀ i ∈ all, 0 ≤ level i) (bound : ∀ i ∈ all, level i ≤ unit)
    (unit_nonneg : 0 ≤ unit) : Leveled all unit level where
  nonneg := nonneg
  within J inside := by
    have each : ∑ i ∈ J, level i ≤ J.card * unit := by
      simpa using sum_le_card_nsmul J level unit fun i member => bound i (inside member)
    have size : (J.card : K) ≤ all.card := by exact_mod_cast card_le_card inside
    have share : unit ≤ unit * (all.card - (0 + J.card : ℕ) + 1) := by
      push_cast
      nlinarith
    have room := capacity_add_le (q := 0) unit_nonneg share
    simp only [capacity, zero_add] at room
    exact each.trans room

variable (leveled : Leveled all unit level) (unit_nonneg : 0 ≤ unit)

include leveled unit_nonneg

theorem Leveled.raised_within (inside : J ⊆ all) (same : ∀ i ∉ Q, raised i = level i)
    (low : ∀ i ∈ J ∩ Q, raised i ≤ x) (share : x ≤ unit * (all.card - J.card + 1)) :
    ∑ i ∈ J, raised i ≤ capacity unit all.card J.card := by
  have still : ∑ i ∈ J \ Q, raised i ≤ capacity unit all.card (J \ Q).card := by
    rw [sum_congr rfl fun i member => same i (mem_sdiff.mp member).2]
    exact leveled.within _ (sdiff_subset.trans inside)
  have up : ∑ i ∈ J ∩ Q, raised i ≤ (J ∩ Q).card * x := by
    simpa using sum_le_card_nsmul (J ∩ Q) raised x low
  have sizes : (J \ Q).card + (J ∩ Q).card = J.card := card_sdiff_add_card_inter J Q
  have room : capacity unit all.card (J \ Q).card + (J ∩ Q).card * x
      ≤ capacity unit all.card J.card := by
    have share' : x ≤ unit * (all.card - ((J \ Q).card + (J ∩ Q).card : ℕ) + 1) := by
      rwa [sizes]
    have added := capacity_add_le unit_nonneg share'
    rwa [sizes] at added
  have parts := sum_inter_add_sum_sdiff J Q raised
  linarith

theorem Leveled.raise (same : ∀ i ∉ Q, raised i = level i) (up : ∀ i, level i ≤ raised i)
    (low : ∀ i ∈ Q, raised i ≤ unit) : Leveled all unit raised where
  nonneg i member := (leveled.nonneg i member).trans (up i)
  within J inside := by
    have size : (J.card : K) ≤ all.card := by exact_mod_cast card_le_card inside
    refine leveled.raised_within unit_nonneg inside same
      (fun i member => low i (mem_inter.mp member).2) ?_
    nlinarith

theorem Leveled.draw (amount_le : amount ≤ unit) (same : ∀ i ∉ Q, raised i = level i)
    (up : ∀ i, level i ≤ raised i) (poured : ∑ i ∈ Q, (raised i - level i) ≤ amount) {top : ι}
    (top_mem : top ∈ Q) (inAll : top ∈ all) (highest : ∀ i ∈ Q, raised i ≤ raised top)
    (enough : amount ≤ raised top) :
    Leveled all unit fun i => if i = top then raised i - amount else raised i where
  nonneg i member := by
    by_cases isTop : i = top
    · subst isTop
      simpa using enough
    · simpa [isTop] using (leveled.nonneg i member).trans (up i)
  within J inside := by
    -- a group with the highest level gives away at least what it gets
    have withTop (G : Finset ι) (inside : G ⊆ all) (member : top ∈ G) :
        ∑ i ∈ G, (if i = top then raised i - amount else raised i)
          ≤ capacity unit all.card G.card := by
      have drawn : ∑ i ∈ G, (if i = top then raised i - amount else raised i)
          = ∑ i ∈ G, raised i - amount := by
        have each (i : ι) : (if i = top then raised i - amount else raised i)
            = raised i - if i = top then amount else 0 := by
          split <;> simp
        simp only [each, sum_sub_distrib, sum_ite_eq', member, if_true]
      have gain : ∑ i ∈ G, (raised i - level i) ≤ ∑ i ∈ Q, (raised i - level i) := by
        have parts := sum_inter_add_sum_sdiff G Q fun i => raised i - level i
        have outside : ∑ i ∈ G \ Q, (raised i - level i) = 0 :=
          sum_eq_zero fun i outside => by simp [same i (mem_sdiff.mp outside).2]
        have inQ : ∑ i ∈ G ∩ Q, (raised i - level i) ≤ ∑ i ∈ Q, (raised i - level i) :=
          sum_le_sum_of_subset_of_nonneg inter_subset_right fun i _ _ => by linarith [up i]
        linarith
      have before := leveled.within G inside
      rw [sum_sub_distrib] at gain
      linarith
    by_cases member : top ∈ J
    · exact withTop J inside member
    · have unchanged : ∑ i ∈ J, (if i = top then raised i - amount else raised i)
          = ∑ i ∈ J, raised i :=
        sum_congr rfl fun i inJ => if_neg (by rintro rfl; exact member inJ)
      rw [unchanged]
      by_cases high : unit * (all.card - J.card) ≤ raised top - amount
      · -- what is left at the top is more than the share of one level more
        have larger := withTop (insert top J) (insert_subset inAll inside) (mem_insert_self _ _)
        rw [sum_insert member, unchanged, card_insert_of_notMem member, if_pos rfl] at larger
        simp only [capacity] at larger
        linarith
      · -- the top is low, and the raised levels of the group are not above it
        refine leveled.raised_within unit_nonneg inside same
          (fun i inBoth => highest i (mem_inter.mp inBoth).2) ?_
        linarith [mul_add unit ((all.card : K) - J.card) 1]

end

end DistLLM.Library
