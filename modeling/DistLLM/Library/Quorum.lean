import Mathlib.Data.Finset.Card

/-!
# Quorums

Counting arguments: large enough sets of members share a member, and, when some
members are faulty, an honest one. A ballot box that records at most one choice
of each voter then has at most one winner.
-/
namespace DistLLM.Library

variable {ι : Type} [DecidableEq ι] {members : Finset ι}

theorem exists_mem_inter_of_card {A B : Finset ι} (hA : A ⊆ members) (hB : B ⊆ members)
    (large : members.card < A.card + B.card) : ∃ i ∈ members, i ∈ A ∧ i ∈ B := by
  have union := Finset.card_le_card (Finset.union_subset hA hB)
  have count := Finset.card_union_add_card_inter A B
  have positive : 0 < (A ∩ B).card := by omega
  obtain ⟨i, shared⟩ := Finset.card_pos.mp positive
  obtain ⟨inA, inB⟩ := Finset.mem_inter.mp shared
  exact ⟨i, hA inA, inA, inB⟩

theorem exists_honest_inter_of_card {faulty A B : Finset ι} (hA : A ⊆ members) (hB : B ⊆ members)
    (large : members.card + faulty.card < A.card + B.card) :
    ∃ i ∈ members, i ∉ faulty ∧ i ∈ A ∧ i ∈ B := by
  have honestA : A \ faulty ⊆ members := fun i h => hA (Finset.mem_sdiff.mp h).1
  have bound := Finset.le_card_sdiff faulty A
  obtain ⟨i, member, inA, inB⟩ := exists_mem_inter_of_card honestA hB (by omega)
  obtain ⟨inA, honest⟩ := Finset.mem_sdiff.mp inA
  exact ⟨i, member, honest, inA, inB⟩

/-- A ballot box: who voted for whom in which round. -/
abbrev Ballots (ι : Type) := List (ι × Nat × ι)

def OneVoteEach (votes : Ballots ι) : Prop :=
  ∀ v t c c', (v, t, c) ∈ votes → (v, t, c') ∈ votes → c = c'

/-- The voters of `c` in round `t` are a strict majority of the members. -/
def Majority (members : Finset ι) (votes : Ballots ι) (t : Nat) (c : ι) : Prop :=
  members.card / 2 < (members.filter fun v => (v, t, c) ∈ votes).card

instance (members : Finset ι) (votes : Ballots ι) (t : Nat) (c : ι) :
    Decidable (Majority members votes t c) :=
  inferInstanceAs (Decidable (_ < _))

variable {votes : Ballots ι}

theorem Majority.mono {votes' : Ballots ι} {t : Nat} {c : ι} (h : Majority members votes t c)
    (more : votes ⊆ votes') : Majority members votes' t c := by
  refine lt_of_lt_of_le h (Finset.card_le_card ?_)
  exact Finset.monotone_filter_right _ fun v _ voted => more voted

theorem majority_of_subset {V : Finset ι} {t : Nat} {c : ι} (inside : V ⊆ members)
    (voted : ∀ v ∈ V, (v, t, c) ∈ votes)
    (large : members.card / 2 < V.card) : Majority members votes t c := by
  refine lt_of_lt_of_le large (Finset.card_le_card ?_)
  exact fun v hv => Finset.mem_filter.mpr ⟨inside hv, voted v hv⟩

theorem majority_unique (once : OneVoteEach votes) {t : Nat} {c c' : ι}
    (h : Majority members votes t c) (h' : Majority members votes t c') :
    c = c' := by
  have large : members.card < (members.filter fun v => (v, t, c) ∈ votes).card +
      (members.filter fun v => (v, t, c') ∈ votes).card := by
    unfold Majority at h h'
    omega
  obtain ⟨v, _, hv, hv'⟩ := exists_mem_inter_of_card (Finset.filter_subset _ _)
    (Finset.filter_subset _ _) large
  exact once v t c c' (Finset.mem_filter.mp hv).2 (Finset.mem_filter.mp hv').2

end DistLLM.Library
