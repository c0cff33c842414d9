import DistLLM.Library.OrderStatistics
import DistLLM.Raft.Node

/-!
# The commit index of a leader

`advance_commit_index` sorts the match indices of the peers together with the leader's
own commit index and takes the median. The rule it is meant to implement counts the
leader as holding its whole log instead. The two agree up to one peer: the code waits for
half of the cluster, rounded up, among the peers alone.
-/
namespace DistLLM.Raft

open DistLLM.Library RaftNode

variable {ι P : Type}

variable (n : RaftNode ι P) (ls : RaftLeaderState ι)

/-- The nodes of the cluster: the tracked peers and the leader. -/
def RaftLeaderState.clusterSize : Nat := ls.matchIndex.values.length + 1

variable (index : Nat)

def RaftLeaderState.peersHolding : Nat :=
  ls.matchIndex.values.countP fun m => decide (index ≤ m)

/-- More than half of the nodes hold the entry, the leader being one of them. -/
def StoredOnMajority : Prop :=
  ls.clusterSize < 2 * (ls.peersHolding index + 1)

def Committable : Prop :=
  n.commitIndex < index ∧ (∃ e ∈ n.persistent.getEntry index, e.term = n.currentTerm) ∧
    StoredOnMajority ls index

/-- The commit index after is the largest committable index, or unchanged without one. -/
def FollowsCommitRule (after : Nat) : Prop :=
  (Committable n ls after ∧ ∀ index, Committable n ls index → index ≤ after) ∨
    ((∀ index, ¬ Committable n ls index) ∧ after = n.commitIndex)

/-! ### What the code does -/

/-- Half of the cluster, rounded up, is found among the peers. -/
def HeldByHalf : Prop :=
  ls.clusterSize ≤ 2 * ls.peersHolding index

def medianMatch : Nat :=
  let matchIndices := (n.volatile.commitIndex :: ls.matchIndex.values).insertionSort (· ≤ ·)
  matchIndices.getD (matchIndices.length / 2) 0

theorem medianMatch_ge_iff
    (above : n.commitIndex < index) : index ≤ medianMatch n ls ↔ HeldByHalf ls index := by
  have length : ((n.volatile.commitIndex :: ls.matchIndex.values).insertionSort (· ≤ ·)).length =
      ls.clusterSize := by
    rw [List.length_insertionSort]
    rfl
  have own : decide (index ≤ n.volatile.commitIndex) = false := by
    simpa [commitIndex] using above
  unfold medianMatch HeldByHalf
  simp only [length]
  -- the own entry of the list never counts above the commit index
  rw [le_getD_insertionSort_iff _ _ (by simp [RaftLeaderState.clusterSize]; omega),
    List.countP_cons_of_neg (by simp [own])]
  simp only [RaftLeaderState.clusterSize, RaftLeaderState.peersHolding, List.length_cons]
  omega

theorem advanceCommitIndex_eq {ls : RaftLeaderState ι}
    (leads : n.leaderState = some ls) : n.advanceCommitIndex =
      if medianMatch n ls > n.volatile.commitIndex then
        match n.persistent.getEntry (medianMatch n ls) with
        | some entry =>
          if entry.term = n.persistent.currentTerm then
            { n with volatile := { n.volatile with commitIndex := medianMatch n ls } }
          else n
        | none => n
      else n := by
  unfold advanceCommitIndex
  rw [leads]
  rfl

theorem advanceCommitIndex_cases {ls : RaftLeaderState ι} (leads : n.leaderState = some ls) :
    (n.commitIndex < medianMatch n ls ∧
      (∃ e ∈ n.persistent.getEntry (medianMatch n ls), e.term = n.currentTerm) ∧
      n.advanceCommitIndex.commitIndex = medianMatch n ls) ∨ (¬ (n.commitIndex < medianMatch n ls ∧
        ∃ e ∈ n.persistent.getEntry (medianMatch n ls), e.term = n.currentTerm) ∧
      n.advanceCommitIndex.commitIndex = n.commitIndex) := by
  rw [advanceCommitIndex_eq n leads]
  by_cases above : n.commitIndex < medianMatch n ls
  · rw [if_pos (by exact above)]
    cases entry : n.persistent.getEntry (medianMatch n ls) with
    | none =>
      right
      simp
    | some e =>
      by_cases current : e.term = n.persistent.currentTerm
      · left
        refine ⟨above, ⟨e, rfl, current⟩, ?_⟩
        simp [current, commitIndex]
      · right
        refine ⟨?_, by simp [current]⟩
        rintro ⟨_, e', found, term⟩
        cases found
        exact current term
  · right
    rw [if_neg (by exact above)]
    exact ⟨fun h => above h.1, rfl⟩

theorem storedOnMajority_of_heldByHalf {ls : RaftLeaderState ι} {index : Nat}
    (h : HeldByHalf ls index) : StoredOnMajority ls index := by
  unfold HeldByHalf at h
  unfold StoredOnMajority
  omega

theorem advanceCommitIndex_safe {ls : RaftLeaderState ι} (leads : n.leaderState = some ls) :
    n.advanceCommitIndex.commitIndex = n.commitIndex ∨
      Committable n ls n.advanceCommitIndex.commitIndex := by
  rcases advanceCommitIndex_cases n leads with ⟨above, current, after⟩ | ⟨_, after⟩
  · right
    rw [after]
    have held := (medianMatch_ge_iff n ls _ above).mp le_rfl
    exact ⟨above, current, storedOnMajority_of_heldByHalf held⟩
  · left
    exact after

/-- The highest index held by half of the cluster among the peers. -/
def HighestHeldByHalf : Prop :=
  HeldByHalf ls index ∧ ∀ higher, index < higher → ¬ HeldByHalf ls higher

theorem medianMatch_eq_of_highest {ls : RaftLeaderState ι} {index : Nat}
    (above : n.commitIndex < index) (highest : HighestHeldByHalf ls index) :
    medianMatch n ls = index := by
  have reaches := (medianMatch_ge_iff n ls index above).mpr highest.1
  by_contra other
  have higher : index < medianMatch n ls := by omega
  exact highest.2 _ higher ((medianMatch_ge_iff n ls _ (by omega)).mp le_rfl)

theorem highest_medianMatch
    (above : n.commitIndex < medianMatch n ls) : HighestHeldByHalf ls (medianMatch n ls) := by
  refine ⟨(medianMatch_ge_iff n ls _ above).mp le_rfl, ?_⟩
  intro higher more held
  have := (medianMatch_ge_iff n ls higher (by omega)).mpr held
  omega

/-- For every leader the code never commits below a majority, and it follows the commit rule
exactly when every committable index is covered by a committable one that is the highest held
by half of the cluster among the peers alone. -/
theorem advanceCommitIndex_rule_iff (n : RaftNode ι P) (ls : RaftLeaderState ι)
    (leads : n.leaderState = some ls) : (n.advanceCommitIndex.commitIndex = n.commitIndex ∨
      Committable n ls n.advanceCommitIndex.commitIndex) ∧
    (FollowsCommitRule n ls n.advanceCommitIndex.commitIndex ↔ ∀ index, Committable n ls index →
        ∃ high, index ≤ high ∧ Committable n ls high ∧ HighestHeldByHalf ls high) := by
  refine ⟨advanceCommitIndex_safe n leads, ?_⟩
  constructor
  · -- what the rule picks is the median, if the code moved at all
    rintro (⟨best, largest⟩ | ⟨none, _⟩) index candidate
    · rcases advanceCommitIndex_cases n leads with ⟨above, _, after⟩ | ⟨_, after⟩
      · rw [after] at best largest
        exact ⟨_, largest index candidate, best, highest_medianMatch n ls above⟩
      · rw [after] at best
        exact absurd best.1 (lt_irrefl _)
    · exact absurd candidate (none index)
  · intro covered
    by_cases some : ∃ index, Committable n ls index
    · -- the covering index is the median, so all candidates lie below it
      obtain ⟨index, candidate⟩ := some
      obtain ⟨high, _, committable, highest⟩ := covered index candidate
      have median := medianMatch_eq_of_highest n committable.1 highest
      left
      rcases advanceCommitIndex_cases n leads with ⟨_, _, after⟩ | ⟨blocked, _⟩
      · rw [after, median]
        refine ⟨committable, ?_⟩
        intro other candidate'
        obtain ⟨high', below, committable', highest'⟩ := covered other candidate'
        have := medianMatch_eq_of_highest n committable'.1 highest'
        omega
      · rw [median] at blocked
        exact absurd ⟨committable.1, committable.2.1⟩ blocked
    · right
      have none : ∀ index, ¬ Committable n ls index := fun index h => some ⟨index, h⟩
      rcases advanceCommitIndex_safe n leads with same | raised
      · exact ⟨none, same⟩
      · exact absurd raised (none _)

/-- A leader of three with one entry, replicated to "b" but not to "c". -/
def leaderOfThree : RaftNode String String :=
  { (RaftNode.init "a" 64 ⟨0, 150⟩ : RaftNode String String) with
    role := .leader
    persistent := { currentTerm := 1, votedFor := some "a", log := [⟨1, 1, "node_join", "n1"⟩] } }

def trackedPeers (b c : Nat) : RaftLeaderState String where
  nextIndex := ((∅ : Dict String Nat).set "b" (b + 1)).set "c" (c + 1)
  matchIndex := ((∅ : Dict String Nat).set "b" b).set "c" c

/-- With the entry on both peers the rule is followed. -/
theorem advanceCommitIndex_rule_iff_example :
    Committable { leaderOfThree with leaderState := some (trackedPeers 1 1) } (trackedPeers 1 1)
      ({ leaderOfThree with
          leaderState := some (trackedPeers 1 1) }.advanceCommitIndex.commitIndex) := by
  have safe := (advanceCommitIndex_rule_iff
    { leaderOfThree with leaderState := some (trackedPeers 1 1) } (trackedPeers 1 1) rfl).1
  exact safe.resolve_left (by decide)

/-- The leader and "b" are two of three nodes holding entry 1 of the current term, yet the
commit index stays at 0. -/
theorem majority_entry_not_committed :
    let n := { leaderOfThree with leaderState := some (trackedPeers 1 0) }
    Committable n (trackedPeers 1 0) 1 ∧ n.advanceCommitIndex.commitIndex = 0 ∧
      ¬ FollowsCommitRule n (trackedPeers 1 0) n.advanceCommitIndex.commitIndex := by
  intro n
  have candidate : Committable n (trackedPeers 1 0) 1 := by
    refine ⟨by decide, ⟨⟨1, 1, "node_join", "n1"⟩, by decide, by decide⟩, by
      unfold StoredOnMajority; decide⟩
  have stuck : n.advanceCommitIndex.commitIndex = 0 := by decide
  refine ⟨candidate, stuck, ?_⟩
  rintro (⟨best, _⟩ | ⟨none, _⟩)
  · rw [stuck] at best
    exact absurd best.1 (by decide)
  · exact none 1 candidate

end DistLLM.Raft
