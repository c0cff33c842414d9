import DistLLM.Library.Machine
import DistLLM.Raft.Storing

/-!
# Replication to one follower

A leader that only appends to its log, and a follower that receives the
AppendEntries calls the leader can make. Whatever is committed on the follower
should be the leader's entry. The commit index of the follower follows the
leader's up to the end of its own log, verified or not.
-/
namespace DistLLM.Raft

open DistLLM.Library RaftNode
open RaftPersistentState (getEntry_zero getEntry_succ)

variable {ι P : Type}

structure Replica (ι P : Type) where
  leader : RaftNode ι P
  follower : RaftNode ι P

inductive ReplicaAction (P : Type)
  | propose (entryType : String) (payload : P)
  | raiseCommit (index : Nat)
  | append (prevLogIndex count leaderCommit : Nat) (timer : Timer)
  | apply (count : Nat)

variable (s : Replica ι P)

namespace Replica

/-- The leader commits only entries it has, and a call carries entries of its log and a
commit index it had: a delayed call is one with an older count and commit index. -/
def Enabled : ReplicaAction P → Prop
  | .propose .. => True
  | .raiseCommit index => s.leader.commitIndex ≤ index ∧ index ≤ s.leader.persistent.lastLogIndex
  | .append prevLogIndex _ leaderCommit _ =>
    prevLogIndex ≤ s.leader.persistent.lastLogIndex ∧ leaderCommit ≤ s.leader.commitIndex
  | .apply _ => True

def exec : ReplicaAction P → Replica ι P
  | .propose entryType payload => { s with leader := (s.leader.appendToLog entryType payload).2 }
  | .raiseCommit index =>
    { s with leader := { s.leader with
        volatile := { s.leader.volatile with commitIndex := index } } }
  | .append prevLogIndex count leaderCommit timer =>
    { s with follower := (receiveAppend s.follower
        (requestFrom s.leader prevLogIndex count leaderCommit) timer).2 }
  | .apply count => { s with follower := s.follower.advanceLastApplied count }

/-- Every entry up to the follower's commit index is the leader's entry at that index. -/
def CommittedAgrees : Prop :=
  ∀ i, 1 ≤ i → i ≤ s.follower.commitIndex →
    ∃ e, s.follower.persistent.getEntry i = some e ∧ s.leader.persistent.getEntry i = some e

/-- A call that is taken but cuts nothing, on a log with an entry of another term between the
end of the batch and the leader's commit index. -/
def LeavesStale (request : AppendRequest ι P) : Prop :=
  AcceptsAppend s.follower request ∧
    heldOf s.follower.persistent request.prevLogIndex request.entries = request.entries.length ∧
    ∃ i ≤ request.leaderCommit, request.prevLogIndex + request.entries.length < i ∧
      ∃ e ∈ s.follower.persistent.getEntry i, ∃ e' ∈ s.leader.persistent.getEntry i,
        ¬ SameTerm e e'

/-- No call leaves a stale entry below the commit index it carries. -/
def ReplacesStale : ReplicaAction P → Prop
  | .append prevLogIndex count leaderCommit _ =>
    ¬ s.LeavesStale (requestFrom s.leader prevLogIndex count leaderCommit)
  | _ => True

end Replica

def replication (start : Replica ι P) : Machine (Replica ι P) (ReplicaAction P) where
  init s := s = start
  enabled := Replica.Enabled
  exec := Replica.exec

/-! ### Logs under one leader -/

/-- Log matching: entries of one term at one index come with the same entries before them. -/
def LogsMatch (a b : List (LogEntry P)) : Prop :=
  ∀ (j : Nat) (e e' : LogEntry P), a[j]? = some e → b[j]? = some e' → SameTerm e e' →
    ∀ i ≤ j, a[i]? = b[i]?

/-- What Raft keeps between a correct leader of a term and a follower: the leader's log is
numbered, the logs match, entries of the leader's term are the leader's, and nothing is
committed beyond the agreed prefix. -/
structure Replica.Compatible (s : Replica ι P) : Prop where
  numbered : NumberedFrom 0 s.leader.log
  matching : LogsMatch s.follower.log s.leader.log
  owned : ∀ (j : Nat) (e : LogEntry P), s.follower.log[j]? = some e →
    e.term = s.leader.currentTerm → s.leader.log[j]? = some e
  within : s.leader.commitIndex ≤ s.leader.persistent.lastLogIndex
  committed : s.CommittedAgrees

namespace Replica

theorem committedAgrees_iff : s.CommittedAgrees ↔ ∀ j < s.follower.commitIndex,
      ∃ e, s.follower.log[j]? = some e ∧ s.leader.log[j]? = some e := by
  constructor
  · intro agrees j below
    obtain ⟨e, inFollower, inLeader⟩ := agrees (j + 1) (by omega) below
    rw [getEntry_succ] at inFollower inLeader
    exact ⟨e, inFollower, inLeader⟩
  · intro agrees i positive below
    obtain ⟨j, rfl⟩ : ∃ j, i = j + 1 := ⟨i - 1, by omega⟩
    rw [getEntry_succ, getEntry_succ]
    exact agrees j below

theorem Compatible.held {s : Replica ι P} (compatible : s.Compatible)
    (prevLogIndex count leaderCommit : Nat)
    (prev : prevLogIndex ≤ s.leader.persistent.lastLogIndex)
    (found : prevMatches s.follower.persistent prevLogIndex
      (requestFrom s.leader prevLogIndex count leaderCommit).prevLogTerm) :
    let entries := (s.leader.log.drop prevLogIndex).take count
    ∀ i < prevLogIndex + heldOf s.follower.persistent prevLogIndex entries,
      ∃ e, s.follower.log[i]? = some e ∧ s.leader.log[i]? = some e := by
  intro entries i below
  -- the last index up to which terms are known to agree carries the whole prefix with it
  have carry : ∀ j e e', s.follower.log[j]? = some e → s.leader.log[j]? = some e' →
      SameTerm e e' → i ≤ j → ∃ e, s.follower.log[i]? = some e ∧ s.leader.log[i]? = some e := by
    intro j e e' inFollower inLeader same upTo
    have inside : i < s.leader.log.length := by
      have := (List.getElem?_eq_some_iff.mp inLeader).1
      omega
    have agreed := compatible.matching j e e' inFollower inLeader same i upTo
    exact ⟨_, agreed.trans (List.getElem?_eq_getElem inside), List.getElem?_eq_getElem inside⟩
  by_cases inBatch : prevLogIndex ≤ i
  · -- inside the batch the terms were compared one by one
    obtain ⟨e, inFollower, e', inEntries, same⟩ := (le_commonPrefixBy_iff SameTerm
      (s.follower.persistent.log.drop prevLogIndex) entries _).mp le_rfl (i - prevLogIndex)
      (by unfold heldOf at below; omega)
    rw [Option.mem_def, List.getElem?_drop] at inFollower
    rw [Option.mem_def, List.getElem?_take] at inEntries
    split at inEntries
    · rw [List.getElem?_drop] at inEntries
      exact carry _ e e' inFollower inEntries same (by omega)
    · cases inEntries
  · -- before the batch it is the previous entry whose term was checked
    rcases found with zero | ⟨e, present, term⟩
    · omega
    · obtain ⟨j, rfl⟩ : ∃ j, prevLogIndex = j + 1 := ⟨prevLogIndex - 1, by omega⟩
      have inside : j < s.leader.log.length := prev
      have inLeader := List.getElem?_eq_getElem inside
      rw [Option.mem_def, getEntry_succ] at present
      have leaderEntry : s.leader.persistent.getEntry (j + 1) = some s.leader.log[j] := by
        rw [getEntry_succ]
        exact inLeader
      rw [requestFrom] at term
      simp only [leaderEntry] at term
      exact carry j e _ present inLeader term (by omega)

theorem Compatible.stored {s : Replica ι P} (compatible : s.Compatible)
    (p : RaftPersistentState ι P) (same : p.log = s.follower.log)
    (prevLogIndex count leaderCommit : Nat)
    (prev : prevLogIndex ≤ s.leader.persistent.lastLogIndex)
    (found : prevMatches s.follower.persistent prevLogIndex
      (requestFrom s.leader prevLogIndex count leaderCommit).prevLogTerm) :
    let entries := (s.leader.log.drop prevLogIndex).take count
    let held := heldOf s.follower.persistent prevLogIndex entries
    let after := (appendMissing (truncateConflict p (prevLogIndex + 1) entries) entries).log
    (held = entries.length ∧ after = s.follower.log) ∨
    (held < entries.length ∧ after = s.leader.log.take (prevLogIndex + entries.length)) := by
  intro entries held after
  have agreed := compatible.held prevLogIndex count leaderCommit prev found
  have reaches : prevLogIndex ≤ s.follower.log.length := by
    rcases found with zero | ⟨e, present, _⟩
    · omega
    · obtain ⟨j, rfl⟩ | zero : (∃ j, prevLogIndex = j + 1) ∨ prevLogIndex = 0 := by
        rcases prevLogIndex with _ | j
        · exact Or.inr rfl
        · exact Or.inl ⟨j, rfl⟩
      · rw [Option.mem_def, getEntry_succ] at present
        exact (List.getElem?_eq_some_iff.mp present).1
      · omega
  have out := stored_log p prevLogIndex entries (compatible.numbered.slice prevLogIndex count)
    (by rw [same]; exact reaches)
  rw [show heldOf p prevLogIndex entries = held by unfold held heldOf; rw [same]; rfl, same] at out
  have atMost : held ≤ entries.length := commonPrefixBy_le_right SameTerm _ entries
  by_cases all : held = entries.length
  · left
    rw [if_pos all] at out
    exact ⟨all, out⟩
  · right
    rw [if_neg all] at out
    refine ⟨by omega, ?_⟩
    -- what is kept in front of the batch is the leader's too
    have front : s.follower.log.take (prevLogIndex + held) =
        s.leader.log.take (prevLogIndex + held) := by
      apply List.ext_getElem?
      intro i
      rw [List.getElem?_take, List.getElem?_take]
      split
      · next below =>
        obtain ⟨e, inFollower, inLeader⟩ := agreed i below
        rw [inFollower, inLeader]
      · rfl
    have length : entries.length = min count (s.leader.log.length - prevLogIndex) := by
      rw [List.length_take, List.length_drop]
    calc after = s.follower.log.take (prevLogIndex + held) ++ entries.drop held := out
      _ = s.leader.log.take (prevLogIndex + held) ++
            (s.leader.log.drop (prevLogIndex + held)).take (count - held) := by
          rw [front, List.drop_take, List.drop_drop]
      _ = s.leader.log.take (prevLogIndex + held + (count - held)) := List.take_add.symm
      _ = s.leader.log.take (prevLogIndex + entries.length) := by
          rw [List.take_eq_take_iff]
          omega

theorem receiveAppend_cases (prevLogIndex count leaderCommit : Nat) (timer : Timer) :
    let request := requestFrom s.leader prevLogIndex count leaderCommit
    let after := (receiveAppend s.follower request timer).2
    (¬ AcceptsAppend s.follower request ∧ after.log = s.follower.log ∧
      after.commitIndex = s.follower.commitIndex) ∨
    (AcceptsAppend s.follower request ∧
      after.log = (appendMissing (truncateConflict
        { s.follower.persistent with currentTerm := request.term } (prevLogIndex + 1)
        request.entries) request.entries).log ∧
      after.commitIndex =
        if leaderCommit > s.follower.commitIndex then min leaderCommit after.log.length
        else s.follower.commitIndex) := by
  intro request after
  rcases s.follower.handleAppendEntries_cases request.term request.leaderId request.prevLogIndex
      request.prevLogTerm request.entries request.leaderCommit timer with
    ⟨stale, out⟩ | ⟨_, votes, out⟩ | ⟨current, ⟨voters, votes⟩, out⟩
  · left
    have same : after = s.follower := congrArg Prod.snd out
    rw [same]
    exact ⟨fun accepted => absurd accepted.1 (by omega), rfl, rfl⟩
  · left
    have same : after = s.follower.followerAt request.term (some request.leaderId) :=
      congrArg Prod.snd out
    rw [same]
    exact ⟨fun accepted => accepted.2.1 votes, rfl, rfl⟩
  · have same : after = _ := congrArg Prod.snd out
    rcases (s.follower.steppedDown request.term (some request.leaderId) timer).storeEntries_cases
        request.prevLogIndex request.prevLogTerm request.entries request.leaderCommit with
      ⟨missing, stored⟩ | ⟨found, persistent, volatile, rfl, rfl, stored⟩
    · left
      rw [same, stored]
      exact ⟨fun accepted => missing accepted.2.2, rfl, rfl⟩
    · right
      rw [same, stored]
      exact ⟨⟨current, by simp [votes], found⟩, rfl,
        apply_ite RaftVolatileState.commitIndex _ _ _⟩

variable {prevLogIndex count : Nat}

/-- A call never cuts a committed entry: what is committed of the follower's log is the
leader's, so the batch cannot conflict with it. -/
theorem Compatible.commit_le_held {s : Replica ι P} (compatible : s.Compatible)
    (partly :
      heldOf s.follower.persistent prevLogIndex ((s.leader.log.drop prevLogIndex).take count) <
        ((s.leader.log.drop prevLogIndex).take count).length) :
    s.follower.commitIndex ≤ prevLogIndex +
      heldOf s.follower.persistent prevLogIndex ((s.leader.log.drop prevLogIndex).take count) := by
  obtain ⟨entries, entries_eq⟩ : ∃ entries, (s.leader.log.drop prevLogIndex).take count = entries :=
    ⟨_, rfl⟩
  rw [entries_eq] at partly ⊢
  by_contra beyond
  have agrees := (committedAgrees_iff s).mp compatible.committed
  -- one more entry would be held
  have more : heldOf s.follower.persistent prevLogIndex entries + 1 ≤
      heldOf s.follower.persistent prevLogIndex entries := by
    apply (le_commonPrefixBy_iff SameTerm _ entries _).mpr
    intro j inside
    by_cases before : j < heldOf s.follower.persistent prevLogIndex entries
    · exact (le_commonPrefixBy_iff SameTerm _ entries _).mp le_rfl j before
    · obtain ⟨e, inFollower, inLeader⟩ := agrees (prevLogIndex + j) (by omega)
      have atMost : entries.length ≤ count := by
        rw [← entries_eq, List.length_take]
        omega
      have short : j < count := by omega
      refine ⟨e, ?_, e, ?_, rfl⟩
      · rw [Option.mem_def, List.getElem?_drop]
        exact inFollower
      · rw [← entries_eq, Option.mem_def, List.getElem?_take_of_lt short, List.getElem?_drop]
        exact inLeader
  omega

variable {leaderCommit : Nat}

section

variable {s : Replica ι P} (compatible : s.Compatible)

include compatible

/-- The log holds the batch already and stays as it is: what the raised commit index covers is
the leader's exactly when no stale entry lies behind the batch. -/
theorem Compatible.heldBatch_agrees_iff (prev : prevLogIndex ≤ s.leader.persistent.lastLogIndex)
    (commit : leaderCommit ≤ s.leader.commitIndex)
    (accepted : AcceptsAppend s.follower (requestFrom s.leader prevLogIndex count leaderCommit))
    (all : heldOf s.follower.persistent prevLogIndex ((s.leader.log.drop prevLogIndex).take count) =
      ((s.leader.log.drop prevLogIndex).take count).length) :
    (∀ j < if leaderCommit > s.follower.commitIndex then min leaderCommit s.follower.log.length
        else s.follower.commitIndex,
      ∃ e, s.follower.log[j]? = some e ∧ s.leader.log[j]? = some e) ↔
      ¬ s.LeavesStale (requestFrom s.leader prevLogIndex count leaderCommit) := by
  have agrees := (committedAgrees_iff s).mp compatible.committed
  have reach : leaderCommit ≤ s.leader.log.length := commit.trans compatible.within
  have batch := compatible.held prevLogIndex count leaderCommit prev accepted.2.2
  constructor
  · -- the stale entry is either committed already or by this call
    rintro after ⟨_, _, i, low, past, e, inFollower, e', inLeader, differ⟩
    obtain ⟨j, rfl⟩ : ∃ j, i = j + 1 := ⟨i - 1, by omega⟩
    have low : j + 1 ≤ leaderCommit := low
    rw [Option.mem_def, getEntry_succ] at inFollower inLeader
    have inside : j < s.follower.log.length := (List.getElem?_eq_some_iff.mp inFollower).1
    have shared : ∀ e₀, s.follower.log[j]? = some e₀ → s.leader.log[j]? = some e₀ → False := by
      intro e₀ first second
      cases inFollower.symm.trans first
      cases inLeader.symm.trans second
      exact differ rfl
    by_cases committed : j < s.follower.commitIndex
    · obtain ⟨e₀, first, second⟩ := agrees j committed
      exact shared e₀ first second
    · have raised : leaderCommit > s.follower.commitIndex := by omega
      rw [if_pos raised] at after
      obtain ⟨e₀, first, second⟩ := after j (by omega)
      exact shared e₀ first second
  · intro clean j below
    by_cases raised : leaderCommit > s.follower.commitIndex
    · rw [if_pos raised] at below
      by_cases verified : j < prevLogIndex + heldOf s.follower.persistent prevLogIndex
          ((s.leader.log.drop prevLogIndex).take count)
      · exact batch j verified
      · -- past the batch the terms agree by assumption, hence the logs do
        have inFollower : j < s.follower.log.length := by omega
        have inLeader : j < s.leader.log.length := by omega
        refine ⟨_, List.getElem?_eq_getElem inFollower, ?_⟩
        have same : SameTerm s.follower.log[j] s.leader.log[j] := by
          by_contra differ
          refine clean ⟨accepted, all, j + 1, by simp only [requestFrom]; omega, ?_,
            _, ?_, _, ?_, differ⟩
          · have : (requestFrom s.leader prevLogIndex count leaderCommit).entries.length =
                heldOf s.follower.persistent prevLogIndex
                  ((s.leader.log.drop prevLogIndex).take count) := all.symm
            simp only [requestFrom] at this ⊢
            omega
          · rw [Option.mem_def, getEntry_succ]
            exact List.getElem?_eq_getElem inFollower
          · rw [Option.mem_def, getEntry_succ]
            exact List.getElem?_eq_getElem inLeader
        rw [← compatible.matching j _ _ (List.getElem?_eq_getElem inFollower)
          (List.getElem?_eq_getElem inLeader) same j le_rfl]
        exact List.getElem?_eq_getElem inFollower
    · rw [if_neg raised] at below
      exact agrees j below

theorem Compatible.splicedBatch_agrees (leaderCommit : Nat)
    (partly :
      heldOf s.follower.persistent prevLogIndex ((s.leader.log.drop prevLogIndex).take count) <
        ((s.leader.log.drop prevLogIndex).take count).length) :
    let after := s.leader.log.take
      (prevLogIndex + ((s.leader.log.drop prevLogIndex).take count).length)
    ∀ j < if leaderCommit > s.follower.commitIndex then min leaderCommit after.length
        else s.follower.commitIndex,
      ∃ e, after[j]? = some e ∧ s.leader.log[j]? = some e := by
  intro after j below
  have kept := compatible.commit_le_held partly
  have length : after.length =
      prevLogIndex + ((s.leader.log.drop prevLogIndex).take count).length := by
    simp only [after, List.length_take, List.length_drop] at partly ⊢
    omega
  have inside : j < prevLogIndex + ((s.leader.log.drop prevLogIndex).take count).length := by
    split at below <;> omega
  have inLeader : j < s.leader.log.length := by
    rw [List.length_take] at length
    omega
  rw [List.getElem?_take_of_lt inside]
  exact ⟨_, List.getElem?_eq_getElem inLeader, List.getElem?_eq_getElem inLeader⟩

/-- After a call every committed entry is the leader's exactly when the call leaves no stale
entry below the commit index it carries. -/
theorem Compatible.append_agrees_iff (timer : Timer)
    (prev : prevLogIndex ≤ s.leader.persistent.lastLogIndex)
    (commit : leaderCommit ≤ s.leader.commitIndex) :
    (s.exec (.append prevLogIndex count leaderCommit timer)).CommittedAgrees ↔
      ¬ s.LeavesStale (requestFrom s.leader prevLogIndex count leaderCommit) := by
  rw [committedAgrees_iff]
  simp only [exec]
  rcases s.receiveAppend_cases prevLogIndex count leaderCommit timer with
    ⟨refused, log, index⟩ | ⟨accepted, log, index⟩
  · -- a refused call changes neither log nor commit index
    rw [log, index]
    exact ⟨fun _ stale => refused stale.1,
      fun _ => (committedAgrees_iff s).mp compatible.committed⟩
  · rcases compatible.stored { s.follower.persistent with currentTerm := s.leader.currentTerm } rfl
        prevLogIndex count leaderCommit prev accepted.2.2 with
      ⟨all, stored⟩ | ⟨partly, stored⟩
    · rw [log.trans stored] at index ⊢
      rw [index]
      exact compatible.heldBatch_agrees_iff prev commit accepted all
    · rw [log.trans stored] at index ⊢
      rw [index]
      exact ⟨fun _ stale => absurd stale.2.1 (Nat.ne_of_lt partly),
        fun _ => compatible.splicedBatch_agrees leaderCommit partly⟩

/-! ### Runs -/

theorem Compatible.propose (entryType : String)
    (payload : P) : (s.exec (.propose entryType payload)).Compatible := by
  have old : ∀ (j : Nat) (e : LogEntry P), s.leader.log[j]? = some e →
      (s.exec (.propose entryType payload)).leader.log[j]? = some e := by
    intro j e found
    have inside := (List.getElem?_eq_some_iff.mp found).1
    exact (List.getElem?_append_left inside).trans found
  -- the last entry is the only one that the proposal can have added
  have new : ∀ (j : Nat) (e : LogEntry P),
      (s.exec (.propose entryType payload)).leader.log[j]? = some e →
      s.leader.log[j]? = some e ∨ (s.leader.log.length = j ∧ e.term = s.leader.currentTerm ∧
        e.index = j + 1) := by
    intro j e found
    have split : (s.leader.log ++ [_])[j]? = some e := found
    rw [List.getElem?_append] at split
    split at split
    · exact Or.inl split
    · rw [List.getElem?_singleton] at split
      split at split
      · right
        cases split
        refine ⟨by omega, rfl, ?_⟩
        simp only [RaftPersistentState.lastLogIndex]
        unfold log at *
        omega
      · cases split
  refine ⟨?_, ?_, fun j e found term => old j e (compatible.owned j e found term), ?_, ?_⟩
  · intro j e found
    rcases new j e found with before | ⟨_, _, index⟩
    · exact compatible.numbered j e before
    · omega
  · intro j e e' inFollower inLeader same i upTo
    rcases new j e' inLeader with before | ⟨last, term, _⟩
    · have agreed := compatible.matching j e e' inFollower before same i upTo
      have inside : i < s.leader.log.length := by
        have := (List.getElem?_eq_some_iff.mp before).1
        omega
      exact agreed.trans (List.getElem?_append_left inside).symm
    · -- the new entry is the first of the leader's term at its index
      have present := compatible.owned j e inFollower (Eq.trans same term)
      have := (List.getElem?_eq_some_iff.mp present).1
      omega
  · have grown : (s.exec (.propose entryType payload)).leader.persistent.lastLogIndex =
        s.leader.persistent.lastLogIndex + 1 := List.length_append
    have within := compatible.within
    rw [grown]
    exact Nat.le_succ_of_le within
  · rw [committedAgrees_iff]
    intro j below
    obtain ⟨e, inFollower, inLeader⟩ := (committedAgrees_iff s).mp compatible.committed j below
    exact ⟨e, inFollower, old j e inLeader⟩

theorem Compatible.append (timer : Timer) (prev : prevLogIndex ≤ s.leader.persistent.lastLogIndex)
    (commit : leaderCommit ≤ s.leader.commitIndex)
    (clean : ¬ s.LeavesStale (requestFrom s.leader prevLogIndex count leaderCommit)) :
    (s.exec (.append prevLogIndex count leaderCommit timer)).Compatible := by
  have agrees := (compatible.append_agrees_iff timer prev commit).mpr clean
  -- the new log is the old one or a prefix of the leader's
  have logs : (s.exec (.append prevLogIndex count leaderCommit timer)).follower.log =
      s.follower.log ∨
      ∃ k, (s.exec (.append prevLogIndex count leaderCommit timer)).follower.log =
        s.leader.log.take k := by
    rcases s.receiveAppend_cases prevLogIndex count leaderCommit timer with
      ⟨_, log, _⟩ | ⟨accepted, log, _⟩
    · exact Or.inl log
    · rcases compatible.stored
        { s.follower.persistent with currentTerm := s.leader.currentTerm } rfl
        prevLogIndex count leaderCommit prev accepted.2.2 with
        ⟨_, stored⟩ | ⟨_, stored⟩
      · exact Or.inl (log.trans stored)
      · exact Or.inr ⟨_, log.trans stored⟩
  -- the old log keeps what it had, and a prefix of the leader's matches the leader's
  rcases logs with same | ⟨k, cut⟩
  · refine ⟨compatible.numbered, ?_, ?_, compatible.within, agrees⟩
    · rw [same]
      exact compatible.matching
    · rw [same]
      exact compatible.owned
  · have taken : ∀ (j : Nat) (e : LogEntry P), (s.leader.log.take k)[j]? = some e →
        j < k ∧ s.leader.log[j]? = some e := by
      intro j e found
      rw [List.getElem?_take] at found
      split at found
      · next below => exact ⟨below, found⟩
      · cases found
    refine ⟨compatible.numbered, ?_, ?_, compatible.within, agrees⟩
    · rw [cut]
      intro j e _ found _ _ i upTo
      exact List.getElem?_take_of_lt (lt_of_le_of_lt upTo (taken j e found).1)
    · rw [cut]
      intro j e found _
      exact (taken j e found).2

end

theorem Compatible.step (a : ReplicaAction P) (compatible : s.Compatible) (enabled : s.Enabled a)
    (clean : s.ReplacesStale a) : (s.exec a).Compatible := by
  cases a with
  | propose entryType payload => exact compatible.propose entryType payload
  | raiseCommit index =>
    exact ⟨compatible.numbered, compatible.matching, compatible.owned, enabled.2,
      compatible.committed⟩
  | append prevLogIndex count leaderCommit timer =>
    exact compatible.append timer enabled.1 enabled.2 clean
  | apply count =>
    exact ⟨compatible.numbered, compatible.matching, compatible.owned, compatible.within,
      compatible.committed⟩

/-- The follower learns of nothing as committed that the leader has not committed. -/
theorem commit_step (a : ReplicaAction P) (enabled : s.Enabled a)
    (behind : s.follower.commitIndex ≤ s.leader.commitIndex) :
    (s.exec a).follower.commitIndex ≤ (s.exec a).leader.commitIndex := by
  cases a with
  | raiseCommit index => exact behind.trans enabled.1
  | append prevLogIndex count leaderCommit timer =>
    have commit : leaderCommit ≤ s.leader.commitIndex := enabled.2
    simp only [exec]
    rcases s.receiveAppend_cases prevLogIndex count leaderCommit timer with
      ⟨_, _, index⟩ | ⟨_, _, index⟩
    · rw [index]
      exact behind
    · rw [index]
      split <;> omega
  | _ => exact behind

theorem mem_getCommittedEntries {n : RaftNode ι P} {e : LogEntry P}
    (member : e ∈ n.getCommittedEntries) : ∃ j < n.commitIndex, n.log[j]? = some e := by
  unfold getCommittedEntries at member
  dsimp only at member
  split at member
  · cases member
  · obtain ⟨j, found⟩ := List.mem_iff_getElem?.mp member
    rw [List.getElem?_take] at found
    split at found
    · next inside =>
      unfold logSlice at found
      rw [List.getElem?_drop] at found
      exact ⟨_, by unfold commitIndex; omega, found⟩
    · cases found

end Replica

/-- In every run in which no call leaves a stale entry below the commit index it carries, what
is committed on the follower is the leader's, and a follower that did not start ahead of the
leader's commit index hands out only entries the leader committed. In each state of such a run
the next call keeps the agreement exactly when it meets the condition itself. -/
theorem committed_prefix_agrees (start s : Replica ι P) (compatible : start.Compatible)
    (reached : (replication start).Reaches Replica.ReplacesStale s) : s.CommittedAgrees ∧
    (start.follower.commitIndex ≤ start.leader.commitIndex →
      ∀ e ∈ s.follower.getCommittedEntries, e ∈ s.leader.log.take s.leader.commitIndex) ∧
    (∀ prevLogIndex count leaderCommit timer,
      s.Enabled (.append prevLogIndex count leaderCommit timer) →
      ((s.exec (.append prevLogIndex count leaderCommit timer)).CommittedAgrees ↔
        s.ReplacesStale (.append prevLogIndex count leaderCommit timer))) := by
  have inv : s.Compatible :=
    reached.invariant (fun _ initial => initial ▸ compatible) Replica.Compatible.step
  refine ⟨inv.committed, ?_, ?_⟩
  · intro behind e member
    -- the follower stays behind the leader's commit index
    have order : s.follower.commitIndex ≤ s.leader.commitIndex :=
      reached.invariant (I := fun s => s.follower.commitIndex ≤ s.leader.commitIndex)
        (fun _ initial => initial ▸ behind)
        (fun s a before enabled _ => Replica.commit_step s a enabled before)
    obtain ⟨j, below, found⟩ := Replica.mem_getCommittedEntries member
    obtain ⟨e', inFollower, inLeader⟩ := (Replica.committedAgrees_iff s).mp inv.committed j below
    cases inFollower.symm.trans found
    apply List.mem_of_getElem? (i := j)
    rw [List.getElem?_take_of_lt (by omega)]
    exact inLeader
  · intro prevLogIndex count leaderCommit timer enabled
    exact inv.append_agrees_iff timer enabled.1 enabled.2

/-- Entry 2 of follower "b" is left over from term 1; leader "a" of term 2 has another one
there and has committed it. -/
def staleSuffix : Replica String String where
  leader :=
    { (RaftNode.init "a" 64 ⟨0, 150⟩ : RaftNode String String) with
      role := .leader
      persistent := { currentTerm := 2, votedFor := some "a",
                      log := [⟨1, 1, "node_join", "n1"⟩, ⟨2, 2, "node_join", "n2"⟩] }
      volatile := { commitIndex := 2, lastApplied := 2 } }
  follower :=
    { (RaftNode.init "b" 64 ⟨0, 150⟩ : RaftNode String String) with
      persistent := { currentTerm := 1, votedFor := some "b",
                      log := [⟨1, 1, "node_join", "n1"⟩, ⟨1, 2, "node_leave", "n1"⟩] }
      votesReceived := .received {"b"} }

theorem staleSuffix_compatible : staleSuffix.Compatible := by
  refine ⟨?_, ?_, ?_, by decide, fun i positive below => ?_⟩
  · rintro (_ | _ | j) e found <;> cases found <;> rfl
  · rintro (_ | _ | j) e e' inFollower inLeader same i upTo <;> cases inFollower <;> cases inLeader
    · obtain rfl : i = 0 := by omega
      rfl
    · cases same
  · rintro (_ | _ | j) e found term <;> cases found <;> cases term
  · have none : staleSuffix.follower.commitIndex = 0 := rfl
    omega

/-- Once the leader sends its own entry 2, the stale one is replaced before it is committed. -/
theorem committed_prefix_agrees_example :
    let s := staleSuffix.exec (.append 1 1 2 ⟨1, 150⟩)
    s.follower.commitIndex = 2 ∧ s.CommittedAgrees := by
  intro s
  have reached : (replication staleSuffix).Reaches Replica.ReplacesStale s := by
    have start : (replication staleSuffix).Reaches Replica.ReplacesStale staleSuffix := .init rfl
    have enabled : (replication staleSuffix).enabled staleSuffix (.append 1 1 2 ⟨1, 150⟩) :=
      ⟨by decide, by decide⟩
    have clean : staleSuffix.ReplacesStale (.append 1 1 2 ⟨1, 150⟩) :=
      fun stale => absurd stale.2.1 (by decide)
    exact start.step _ enabled clean
  exact ⟨by decide, (committed_prefix_agrees staleSuffix s staleSuffix_compatible reached).1⟩

/-- A heartbeat that matches entry 1 commits the stale entry 2 and hands it out. -/
theorem heartbeat_commits_stale_entry : staleSuffix.Compatible ∧
      staleSuffix.follower.commitIndex ≤ staleSuffix.leader.commitIndex ∧
      ∃ s, (replication staleSuffix).Reachable s ∧ ¬ s.CommittedAgrees ∧
        ∃ e ∈ s.follower.getCommittedEntries, e ∉ s.leader.log := by
  refine ⟨staleSuffix_compatible, by decide, staleSuffix.exec (.append 1 0 2 ⟨1, 150⟩), ?_, ?_, ?_⟩
  · have start : (replication staleSuffix).Reachable staleSuffix := .init rfl
    have enabled : (replication staleSuffix).enabled staleSuffix (.append 1 0 2 ⟨1, 150⟩) :=
      ⟨by decide, by decide⟩
    exact start.step _ enabled trivial
  · intro agrees
    obtain ⟨e, inFollower, inLeader⟩ := agrees 2 (by decide) (by decide)
    cases inFollower
    cases inLeader
  · exact ⟨⟨1, 2, "node_leave", "n1"⟩, by decide, by decide⟩

end DistLLM.Raft
