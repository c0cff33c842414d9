import DistLLM.Raft.Node

/-!
# What a handler call can do

One lemma for each handler says every way it can end: the reply or the
exception, the guards that led there, and the state left behind. Everything
proved about runs goes through these.
-/
namespace DistLLM.Raft.RaftNode

open DistLLM.Library

variable {ι P : Type}

variable (n : RaftNode ι P)

/-- The assignments `_become_follower` makes before it clears the vote set. -/
def followerAt (term : Nat) (leaderId : Option ι) : RaftNode ι P :=
  { n with
    role := .follower
    persistent := { n.persistent with currentTerm := term }
    leaderId := leaderId
    leaderState := none }

def steppedDown (term : Nat) (leaderId : Option ι) (timer : Timer) :
    RaftNode ι P :=
  { n.followerAt term leaderId with
    votesReceived := .received ∅
    electionDeadline := randomElectionDeadline timer }

/-- The exception of `_become_follower` on a node that was never a candidate. -/
def clearError : PyError := .attributeError "'Field' object has no attribute 'clear'"

variable (prevLogIndex prevLogTerm : Nat) (term : Nat) (candidateId : ι)
  (entries : List (LogEntry P)) (leaderId : Option ι) (leaderCommit : Nat) (timer : Timer)

theorem becomeFollower_field (h : n.votesReceived = .field) :
    n.becomeFollower term leaderId timer = (.error clearError, n.followerAt term leaderId) := by
  simp [becomeFollower, followerAt, clearError, h]

theorem becomeFollower_received {voters : Finset ι} (h : n.votesReceived = .received voters) :
    n.becomeFollower term leaderId timer = (.ok (), n.steppedDown term leaderId timer) := by
  simp [becomeFollower, steppedDown, followerAt, h]

/-! ### RequestVote -/

def voting (candidateId : ι) (timer : Timer) : RaftNode ι P :=
  { n with
    persistent := { n.persistent with votedFor := some candidateId }
    electionDeadline := randomElectionDeadline timer }

/-- `m` is the state in which `n` weighs a request of term `term`: itself, or stepped down. -/
def Weighs (term : Nat) (timer : Timer) (m : RaftNode ι P) : Prop :=
  (term = n.currentTerm ∧ m = n) ∨
    (n.currentTerm < term ∧ (∃ voters, n.votesReceived = .received voters) ∧
      m = n.steppedDown term none timer)

section

variable {n m : RaftNode ι P} {term : Nat} {timer : Timer} (h : n.Weighs term timer m)

include h

theorem Weighs.currentTerm : m.currentTerm = term := by
  rcases h with ⟨same, rfl⟩ | ⟨_, _, rfl⟩
  · exact same.symm
  · rfl

theorem Weighs.voteState (candidateId : ι) (lastLogIndex lastLogTerm : Nat) :
    (m.alreadyVoted candidateId ↔ n.alreadyVoted candidateId) ∧
      (m.logOk lastLogIndex lastLogTerm ↔ n.logOk lastLogIndex lastLogTerm) := by
  rcases h with ⟨_, rfl⟩ | ⟨_, _, rfl⟩ <;> exact ⟨Iff.rfl, Iff.rfl⟩

end

theorem considerVote_cases [DecidableEq ι] (lastLogIndex lastLogTerm : Nat) (timer : Timer) :
    ((n.alreadyVoted candidateId ∨ ¬ n.logOk lastLogIndex lastLogTerm) ∧
      n.considerVote candidateId lastLogIndex lastLogTerm timer = (.ok ⟨n.currentTerm, false⟩, n)) ∨
    (¬ n.alreadyVoted candidateId ∧ n.logOk lastLogIndex lastLogTerm ∧
      n.considerVote candidateId lastLogIndex lastLogTerm timer =
        (.ok ⟨n.currentTerm, true⟩, n.voting candidateId timer)) := by
  unfold considerVote
  by_cases voted : n.alreadyVoted candidateId
  · left
    exact ⟨Or.inl voted, by simp [voted]⟩
  · by_cases ok : n.logOk lastLogIndex lastLogTerm
    · right
      exact ⟨voted, ok, by simp [voted, ok, voting]⟩
    · left
      exact ⟨Or.inr ok, by simp [voted, ok]⟩

theorem handleRequestVote_cases [DecidableEq ι] (candidateTerm lastLogIndex lastLogTerm : Nat)
    (timer : Timer) : (candidateTerm < n.currentTerm ∧
      n.handleRequestVote candidateId candidateTerm lastLogIndex lastLogTerm timer =
        (.ok ⟨n.currentTerm, false⟩, n)) ∨
    (n.currentTerm < candidateTerm ∧ n.votesReceived = .field ∧
      n.handleRequestVote candidateId candidateTerm lastLogIndex lastLogTerm timer =
        (.error clearError, n.followerAt candidateTerm none)) ∨
    (∃ m, n.Weighs candidateTerm timer m ∧
      (m.alreadyVoted candidateId ∨ ¬ m.logOk lastLogIndex lastLogTerm) ∧
      n.handleRequestVote candidateId candidateTerm lastLogIndex lastLogTerm timer =
        (.ok ⟨candidateTerm, false⟩, m)) ∨ (∃ m, n.Weighs candidateTerm timer m ∧
      ¬ m.alreadyVoted candidateId ∧ m.logOk lastLogIndex lastLogTerm ∧
      n.handleRequestVote candidateId candidateTerm lastLogIndex lastLogTerm timer =
        (.ok ⟨candidateTerm, true⟩, m.voting candidateId timer)) := by
  -- once the node weighs the request in state `m`, only the vote decides
  have weigh : ∀ m, n.Weighs candidateTerm timer m →
      n.handleRequestVote candidateId candidateTerm lastLogIndex lastLogTerm timer =
        m.considerVote candidateId lastLogIndex lastLogTerm timer →
      (∃ m, n.Weighs candidateTerm timer m ∧
        (m.alreadyVoted candidateId ∨ ¬ m.logOk lastLogIndex lastLogTerm) ∧
        n.handleRequestVote candidateId candidateTerm lastLogIndex lastLogTerm timer =
          (.ok ⟨candidateTerm, false⟩, m)) ∨
      (∃ m, n.Weighs candidateTerm timer m ∧
        ¬ m.alreadyVoted candidateId ∧ m.logOk lastLogIndex lastLogTerm ∧
        n.handleRequestVote candidateId candidateTerm lastLogIndex lastLogTerm timer =
          (.ok ⟨candidateTerm, true⟩, m.voting candidateId timer)) := by
    intro m ready eq
    rcases m.considerVote_cases candidateId lastLogIndex lastLogTerm timer with
      ⟨no, out⟩ | ⟨free, ok, out⟩
    · left
      exact ⟨m, ready, no, by rw [eq, out, ready.currentTerm]⟩
    · right
      exact ⟨m, ready, free, ok, by rw [eq, out, ready.currentTerm]⟩
  rcases Nat.lt_trichotomy candidateTerm n.currentTerm with stale | same | higher
  · left
    exact ⟨stale, by simp [handleRequestVote, stale]⟩
  · right; right
    refine weigh n (Or.inl ⟨same, rfl⟩) ?_
    simp [handleRequestVote, same]
  · right
    have notStale : ¬ candidateTerm < n.currentTerm := by omega
    cases votes : n.votesReceived with
    | field =>
      left
      refine ⟨higher, rfl, ?_⟩
      simp [handleRequestVote, notStale, higher, n.becomeFollower_field _ _ _ votes]
    | received voters =>
      right
      refine weigh (n.steppedDown candidateTerm none timer)
        (Or.inr ⟨higher, ⟨voters, votes⟩, rfl⟩) ?_
      simp [handleRequestVote, notStale, higher, n.becomeFollower_received _ _ _ votes]

theorem handleAppendEntries_cases (leaderTerm : Nat) (leaderId : ι) (prevLogIndex prevLogTerm : Nat)
    (entries : List (LogEntry P)) (leaderCommit : Nat) (timer : Timer) :
    (leaderTerm < n.currentTerm ∧
      n.handleAppendEntries leaderTerm leaderId prevLogIndex prevLogTerm entries leaderCommit
        timer = (.ok { term := n.currentTerm, success := false }, n)) ∨
    (n.currentTerm ≤ leaderTerm ∧ n.votesReceived = .field ∧
      n.handleAppendEntries leaderTerm leaderId prevLogIndex prevLogTerm entries leaderCommit
        timer = (.error clearError, n.followerAt leaderTerm (some leaderId))) ∨
    (n.currentTerm ≤ leaderTerm ∧ (∃ voters, n.votesReceived = .received voters) ∧
      n.handleAppendEntries leaderTerm leaderId prevLogIndex prevLogTerm entries leaderCommit
        timer = (n.steppedDown leaderTerm (some leaderId) timer).storeEntries prevLogIndex
          prevLogTerm entries leaderCommit) := by
  by_cases stale : leaderTerm < n.currentTerm
  · left
    exact ⟨stale, by simp [handleAppendEntries, stale]⟩
  · right
    have current : n.currentTerm ≤ leaderTerm := by omega
    cases votes : n.votesReceived with
    | field =>
      left
      refine ⟨current, rfl, ?_⟩
      simp [handleAppendEntries, stale, n.becomeFollower_field _ _ _ votes]
    | received voters =>
      right
      refine ⟨current, ⟨voters, rfl⟩, ?_⟩
      simp [handleAppendEntries, stale, n.becomeFollower_received _ _ _ votes]

theorem storeEntries_cases :
    (¬ prevMatches n.persistent prevLogIndex prevLogTerm ∧
      n.storeEntries prevLogIndex prevLogTerm entries leaderCommit =
        (.ok { term := n.currentTerm, success := false,
               conflictIndex := some (findConflictIndex n.persistent prevLogIndex) }, n)) ∨
    (prevMatches n.persistent prevLogIndex prevLogTerm ∧
      ∃ persistent volatile,
        persistent = appendMissing (truncateConflict n.persistent (prevLogIndex + 1) entries)
          entries ∧
        volatile = (if leaderCommit > n.volatile.commitIndex then
          { n.volatile with commitIndex := min leaderCommit persistent.lastLogIndex }
          else n.volatile) ∧
        n.storeEntries prevLogIndex prevLogTerm entries leaderCommit =
          (.ok { term := n.currentTerm, success := true }, { n with persistent, volatile })) := by
  by_cases found : prevMatches n.persistent prevLogIndex prevLogTerm
  · right
    exact ⟨found, _, _, rfl, rfl, by simp [storeEntries, found]⟩
  · left
    exact ⟨found, by simp [storeEntries, found]⟩

theorem truncateConflict_frame (s : RaftPersistentState ι P) (entryIdx : Nat)
    (entries : List (LogEntry P)) :
    (truncateConflict s entryIdx entries).currentTerm = s.currentTerm ∧
      (truncateConflict s entryIdx entries).votedFor = s.votedFor := by
  induction entries generalizing entryIdx with
  | nil => exact ⟨rfl, rfl⟩
  | cons entry rest ih =>
    unfold truncateConflict
    split
    · exact ih (entryIdx + 1)
    · split
      · unfold RaftPersistentState.truncateFrom
        split <;> exact ⟨rfl, rfl⟩
      · exact ih (entryIdx + 1)

theorem appendMissing_frame (s : RaftPersistentState ι P) (entries : List (LogEntry P)) :
    (appendMissing s entries).currentTerm = s.currentTerm ∧
      (appendMissing s entries).votedFor = s.votedFor := by
  induction entries generalizing s with
  | nil => exact ⟨rfl, rfl⟩
  | cons entry rest ih =>
    unfold appendMissing
    split
    · exact ih (s.appendEntries [entry])
    · exact ih s

theorem setPeers_frame [DecidableEq ι] (peerIds : List ι) :
    ∃ leaderState, n.setPeers peerIds = { n with leaderState } := by
  unfold setPeers
  split
  · exact ⟨n.leaderState, rfl⟩
  · exact ⟨_, rfl⟩

theorem advanceCommitIndex_frame :
    ∃ volatile, n.advanceCommitIndex = { n with volatile } := by
  unfold advanceCommitIndex
  split
  · exact ⟨n.volatile, rfl⟩
  · dsimp only
    split
    · split
      · split
        · exact ⟨_, rfl⟩
        · exact ⟨n.volatile, rfl⟩
      · exact ⟨n.volatile, rfl⟩
    · exact ⟨n.volatile, rfl⟩

theorem processAppendEntriesResponse_frame [DecidableEq ι] (peerId : ι)
    (response : AppendResponse) :
    ∃ leaderState, (n.processAppendEntriesResponse peerId response).2 = { n with leaderState } := by
  unfold processAppendEntriesResponse
  cases n.leaderState with
  | none => exact ⟨n.leaderState, rfl⟩
  | some ls =>
    dsimp only [lenOfInt]
    split
    · exact ⟨n.leaderState, rfl⟩
    · split
      · exact ⟨_, rfl⟩
      · exact ⟨n.leaderState, rfl⟩

/-! ### Terms and votes across one call -/

/-- What every receiver call keeps: the id, the stored vote, whether there is a vote set
at all, and the campaign unless the node falls back to an empty-handed follower. -/
structure CallKeeps (n m : RaftNode ι P) : Prop where
  nodeId : m.nodeId = n.nodeId
  mono : n.currentTerm ≤ m.currentTerm
  vote : ∀ c, n.persistent.votedFor = some c → m.persistent.votedFor = some c
  placeholder : m.votesReceived = .field ↔ n.votesReceived = .field
  campaign : (m.currentTerm = n.currentTerm ∧ m.role = n.role ∧
      m.votesReceived = n.votesReceived) ∨
    (m.role = .follower ∧ ∀ voters, m.votesReceived = .received voters → voters = ∅)

theorem CallKeeps.refl : CallKeeps n n :=
  ⟨rfl, le_rfl, fun _ h => h, Iff.rfl, Or.inl ⟨rfl, rfl, rfl⟩⟩

theorem CallKeeps.followerAt (n : RaftNode ι P) (term : Nat) (leaderId : Option ι)
    (mono : n.currentTerm ≤ term) (votes : n.votesReceived = .field) :
    CallKeeps n (n.followerAt term leaderId) := by
  refine ⟨rfl, mono, fun _ h => h, Iff.rfl, Or.inr ⟨rfl, ?_⟩⟩
  intro voters received
  have : VoteSet.field = .received voters := votes ▸ received
  cases this

theorem CallKeeps.steppedDown (n : RaftNode ι P) (term : Nat) (leaderId : Option ι)
    (timer : Timer) (mono : n.currentTerm ≤ term)
    (votes : ∃ voters, n.votesReceived = .received voters) :
    CallKeeps n (n.steppedDown term leaderId timer) := by
  obtain ⟨voters, votes⟩ := votes
  refine ⟨rfl, mono, fun _ h => h, ?_, Or.inr ⟨rfl, ?_⟩⟩
  · rw [votes]
    exact ⟨fun h => (by cases h), fun h => (by cases h)⟩
  · intro voters received
    exact (VoteSet.received.inj received).symm

theorem Weighs.keeps {n m : RaftNode ι P} {term : Nat} {timer : Timer}
    (h : n.Weighs term timer m) : CallKeeps n m := by
  rcases h with ⟨_, rfl⟩ | ⟨higher, votes, rfl⟩
  · exact .refl _
  · exact .steppedDown n term none timer (Nat.le_of_lt higher) votes

theorem votedFor_of_not_alreadyVoted {n : RaftNode ι P} {candidateId c : ι}
    (free : ¬ n.alreadyVoted candidateId) (stored : n.persistent.votedFor = some c) :
    candidateId = c := by
  by_contra other
  exact free ⟨by simp [stored], by simpa [stored] using fun h => other h.symm⟩

theorem handleRequestVote_keeps [DecidableEq ι] (candidateTerm lastLogIndex lastLogTerm : Nat)
    (timer : Timer) : CallKeeps n
      (n.handleRequestVote candidateId candidateTerm lastLogIndex lastLogTerm timer).2 := by
  rcases n.handleRequestVote_cases candidateId candidateTerm lastLogIndex lastLogTerm timer with
    ⟨_, out⟩ | ⟨higher, votes, out⟩ | ⟨m, ready, _, out⟩ | ⟨m, ready, free, _, out⟩
  · rw [out]
    exact .refl n
  · rw [out]
    exact .followerAt n candidateTerm none (Nat.le_of_lt higher) votes
  · rw [out]
    exact ready.keeps
  · -- granting stores the candidate, which is the stored one if there was one
    rw [out]
    have keeps := ready.keeps
    refine ⟨keeps.nodeId, keeps.mono, ?_, keeps.placeholder, keeps.campaign⟩
    intro c stored
    rw [← votedFor_of_not_alreadyVoted free (keeps.vote c stored)]
    rfl

theorem handleRequestVote_granted [DecidableEq ι] {n : RaftNode ι P} {candidateId : ι}
    {candidateTerm lastLogIndex lastLogTerm : Nat} {timer : Timer} {r : VoteResponse}
    (returned : (n.handleRequestVote candidateId candidateTerm lastLogIndex lastLogTerm
      timer).1 = .ok r) (granted : r.voteGranted = true) :
    r.term = candidateTerm ∧ n.currentTerm ≤ candidateTerm ∧
      (n.handleRequestVote candidateId candidateTerm lastLogIndex lastLogTerm
        timer).2.currentTerm = candidateTerm ∧
      (n.handleRequestVote candidateId candidateTerm lastLogIndex lastLogTerm
        timer).2.persistent.votedFor = some candidateId := by
  rcases n.handleRequestVote_cases candidateId candidateTerm lastLogIndex lastLogTerm timer with
    ⟨_, out⟩ | ⟨_, _, out⟩ | ⟨m, _, _, out⟩ | ⟨m, ready, _, _, out⟩
  · rw [out] at returned
    cases returned
    cases granted
  · rw [out] at returned
    cases returned
  · rw [out] at returned
    cases returned
    cases granted
  · -- the only case that grants: the node weighed the request in its term
    rw [out] at returned ⊢
    cases returned
    have term := ready.currentTerm
    exact ⟨rfl, term ▸ ready.keeps.mono, term, rfl⟩

theorem storeEntries_keeps :
    let m := (n.storeEntries prevLogIndex prevLogTerm entries leaderCommit).2
    m.nodeId = n.nodeId ∧ m.currentTerm = n.currentTerm ∧ m.role = n.role ∧
      m.persistent.votedFor = n.persistent.votedFor ∧ m.votesReceived = n.votesReceived ∧
      m.electionDeadline = n.electionDeadline := by
  rcases n.storeEntries_cases prevLogIndex prevLogTerm entries leaderCommit with
    ⟨_, out⟩ | ⟨_, persistent, volatile, stored, _, out⟩
  · rw [out]
    exact ⟨rfl, rfl, rfl, rfl, rfl, rfl⟩
  · rw [out]
    have truncated := truncateConflict_frame n.persistent (prevLogIndex + 1) entries
    have appended := appendMissing_frame
      (truncateConflict n.persistent (prevLogIndex + 1) entries) entries
    subst stored
    exact ⟨rfl, appended.1.trans truncated.1, rfl, appended.2.trans truncated.2, rfl, rfl⟩

theorem handleAppendEntries_keeps (leaderTerm : Nat) (leaderId : ι) (prevLogIndex prevLogTerm : Nat)
    (entries : List (LogEntry P)) (leaderCommit : Nat) (timer : Timer) :
    CallKeeps n (n.handleAppendEntries leaderTerm leaderId prevLogIndex prevLogTerm entries
      leaderCommit timer).2 := by
  rcases n.handleAppendEntries_cases leaderTerm leaderId prevLogIndex prevLogTerm entries
      leaderCommit timer with ⟨_, out⟩ | ⟨current, votes, out⟩ | ⟨current, votes, out⟩
  · rw [out]
    exact .refl n
  · rw [out]
    exact .followerAt n leaderTerm (some leaderId) current votes
  · -- the node steps down first, and storing entries touches nothing of that
    rw [out]
    have down := CallKeeps.steppedDown n leaderTerm (some leaderId) timer current votes
    obtain ⟨nodeId, term, role, vote, kept, _⟩ :=
      (n.steppedDown leaderTerm (some leaderId) timer).storeEntries_keeps prevLogIndex
        prevLogTerm entries leaderCommit
    refine ⟨nodeId, by rw [term]; exact current, fun c h => vote.trans h, ?_,
      Or.inr ⟨role, ?_⟩⟩
    · rw [kept]
      exact down.placeholder
    · intro voters received
      rw [kept] at received
      exact (VoteSet.received.inj received).symm

end DistLLM.Raft.RaftNode
