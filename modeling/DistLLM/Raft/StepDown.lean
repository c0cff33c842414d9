import DistLLM.Raft.Voting

/-!
# Stepping down in one piece

Which calls of a node can fail half way through a change of term. The placeholder
in the vote set is what makes `_become_follower` raise, so the answer depends on
whether the node was ever a candidate.
-/
namespace DistLLM.Raft

open RaftNode

variable {ι P : Type} [DecidableEq ι]

def Call.IsRpc : Call ι P → Prop
  | .requestVote .. => True
  | .appendEntries .. => True
  | _ => False

/-- The call makes the node fall back to follower of the call's term. -/
def Call.StepsDown (n : RaftNode ι P) : Call ι P → Prop
  | .becomeFollower term _ => n.currentTerm < term
  | .requestVote _ candidateTerm _ _ => n.currentTerm < candidateTerm
  | .appendEntries leaderTerm _ _ _ _ _ => n.currentTerm ≤ leaderTerm
  | _ => False

/-- Role, votes and deadline belong to the term just entered at `timer`. -/
def InNewTerm (n : RaftNode ι P) (timer : Timer) : Prop :=
  n.electionDeadline = randomElectionDeadline timer ∧
    ((n.role = .follower ∧ n.votesReceived = .received ∅) ∨
      (n.role = .candidate ∧ n.votesReceived = .received {n.nodeId}))

/-- A receiver call returns its response, and no call raises the term without the rest. -/
structure TotalAndAtomic (n : RaftNode ι P) (call : Call ι P) (timer : Timer) : Prop where
  total : call.IsRpc → ∃ reply, (call.exec n timer).1 = .ok reply
  atomic : n.currentTerm < (call.exec n timer).2.currentTerm →
    InNewTerm (call.exec n timer).2 timer

variable (n : RaftNode ι P) (call : Call ι P) (timer : Timer)

theorem exec_term_of_quiet (notRpc : ¬ call.IsRpc)
    (notFollower : ∀ term leaderId, call ≠ .becomeFollower term leaderId)
    (notCandidate : call ≠ .becomeCandidate) :
    (call.exec n timer).2.currentTerm = n.currentTerm := by
  cases call with
  | becomeFollower term leaderId => exact absurd rfl (notFollower term leaderId)
  | becomeCandidate => exact absurd rfl notCandidate
  | requestVote => exact absurd trivial notRpc
  | appendEntries => exact absurd trivial notRpc
  | becomeLeader => rfl
  | setPeers peerIds =>
    obtain ⟨leaderState, out⟩ := n.setPeers_frame peerIds
    simp only [Call.exec, out]
    rfl
  | resetElectionTimeout => rfl
  | appendToLog entryType payload => rfl
  | recordVote voterId =>
    simp only [Call.exec, recordVote]
    cases n.votesReceived <;> rfl
  | advanceCommitIndex =>
    obtain ⟨volatile, out⟩ := n.advanceCommitIndex_frame
    simp only [Call.exec, out]
    rfl
  | advanceLastApplied count => rfl
  | processResponse peerId response =>
    obtain ⟨leaderState, out⟩ := n.processAppendEntriesResponse_frame peerId response
    simp only [Call.exec, replied, out]
    rfl

theorem requestVote_totalAndAtomic (candidateId : ι) (candidateTerm lastLogIndex lastLogTerm : Nat)
    (timer : Timer) :
    TotalAndAtomic n (.requestVote candidateId candidateTerm lastLogIndex lastLogTerm) timer ↔
      (n.votesReceived ≠ .field ∨ ¬ n.currentTerm < candidateTerm) := by
  have reply : (Call.requestVote candidateId candidateTerm lastLogIndex lastLogTerm).exec n timer =
      replied Reply.vote (n.handleRequestVote candidateId candidateTerm lastLogIndex lastLogTerm
        timer) := rfl
  -- a weighed request returns, and whatever the answer, a raised term came with stepping down
  have weighed : ∀ m m' r, n.Weighs candidateTerm timer m → m'.currentTerm = m.currentTerm →
      (InNewTerm m timer → InNewTerm m' timer) →
      n.handleRequestVote candidateId candidateTerm lastLogIndex lastLogTerm timer = (.ok r, m') →
      (TotalAndAtomic n (.requestVote candidateId candidateTerm lastLogIndex lastLogTerm) timer ↔
        (n.votesReceived ≠ .field ∨ ¬ n.currentTerm < candidateTerm)) := by
    intro m m' r ready sameTerm entered out
    refine ⟨fun _ => ?_, fun _ => ⟨fun _ => ⟨_, by rw [reply, out]; rfl⟩, ?_⟩⟩
    · rcases ready with ⟨same, _⟩ | ⟨_, ⟨voters, votes⟩, _⟩
      · exact Or.inr (by omega)
      · exact Or.inl (by simp [votes])
    · rw [reply, out]
      intro raised
      have raised : n.currentTerm < m.currentTerm := lt_of_lt_of_eq raised sameTerm
      rcases ready with ⟨_, rfl⟩ | ⟨_, _, rfl⟩
      · exact absurd raised (lt_irrefl _)
      · exact entered ⟨rfl, Or.inl ⟨rfl, rfl⟩⟩
  rcases n.handleRequestVote_cases candidateId candidateTerm lastLogIndex lastLogTerm timer with
    ⟨stale, out⟩ | ⟨higher, votes, out⟩ | ⟨m, ready, _, out⟩ | ⟨m, ready, _, _, out⟩
  · refine ⟨fun _ => Or.inr (by omega), fun _ => ⟨fun _ => ⟨_, by rw [reply, out]; rfl⟩, ?_⟩⟩
    rw [reply, out]
    exact fun raised => absurd raised (lt_irrefl _)
  · -- the exception of the placeholder
    constructor
    · intro good
      obtain ⟨r, returned⟩ := good.total trivial
      rw [reply, out] at returned
      cases returned
    · rintro (set | low)
      · exact absurd votes set
      · exact absurd higher low
  · exact weighed m m _ ready rfl id out
  · exact weighed m (m.voting candidateId timer) _ ready rfl (fun entered => ⟨rfl, entered.2⟩) out

theorem appendEntries_totalAndAtomic (leaderTerm : Nat) (leaderId : ι)
    (prevLogIndex prevLogTerm : Nat) (entries : List (LogEntry P)) (leaderCommit : Nat)
    (timer : Timer) : TotalAndAtomic n
        (.appendEntries leaderTerm leaderId prevLogIndex prevLogTerm entries leaderCommit) timer ↔
      (n.votesReceived ≠ .field ∨ ¬ n.currentTerm ≤ leaderTerm) := by
  have reply : (Call.appendEntries leaderTerm leaderId prevLogIndex prevLogTerm entries
      leaderCommit).exec n timer = replied Reply.append (n.handleAppendEntries leaderTerm leaderId
        prevLogIndex prevLogTerm entries leaderCommit timer) := rfl
  rcases n.handleAppendEntries_cases leaderTerm leaderId prevLogIndex prevLogTerm entries
      leaderCommit timer with ⟨stale, out⟩ | ⟨current, votes, out⟩ | ⟨current, ⟨voters, votes⟩, out⟩
  · refine ⟨fun _ => Or.inr (by omega), fun _ => ⟨fun _ => ⟨_, by rw [reply, out]; rfl⟩, ?_⟩⟩
    rw [reply, out]
    exact fun raised => absurd raised (lt_irrefl _)
  · constructor
    · intro good
      obtain ⟨r, returned⟩ := good.total trivial
      rw [reply, out] at returned
      cases returned
    · rintro (set | low)
      · exact absurd votes set
      · exact absurd current low
  · obtain ⟨_, _, role, _, kept, deadline⟩ :=
      (n.steppedDown leaderTerm (some leaderId) timer).storeEntries_keeps prevLogIndex
        prevLogTerm entries leaderCommit
    refine ⟨fun _ => Or.inl (by simp [votes]), fun _ => ⟨fun _ => ?_, fun _ => ?_⟩⟩
    · rw [reply, out]
      rcases (n.steppedDown leaderTerm (some leaderId) timer).storeEntries_cases prevLogIndex
        prevLogTerm entries leaderCommit with ⟨_, stored⟩ | ⟨_, _, _, _, _, stored⟩
      · exact ⟨_, by rw [stored]; rfl⟩
      · exact ⟨_, by rw [stored]; rfl⟩
    · rw [reply, out]
      exact ⟨deadline, Or.inl ⟨role, kept⟩⟩

theorem totalAndAtomic_iff :
    TotalAndAtomic n call timer ↔ (n.votesReceived ≠ .field ∨ ¬ call.StepsDown n) := by
  have quiet : ¬ call.IsRpc → (∀ term leaderId, call ≠ .becomeFollower term leaderId) →
      call ≠ .becomeCandidate → ¬ call.StepsDown n →
      (TotalAndAtomic n call timer ↔ (n.votesReceived ≠ .field ∨ ¬ call.StepsDown n)) := by
    intro notRpc notFollower notCandidate stays
    refine ⟨fun _ => Or.inr stays, fun _ => ⟨fun rpc => absurd rpc notRpc, fun raised => ?_⟩⟩
    rw [exec_term_of_quiet n call timer notRpc notFollower notCandidate] at raised
    exact absurd raised (lt_irrefl _)
  cases call with
  | becomeFollower term leaderId =>
    cases votes : n.votesReceived with
    | field =>
      have out : (Call.becomeFollower term leaderId).exec n timer =
          (.error clearError, n.followerAt term leaderId) := by
        simp [Call.exec, replied, n.becomeFollower_field term leaderId timer votes, Except.map]
      -- a raised term would have to come with a vote set, and there is none
      constructor
      · intro good
        refine Or.inr fun raised => ?_
        have entered := good.atomic (by rw [out]; exact raised)
        rw [out] at entered
        rcases entered.2 with ⟨_, set⟩ | ⟨_, set⟩
        · exact absurd (votes.symm.trans set) (by simp)
        · exact absurd (votes.symm.trans set) (by simp)
      · rintro (set | stays)
        · exact absurd rfl set
        · refine ⟨fun rpc => rpc.elim, fun raised => absurd ?_ stays⟩
          rw [out] at raised
          exact raised
    | received voters =>
      refine ⟨fun _ => Or.inl (by simp), fun _ => ⟨fun rpc => rpc.elim, fun _ => ?_⟩⟩
      have out : (Call.becomeFollower term leaderId).exec n timer =
          (.ok .unit, n.steppedDown term leaderId timer) := by
        simp [Call.exec, replied, n.becomeFollower_received term leaderId timer votes, Except.map]
      rw [out]
      exact ⟨rfl, Or.inl ⟨rfl, rfl⟩⟩
  | becomeCandidate =>
    refine ⟨fun _ => Or.inr id, fun _ => ⟨fun rpc => rpc.elim, fun _ => ?_⟩⟩
    exact ⟨rfl, Or.inr ⟨rfl, rfl⟩⟩
  | requestVote candidateId candidateTerm lastLogIndex lastLogTerm =>
    exact requestVote_totalAndAtomic n candidateId candidateTerm lastLogIndex lastLogTerm timer
  | appendEntries leaderTerm leaderId prevLogIndex prevLogTerm entries leaderCommit =>
    exact appendEntries_totalAndAtomic n leaderTerm leaderId prevLogIndex prevLogTerm entries
      leaderCommit timer
  | _ => exact quiet id (by simp) (by simp) id

/-- The node became a candidate at some point of the run. -/
def EverCandidate (calls : List (Call ι P × Timer)) : Prop :=
  ∃ timer, (Call.becomeCandidate, timer) ∈ calls

theorem placeholder_iff_never_candidate (nodeId : ι) (maxBatchSize : Nat) (timer : Timer)
    (calls : List (Call ι P × Timer)) :
    (History.run nodeId maxBatchSize timer calls).node.votesReceived = .field ↔
      ¬ EverCandidate calls := by
  induction calls using List.reverseRecOn with
  | nil => exact ⟨fun _ ⟨_, member⟩ => (by simp at member), fun _ => rfl⟩
  | append_singleton calls call ih =>
    obtain ⟨call, now⟩ := call
    have last : History.run nodeId maxBatchSize timer (calls ++ [(call, now)]) =
        (History.run nodeId maxBatchSize timer calls).step (call, now) := by
      simp [History.run]
    have ever : EverCandidate (calls ++ [(call, now)]) ↔
        EverCandidate calls ∨ call = .becomeCandidate := by
      simp only [EverCandidate, List.mem_append, List.mem_singleton, Prod.mk.injEq]
      constructor
      · rintro ⟨t, old | ⟨rfl, _⟩⟩
        · exact Or.inl ⟨t, old⟩
        · exact Or.inr rfl
      · rintro (⟨t, old⟩ | rfl)
        · exact ⟨t, Or.inl old⟩
        · exact ⟨now, Or.inr ⟨rfl, rfl⟩⟩
    rw [last, ever, not_or, ← ih]
    -- only a candidacy replaces the placeholder
    by_cases candidacy : call = .becomeCandidate
    · subst candidacy
      exact ⟨fun set => (by cases set), fun ⟨_, no⟩ => absurd rfl no⟩
    · have kept :
          ((History.run nodeId maxBatchSize timer calls).step (call, now)).node.votesReceived =
            .field ↔ (History.run nodeId maxBatchSize timer calls).node.votesReceived = .field := by
        by_cases follower : ∃ term leaderId, call = .becomeFollower term leaderId
        · obtain ⟨term, leaderId, rfl⟩ := follower
          simp only [History.step, Call.exec, replied, becomeFollower]
          cases votes : (History.run nodeId maxBatchSize timer calls).node.votesReceived with
          | field => simp
          | received voters => simp
        · exact (exec_keeps _ call now (fun t l eq => follower ⟨t, l, eq⟩) candidacy).placeholder
      rw [kept]
      exact ⟨fun h => ⟨h, candidacy⟩, fun h => h.1⟩

/-- After any run, a call returns and changes terms in one piece exactly when the node was a
candidate before or the call does not make it step down. -/
theorem rpc_totalAndAtomic_iff (nodeId : ι) (maxBatchSize : Nat) (timer : Timer)
    (calls : List (Call ι P × Timer)) (call : Call ι P) (now : Timer) :
    TotalAndAtomic (History.run nodeId maxBatchSize timer calls).node call now ↔
      (EverCandidate calls ∨
        ¬ call.StepsDown (History.run nodeId maxBatchSize timer calls).node) := by
  rw [totalAndAtomic_iff, ne_eq, placeholder_iff_never_candidate, not_not]

/-- A fresh follower raises on the first request for a vote, with the new term already
stored and the old election deadline still in place. -/
theorem fresh_follower_raises :
    let n : RaftNode String String := RaftNode.init "b" 64 ⟨0, 150⟩
    let out := n.handleRequestVote "a" 1 0 0 ⟨1, 150⟩
    out.1 = .error clearError ∧ out.2.currentTerm = 1 ∧
      out.2.electionDeadline = n.electionDeadline ∧
      out.2.electionDeadline ≠ randomElectionDeadline ⟨1, 150⟩ := by
  refine ⟨rfl, rfl, rfl, ?_⟩
  decide +kernel

end DistLLM.Raft
