import DistLLM.Raft.Handlers

/-!
# Voting and stepping down of one node

Runs of a single node through its handlers and transitions, with the votes it
has cast kept as a history: which requests get a vote, and that no term gets two.
-/
namespace DistLLM.Raft

open RaftNode

variable {ι P : Type} [DecidableEq ι]

/-- The handler and transition calls of a node. -/
inductive Call (ι P : Type)
  | becomeFollower (term : Nat) (leaderId : Option ι)
  | becomeCandidate
  | becomeLeader
  | setPeers (peerIds : List ι)
  | resetElectionTimeout
  | appendToLog (entryType : String) (payload : P)
  | requestVote (candidateId : ι) (candidateTerm lastLogIndex lastLogTerm : Nat)
  | appendEntries (leaderTerm : Nat) (leaderId : ι) (prevLogIndex prevLogTerm : Nat)
      (entries : List (LogEntry P)) (leaderCommit : Nat)
  | recordVote (voterId : ι)
  | advanceCommitIndex
  | advanceLastApplied (count : Nat)
  | processResponse (peerId : ι) (response : AppendResponse)

inductive Reply
  | unit
  | index (i : Nat)
  | flag (b : Bool)
  | vote (r : VoteResponse)
  | append (r : AppendResponse)

/-- Rename the returned value, leaving exceptions and the state alone. -/
def replied {α : Type} (reply : α → Reply) (out : Outcome ι P α) : Outcome ι P Reply :=
  (out.1.map reply, out.2)

variable (n : RaftNode ι P)

def Call.exec (call : Call ι P) (timer : Timer) : Outcome ι P Reply :=
  match call with
  | .becomeFollower term leaderId => replied (fun _ => .unit) (n.becomeFollower term leaderId timer)
  | .becomeCandidate => (.ok .unit, n.becomeCandidate timer)
  | .becomeLeader => (.ok .unit, n.becomeLeader)
  | .setPeers peerIds => (.ok .unit, n.setPeers peerIds)
  | .resetElectionTimeout => (.ok .unit, n.resetElectionTimeout timer)
  | .appendToLog entryType payload =>
    let (index, n) := n.appendToLog entryType payload
    (.ok (.index index), n)
  | .requestVote candidateId candidateTerm lastLogIndex lastLogTerm =>
    replied .vote (n.handleRequestVote candidateId candidateTerm lastLogIndex lastLogTerm timer)
  | .appendEntries leaderTerm leaderId prevLogIndex prevLogTerm entries leaderCommit =>
    replied .append (n.handleAppendEntries leaderTerm leaderId prevLogIndex prevLogTerm entries
      leaderCommit timer)
  | .recordVote voterId => replied (fun _ => .unit) (n.recordVote voterId)
  | .advanceCommitIndex => (.ok (.index n.advanceCommitIndex.commitIndex), n.advanceCommitIndex)
  | .advanceLastApplied count => (.ok .unit, n.advanceLastApplied count)
  | .processResponse peerId response =>
    replied .flag (n.processAppendEntriesResponse peerId response)

/-- The votes a call casts, as pairs of term and candidate; a candidacy votes for itself. -/
def Call.votesCast (call : Call ι P) (result : Except PyError Reply) :
    List (Nat × ι) :=
  match call, result with
  | .becomeCandidate, _ => [(n.currentTerm + 1, n.nodeId)]
  | .requestVote candidateId _ _ _, .ok (.vote r) =>
    if r.voteGranted then [(r.term, candidateId)] else []
  | _, _ => []

/-- A node together with the votes it has cast so far. -/
structure History (ι P : Type) where
  node : RaftNode ι P
  votes : List (Nat × ι)

def History.step (h : History ι P) (call : Call ι P × Timer) : History ι P :=
  let out := call.1.exec h.node call.2
  { node := out.2, votes := h.votes ++ call.1.votesCast h.node out.1 }

def History.run (nodeId : ι) (maxBatchSize : Nat) (timer : Timer)
    (calls : List (Call ι P × Timer)) : History ι P :=
  calls.foldl History.step { node := RaftNode.init nodeId maxBatchSize timer, votes := [] }

/-- The part of the state that voting depends on, kept by all calls but the two
transitions that set the term themselves. -/
structure VoteKeeps (n m : RaftNode ι P) : Prop where
  nodeId : m.nodeId = n.nodeId
  mono : n.currentTerm ≤ m.currentTerm
  vote : ∀ c, n.persistent.votedFor = some c → m.persistent.votedFor = some c
  placeholder : m.votesReceived = .field ↔ n.votesReceived = .field

omit [DecidableEq ι] in
theorem VoteKeeps.of_eq {n m : RaftNode ι P} (nodeId : m.nodeId = n.nodeId)
    (term : m.currentTerm = n.currentTerm) (vote : m.persistent.votedFor = n.persistent.votedFor)
    (votes : m.votesReceived = n.votesReceived) : VoteKeeps n m :=
  ⟨nodeId, term.ge, fun _ h => vote.trans h, by rw [votes]⟩

omit [DecidableEq ι] in
theorem VoteKeeps.of_callKeeps {n m : RaftNode ι P} (h : CallKeeps n m) : VoteKeeps n m :=
  ⟨h.nodeId, h.mono, h.vote, h.placeholder⟩

theorem setPeers_keeps (peerIds : List ι) : VoteKeeps n (n.setPeers peerIds) := by
  obtain ⟨leaderState, out⟩ := n.setPeers_frame peerIds
  rw [out]
  exact .of_eq rfl rfl rfl rfl

omit [DecidableEq ι] in
theorem advanceCommitIndex_keeps : VoteKeeps n n.advanceCommitIndex := by
  obtain ⟨volatile, out⟩ := n.advanceCommitIndex_frame
  rw [out]
  exact .of_eq rfl rfl rfl rfl

theorem recordVote_keeps (voterId : ι) : VoteKeeps n (n.recordVote voterId).2 := by
  unfold recordVote
  cases votes : n.votesReceived with
  | field => exact .of_eq rfl rfl rfl rfl
  | received voters =>
    refine ⟨rfl, le_rfl, fun _ h => h, ?_⟩
    rw [votes]
    exact ⟨fun h => (by cases h), fun h => (by cases h)⟩

theorem processAppendEntriesResponse_keeps (peerId : ι) (response : AppendResponse) :
    VoteKeeps n (n.processAppendEntriesResponse peerId response).2 := by
  obtain ⟨leaderState, out⟩ := n.processAppendEntriesResponse_frame peerId response
  rw [out]
  exact .of_eq rfl rfl rfl rfl

variable (candidateId : ι) (term lastLogIndex lastLogTerm : Nat) {h : History ι P} (call : Call ι P)
  (timer : Timer)

theorem exec_keeps (notFollower : ∀ term leaderId, call ≠ .becomeFollower term leaderId)
    (notCandidate : call ≠ .becomeCandidate) : VoteKeeps n (call.exec n timer).2 := by
  cases call with
  | becomeFollower term leaderId => exact absurd rfl (notFollower term leaderId)
  | becomeCandidate => exact absurd rfl notCandidate
  | becomeLeader => exact .of_eq rfl rfl rfl rfl
  | setPeers peerIds => exact setPeers_keeps n peerIds
  | resetElectionTimeout => exact .of_eq rfl rfl rfl rfl
  | appendToLog entryType payload => exact .of_eq rfl rfl rfl rfl
  | requestVote candidateId candidateTerm lastLogIndex lastLogTerm =>
    exact .of_callKeeps (n.handleRequestVote_keeps candidateId candidateTerm lastLogIndex
      lastLogTerm timer)
  | appendEntries leaderTerm leaderId prevLogIndex prevLogTerm entries leaderCommit =>
    exact .of_callKeeps (n.handleAppendEntries_keeps leaderTerm leaderId prevLogIndex
      prevLogTerm entries leaderCommit timer)
  | recordVote voterId => exact recordVote_keeps n voterId
  | advanceCommitIndex => exact advanceCommitIndex_keeps n
  | advanceLastApplied count => exact .of_eq rfl rfl rfl rfl
  | processResponse peerId response => exact processAppendEntriesResponse_keeps n peerId response

/-! ### The vote history -/

/-- Past votes are of past terms, the vote of the current term is the stored one, no term
has two, and a node that was ever a candidate still stores its vote for itself. -/
structure VoteHistory (h : History ι P) : Prop where
  past : ∀ t c, (t, c) ∈ h.votes → t ≤ h.node.currentTerm
  stored : ∀ c, (h.node.currentTerm, c) ∈ h.votes → h.node.persistent.votedFor = some c
  unique : ∀ t c c', (t, c) ∈ h.votes → (t, c') ∈ h.votes → c = c'
  campaigned : h.node.votesReceived ≠ .field → h.node.persistent.votedFor = some h.node.nodeId

section

omit [DecidableEq ι]

theorem VoteHistory.quiet (inv : VoteHistory h) {m : RaftNode ι P}
    (keeps : VoteKeeps h.node m) : VoteHistory { node := m, votes := h.votes } where
  past t c cast := (inv.past t c cast).trans keeps.mono
  stored c cast := by
    have reached : h.node.currentTerm = m.currentTerm :=
      le_antisymm keeps.mono (inv.past _ _ cast)
    exact keeps.vote c (inv.stored c (by rw [reached]; exact cast))
  unique := inv.unique
  campaigned votes := by
    have before : h.node.votesReceived ≠ .field := fun none => votes (keeps.placeholder.mpr none)
    rw [keeps.vote _ (inv.campaigned before), keeps.nodeId]

/-- The vote just cast is for the term the node is now in and is the stored one, so an
earlier vote of that term was the same. -/
theorem VoteHistory.granted (inv : VoteHistory h) {m : RaftNode ι P} (keeps : VoteKeeps h.node m)
    {c : ι} (now : m.persistent.votedFor = some c) :
    VoteHistory { node := m, votes := h.votes ++ [(m.currentTerm, c)] } := by
  have quiet := inv.quiet keeps
  have earlier : ∀ c', (m.currentTerm, c') ∈ h.votes → c' = c := fun c' cast =>
    Option.some.inj ((quiet.stored c' cast).symm.trans now)
  refine ⟨?_, ?_, ?_, quiet.campaigned⟩
  · intro t c' cast
    rcases List.mem_append.mp cast with old | new
    · exact quiet.past t c' old
    · obtain ⟨rfl, rfl⟩ : t = m.currentTerm ∧ c' = c := by simpa using new
      exact le_rfl
  · intro c' cast
    rcases List.mem_append.mp cast with old | new
    · exact quiet.stored c' old
    · obtain rfl : c' = c := by simpa using new
      exact now
  · intro t c₁ c₂ cast₁ cast₂
    rcases List.mem_append.mp cast₁ with old₁ | new₁ <;>
      rcases List.mem_append.mp cast₂ with old₂ | new₂
    · exact inv.unique t c₁ c₂ old₁ old₂
    · obtain ⟨rfl, rfl⟩ : t = m.currentTerm ∧ c₂ = c := by simpa using new₂
      exact earlier c₁ old₁
    · obtain ⟨rfl, rfl⟩ : t = m.currentTerm ∧ c₁ = c := by simpa using new₁
      exact (earlier c₂ old₂).symm
    · obtain ⟨-, rfl⟩ : t = m.currentTerm ∧ c₁ = c := by simpa using new₁
      obtain ⟨-, rfl⟩ : t = m.currentTerm ∧ c₂ = c₁ := by simpa using new₂
      rfl

theorem VoteHistory.candidacy (inv : VoteHistory h) (timer : Timer) :
    VoteHistory
      { node := h.node.becomeCandidate timer
        votes := h.votes ++ [(h.node.currentTerm + 1, h.node.nodeId)] } := by
  -- the next term has no votes yet
  have old : ∀ c, (h.node.currentTerm + 1, c) ∉ h.votes := fun c cast =>
    absurd (inv.past _ _ cast) (by omega)
  refine ⟨?_, ?_, ?_, fun _ => rfl⟩
  · intro t c cast
    have term : (h.node.becomeCandidate timer).currentTerm = h.node.currentTerm + 1 := rfl
    rcases List.mem_append.mp cast with earlier | new
    · have := inv.past t c earlier
      simp only [term]
      omega
    · simp only [List.mem_singleton, Prod.mk.injEq] at new
      exact new.1.le
  · intro c cast
    rcases List.mem_append.mp cast with earlier | new
    · exact absurd earlier (old c)
    · simp only [List.mem_singleton, Prod.mk.injEq] at new
      rw [new.2]
      rfl
  · intro t c c' cast cast'
    rcases List.mem_append.mp cast with e | n <;> rcases List.mem_append.mp cast' with e' | n'
    · exact inv.unique t c c' e e'
    · simp only [List.mem_singleton, Prod.mk.injEq] at n'
      exact absurd (n'.1 ▸ e) (old c)
    · simp only [List.mem_singleton, Prod.mk.injEq] at n
      exact absurd (n.1 ▸ e') (old c')
    · simp only [List.mem_singleton, Prod.mk.injEq] at n n'
      exact n.2.trans n'.2.symm

theorem votesCast_of_quiet (result : Except PyError Reply) (notCandidate : call ≠ .becomeCandidate)
    (notRequest : ∀ c t li lt, call ≠ .requestVote c t li lt) : call.votesCast n result = [] := by
  cases call with
  | becomeCandidate => exact absurd rfl notCandidate
  | requestVote c t li lt => exact absurd rfl (notRequest c t li lt)
  | _ => rfl

end

theorem VoteHistory.step {h : History ι P} (inv : VoteHistory h) (call : Call ι P × Timer)
    (notFollower : ∀ term leaderId, call.1 ≠ .becomeFollower term leaderId) :
    VoteHistory (h.step call) := by
  obtain ⟨call, timer⟩ := call
  by_cases candidacy : call = .becomeCandidate
  · subst candidacy
    exact inv.candidacy timer
  have keeps := exec_keeps h.node call timer notFollower candidacy
  by_cases request : ∃ c t li lt, call = .requestVote c t li lt
  · -- only a request can add a vote of another candidate
    obtain ⟨c, t, li, lt, rfl⟩ := request
    simp only [History.step]
    cases result : (h.node.handleRequestVote c t li lt timer).1 with
    | error e =>
      have none : (Call.requestVote c t li lt).votesCast h.node
          ((Call.requestVote c t li lt).exec h.node timer).1 = [] := by
        simp [Call.exec, replied, result, Call.votesCast, Except.map]
      rw [none, List.append_nil]
      exact inv.quiet keeps
    | ok r =>
      have cast : (Call.requestVote c t li lt).votesCast h.node
          ((Call.requestVote c t li lt).exec h.node timer).1 =
            if r.voteGranted then [(r.term, c)] else [] := by
        simp [Call.exec, replied, result, Call.votesCast, Except.map]
      rw [cast]
      by_cases granted : r.voteGranted = true
      · obtain ⟨rterm, _, term, vote⟩ := handleRequestVote_granted result granted
        have now : r.term = ((Call.requestVote c t li lt).exec h.node timer).2.currentTerm :=
          rterm.trans term.symm
        rw [if_pos granted, now]
        exact inv.granted keeps vote
      · rw [if_neg granted, List.append_nil]
        exact inv.quiet keeps
  · have none := votesCast_of_quiet h.node call (call.exec h.node timer).1 candidacy
      fun c t li lt eq => request ⟨c, t, li, lt, eq⟩
    simp only [History.step, none, List.append_nil]
    exact inv.quiet keeps

theorem voteHistory_run (nodeId : ι) (maxBatchSize : Nat) (timer : Timer)
    (calls : List (Call ι P × Timer))
    (driven : ∀ call ∈ calls, ∀ term leaderId, call.1 ≠ .becomeFollower term leaderId) :
    VoteHistory (History.run nodeId maxBatchSize timer calls) := by
  unfold History.run
  have start : VoteHistory
      { node := RaftNode.init (P := P) nodeId maxBatchSize timer, votes := [] } :=
    ⟨by simp, by simp, by simp, fun votes => absurd rfl votes⟩
  -- over the calls, for any history the invariant holds of
  generalize History.mk (RaftNode.init (P := P) nodeId maxBatchSize timer) [] = h at start
  induction calls generalizing h with
  | nil => exact start
  | cons call rest ih =>
    have first := start.step call (driven call (List.mem_cons_self ..))
    exact ih (fun c member => driven c (List.mem_cons_of_mem _ member)) _ first

/-! ### Which requests get a vote -/

def Grants (candidateId : ι) (term lastLogIndex lastLogTerm : Nat) (timer : Timer) : Prop :=
  ∃ r, (n.handleRequestVote candidateId term lastLogIndex lastLogTerm timer).1 = .ok r ∧
    r.voteGranted = true

/-- No other name is stored as the vote, of whatever term it was, and stepping down to a
later term is possible. -/
def ReadyToVote (candidateId : ι) (term : Nat) : Prop :=
  (n.persistent.votedFor = none ∨ n.persistent.votedFor = some candidateId) ∧
    (n.currentTerm < term → n.votesReceived ≠ .field)

omit [DecidableEq ι] in
theorem alreadyVoted_iff : ¬ n.alreadyVoted candidateId ↔
      n.persistent.votedFor = none ∨ n.persistent.votedFor = some candidateId := by
  unfold alreadyVoted
  tauto

theorem grants_iff (current : n.currentTerm ≤ term) (upToDate : n.logOk lastLogIndex lastLogTerm) :
    Grants n candidateId term lastLogIndex lastLogTerm timer ↔ ReadyToVote n candidateId term := by
  unfold Grants ReadyToVote
  rw [← alreadyVoted_iff]
  rcases n.handleRequestVote_cases candidateId term lastLogIndex lastLogTerm timer with
    ⟨stale, _⟩ | ⟨higher, votes, out⟩ | ⟨m, ready, no, out⟩ | ⟨m, ready, free, _, out⟩
  · exact absurd stale (by omega)
  · -- stepping down raises, so nothing is granted
    rw [out]
    exact ⟨fun ⟨r, raised, _⟩ => (by cases raised), fun ⟨_, set⟩ => absurd votes (set higher)⟩
  · obtain ⟨sameVote, sameLog⟩ := ready.voteState candidateId lastLogIndex lastLogTerm
    rw [out]
    constructor
    · rintro ⟨r, returned, granted⟩
      cases returned
      cases granted
    · rintro ⟨free, _⟩
      rcases no with voted | behind
      · exact absurd (sameVote.mp voted) free
      · exact absurd (sameLog.mpr upToDate) behind
  · obtain ⟨sameVote, _⟩ := ready.voteState candidateId lastLogIndex lastLogTerm
    rw [out]
    refine ⟨fun _ => ⟨fun voted => free (sameVote.mpr voted), ?_⟩, fun _ => ⟨_, rfl, rfl⟩⟩
    intro higher
    rcases ready with ⟨same, _⟩ | ⟨_, ⟨voters, votes⟩, _⟩
    · omega
    · simp [votes]

/-- A node never votes for two candidates in one term. A request for a term without a vote
and with an up-to-date log is granted exactly when the stored vote, which no change of term
resets, is absent or for this candidate, and the node can step down to the term. -/
theorem vote_granted_iff_ready (nodeId : ι) (maxBatchSize : Nat) (timer : Timer)
    (calls : List (Call ι P × Timer))
    (driven : ∀ call ∈ calls, ∀ term leaderId, call.1 ≠ .becomeFollower term leaderId) :
    let h := History.run nodeId maxBatchSize timer calls
    (∀ candidateId term lastLogIndex lastLogTerm now, h.node.currentTerm ≤ term →
      (∀ c, (term, c) ∉ h.votes) → h.node.logOk lastLogIndex lastLogTerm →
      (Grants h.node candidateId term lastLogIndex lastLogTerm now ↔
        ReadyToVote h.node candidateId term)) ∧
    (∀ term c c', (term, c) ∈ h.votes → (term, c') ∈ h.votes → c = c') := by
  intro h
  have inv := voteHistory_run nodeId maxBatchSize timer calls driven
  refine ⟨?_, inv.unique⟩
  intro candidateId term lastLogIndex lastLogTerm now current _ upToDate
  exact grants_iff h.node candidateId term lastLogIndex lastLogTerm now current upToDate

/-- A follower that was asked twice for term 1 votes for "a" and keeps that name: in term 1
a request of "a" would be granted again. -/
theorem vote_granted_iff_ready_example :
    let timer : Timer := ⟨0, 150⟩
    let asked : Call String String × Timer := (.requestVote "a" 1 0 0, timer)
    let h := History.run "b" 64 timer [asked, asked]
    (1, "a") ∈ h.votes ∧ (∀ c, (1, "a") ∈ h.votes → (1, c) ∈ h.votes → "a" = c) ∧
      (Grants h.node "c" 2 0 0 timer ↔ ReadyToVote h.node "c" 2) := by
  intro timer asked h
  obtain ⟨granted, once⟩ := vote_granted_iff_ready "b" 64 timer [asked, asked] (by simp [asked])
  refine ⟨by decide +kernel, fun c => once 1 "a" c, ?_⟩
  exact granted "c" 2 0 0 timer (by decide) (by
    intro c
    have votes : h.votes = [(1, "a")] := by decide +kernel
    rw [show (History.run "b" 64 timer [asked, asked]).votes = [(1, "a")] from votes]
    simp) (by decide)

/-- A node that was a candidate in term 1 has not voted in term 2, yet refuses the
up-to-date request of "a" for term 2: it still stores its own vote of term 1. -/
theorem stale_vote_refuses_later_term :
    let timer : Timer := ⟨0, 150⟩
    let h : History String String := History.run "b" 64 timer [(.becomeCandidate, timer)]
    h.node.currentTerm < 2 ∧ (∀ c, (2, c) ∉ h.votes) ∧ h.node.logOk 0 0 ∧
      (h.node.handleRequestVote "a" 2 0 0 timer).1 = .ok { term := 2, voteGranted := false } := by
  refine ⟨by decide, ?_, by decide, by decide⟩
  intro c
  simp [History.run, History.step, Call.votesCast, RaftNode.init, currentTerm]

/-- The stored vote is never reset, so a request for a later term is granted to nobody but
the node itself. -/
theorem later_term_grants_only_self (nodeId : ι) (maxBatchSize : Nat) (timer now : Timer)
    (calls : List (Call ι P × Timer))
    (driven : ∀ call ∈ calls, ∀ term leaderId, call.1 ≠ .becomeFollower term leaderId)
    (candidateId : ι) (term lastLogIndex lastLogTerm : Nat) :
    let n := (History.run nodeId maxBatchSize timer calls).node
    n.currentTerm < term → n.logOk lastLogIndex lastLogTerm →
      Grants n candidateId term lastLogIndex lastLogTerm now → candidateId = n.nodeId := by
  intro n higher upToDate granted
  have inv := voteHistory_run nodeId maxBatchSize timer calls driven
  obtain ⟨stored, set⟩ := (grants_iff n candidateId term lastLogIndex lastLogTerm now
    (Nat.le_of_lt higher) upToDate).mp granted
  have own : n.persistent.votedFor = some n.nodeId := inv.campaigned (set higher)
  rcases stored with none | some
  · exact absurd (none.symm.trans own) (by simp)
  · exact Option.some.inj (some.symm.trans own)

/-- After its candidacy of term 1, "b" grants a request in its own name. -/
theorem later_term_grants_only_self_own :
    let timer : Timer := ⟨0, 150⟩
    let n := (History.run (P := String) "b" 64 timer [(.becomeCandidate, timer)]).node
    Grants n "b" 2 0 0 timer ∧ "b" = n.nodeId := by
  intro timer n
  have granted : Grants n "b" 2 0 0 timer := ⟨_, rfl, rfl⟩
  exact ⟨granted, later_term_grants_only_self (P := String) "b" 64 timer timer
    [(.becomeCandidate, timer)] (by simp) "b" 2 0 0 (by decide) (by decide) granted⟩

end DistLLM.Raft
