import DistLLM.Raft.Election

/-!
# Election safety

The invariant behind elections: votes cast are backed by the state of the voter, and
votes counted by a node were cast for it in the term the node is in. The second half
is what a late reply breaks, so it is kept only by runs in which a granting reply is
processed in its own term.
-/
namespace DistLLM.Raft

open DistLLM.Library RaftNode

variable {ι P : Type} [DecidableEq ι]

/-! ### The invariant on nodes and votes -/

/-- One node against the votes cast: its own votes are of past terms or stored, the votes it
counts were cast for it in its term, and as leader it has a majority of them. -/
structure NodeBallots (members : Finset ι) (votes : Ballots ι) (i : ι) (n : RaftNode ι P) :
    Prop where
  id : n.nodeId = i
  past : ∀ t c, (i, t, c) ∈ votes → t ≤ n.currentTerm
  stored : ∀ c, (i, n.currentTerm, c) ∈ votes → n.persistent.votedFor = some c
  counted : ∀ V, n.votesReceived = .received V → ∀ v ∈ V, (v, n.currentTerm, i) ∈ votes
  leads : n.role = .leader → Majority members votes n.currentTerm i

variable (i : ι) {m : RaftNode ι P}

namespace NodeBallots

variable {members : Finset ι} {votes : Ballots ι} {i : ι} {n : RaftNode ι P}
  (h : NodeBallots members votes i n)

include h

theorem moved (keeps : CallKeeps n m) : NodeBallots members votes i m := by
  refine ⟨keeps.nodeId.trans h.id, ?_, ?_, ?_, ?_⟩
  · intro t c cast
    exact (h.past t c cast).trans keeps.mono
  · intro c cast
    -- the vote was cast before, so the term did not move
    have still : m.currentTerm = n.currentTerm := le_antisymm (h.past _ c cast) keeps.mono
    exact keeps.vote c (h.stored c (still ▸ cast))
  · intro V received
    rcases keeps.campaign with ⟨term, _, kept⟩ | ⟨_, emptied⟩
    · rw [term]
      exact h.counted V (kept.symm.trans received)
    · rw [emptied V received]
      simp
  · intro leader
    rcases keeps.campaign with ⟨term, role, _⟩ | ⟨role, _⟩
    · rw [term]
      exact h.leads (role.symm.trans leader)
    · rw [role] at leader
      cases leader

theorem more {v c : ι} (t : Nat) (other : v ≠ i) :
    NodeBallots members (votes ++ [(v, t, c)]) i n := by
  have old : ∀ t' c', (i, t', c') ∈ votes ++ [(v, t, c)] → (i, t', c') ∈ votes := by
    intro t' c' cast
    simpa [Ne.symm other] using cast
  refine ⟨h.id, fun t' c' cast => h.past t' c' (old t' c' cast),
    fun c' cast => h.stored c' (old _ c' cast), ?_, ?_⟩
  · intro V received w hw
    exact List.mem_append_left _ (h.counted V received w hw)
  · intro leader
    exact (h.leads leader).mono (List.subset_append_left _ _)

theorem cast {c : ι} (vote : n.persistent.votedFor = some c) :
    NodeBallots members (votes ++ [(i, n.currentTerm, c)]) i n := by
  refine ⟨h.id, ?_, ?_, ?_, ?_⟩
  · intro t c' new
    rcases List.mem_append.mp new with old | here
    · exact h.past t c' old
    · simp only [List.mem_singleton, Prod.mk.injEq] at here
      exact here.2.1.le
  · intro c' new
    rcases List.mem_append.mp new with old | here
    · exact h.stored c' old
    · simp only [List.mem_singleton, Prod.mk.injEq] at here
      rw [here.2.2]
      exact vote
  · intro V received w hw
    exact List.mem_append_left _ (h.counted V received w hw)
  · intro leader
    exact (h.leads leader).mono (List.subset_append_left _ _)

theorem candidacy (timer : Timer) :
    NodeBallots members (votes ++ [(i, n.currentTerm + 1, i)]) i (n.becomeCandidate timer) := by
  have term : (n.becomeCandidate timer).currentTerm = n.currentTerm + 1 := rfl
  have split : ∀ t c, (i, t, c) ∈ votes ++ [(i, n.currentTerm + 1, i)] →
      (i, t, c) ∈ votes ∨ (t = n.currentTerm + 1 ∧ c = i) := by
    intro t c cast
    simpa using cast
  -- past votes are below the new term, and the vote set starts with the own vote
  refine ⟨h.id, ?_, ?_, ?_, ?_⟩
  · intro t c cast
    rcases split t c cast with old | ⟨rfl, _⟩
    · exact (h.past t c old).trans (Nat.le_succ _)
    · exact le_rfl
  · intro c cast
    rcases split _ c cast with old | ⟨_, rfl⟩
    · have := h.past _ c old
      omega
    · exact congrArg some h.id
  · intro V received v hv
    have alone : V = {n.nodeId} := (VoteSet.received.inj received).symm
    rw [alone, Finset.mem_singleton, h.id] at hv
    rw [hv, term]
    simp
  · intro leader
    cases leader

theorem recorded {v : ι} (cast : (v, n.currentTerm, i) ∈ votes) :
    NodeBallots members votes i (n.recordVote v).2 := by
  unfold recordVote
  cases votesOf : n.votesReceived with
  | field => exact h
  | received voters =>
    refine ⟨h.id, h.past, h.stored, ?_, h.leads⟩
    intro V received w hw
    have added : V = insert v voters := (VoteSet.received.inj received).symm
    rcases Finset.mem_insert.mp (added ▸ hw) with rfl | old
    · exact cast
    · exact h.counted voters votesOf w old

theorem elected (peerIds : List ι) (won : Majority members votes n.currentTerm i) :
    NodeBallots members votes i (n.becomeLeader.setPeers peerIds) :=
  ⟨h.id, h.past, h.stored, h.counted, fun _ => won⟩

end NodeBallots

structure BallotInv (members : Finset ι) (nodes : ι → RaftNode ι P) (votes : Ballots ι) :
    Prop where
  voters : ∀ v t c, (v, t, c) ∈ votes → v ∈ members
  once : OneVoteEach votes
  node : ∀ i, NodeBallots members votes i (nodes i)

namespace BallotInv

variable {members : Finset ι} {nodes : ι → RaftNode ι P} {votes : Ballots ι}
  (inv : BallotInv members nodes votes)

include inv

theorem update (i : ι) {m : RaftNode ι P}
    (h : NodeBallots members votes i m) : BallotInv members (Function.update nodes i m) votes := by
  refine ⟨inv.voters, inv.once, ?_⟩
  intro j
  by_cases same : j = i
  · subst same
    rw [Function.update_self]
    exact h
  · rw [Function.update_of_ne same]
    exact inv.node j

theorem addVote {i c : ι} {t : Nat} (member : i ∈ members)
    (agrees : ∀ c', (i, t, c') ∈ votes → c' = c)
    (h : NodeBallots members (votes ++ [(i, t, c)]) i m) :
    BallotInv members (Function.update nodes i m) (votes ++ [(i, t, c)]) := by
  have split : ∀ v t' c', (v, t', c') ∈ votes ++ [(i, t, c)] →
      (v, t', c') ∈ votes ∨ (v = i ∧ t' = t ∧ c' = c) := by
    intro v t' c' cast
    simpa using cast
  refine ⟨?_, ?_, ?_⟩
  · intro v t' c' cast
    rcases split v t' c' cast with old | ⟨rfl, _, _⟩
    · exact inv.voters v t' c' old
    · exact member
  · intro v t' c₁ c₂ cast₁ cast₂
    rcases split v t' c₁ cast₁ with old₁ | ⟨rfl, rfl, rfl⟩
    · rcases split v t' c₂ cast₂ with old₂ | ⟨rfl, rfl, rfl⟩
      · exact inv.once v t' c₁ c₂ old₁ old₂
      · exact agrees c₁ old₁
    · rcases split _ _ c₂ cast₂ with old₂ | ⟨_, _, rfl⟩
      · exact (agrees c₂ old₂).symm
      · rfl
  · intro j
    by_cases same : j = i
    · subst same
      rw [Function.update_self]
      exact h
    · rw [Function.update_of_ne same]
      exact (inv.node j).more t (Ne.symm same)

theorem majority_of_hasMajority {i : ι} (won : (nodes i).hasMajority members.card = .ok true) :
    Majority members votes (nodes i).currentTerm i := by
  cases votesOf : (nodes i).votesReceived with
  | field => simp [hasMajority, votesOf] at won
  | received V =>
    have large : V.card > members.card / 2 := by simpa [hasMajority, votesOf] using won
    have counted := (inv.node i).counted V votesOf
    exact majority_of_subset (fun v hv => inv.voters v _ i (counted v hv)) counted large

end BallotInv

/-! ### The invariant on the whole system -/

structure ElectionInv (c : Cluster ι) (s : ClusterState ι P) : Prop where
  ballots : BallotInv c.members s.nodes s.votes
  granted : ∀ r ∈ s.replies, r.voteGranted = true →
    (r.voterId, r.term, r.candidateId) ∈ s.votes
  asked : ∀ r ∈ s.requests, r.voterId ∈ c.members
  running : ∀ i tick, s.ticks i = some tick →
    i ∈ c.members ∧ ∀ pid ∈ tick.pending, pid ∈ c.members

theorem ElectionInv.initial (c : Cluster ι) {s : ClusterState ι P} (h : s.Initial) :
    ElectionInv c s := by
  obtain ⟨constructed, noTicks, noRequests, noReplies, noVotes⟩ := h
  refine ⟨?_, by simp [noReplies], by simp [noRequests], by simp [noTicks]⟩
  rw [noVotes]
  refine ⟨by simp, by simp [OneVoteEach], ?_⟩
  intro i
  obtain ⟨b, t, eq⟩ := constructed i
  rw [eq]
  refine ⟨rfl, by simp, by simp, ?_, ?_⟩
  · intro V received
    cases received
  · intro leader
    cases leader

section

variable {c : Cluster ι} {s : ClusterState ι P} (inv : ElectionInv c s)

include inv

theorem ElectionInv.setTick (i : ι) (tick' : Option (ElectionTick ι))
    (inside : ∀ tick, tick' = some tick → i ∈ c.members ∧ ∀ pid ∈ tick.pending, pid ∈ c.members) :
    ElectionInv c (s.setTick i tick') := by
  refine ⟨inv.ballots, inv.granted, inv.asked, ?_⟩
  intro j tick found
  by_cases same : j = i
  · subst same
    simp only [ClusterState.setTick, Function.update_self] at found
    exact inside tick found
  · simp only [ClusterState.setTick, Function.update_of_ne same] at found
    exact inv.running j tick found

theorem ElectionInv.nextTick : ElectionInv c (s.setTick i ((s.ticks i).map ElectionTick.next)) := by
  refine inv.setTick i _ ?_
  intro tick found
  obtain ⟨before, old, rfl⟩ := Option.map_eq_some_iff.mp found
  obtain ⟨member, peers⟩ := inv.running i before old
  exact ⟨member, fun pid h => peers pid (List.mem_of_mem_tail h)⟩

theorem ElectionInv.setNode (i : ι) {n : RaftNode ι P} (h : NodeBallots c.members s.votes i n) :
    ElectionInv c (s.setNode i n) :=
  ⟨inv.ballots.update i h, inv.granted, inv.asked, inv.running⟩

theorem ElectionInv.deliverRequest (request : VoteRequest ι) (timer : Timer)
    (sent : request ∈ s.requests) : ElectionInv c (s.deliverRequest request timer) := by
  have member := inv.asked request sent
  have keeps := (s.nodes request.voterId).handleRequestVote_keeps request.candidateId
    request.candidateTerm request.lastLogIndex request.lastLogTerm timer
  have moved := (inv.ballots.node request.voterId).moved keeps
  unfold ClusterState.deliverRequest
  dsimp only
  split
  · exact inv.setNode request.voterId moved
  · next r returned =>
    -- the history grows by the vote before the reply is on its way
    by_cases yes : r.voteGranted = true
    · obtain ⟨rterm, _, term, vote⟩ := handleRequestVote_granted returned yes
      have now := rterm.trans term.symm
      have agrees : ∀ c', (request.voterId, r.term, c') ∈ s.votes → c' = request.candidateId :=
        fun c' old => Option.some.inj ((moved.stored c' (now ▸ old)).symm.trans vote)
      have cast := inv.ballots.addVote member agrees (by rw [now]; exact moved.cast vote)
      simp only [yes, if_true]
      refine ⟨cast, ?_, inv.asked, inv.running⟩
      intro reply member granted
      rcases List.mem_append.mp member with old | new
      · exact List.mem_append_left _ (inv.granted reply old granted)
      · rw [List.mem_singleton] at new
        subst new
        simp
    · simp only [yes, if_false, List.append_nil, Bool.false_eq_true]
      refine ⟨inv.ballots.update request.voterId moved, ?_, inv.asked, inv.running⟩
      intro reply member granted
      rcases List.mem_append.mp member with old | new
      · exact inv.granted reply old granted
      · rw [List.mem_singleton] at new
        subst new
        exact absurd granted (by simp)

/-- The node's own handler never runs ahead of a reply of the present term, so the vote it
records is a vote of the term it is still in. -/
theorem ElectionInv.receiveReply (i : ι) (reply : VoteReply ι) (timer : Timer)
    (sent : reply ∈ s.replies) (toMe : reply.candidateId = i)
    (current : reply.voteGranted = true → reply.term = (s.nodes i).currentTerm) :
    ElectionInv c (s.receiveReply i reply timer) := by
  have keeps := (s.nodes i).handleRequestVote_keeps reply.voterId reply.term 0 0 timer
  have moved := (inv.ballots.node i).moved keeps
  have processed : NodeBallots c.members s.votes i
      (ClusterState.processReply (s.nodes i) reply timer) := by
    unfold ClusterState.processReply
    dsimp only
    split
    · exact moved
    · split
      · next yes =>
        have cast := inv.granted reply sent yes
        rw [toMe, current yes] at cast
        have still : ((s.nodes i).handleRequestVote reply.voterId reply.term 0 0
            timer).2.currentTerm = (s.nodes i).currentTerm := by
          rcases (s.nodes i).handleRequestVote_cases reply.voterId reply.term 0 0 timer with
            ⟨_, out⟩ | ⟨higher, _, _⟩ | ⟨m, ready, _, out⟩ | ⟨m, ready, _, _, out⟩
          · rw [out]
          · exact absurd (current yes) (by omega)
          · rw [out]
            exact ready.currentTerm.trans (current yes)
          · rw [out]
            exact ready.currentTerm.trans (current yes)
        exact moved.recorded (by rw [still]; exact cast)
      · exact moved
  exact (inv.setNode i processed).nextTick i

theorem ElectionInv.finishElection (i : ι)
    (member : i ∈ c.members) : ElectionInv c (s.finishElection c i) := by
  have ended := inv.setTick i none (by simp)
  unfold ClusterState.finishElection
  dsimp only
  split
  · next won =>
    -- the counted votes are votes of this term, so they are a majority of it
    rw [c.votesNeeded_eq member] at won
    exact ended.setNode i ((ended.ballots.node i).elected (c.peerIds i)
      (ended.ballots.majority_of_hasMajority won))
  · exact ended

end

/-- By action; an answer is for the term that it is counted in. -/
theorem ElectionInv.step (c : Cluster ι) (s : ClusterState ι P) (a : ClusterAction ι P)
    (inv : ElectionInv c s) (enabled : s.Enabled c a) (current : AnswersCurrentTerm s a) :
    ElectionInv c (s.exec c a) := by
  cases a with
  | startElection i timer =>
    obtain ⟨member, _, _⟩ := enabled
    have peers : ∀ pid ∈ c.peerIds i, pid ∈ c.members := by
      intro pid h
      have : pid ∈ (c.peerIds i).toFinset := List.mem_toFinset.mpr h
      rw [c.peers_eq i member] at this
      exact Finset.mem_of_mem_erase this
    have ticked := inv.setTick i
      (some { lastLog := none, pending := c.peerIds i, awaiting := false })
      (by rintro tick ⟨⟩; exact ⟨member, peers⟩)
    -- nobody has voted in a term the node has not reached
    have unused : ∀ c', (i, (s.nodes i).currentTerm + 1, c') ∈ s.votes → c' = i := by
      intro c' old
      have := (inv.ballots.node i).past _ c' old
      omega
    have cast := inv.ballots.addVote member unused ((inv.ballots.node i).candidacy timer)
    refine ⟨cast, ?_, inv.asked, ticked.running⟩
    intro r old granted
    exact List.mem_append_left _ (inv.granted r old granted)
  | readLog i =>
    refine inv.setTick i _ ?_
    intro tick found
    obtain ⟨before, old, rfl⟩ := Option.map_eq_some_iff.mp found
    exact inv.running i before old
  | sendRequest i =>
    simp only [ClusterState.exec, ClusterState.sendRequest]
    split
    · next lastIdx lastTerm pid rest _ found =>
      obtain ⟨member, peers⟩ := inv.running i _ found
      have ticked := inv.setTick i
        (some { lastLog := some (lastIdx, lastTerm), pending := pid :: rest, awaiting := true })
        (by rintro tick ⟨⟩; exact ⟨member, peers⟩)
      refine ⟨inv.ballots, inv.granted, ?_, ticked.running⟩
      intro r sent
      rcases List.mem_append.mp sent with old | new
      · exact inv.asked r old
      · rw [List.mem_singleton] at new
        subst new
        exact peers pid (List.mem_cons_self ..)
    · exact inv
  | deliverRequest request timer => exact inv.deliverRequest request timer enabled
  | receiveReply i reply timer =>
    obtain ⟨sent, toMe, _⟩ := enabled
    exact inv.receiveReply i reply timer sent toMe current
  | skipPeer i => exact inv.nextTick i
  | finishElection i =>
    obtain ⟨tick, found, _⟩ := enabled
    exact inv.finishElection i (inv.running i tick found).1
  | appendEntries i leaderTerm leaderId prevLogIndex prevLogTerm entries leaderCommit timer =>
    have keeps := (s.nodes i).handleAppendEntries_keeps leaderTerm leaderId prevLogIndex
      prevLogTerm entries leaderCommit timer
    exact inv.setNode i ((inv.ballots.node i).moved keeps)

/-- In every run in which granting replies are processed in their own term, no term has two
leaders and every leader was granted a vote by a majority in its term. -/
theorem one_leader_per_term (c : Cluster ι) (s : ClusterState ι P)
    (reached : (raftElection P c).Reaches AnswersCurrentTerm s) :
    (∀ i j, (s.nodes i).role = .leader → (s.nodes j).role = .leader →
      (s.nodes i).currentTerm = (s.nodes j).currentTerm → i = j) ∧
    (∀ i, (s.nodes i).role = .leader → Majority c.members s.votes (s.nodes i).currentTerm i) := by
  have inv : ElectionInv c s := reached.invariant (fun _ => ElectionInv.initial c)
    (fun s a => ElectionInv.step c s a)
  have leads := fun i => (inv.ballots.node i).leads
  refine ⟨?_, leads⟩
  intro i j leader leader' sameTerm
  have won := leads i leader
  rw [sameTerm] at won
  exact majority_unique inv.ballots.once won (leads j leader')

def trio : Cluster String where
  members := {"a", "b", "c"}
  peerIds i := ["a", "b", "c"].erase i
  peers_nodup := by decide
  peers_eq := by decide

def trioStart : ClusterState String String where
  nodes i := RaftNode.init i 64 ⟨0, 150⟩
  ticks _ := none
  requests := []
  replies := []
  votes := []

theorem trioStart_initial : (raftElection String trio).init trioStart :=
  ⟨fun _ => ⟨64, ⟨0, 150⟩, rfl⟩, fun _ => rfl, rfl, rfl, rfl⟩

/-- Candidate `i` asks `j` for its vote in `term`; the request arrives twice, since the first
delivery raises on a node that was never a candidate. -/
def askTwice (i j : String) (term : Nat) : List (ClusterAction String String) :=
  let request := { candidateId := i, voterId := j, candidateTerm := term,
                   lastLogIndex := 0, lastLogTerm := 0 }
  [.sendRequest i, .deliverRequest request ⟨1, 150⟩, .deliverRequest request ⟨1, 150⟩]

def electA : List (ClusterAction String String) :=
  [.startElection "a" ⟨1, 150⟩, .readLog "a"] ++ askTwice "a" "b" 1 ++
    [.receiveReply "a" ⟨"b", "a", 1, true⟩ ⟨1, 150⟩, .skipPeer "a", .finishElection "a"]

theorem one_leader_per_term_trio :
    ((electA.foldl (raftElection String trio).exec trioStart).nodes "a").role = .leader ∧
      Majority trio.members (electA.foldl (raftElection String trio).exec trioStart).votes
        ((electA.foldl (raftElection String trio).exec trioStart).nodes "a").currentTerm "a" := by
  have leader : ((electA.foldl (raftElection String trio).exec trioStart).nodes "a").role =
      .leader := by decide +kernel
  have reached : (raftElection String trio).Reaches AnswersCurrentTerm
      (electA.foldl (raftElection String trio).exec trioStart) :=
    (Machine.Reaches.init trioStart_initial).of_follows electA (by decide +kernel)
  exact ⟨leader, (one_leader_per_term trio _ reached).2 "a" leader⟩

/-- "b" asks "a" in term 1 and gives up waiting; "a" is elected in term 2 by "c"; then "b"
campaigns in term 2 and is handed the late reply of term 1. -/
def lateReply : List (ClusterAction String String) :=
  [.startElection "b" ⟨1, 150⟩, .readLog "b"] ++ askTwice "b" "a" 1 ++
    [.skipPeer "b", .skipPeer "b", .finishElection "b"] ++
  [.startElection "a" ⟨2, 150⟩, .readLog "a", .skipPeer "a"] ++ askTwice "a" "c" 2 ++
    [.receiveReply "a" ⟨"c", "a", 2, true⟩ ⟨2, 150⟩, .finishElection "a"] ++
  [.startElection "b" ⟨3, 150⟩, .readLog "b", .sendRequest "b",
    .receiveReply "b" ⟨"a", "b", 1, true⟩ ⟨3, 150⟩, .skipPeer "b", .finishElection "b"]

/-- "b" asks "a" in term 1; before the granted reply arrives, "a" campaigns in term 2 and "b"
steps down. The reply is counted all the same, and "b" asks "c" in term 2. -/
def steppedDownMeanwhile : List (ClusterAction String String) :=
  [.startElection "b" ⟨1, 150⟩, .readLog "b"] ++ askTwice "b" "a" 1 ++
  [.startElection "a" ⟨2, 150⟩, .readLog "a"] ++ askTwice "a" "b" 2 ++
    [.receiveReply "b" ⟨"a", "b", 1, true⟩ ⟨2, 150⟩] ++ askTwice "b" "c" 2 ++
    [.receiveReply "b" ⟨"c", "b", 2, true⟩ ⟨2, 150⟩, .finishElection "b"]

/-- A reply that outlives its election gives term 2 two leaders. A reply that merely arrives
after the candidate stepped down already makes a leader of term 2 for whom no majority voted
in that term. -/
theorem late_reply_elects_two_leaders : (∃ s, (raftElection String trio).Reachable s ∧
      (s.nodes "a").role = .leader ∧ (s.nodes "b").role = .leader ∧
      (s.nodes "a").currentTerm = 2 ∧ (s.nodes "b").currentTerm = 2) ∧
    ∃ s, (raftElection String trio).Reachable s ∧
      (s.nodes "b").role = .leader ∧ (s.nodes "b").currentTerm = 2 ∧
      ¬ Majority trio.members s.votes 2 "b" := by
  refine ⟨⟨lateReply.foldl (raftElection String trio).exec trioStart, ?_, ?_⟩,
    ⟨steppedDownMeanwhile.foldl (raftElection String trio).exec trioStart, ?_, ?_⟩⟩
  · exact (Machine.Reaches.init trioStart_initial).of_follows lateReply (by decide +kernel)
  · decide +kernel
  · exact (Machine.Reaches.init trioStart_initial).of_follows steppedDownMeanwhile
      (by decide +kernel)
  · decide +kernel

end DistLLM.Raft
