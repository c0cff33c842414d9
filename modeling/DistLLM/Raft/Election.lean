import DistLLM.Library.Machine
import DistLLM.Library.Quorum
import DistLLM.Raft.Handlers

/-!
# Elections in a cluster

The nodes of a cluster, each running `_handle_election_tick` of its `RaftCluster`
against a network that may delay, lose, reorder and duplicate vote requests and
replies. The tick runs without the lock while it waits for a peer, so calls of other
nodes may come between any two of its actions.
-/
namespace DistLLM.Raft

open DistLLM.Library RaftNode

variable {ι P : Type} [DecidableEq ι]

/-! ### The system -/

/-- The members, and for each one its `_peer_ids` in the order the loop visits them. -/
structure Cluster (ι : Type) [DecidableEq ι] where
  members : Finset ι
  peerIds : ι → List ι
  peers_nodup : ∀ i ∈ members, (peerIds i).Nodup
  peers_eq : ∀ i ∈ members, (peerIds i).toFinset = members.erase i

variable (c : Cluster ι) (i : ι)

theorem Cluster.votesNeeded_eq {i : ι} (member : i ∈ c.members) :
    (c.peerIds i).length + 1 = c.members.card := by
  rw [← List.toFinset_card_of_nodup (c.peers_nodup i member), c.peers_eq i member]
  exact Finset.card_erase_add_one member

structure VoteRequest (ι : Type) where
  candidateId : ι
  voterId : ι
  candidateTerm : Nat
  lastLogIndex : Nat
  lastLogTerm : Nat
  deriving DecidableEq

structure VoteReply (ι : Type) where
  voterId : ι
  candidateId : ι
  term : Nat
  voteGranted : Bool
  deriving DecidableEq

/-- Where a running `_handle_election_tick` stands: the log position it read, the peers
still to be asked, and whether the first of them was sent its request. -/
structure ElectionTick (ι : Type) where
  lastLog : Option (Nat × Nat)
  pending : List ι
  awaiting : Bool

def ElectionTick.next (tick : ElectionTick ι) : ElectionTick ι :=
  { tick with pending := tick.pending.tail, awaiting := false }

/-- `votes` is a history: every vote cast so far, by a handler or by an own candidacy. -/
structure ClusterState (ι P : Type) where
  nodes : ι → RaftNode ι P
  ticks : ι → Option (ElectionTick ι)
  requests : List (VoteRequest ι)
  replies : List (VoteReply ι)
  votes : Ballots ι

inductive ClusterAction (ι P : Type)
  | startElection (i : ι) (timer : Timer)
  | readLog (i : ι)
  | sendRequest (i : ι)
  | deliverRequest (request : VoteRequest ι) (timer : Timer)
  | receiveReply (i : ι) (reply : VoteReply ι) (timer : Timer)
  | skipPeer (i : ι)
  | finishElection (i : ι)
  | appendEntries (i : ι) (leaderTerm : Nat) (leaderId : ι) (prevLogIndex prevLogTerm : Nat)
      (entries : List (LogEntry P)) (leaderCommit : Nat) (timer : Timer)

variable (s : ClusterState ι P)

namespace ClusterState

def setNode (s : ClusterState ι P) (i : ι) (n : RaftNode ι P) : ClusterState ι P :=
  { s with nodes := Function.update s.nodes i n }

def setTick (s : ClusterState ι P) (i : ι) (tick : Option (ElectionTick ι)) : ClusterState ι P :=
  { s with ticks := Function.update s.ticks i tick }

def Initial : Prop :=
  (∀ i, ∃ maxBatchSize timer, s.nodes i = RaftNode.init i maxBatchSize timer) ∧
    (∀ i, s.ticks i = none) ∧ s.requests = [] ∧ s.replies = [] ∧ s.votes = []

/-- An election starts on a node that is no leader and has no tick running. -/
def Enabled (s : ClusterState ι P) : ClusterAction ι P → Prop
  | .startElection i _ => i ∈ c.members ∧ s.ticks i = none ∧ (s.nodes i).role ≠ .leader
  | .readLog i => ∃ tick ∈ s.ticks i, tick.lastLog = none
  | .sendRequest i =>
    ∃ tick ∈ s.ticks i, tick.lastLog ≠ none ∧ tick.pending ≠ [] ∧ tick.awaiting = false
  | .deliverRequest request _ => request ∈ s.requests
  | .receiveReply i reply _ =>
    reply ∈ s.replies ∧ reply.candidateId = i ∧
      ∃ tick ∈ s.ticks i, tick.awaiting = true ∧ tick.pending.head? = some reply.voterId
  | .skipPeer i => ∃ tick ∈ s.ticks i, tick.lastLog ≠ none ∧ tick.pending ≠ []
  | .finishElection i => ∃ tick ∈ s.ticks i, tick.lastLog ≠ none ∧ tick.pending = []
  | .appendEntries i .. => i ∈ c.members

/-- `_become_candidate` at the start of the tick. -/
def startElection (s : ClusterState ι P) (i : ι) (timer : Timer) :
    ClusterState ι P :=
  let n := (s.nodes i).becomeCandidate timer
  { (s.setNode i n).setTick i
      (some { lastLog := none, pending := c.peerIds i, awaiting := false }) with
    votes := s.votes ++ [(i, n.currentTerm, i)] }

def readLog (s : ClusterState ι P) (i : ι) : ClusterState ι P :=
  let p := (s.nodes i).persistent
  s.setTick i ((s.ticks i).map fun tick =>
    { tick with lastLog := some (p.lastLogIndex, p.lastLogTerm) })

/-- The request carries the term the node has now, which need not be that of its candidacy. -/
def sendRequest (s : ClusterState ι P) (i : ι) : ClusterState ι P :=
  match s.ticks i with
  | some { lastLog := some (lastIdx, lastTerm), pending := pid :: rest, awaiting := _ } =>
    { s.setTick i
        (some { lastLog := some (lastIdx, lastTerm), pending := pid :: rest, awaiting := true })
      with
      requests := s.requests ++
        [{ candidateId := i, voterId := pid, candidateTerm := (s.nodes i).currentTerm,
           lastLogIndex := lastIdx, lastLogTerm := lastTerm }] }
  | _ => s

/-- A peer handles a request; a handler that raises sends no reply. -/
def deliverRequest (request : VoteRequest ι) (timer : Timer) :
    ClusterState ι P :=
  let out := (s.nodes request.voterId).handleRequestVote request.candidateId
    request.candidateTerm request.lastLogIndex request.lastLogTerm timer
  let s := s.setNode request.voterId out.2
  match out.1 with
  | .error _ => s
  | .ok r =>
    { s with
      replies := s.replies ++
        [{ voterId := request.voterId, candidateId := request.candidateId, term := r.term,
           voteGranted := r.voteGranted }]
      votes := s.votes ++
        if r.voteGranted then [(request.voterId, r.term, request.candidateId)] else [] }

/-- What the candidate does with a reply: its own `handle_request_vote` sees the term of
the peer, and the vote is recorded if the reply grants it. -/
def processReply (n : RaftNode ι P) (reply : VoteReply ι) (timer : Timer) : RaftNode ι P :=
  let out := n.handleRequestVote reply.voterId reply.term 0 0 timer
  match out.1 with
  | .error _ => out.2
  | .ok _ => if reply.voteGranted then (out.2.recordVote reply.voterId).2 else out.2

def receiveReply (s : ClusterState ι P) (i : ι) (reply : VoteReply ι) (timer : Timer) :
    ClusterState ι P :=
  (s.setNode i (processReply (s.nodes i) reply timer)).setTick i
    ((s.ticks i).map ElectionTick.next)

/-- The end of the tick: become leader on a majority of `votes_needed`. -/
def finishElection (s : ClusterState ι P) (i : ι) : ClusterState ι P :=
  let s := s.setTick i none
  match (s.nodes i).hasMajority ((c.peerIds i).length + 1) with
  | .ok true => s.setNode i ((s.nodes i).becomeLeader.setPeers (c.peerIds i))
  | _ => s

def exec (s : ClusterState ι P) : ClusterAction ι P → ClusterState ι P
  | .startElection i timer => s.startElection c i timer
  | .readLog i => s.readLog i
  | .sendRequest i => s.sendRequest i
  | .deliverRequest request timer => s.deliverRequest request timer
  | .receiveReply i reply timer => s.receiveReply i reply timer
  | .skipPeer i => s.setTick i ((s.ticks i).map ElectionTick.next)
  | .finishElection i => s.finishElection c i
  | .appendEntries i leaderTerm leaderId prevLogIndex prevLogTerm entries leaderCommit timer =>
    s.setNode i ((s.nodes i).handleAppendEntries leaderTerm leaderId prevLogIndex prevLogTerm
      entries leaderCommit timer).2

end ClusterState

def raftElection (P : Type) (c : Cluster ι) : Machine (ClusterState ι P) (ClusterAction ι P) where
  init := ClusterState.Initial
  enabled := ClusterState.Enabled c
  exec := ClusterState.exec c

/-- A reply that grants a vote is processed only while the node is still in its term. -/
def AnswersCurrentTerm : ClusterAction ι P → Prop
  | .receiveReply i reply _ =>
    reply.voteGranted = true → reply.term = (s.nodes i).currentTerm
  | _ => True

instance (c : Cluster ι) (s : ClusterState ι P) :
    ∀ a, Decidable ((raftElection P c).enabled s a)
  | .startElection _ _ => inferInstanceAs (Decidable (_ ∧ _ ∧ _))
  | .readLog i => inferInstanceAs (Decidable (∃ tick ∈ s.ticks i, tick.lastLog = none))
  | .sendRequest i => inferInstanceAs (Decidable
      (∃ tick ∈ s.ticks i, tick.lastLog ≠ none ∧ tick.pending ≠ [] ∧ tick.awaiting = false))
  | .deliverRequest request _ => inferInstanceAs (Decidable (request ∈ s.requests))
  | .receiveReply i reply _ => inferInstanceAs (Decidable
      (reply ∈ s.replies ∧ reply.candidateId = i ∧
        ∃ tick ∈ s.ticks i, tick.awaiting = true ∧ tick.pending.head? = some reply.voterId))
  | .skipPeer i => inferInstanceAs (Decidable
      (∃ tick ∈ s.ticks i, tick.lastLog ≠ none ∧ tick.pending ≠ []))
  | .finishElection i => inferInstanceAs (Decidable
      (∃ tick ∈ s.ticks i, tick.lastLog ≠ none ∧ tick.pending = []))
  | .appendEntries i .. => inferInstanceAs (Decidable (i ∈ c.members))

instance (s : ClusterState ι P) : ∀ a, Decidable (AnswersCurrentTerm s a)
  | .receiveReply i reply _ => inferInstanceAs (Decidable
      (reply.voteGranted = true → reply.term = (s.nodes i).currentTerm))
  | .startElection .. | .readLog .. | .sendRequest .. | .deliverRequest .. | .skipPeer ..
  | .finishElection .. | .appendEntries .. => .isTrue trivial

end DistLLM.Raft
