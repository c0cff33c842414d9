import DistLLM.Library.Dict
import Mathlib.Algebra.Order.Field.Rat
import Mathlib.Data.List.Sort

/-!
# RayFaultTolerance

The high-availability coordinator: its election state and its methods. Ids are compared, as
the code compares the id strings, and stay an abstract linear order `ι`; the replicated state
is a dictionary over `K` and `V`. A round of probing is split where the code gives up its
lock, so that other calls may come in between.
-/
namespace DistLLM.Ha

open DistLLM.Library

inductive CoordinatorState
  | follower
  | candidate
  | leader
  deriving DecidableEq, Repr

structure PeerInfo where
  host : String
  port : Nat
  lastSeen : ℚ
  online : Bool

structure RayFaultTolerance (ι K V : Type) where
  id : ι
  electionTimeout : ℚ
  state : CoordinatorState
  leaderId : Option ι
  peers : Dict ι PeerInfo
  initialClusterSize : Nat
  currentTerm : Int
  votedFor : Option ι
  replicatedState : Dict K V

structure HeartbeatResponse (ι : Type) where
  coordinatorId : ι
  state : CoordinatorState
  term : Int
  leaderId : Option ι

/-- The payload of a probe, which the peer handles as a heartbeat. -/
structure HeartbeatPayload (ι K V : Type) where
  coordinatorId : ι
  term : Int
  state : Dict K V

/-- What a transport returns: a dict, perhaps without a term of its own as from the HTTP route,
which nests the response, or something else. -/
inductive TransportReply
  | dict (term : Option Int)
  | other

namespace RayFaultTolerance

variable {ι K V : Type}

def init (id : ι) (electionTimeout : ℚ) : RayFaultTolerance ι K V where
  id := id
  electionTimeout := electionTimeout
  state := .follower
  leaderId := none
  peers := ∅
  initialClusterSize := 1
  currentTerm := 0
  votedFor := none
  replicatedState := ∅

variable (c : RayFaultTolerance ι K V) (now : ℚ)

def addPeer [DecidableEq ι] (c : RayFaultTolerance ι K V) (peerId : ι) (host : String) (port : Nat)
    (now : ℚ) : RayFaultTolerance ι K V :=
  let peers := c.peers.set peerId { host, port, lastSeen := now, online := true }
  -- the size the quorum is taken from only grows
  { c with peers, initialClusterSize := max c.initialClusterSize (peers.size + 1) }

def removePeer [DecidableEq ι] (c : RayFaultTolerance ι K V) (peerId : ι) :
    RayFaultTolerance ι K V :=
  { c with peers := c.peers.filterKeys fun pid => decide (pid ≠ peerId) }

/-- `replicate_state`: store locally; the next probes carry it to the peers. -/
def replicateState [DecidableEq K] (c : RayFaultTolerance ι K V) (key : K) (value : V) :
    RayFaultTolerance ι K V :=
  { c with replicatedState := c.replicatedState.set key value }

/-! ### Heartbeats -/

def refreshSender [DecidableEq ι] (c : RayFaultTolerance ι K V) (senderId : ι) (now : ℚ) :
    RayFaultTolerance ι K V :=
  let info := match c.peers.get? senderId with
    | none => { host := "", port := 0, lastSeen := now, online := true }
    | some peerInfo => { peerInfo with lastSeen := now, online := true }
  { c with peers := c.peers.set senderId info }

/-- A higher term is adopted and makes the coordinator a follower. -/
def adoptTerm (term : Int) : RayFaultTolerance ι K V :=
  if term > c.currentTerm then
    { c with currentTerm := term, votedFor := none, state := .follower }
  else c

/-- A sender with a lower id is followed, whatever its term and role. -/
def followLowerId [LinearOrder ι] (c : RayFaultTolerance ι K V) (senderId : ι) :
    RayFaultTolerance ι K V :=
  if senderId < c.id then
    { c with
      state := if c.state = .leader then .follower else c.state
      leaderId := some senderId }
  else c

/-- The result of handling a heartbeat; `applied` is the state that was merged in and passed to
the `on_state_change` callback. -/
structure HeartbeatOutcome (ι K V : Type) where
  response : HeartbeatResponse ι
  node : RayFaultTolerance ι K V
  applied : Option (Dict K V)

def handleHeartbeatRequest [LinearOrder ι] [DecidableEq K] (c : RayFaultTolerance ι K V)
    (senderId : ι) (term : Int) (state : Option (Dict K V)) (now : ℚ) : HeartbeatOutcome ι K V :=
  let c := ((c.refreshSender senderId now).adoptTerm term).followLowerId senderId
  -- neither the term of the message nor the role of its sender decides here
  let applied := state.filter fun st => decide (st.entries ≠ [] ∧ c.state = .follower)
  let c := match applied with
    | some st => { c with replicatedState := c.replicatedState.update st }
    | none => c
  { response :=
      { coordinatorId := c.id, state := c.state, term := c.currentTerm, leaderId := c.leaderId }
    node := c
    applied }

/-- The payload `_probe_peer` sends: any coordinator sends its state, not only a leader. -/
def probePayload : HeartbeatPayload ι K V :=
  { coordinatorId := c.id, term := c.currentTerm, state := c.replicatedState }

/-- The rest of `_probe_peer` once the transport returned. A higher term in the reply is
adopted; a reply without a term counts as term 0. -/
def processProbeReply [DecidableEq ι] (c : RayFaultTolerance ι K V) (peerId : ι)
    (reply : TransportReply) (now : ℚ) : Bool × RayFaultTolerance ι K V :=
  match c.peers.get? peerId with
  | none => (false, c)
  | some info =>
    let c := { c with peers := c.peers.set peerId { info with lastSeen := now, online := true } }
    match reply with
    | .dict term => (true, c.adoptTerm (term.getD 0))
    | .other => (true, c)

def markStale : RayFaultTolerance ι K V :=
  { c with peers := c.peers.mapValues fun _ info =>
      if now - info.lastSeen > c.electionTimeout then { info with online := false } else info }

def aliveIds [LinearOrder ι] (c : RayFaultTolerance ι K V) : List ι :=
  (c.id :: (c.peers.entries.filter fun e => e.2.online).map Prod.fst).insertionSort (· ≤ ·)

def quorum : Nat := c.initialClusterSize / 2 + 1

/-- The end of `_run_election_round`, after the probes: lose the leadership without a quorum of
live peers, else the lowest live id leads. Nobody is asked for a vote. -/
def finishRound [LinearOrder ι] (c : RayFaultTolerance ι K V) (now : ℚ) :
    RayFaultTolerance ι K V :=
  let c := c.markStale now
  -- online peers count whoever they follow
  if c.aliveIds.length < c.quorum then
    if c.state = .leader then { c with state := .follower, leaderId := none } else c
  else
    let newLeader := c.aliveIds.head?.getD c.id
    if newLeader = c.id then
      if c.state ≠ .leader then
        { c with
          currentTerm := c.currentTerm + 1
          votedFor := some c.id
          state := .leader
          leaderId := some newLeader }
      else { c with leaderId := some newLeader }
    else { c with state := .follower, leaderId := some newLeader }

/-- A leader after the call was one before, in the same term. -/
def LeadsOn (c d : RayFaultTolerance ι K V) : Prop :=
  d.state = .leader → c.state = .leader ∧ d.currentTerm = c.currentTerm

theorem LeadsOn.trans {c d e : RayFaultTolerance ι K V} (first : LeadsOn c d)
    (second : LeadsOn d e) : LeadsOn c e := by
  intro leads
  obtain ⟨leads, term⟩ := second leads
  obtain ⟨leads, term'⟩ := first leads
  exact ⟨leads, term.trans term'⟩

theorem LeadsOn.of_eq {c d : RayFaultTolerance ι K V} (state : d.state = c.state)
    (term : d.currentTerm = c.currentTerm) : LeadsOn c d :=
  fun leads => ⟨state.symm.trans leads, term⟩

variable (peerId : ι) (reply : TransportReply) (senderId : ι) (term : Int)

theorem adoptTerm_leadsOn : LeadsOn c (c.adoptTerm term) := by
  unfold adoptTerm
  split
  · intro leads
    cases leads
  · exact .of_eq rfl rfl

theorem followLowerId_leadsOn [LinearOrder ι] : LeadsOn c (c.followLowerId senderId) := by
  unfold followLowerId
  split
  · intro leads
    split at leads
    · cases leads
    · next other => exact absurd leads other
  · exact .of_eq rfl rfl

section Handler

variable [LinearOrder ι] [DecidableEq K] (c : RayFaultTolerance ι K V) (senderId : ι) (term : Int)
  (state : Option (Dict K V)) (now : ℚ)

theorem handleHeartbeatRequest_node :
    (c.handleHeartbeatRequest senderId term state now).node.state =
        (((c.refreshSender senderId now).adoptTerm term).followLowerId senderId).state ∧
      (c.handleHeartbeatRequest senderId term state now).node.currentTerm =
        (((c.refreshSender senderId now).adoptTerm term).followLowerId senderId).currentTerm := by
  unfold handleHeartbeatRequest
  dsimp only
  split <;> exact ⟨rfl, rfl⟩

theorem handleHeartbeatRequest_leadsOn :
    LeadsOn c (c.handleHeartbeatRequest senderId term state now).node := by
  obtain ⟨role, sameTerm⟩ := c.handleHeartbeatRequest_node senderId term state now
  have refreshed : LeadsOn c (c.refreshSender senderId now) := .of_eq rfl rfl
  exact ((refreshed.trans (adoptTerm_leadsOn _ term)).trans
    (followLowerId_leadsOn _ senderId)).trans (.of_eq role sameTerm)

theorem handleHeartbeatRequest_term :
    (c.handleHeartbeatRequest senderId term state now).node.currentTerm =
      max c.currentTerm term := by
  rw [(c.handleHeartbeatRequest_node senderId term state now).2]
  have lower : ∀ d : RayFaultTolerance ι K V, (d.followLowerId senderId).currentTerm =
      d.currentTerm := by
    intro d
    unfold followLowerId
    split <;> rfl
  rw [lower]
  unfold adoptTerm
  split
  · next higher =>
    have above : c.currentTerm < term := higher
    exact (max_eq_right above.le).symm
  · next notHigher =>
    have below : ¬ c.currentTerm < term := notHigher
    exact (max_eq_left (not_lt.mp below)).symm

/-- The handler ends as a follower if the term was higher, if it was one before, or if it led
and the sender has a lower id. -/
theorem handleHeartbeatRequest_follower_iff :
    (c.handleHeartbeatRequest senderId term state now).node.state = .follower ↔
      c.currentTerm < term ∨ c.state = .follower ∨ (c.state = .leader ∧ senderId < c.id) := by
  rw [(c.handleHeartbeatRequest_node senderId term state now).1]
  have lower : ∀ d : RayFaultTolerance ι K V, (d.followLowerId senderId).state = .follower ↔
      d.state = .follower ∨ (d.state = .leader ∧ senderId < d.id) := by
    intro d
    unfold followLowerId
    split
    · next below =>
      by_cases leads : d.state = .leader
      · simp [leads, below]
      · simp [leads]
    · next above => simp [above]
  rw [lower]
  unfold adoptTerm
  split
  · next higher =>
    have above : c.currentTerm < term := higher
    simp [above]
  · next notHigher =>
    have below : ¬ c.currentTerm < term := notHigher
    simp [below, refreshSender]

theorem handleHeartbeatRequest_applied_iff (st : Dict K V) :
    (c.handleHeartbeatRequest senderId term state now).applied = some st ↔
      state = some st ∧ st.entries ≠ [] ∧
        (c.handleHeartbeatRequest senderId term state now).node.state = .follower := by
  rw [(c.handleHeartbeatRequest_node senderId term state now).1]
  unfold handleHeartbeatRequest
  rw [Option.filter_eq_some_iff]
  simp only [decide_eq_true_eq]

theorem handleHeartbeatRequest_replicatedState :
    (c.handleHeartbeatRequest senderId term state now).node.replicatedState =
      match (c.handleHeartbeatRequest senderId term state now).applied with
      | some st => c.replicatedState.update st
      | none => c.replicatedState := by
  have kept :
      (((c.refreshSender senderId now).adoptTerm term).followLowerId senderId).replicatedState =
        c.replicatedState := by
    unfold followLowerId adoptTerm
    split <;> split <;> rfl
  unfold handleHeartbeatRequest
  dsimp only
  split <;> simp only [*]

end Handler

theorem processProbeReply_leadsOn [DecidableEq ι]
    (now : ℚ) : LeadsOn c (c.processProbeReply peerId reply now).2 := by
  unfold processProbeReply
  split
  · exact .of_eq rfl rfl
  · next info found =>
    have refreshed : LeadsOn c
        { c with peers := c.peers.set peerId { info with lastSeen := now, online := true } } :=
      .of_eq rfl rfl
    cases reply with
    | dict term => exact refreshed.trans (adoptTerm_leadsOn _ _)
    | other => exact refreshed

theorem adoptTerm_mono : c.currentTerm ≤ (c.adoptTerm term).currentTerm := by
  unfold adoptTerm
  split
  · next higher => exact le_of_lt higher
  · exact le_rfl

theorem processProbeReply_mono [DecidableEq ι] (now : ℚ) :
    c.currentTerm ≤ (c.processProbeReply peerId reply now).2.currentTerm := by
  unfold processProbeReply
  split
  · exact le_rfl
  · cases reply with
    | dict term => exact adoptTerm_mono _ _
    | other => exact le_rfl

theorem processProbeReply_replicatedState [DecidableEq ι] (now : ℚ) :
    (c.processProbeReply peerId reply now).2.replicatedState = c.replicatedState := by
  unfold processProbeReply adoptTerm
  split
  · rfl
  · cases reply with
    | dict term =>
      dsimp only
      split <;> rfl
    | other => rfl

section Round

variable [LinearOrder ι] (c : RayFaultTolerance ι K V) (now : ℚ)

/-- The round makes a new leader: enough peers seem alive, the own id is the lowest of them,
and the coordinator was not the leader. -/
def ElectsItself : Prop :=
  c.quorum ≤ (c.markStale now).aliveIds.length ∧
    (c.markStale now).aliveIds.head?.getD c.id = c.id ∧ c.state ≠ .leader

instance : Decidable (c.ElectsItself now) := inferInstanceAs (Decidable (_ ∧ _ ∧ _))

/-- A round either elects the coordinator itself in the next term, or makes no new leader and
leaves the term alone. -/
theorem finishRound_cases : (c.ElectsItself now ∧ (c.finishRound now).state = .leader ∧
      (c.finishRound now).currentTerm = c.currentTerm + 1) ∨
    (¬ c.ElectsItself now ∧ LeadsOn c (c.finishRound now) ∧
      (c.finishRound now).currentTerm = c.currentTerm) := by
  by_cases elects : c.ElectsItself now
  · left
    have ⟨enough, lowest, notLeader⟩ := elects
    have notFew : ¬ (c.markStale now).aliveIds.length < (c.markStale now).quorum :=
      Nat.not_lt.mpr enough
    have own : (c.markStale now).aliveIds.head?.getD (c.markStale now).id = (c.markStale now).id :=
      lowest
    have stays : (c.markStale now).state ≠ .leader := notLeader
    unfold finishRound
    dsimp only
    rw [if_neg notFew, if_pos own, if_pos stays]
    exact ⟨elects, rfl, rfl⟩
  · -- every other way out of the round keeps the role or gives it up
    right
    refine ⟨elects, ?_⟩
    unfold finishRound
    dsimp only
    split
    · split
      · exact ⟨fun leads => (by cases leads), rfl⟩
      · exact ⟨.of_eq rfl rfl, rfl⟩
    · next enough =>
      split
      · next own =>
        split
        · next notLeader => exact absurd ⟨Nat.not_lt.mp enough, own, notLeader⟩ elects
        · exact ⟨.of_eq rfl rfl, rfl⟩
      · exact ⟨fun leads => (by cases leads), rfl⟩

theorem finishRound_replicatedState : (c.finishRound now).replicatedState = c.replicatedState := by
  unfold finishRound
  dsimp only
  split
  · split <;> rfl
  · split
    · split <;> rfl
    · rfl

end Round

end RayFaultTolerance

end DistLLM.Ha
