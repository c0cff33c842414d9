import DistLLM.Ha.Coordinator
import DistLLM.Library.Machine
import Mathlib.Data.Fintype.Basic
import Mathlib.Data.String.Basic

/-!
# Elections among coordinators

Coordinators that run election rounds against each other over a network that may delay,
lose, reorder and duplicate probes and their replies. A coordinator that counts enough live
peers and has the lowest id among them makes itself leader of the next term, whoever leads
already; two of them that cannot reach each other may do so in one term.
-/
namespace DistLLM.Ha

open DistLLM.Library RayFaultTolerance

variable {ι K V : Type}

/-! ### The system -/

/-- A probe on the wire. `fromLeader` is a history: whether the sender led when it built it. -/
structure Heartbeat (ι K V : Type) where
  sender : ι
  receiver : ι
  payload : HeartbeatPayload ι K V
  fromLeader : Bool

structure ProbeReply (ι : Type) where
  prober : ι
  peer : ι
  reply : TransportReply

/-- A running round: the peers of the snapshot still to be probed, and whether the first of
them was sent its probe. -/
structure Round (ι : Type) where
  pending : List ι
  awaiting : Bool

def Round.next (round : Round ι) : Round ι := { pending := round.pending.tail, awaiting := false }

/-- `writes` is a history: for each coordinator the terms of the writes to its replicated
state, its own ones and those taken from heartbeats. -/
structure HaState (ι K V : Type) where
  coordinators : ι → RayFaultTolerance ι K V
  rounds : ι → Option (Round ι)
  heartbeats : List (Heartbeat ι K V)
  replies : List (ProbeReply ι)
  writes : ι → List Int

/-- Messages are named by their position among all sent so far. The HTTP route nests the
response it got, so that the prober sees a dict without a term. -/
inductive HaAction (ι K V : Type)
  | addPeer (i peerId : ι) (host : String) (port : Nat) (now : ℚ)
  | removePeer (i peerId : ι)
  | replicate (i : ι) (key : K) (value : V)
  | startRound (i : ι)
  | sendProbe (i : ι)
  | deliver (k : Nat) (nested : Bool) (now : ℚ)
  | receiveReply (i : ι) (k : Nat) (now : ℚ)
  | loseProbe (i : ι)
  | finishRound (i : ι) (now : ℚ)

namespace HaState

variable [LinearOrder ι] [DecidableEq K] (s : HaState ι K V)

def setCoordinator (i : ι) (c : RayFaultTolerance ι K V) : HaState ι K V :=
  { s with coordinators := Function.update s.coordinators i c }

def setRound (i : ι) (round : Option (Round ι)) : HaState ι K V :=
  { s with rounds := Function.update s.rounds i round }

/-- Constructed coordinators without peers, no round running, nothing on the wire. -/
def Initial : Prop :=
  (∀ i, ∃ electionTimeout, s.coordinators i = RayFaultTolerance.init i electionTimeout) ∧
    (∀ i, s.rounds i = none) ∧ s.heartbeats = [] ∧ s.replies = [] ∧ ∀ i, s.writes i = []

def Enabled : HaAction ι K V → Prop
  | .addPeer .. => True
  | .removePeer .. => True
  | .replicate .. => True
  | .startRound i => s.rounds i = none
  | .sendProbe i => ∃ round ∈ s.rounds i, round.pending ≠ [] ∧ round.awaiting = false
  | .deliver k _ _ => k < s.heartbeats.length
  | .receiveReply i k _ => ∃ r ∈ s.replies[k]?, r.prober = i ∧
      ∃ round ∈ s.rounds i, round.awaiting = true ∧ round.pending.head? = some r.peer
  | .loseProbe i => ∃ round ∈ s.rounds i, round.pending ≠ []
  | .finishRound i _ => ∃ round ∈ s.rounds i, round.pending = []

def replicate (i : ι) (key : K) (value : V) : HaState ι K V :=
  let c := s.coordinators i
  { s.setCoordinator i (c.replicateState key value) with
    writes := Function.update s.writes i (s.writes i ++ [c.currentTerm]) }

def sendProbe (i : ι) : HaState ι K V :=
  match s.rounds i with
  | some { pending := peer :: rest, awaiting := _ } =>
    let c := s.coordinators i
    { s.setRound i (some { pending := peer :: rest, awaiting := true }) with
      heartbeats := s.heartbeats ++
        [{ sender := i, receiver := peer, payload := c.probePayload,
           fromLeader := decide (c.state = .leader) }] }
  | _ => s

/-- The receiver handles a heartbeat and its response travels back to the sender. -/
def deliver (h : Heartbeat ι K V) (nested : Bool) (now : ℚ) : HaState ι K V :=
  let out := (s.coordinators h.receiver).handleHeartbeatRequest h.payload.coordinatorId
    h.payload.term (some h.payload.state) now
  let reply := TransportReply.dict (if nested then none else some out.response.term)
  { s.setCoordinator h.receiver out.node with
    replies := s.replies ++ [{ prober := h.sender, peer := h.receiver, reply }]
    writes := Function.update s.writes h.receiver (s.writes h.receiver ++
      if out.applied.isSome then [h.payload.term] else []) }

def receiveReply (i : ι) (r : ProbeReply ι) (now : ℚ) : HaState ι K V :=
  (s.setCoordinator i ((s.coordinators i).processProbeReply r.peer r.reply now).2).setRound i
    ((s.rounds i).map Round.next)

def exec : HaAction ι K V → HaState ι K V
  | .addPeer i peerId host port now =>
    s.setCoordinator i ((s.coordinators i).addPeer peerId host port now)
  | .removePeer i peerId => s.setCoordinator i ((s.coordinators i).removePeer peerId)
  | .replicate i key value => s.replicate i key value
  | .startRound i =>
    s.setRound i (some { pending := (s.coordinators i).peers.keys, awaiting := false })
  | .sendProbe i => s.sendProbe i
  | .deliver k nested now =>
    match s.heartbeats[k]? with
    | some h => s.deliver h nested now
    | none => s
  | .receiveReply i k now =>
    match s.replies[k]? with
    | some r => s.receiveReply i r now
    | none => s
  | .loseProbe i => s.setRound i ((s.rounds i).map Round.next)
  | .finishRound i now =>
    (s.setCoordinator i ((s.coordinators i).finishRound now)).setRound i none

end HaState

def haElection (ι K V : Type) [LinearOrder ι] [DecidableEq K] :
    Machine (HaState ι K V) (HaAction ι K V) where
  init := HaState.Initial
  enabled := HaState.Enabled
  exec := HaState.exec

variable [LinearOrder ι] [DecidableEq K]

instance (s : HaState ι K V) : ∀ a, Decidable ((haElection ι K V).enabled s a)
  | .addPeer .. | .removePeer .. | .replicate .. => .isTrue trivial
  | .startRound i =>
    match h : s.rounds i with
    | none => .isTrue h
    | some _ => .isFalse fun none => by cases h.symm.trans none
  | .sendProbe i => inferInstanceAs (Decidable
      (∃ round ∈ s.rounds i, round.pending ≠ [] ∧ round.awaiting = false))
  | .deliver k _ _ => inferInstanceAs (Decidable (k < s.heartbeats.length))
  | .receiveReply i k _ => inferInstanceAs (Decidable
      (∃ r ∈ s.replies[k]?, r.prober = i ∧
        ∃ round ∈ s.rounds i, round.awaiting = true ∧ round.pending.head? = some r.peer))
  | .loseProbe i => inferInstanceAs (Decidable (∃ round ∈ s.rounds i, round.pending ≠ []))
  | .finishRound i _ => inferInstanceAs (Decidable (∃ round ∈ s.rounds i, round.pending = []))

/-- The only calls that move a coordinator: each makes no new leader and lowers no term, or is
the end of a round that elects. -/
theorem coordinator_step (s : HaState ι K V) (a : HaAction ι K V) (i : ι) :
    (LeadsOn (s.coordinators i) ((s.exec a).coordinators i) ∧
      (s.coordinators i).currentTerm ≤ ((s.exec a).coordinators i).currentTerm) ∨
    (∃ now, a = .finishRound i now ∧ (s.coordinators i).ElectsItself now ∧
      ((s.exec a).coordinators i).currentTerm = (s.coordinators i).currentTerm + 1) := by
  have still : ∀ c : RayFaultTolerance ι K V, LeadsOn c c ∧ c.currentTerm ≤ c.currentTerm :=
    fun c => ⟨.of_eq rfl rfl, le_rfl⟩
  -- a call on coordinator `j` concerns `i` only if they are the same
  have move : ∀ (j : ι) (d : RayFaultTolerance ι K V),
      (LeadsOn (s.coordinators j) d ∧ (s.coordinators j).currentTerm ≤ d.currentTerm) →
      LeadsOn (s.coordinators i) (Function.update s.coordinators j d i) ∧
        (s.coordinators i).currentTerm ≤ (Function.update s.coordinators j d i).currentTerm := by
    intro j d moved
    by_cases same : i = j
    · subst same
      rw [Function.update_self]
      exact moved
    · rw [Function.update_of_ne same]
      exact still _
  cases a with
  | addPeer j peerId host port now => exact Or.inl (move j _ ⟨.of_eq rfl rfl, le_rfl⟩)
  | removePeer j peerId => exact Or.inl (move j _ ⟨.of_eq rfl rfl, le_rfl⟩)
  | replicate j key value => exact Or.inl (move j _ ⟨.of_eq rfl rfl, le_rfl⟩)
  | startRound j => exact Or.inl (still _)
  | sendProbe j =>
    simp only [HaState.exec, HaState.sendProbe]
    split <;> exact Or.inl (still _)
  | deliver k nested now =>
    simp only [HaState.exec]
    split
    · next h _ =>
      have term := (s.coordinators h.receiver).handleHeartbeatRequest_term h.payload.coordinatorId
        h.payload.term (some h.payload.state) now
      exact Or.inl (move h.receiver _ ⟨handleHeartbeatRequest_leadsOn _ _ _ _ _,
        term ▸ le_max_left _ _⟩)
    · exact Or.inl (still _)
  | receiveReply j k now =>
    simp only [HaState.exec]
    split
    · exact Or.inl (move j _ ⟨processProbeReply_leadsOn _ _ _ _, processProbeReply_mono _ _ _ _⟩)
    · exact Or.inl (still _)
  | loseProbe j => exact Or.inl (still _)
  | finishRound j now =>
    by_cases same : i = j
    · subst same
      have after : ((s.exec (.finishRound i now)).coordinators i) =
          (s.coordinators i).finishRound now := Function.update_self ..
      rw [after]
      rcases finishRound_cases (s.coordinators i) now with ⟨elects, _, term⟩ | ⟨_, leads, term⟩
      · exact Or.inr ⟨now, rfl, elects, term⟩
      · exact Or.inl ⟨leads, term.ge⟩
    · have after : ((s.exec (.finishRound j now)).coordinators i) = s.coordinators i :=
        Function.update_of_ne same _ _
      rw [after]
      exact Or.inl (still _)

/-- A coordinator elects itself only if its term is at least that of every current leader: it
has heard of all of them. -/
def HeardOfLeaders (s : HaState ι K V) : HaAction ι K V → Prop
  | .finishRound i now => (s.coordinators i).ElectsItself now →
      ∀ j, (s.coordinators j).state = .leader →
        (s.coordinators j).currentTerm ≤ (s.coordinators i).currentTerm
  | _ => True

instance [Fintype ι] (s : HaState ι K V) : DecidablePred (HeardOfLeaders s)
  | .finishRound i now => inferInstanceAs (Decidable ((s.coordinators i).ElectsItself now →
      ∀ j, (s.coordinators j).state = .leader →
        (s.coordinators j).currentTerm ≤ (s.coordinators i).currentTerm))
  | .addPeer .. | .removePeer .. | .replicate .. | .startRound _ | .sendProbe _ | .deliver ..
  | .receiveReply .. | .loseProbe _ => .isTrue trivial

def OneLeaderPerTerm (s : HaState ι K V) : Prop :=
  ∀ i j, (s.coordinators i).state = .leader → (s.coordinators j).state = .leader →
    (s.coordinators i).currentTerm = (s.coordinators j).currentTerm → i = j

theorem OneLeaderPerTerm.step (s : HaState ι K V) (a : HaAction ι K V) (one : OneLeaderPerTerm s)
    (heard : HeardOfLeaders s a) : OneLeaderPerTerm (s.exec a) := by
  -- a coordinator elected by this step is ahead of every other leader
  have ahead : ∀ i j now, a = .finishRound i now → (s.coordinators i).ElectsItself now →
      ((s.exec a).coordinators i).currentTerm = (s.coordinators i).currentTerm + 1 →
      ((s.exec a).coordinators j).state = .leader →
      ((s.exec a).coordinators i).currentTerm = ((s.exec a).coordinators j).currentTerm →
      i = j := by
    intro i j now eq elects raised leads same
    subst eq
    rcases coordinator_step s (.finishRound i now) j with ⟨kept, _⟩ | ⟨now', eq, _⟩
    · obtain ⟨led, term⟩ := kept leads
      have := heard elects j led
      omega
    · cases eq
      rfl
  intro i j leadsI leadsJ same
  -- at most one of the two was elected just now
  rcases coordinator_step s a i with ⟨keptI, _⟩ | ⟨now, eq, elects, raised⟩
  · rcases coordinator_step s a j with ⟨keptJ, _⟩ | ⟨now, eq, elects, raised⟩
    · obtain ⟨ledI, termI⟩ := keptI leadsI
      obtain ⟨ledJ, termJ⟩ := keptJ leadsJ
      exact one i j ledI ledJ (by omega)
    · exact (ahead j i now eq elects raised leadsI same.symm).symm
  · exact ahead i j now eq elects raised leadsJ same

/-- In every run in which coordinators elect themselves only after hearing of all current
leaders, no two coordinators lead the same term. -/
theorem one_coordinator_leads_term (s : HaState ι K V)
    (reached : (haElection ι K V).Reaches HeardOfLeaders s) :
    ∀ i j, (s.coordinators i).state = .leader → (s.coordinators j).state = .leader →
      (s.coordinators i).currentTerm = (s.coordinators j).currentTerm → i = j := by
  apply reached.invariant (I := OneLeaderPerTerm)
  · intro s initial i j leads
    obtain ⟨_, eq⟩ := initial.1 i
    rw [eq] at leads
    cases leads
  · intro s a one _ heard
    exact OneLeaderPerTerm.step s a one heard

def coordinatorsStart {ι : Type} : HaState ι String String where
  coordinators i := RayFaultTolerance.init i 10
  rounds _ := none
  heartbeats := []
  replies := []
  writes _ := []

theorem coordinatorsStart_initial : (haElection ι String String).init coordinatorsStart :=
  ⟨fun _ => ⟨10, rfl⟩, fun _ => rfl, rfl, rfl, fun _ => rfl⟩

def join (i j k : ι) : List (HaAction ι String String) :=
  [.addPeer i j "10.0.0.1" 50051 0, .addPeer i k "10.0.0.2" 50051 0]

/-- The first coordinator probes both others and leads term 1, which its next probe tells the second
one. At time 20 that one does not reach it any more and leads term 2. -/
def secondTerm : List (HaAction (Fin 3) String String) :=
  join 0 1 2 ++ join 1 0 2 ++ join 2 0 1 ++
  [.startRound 0, .sendProbe 0, .deliver 0 false 1, .receiveReply 0 0 1,
    .sendProbe 0, .deliver 1 false 1, .receiveReply 0 1 1, .finishRound 0 1,
    .startRound 0, .sendProbe 0, .deliver 2 false 2,
    .startRound 1, .loseProbe 1, .sendProbe 1, .deliver 3 false 20, .receiveReply 1 3 20,
    .finishRound 1 20]

/-- The first one leads on in its own term. -/
theorem one_coordinator_leads_term_example :
    let s := secondTerm.foldl (haElection (Fin 3) String String).exec coordinatorsStart
    (s.coordinators 0).state = .leader ∧ (s.coordinators 1).state = .leader ∧
      ∀ i j, (s.coordinators i).state = .leader → (s.coordinators j).state = .leader →
        (s.coordinators i).currentTerm = (s.coordinators j).currentTerm → i = j := by
  intro s
  have reached : (haElection (Fin 3) String String).Reaches HeardOfLeaders s :=
    (Machine.Reaches.init coordinatorsStart_initial).of_follows secondTerm (by decide +kernel)
  exact ⟨by decide +kernel, by decide +kernel, one_coordinator_leads_term s reached⟩

/-- The link between "a" and "b" is down. In its first round each of them reaches "c" but not
the other, marks the other offline at time 11 and counts two of three alive. -/
def splitBrain : List (HaAction String String String) :=
  join "a" "b" "c" ++ join "b" "a" "c" ++ join "c" "a" "b" ++
  [.startRound "a", .startRound "b",
    .loseProbe "a", .sendProbe "a", .deliver 0 false 11, .receiveReply "a" 0 11,
    .loseProbe "b", .sendProbe "b", .deliver 1 false 11, .receiveReply "b" 1 11,
    .finishRound "a" 11, .finishRound "b" 11]

/-- Both "a" and "b" lead term 1. -/
theorem split_brain_two_leaders : ∃ s, (haElection String String String).Reachable s ∧
      (s.coordinators "a").state = .leader ∧ (s.coordinators "b").state = .leader ∧
      (s.coordinators "a").currentTerm = (s.coordinators "b").currentTerm :=
  ⟨splitBrain.foldl (haElection String String String).exec coordinatorsStart,
    (Machine.Reaches.init coordinatorsStart_initial).of_follows splitBrain (by decide +kernel),
    by decide +kernel, by decide +kernel, by decide +kernel⟩

end DistLLM.Ha
