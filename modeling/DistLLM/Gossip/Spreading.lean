import DistLLM.Gossip.Listing
import DistLLM.Library.Machine
import Mathlib.Data.String.Basic

/-!
# What a network of gossiping nodes knows

Nodes store entries, advertise them to peers, and take in the advertisements that arrive, in any
order and at any readings of their clocks. An entry that a node holds when it first advertises to a
peer has to be known to that peer once the advertisement is taken in.
-/
namespace DistLLM.Gossip

open DistLLM.Library

variable {ν κ K S : Type} [LinearOrder ν] [DecidableEq κ]

/-- An advertisement on its way. The last four fields are not sent: they say how it came about. -/
structure Message (ν κ S : Type) where
  src : ν
  dst : ν
  ad : Advertisement ν κ
  hmac : S
  deltaOnly : Bool
  /-- The state of the sender. -/
  sent : GossipState ν κ
  /-- Entries that the sender holds, stored since it last advertised to this peer. -/
  fresh : κ → Bool
  /-- Those of them that were under a tombstone once. -/
  revived : κ → Bool

/-- The nodes and the advertisements in flight, with a record of what has to be known. -/
structure Network (ν κ K S : Type) where
  node : ν → GossipProtocol ν κ K
  inFlight : List (Message ν κ S) := []
  /-- `untold n peer k`: stored at the node since it last advertised to the peer. -/
  untold : ν → ν → κ → Bool := fun _ _ _ => false
  /-- `buried n k`: the node has had a tombstone for the prefix. -/
  buried : ν → κ → Bool := fun _ _ => false
  /-- `told n peer k`: an advertisement of the peer arrived that was the first for the entry. -/
  told : ν → ν → κ → Bool := fun _ _ _ => false

inductive GossipAction (ν κ : Type)
  | storeLocal (n : ν) (now : Rat) (prefixHash : κ) (entryRef : String)
  | tombstoneEntry (n : ν) (now : Rat) (prefixHash : κ)
  | lookup (n : ν) (prefixHash : κ)
  | cleanupExpired (n : ν) (now : Rat)
  | advertise (src dst : ν) (deltaOnly : Bool) (now : Rat)
  | process (i : Nat) (draws : GossipProtocol.Draws ν)

namespace Network

def stateOf (s : Network ν κ K S) (n : ν) : GossipState ν κ := (s.node n).state

def withState (s : Network ν κ K S) (n : ν) (state : GossipState ν κ) : Network ν κ K S :=
  { s with
    node := Function.update s.node n { s.node n with state }
    buried := fun n' k => s.buried n' k || (decide (n' = n) && (state.tombstones.get? k).isSome) }

variable (mac : K → Advertisement ν κ → S)

def send (s : Network ν κ K S) (src dst : ν) (deltaOnly : Bool) (now : Rat) : Network ν κ K S :=
  let sent := s.stateOf src
  let r := sent.advertise deltaOnly now
  let fresh := fun k => decide (sent.Holds k) && s.untold src dst k
  { s.withState src r.2 with
    inFlight := s.inFlight ++ [{
      src, dst, deltaOnly, sent, fresh
      ad := r.1
      hmac := mac (s.node src).hmacKey r.1
      revived := fun k => fresh k && s.buried src k }]
    untold := fun n peer k => s.untold n peer k && !(decide (n = src) && decide (peer = dst)) }

variable [DecidableEq S]

def deliver (s : Network ν κ K S) (i : Nat) (draws : GossipProtocol.Draws ν) : Network ν κ K S :=
  match s.inFlight[i]? with
  | none => s
  | some m =>
    { s.withState m.dst ((s.node m.dst).processAdvertisement mac m.ad m.hmac draws).2.state with
      inFlight := s.inFlight.eraseIdx i
      told := fun n peer k =>
        s.told n peer k || (decide (n = m.dst) && decide (peer = m.src) && m.fresh k) }

def exec (s : Network ν κ K S) : GossipAction ν κ → Network ν κ K S
  | .storeLocal n now k ref =>
    { s.withState n ((s.stateOf n).storeLocal now k ref) with
      untold := fun n' peer k' => s.untold n' peer k' || (decide (n' = n) && decide (k' = k)) }
  | .tombstoneEntry n now k => s.withState n ((s.stateOf n).tombstoneEntry now k)
  | .lookup n k => s.withState n ((s.stateOf n).lookup k).2
  | .cleanupExpired n now =>
    s.withState n ((s.stateOf n).cleanupExpired (s.node n).cacheTtl now).2
  | .advertise src dst deltaOnly now => s.send mac src dst deltaOnly now
  | .process i draws => s.deliver mac i draws

end Network

/-- Nodes start empty, under their own ids, each with a configuration and a key. -/
def gossiping [DecidableEq S] (mac : K → Advertisement ν κ → S) :
    Machine (Network ν κ K S) (GossipAction ν κ) where
  init s := (∀ n, (s.node n).state = { nodeId := n }) ∧ s.inFlight = [] ∧
    (∀ n peer k, s.untold n peer k = false) ∧ ∀ n peer k, s.told n peer k = false
  enabled _ _ := True
  exec := Network.exec mac

namespace Network

/-- Revived entries are advertised, and a peer lists whoever told it of an entry. -/
structure NothingLost (s : Network ν κ K S) : Prop where
  advertised : ∀ m ∈ s.inFlight, ∀ k, m.revived k = true → k ∈ m.ad.cachePrefixes
  known : ∀ n peer k, s.told n peer k = true → (s.stateOf n).Lists k peer

/-- The receiver lists the sender for each first entry already, or it accepts the signature, the
entry was selected, and no tombstone is in the way. A cleanup of its index finds the peers it was
told of among those it still knows. -/
structure Receives [DecidableEq S] (mac : K → Advertisement ν κ → S) (s : Network ν κ K S)
    (m : Message ν κ S) (draws : GossipProtocol.Draws ν) : Prop where
  listed : ∀ k, m.fresh k = true → (s.stateOf m.dst).Lists k m.src ∨
    ((s.node m.dst).verifyMessage mac m.ad m.hmac = true ∧ m.sent.Selected m.deltaOnly k ∧
      (s.stateOf m.dst).tombstones.get? k = none)
  kept : (s.node m.dst).verifyMessage mac m.ad m.hmac = true → draws.cleanup.isSome = true →
    ∀ peer k, s.told m.dst peer k = true ∨ (peer = m.src ∧ m.fresh k = true) →
      peer ∈ (s.node m.dst).peersAfter m.src draws

def Keeps [DecidableEq S] (mac : K → Advertisement ν κ → S) (s : Network ν κ K S) :
    GossipAction ν κ → Prop
  | .advertise src dst deltaOnly _ => ∀ k, (s.stateOf src).Holds k → s.untold src dst k = true →
      s.buried src k = true → (s.stateOf src).Selected deltaOnly k
  | .process i draws => ∀ m, s.inFlight[i]? = some m → s.Receives mac m draws
  | .cleanupExpired n now => ∀ peer k, s.told n peer k = true →
      ∃ r ∈ (s.stateOf n).cacheIndex.getD k [], r.nodeId = peer ∧
        now - (s.node n).cacheTtl ≤ r.timestamp
  | _ => True

structure Built (m : Message ν κ S) : Prop where
  ad : m.ad = (m.sent.advertise m.deltaOnly m.ad.timestamp).1
  sender : m.sent.nodeId = m.src
  held : ∀ k, m.fresh k = true → m.sent.Holds k

structure Wired (s : Network ν κ K S) : Prop where
  ids : ∀ n, (s.stateOf n).nodeId = n
  built : ∀ m ∈ s.inFlight, Built m

variable {s : Network ν κ K S} {n : ν} {state : GossipState ν κ}

@[simp] theorem stateOf_withState_self : (s.withState n state).stateOf n = state := by
  simp [stateOf, withState]

theorem stateOf_withState (other : ν) :
    (s.withState n state).stateOf other = if other = n then state else s.stateOf other := by
  unfold stateOf withState
  by_cases same : other = n
  · subst same
    simp
  · simp [same]

theorem Wired.withState (wired : s.Wired) (id : state.nodeId = n) : (s.withState n state).Wired := by
  refine ⟨fun other => ?_, wired.built⟩
  rw [stateOf_withState]
  split
  next same => rw [id, same]
  next => exact wired.ids other

omit [LinearOrder ν] [DecidableEq κ] in
theorem nodeId_foldl {α : Type} (step : GossipState ν κ → α → GossipState ν κ)
    (keeps : ∀ st a, (step st a).nodeId = st.nodeId) (as : List α) (st : GossipState ν κ) :
    (as.foldl step st).nodeId = st.nodeId := by
  induction as generalizing st with
  | nil => rfl
  | cons a rest ih => rw [List.foldl_cons, ih, keeps]

theorem nodeId_takeIn (node : GossipProtocol ν κ K) (ad : Advertisement ν κ)
    (draws : GossipProtocol.Draws ν) : (node.takeIn ad draws).nodeId = node.state.nodeId := by
  have index : ∀ st : GossipState ν κ, ∀ k, (st.listPeer ad.nodeId draws.now k).nodeId =
      st.nodeId := by
    intro st k
    unfold GossipState.listPeer
    split <;> rfl
  have tombstone : ∀ st : GossipState ν κ, ∀ e, (st.mergeTombstone e).nodeId = st.nodeId := by
    intro st e
    unfold GossipState.mergeTombstone
    split <;> rfl
  have register : ∀ st : GossipState ν κ, ∀ e, (st.mergeMetadata e).nodeId = st.nodeId :=
    fun _ _ => rfl
  unfold GossipProtocol.takeIn
  cases draws.cleanup <;>
  · simp only [GossipState.cleanupCacheIndex, GossipState.addPeer]
    rw [nodeId_foldl _ index, nodeId_foldl _ register, nodeId_foldl _ tombstone]

variable (mac : K → Advertisement ν κ → S) [DecidableEq S]

theorem Wired.exec (wired : s.Wired) (act : GossipAction ν κ) : (s.exec mac act).Wired := by
  cases act with
  | storeLocal n now k ref =>
    have stored : (s.withState n ((s.stateOf n).storeLocal now k ref)).Wired :=
      wired.withState (wired.ids n)
    exact ⟨stored.ids, stored.built⟩
  | tombstoneEntry n now k => exact wired.withState (wired.ids n)
  | lookup n k =>
    apply wired.withState
    unfold GossipState.lookup
    split <;> exact wired.ids n
  | cleanupExpired n now => exact wired.withState (wired.ids n)
  | advertise src dst deltaOnly now =>
    have sent : (s.withState src ((s.stateOf src).advertise deltaOnly now).2).Wired :=
      wired.withState (wired.ids src)
    refine ⟨sent.ids, fun m member => ?_⟩
    rcases List.mem_append.mp member with before | new
    · exact wired.built m before
    · rw [List.mem_singleton] at new
      subst new
      refine ⟨rfl, wired.ids src, fun k fresh => ?_⟩
      simp only [Bool.and_eq_true, decide_eq_true_eq] at fresh
      exact fresh.1
  | process i draws =>
    simp only [Network.exec, deliver]
    split
    · exact wired
    next m there =>
      have id : ((s.node m.dst).processAdvertisement mac m.ad m.hmac draws).2.state.nodeId =
          m.dst := by
        unfold GossipProtocol.processAdvertisement
        split
        · exact (nodeId_takeIn _ _ _).trans (wired.ids m.dst)
        · exact wired.ids m.dst
      have arrived := wired.withState id
      exact ⟨arrived.ids, fun m' member => wired.built m' (List.mem_of_mem_eraseIdx member)⟩

/-! ### Steps -/

omit [DecidableEq S] in
theorem NothingLost.withState_iff (lost : s.NothingLost) :
    (s.withState n state).NothingLost ↔ ∀ peer k, s.told n peer k = true → state.Lists k peer := by
  constructor
  · intro after peer k told
    have listed := after.known n peer k told
    rwa [stateOf_withState_self] at listed
  · intro all
    refine ⟨lost.advertised, fun other peer k told => ?_⟩
    rw [stateOf_withState]
    split
    next same => exact all peer k (same ▸ told)
    next => exact lost.known other peer k told

theorem NothingLost.deliver_lists (lost : s.NothingLost) {i : Nat} {m : Message ν κ S}
    (there : s.inFlight[i]? = some m) (draws : GossipProtocol.Draws ν) :
    (s.deliver mac i draws).NothingLost ↔
      ∀ peer k, s.told m.dst peer k = true ∨ (peer = m.src ∧ m.fresh k = true) →
        ((s.node m.dst).processAdvertisement mac m.ad m.hmac draws).2.state.Lists k peer := by
  simp only [deliver, there]
  generalize ((s.node m.dst).processAdvertisement mac m.ad m.hmac draws).2.state = state
  constructor
  · intro after peer k due
    have listed := after.known m.dst peer k (by simpa using due)
    simpa [stateOf, withState] using listed
  · intro all
    refine ⟨fun m' member => lost.advertised m' (List.mem_of_mem_eraseIdx member), ?_⟩
    intro other peer k due
    have listed : (s.withState m.dst state).stateOf other |>.Lists k peer := by
      rw [stateOf_withState]
      split
      next same => exact all peer k (by simpa [same] using due)
      next apart => exact lost.known other peer k (by simpa [apart] using due)
    exact listed

theorem NothingLost.deliver_iff (lost : s.NothingLost) (wired : s.Wired) {i : Nat}
    {m : Message ν κ S} (there : s.inFlight[i]? = some m) (draws : GossipProtocol.Draws ν) :
    (s.deliver mac i draws).NothingLost ↔ s.Receives mac m draws := by
  have built := wired.built m (List.mem_of_getElem? there)
  have sender : m.ad.nodeId = m.src := by
    rw [built.ad]
    exact built.sender
  -- an entry of the sender is in the advertisement exactly if it was selected
  have advertised : ∀ k, m.fresh k = true →
      (k ∈ m.ad.cachePrefixes ↔ m.sent.Selected m.deltaOnly k) := by
    intro k fresh
    rw [built.ad]
    exact m.sent.mem_cachePrefixes_iff _ _ (built.held k fresh)
  have unburied : ∀ k, m.sent.Selected m.deltaOnly k →
      (GossipProtocol.newerTombstones (s.stateOf m.dst).tombstones m.ad.tombstones.entries).get? k =
        (s.stateOf m.dst).tombstones.get? k := by
    intro k selected
    apply GossipProtocol.newerTombstones_of_absent
    rw [built.ad]
    exact m.sent.advertise_tombstones _ _ selected.1
  rw [lost.deliver_lists mac there draws]
  by_cases verified : (s.node m.dst).verifyMessage mac m.ad m.hmac = true
  · simp only [GossipProtocol.processAdvertisement, verified, if_true,
      GossipProtocol.lists_takeIn, sender]
    constructor
    · intro all
      refine ⟨fun k fresh => ?_, fun _ cleaned peer k due => (all peer k due).2 cleaned⟩
      rcases (all m.src k (.inr ⟨rfl, fresh⟩)).1 with before | ⟨member, free, -⟩
      · exact .inl before
      · have selected := (advertised k fresh).mp member
        exact .inr ⟨verified, selected, (unburied k selected).symm.trans free⟩
    · rintro ⟨listed, kept⟩ peer k due
      refine ⟨?_, fun cleaned => kept verified cleaned peer k due⟩
      rcases due with told | ⟨rfl, fresh⟩
      · exact .inl (lost.known m.dst peer k told)
      · rcases listed k fresh with before | ⟨-, selected, free⟩
        · exact .inl before
        · exact .inr ⟨(advertised k fresh).mpr selected, (unburied k selected).trans free, rfl⟩
  · -- the advertisement is ignored
    simp only [GossipProtocol.processAdvertisement, verified, if_false, Bool.false_eq_true]
    constructor
    · intro all
      exact ⟨fun k fresh => .inl (all m.src k (.inr ⟨rfl, fresh⟩)),
        fun accepted => absurd accepted verified⟩
    · rintro ⟨listed, -⟩ peer k (told | ⟨rfl, fresh⟩)
      · exact lost.known m.dst peer k told
      · rcases listed k fresh with before | ⟨accepted, -, -⟩
        · exact before
        · exact absurd accepted verified

theorem NothingLost.exec_iff (lost : s.NothingLost) (wired : s.Wired) (act : GossipAction ν κ) :
    (s.exec mac act).NothingLost ↔ s.Keeps mac act := by
  cases act with
  | storeLocal n now k ref =>
    have stored : (s.withState n ((s.stateOf n).storeLocal now k ref)).NothingLost :=
      lost.withState_iff.mpr fun peer k' told =>
        (GossipState.lists_storeLocal _ now ref).mpr (.inl (lost.known n peer k' told))
    exact iff_of_true ⟨stored.advertised, stored.known⟩ trivial
  | tombstoneEntry n now k =>
    exact iff_of_true (lost.withState_iff.mpr (lost.known n)) trivial
  | lookup n k =>
    refine iff_of_true (lost.withState_iff.mpr fun peer k' told => ?_) trivial
    exact (GossipState.lists_lookup _ k).mpr (lost.known n peer k' told)
  | cleanupExpired n now =>
    refine lost.withState_iff.trans ?_
    simp only [GossipState.lists_cleanupExpired, Keeps]
  | advertise src dst deltaOnly now =>
    have sent : (s.withState src ((s.stateOf src).advertise deltaOnly now).2).NothingLost :=
      lost.withState_iff.mpr (lost.known src)
    constructor
    · intro after k held untold buried
      have listed := after.advertised _ (List.mem_append_right _ (List.mem_singleton_self _)) k
        (by simp [held, untold, buried])
      exact ((s.stateOf src).mem_cachePrefixes_iff deltaOnly now held).mp listed
    · intro keeps
      refine ⟨fun m member k revived => ?_, sent.known⟩
      rcases List.mem_append.mp member with before | new
      · exact lost.advertised m before k revived
      · rw [List.mem_singleton] at new
        subst new
        simp only [Bool.and_eq_true, decide_eq_true_eq] at revived
        obtain ⟨⟨held, untold⟩, buried⟩ := revived
        exact ((s.stateOf src).mem_cachePrefixes_iff deltaOnly now held).mpr
          (keeps k held untold buried)
  | process i draws =>
    cases there : s.inFlight[i]? with
    | none => simpa [Network.exec, deliver, Keeps, there] using lost
    | some m => simpa [Network.exec, Keeps, there] using lost.deliver_iff mac wired there draws

end Network

open Network

/-- **Gossip.** In every run whose steps meet the condition, every entry that a node held when it
first advertised to a peer after storing it is known to that peer once the advertisement arrived,
a lookup there finds it, and every entry stored again after a tombstone is advertised. The
condition is exact: a step loses nothing if and only if it meets it. -/
theorem gossip_loses_nothing {mac : K → Advertisement ν κ → S} [DecidableEq S]
    {s : Network ν κ K S} (reached : (gossiping mac).Reaches (Keeps mac) s) : s.NothingLost ∧
      (∀ n peer k, s.told n peer k = true → ((s.stateOf n).lookup k).1.isSome = true) ∧
      ∀ act, (s.exec mac act).NothingLost ↔ s.Keeps mac act := by
  have sound : s.Wired ∧ s.NothingLost := by
    apply Machine.Reaches.invariant (I := fun s : Network ν κ K S => s.Wired ∧ s.NothingLost) _ _
      reached
    · rintro s ⟨fresh, none_sent, -, none_told⟩
      refine ⟨⟨fun n => ?_, ?_⟩, ⟨?_, ?_⟩⟩
      · simp [stateOf, fresh n]
      · simp [none_sent]
      · simp [none_sent]
      · simp [none_told]
    · rintro s act ⟨wired, lost⟩ - keeps
      exact ⟨wired.exec mac act, (lost.exec_iff mac wired act).mpr keeps⟩
  obtain ⟨wired, lost⟩ := sound
  refine ⟨lost, fun n peer k told => ?_, lost.exec_iff mac wired⟩
  exact (GossipState.lookup_isSome_iff _).mpr ⟨peer, lost.known n peer k told⟩

def keyedMac (key : String) (ad : Advertisement String String) : String × String := (key, ad.nodeId)

def deployment : Network String String String (String × String) where
  node n := { state := { nodeId := n }, hmacKey := "deployment" }

theorem deployment_init : (gossiping keyedMac).init deployment :=
  ⟨fun _ => rfl, rfl, fun _ _ _ => rfl, fun _ _ _ => rfl⟩

def plainDraws (now : Rat) : GossipProtocol.Draws String := ⟨now, id, none⟩

def firstExchange : List (GossipAction String String) :=
  [.storeLocal "a" 1 "h" "block", .advertise "a" "b" true 2, .process 0 (plainDraws 3)]

/-- The first advertisement of a node has all its entries. -/
theorem gossip_loses_nothing_first :
    let s := firstExchange.foldl (gossiping keyedMac).exec deployment
    s.told "b" "a" "h" = true ∧ s.NothingLost ∧ ((s.stateOf "b").lookup "h").1.isSome = true := by
  have follows : (gossiping keyedMac).Follows (Keeps keyedMac) deployment firstExchange := by
    refine ⟨trivial, trivial, trivial, fun _ _ _ => nofun, trivial, ?_, trivial⟩
    rintro m there
    cases there
    exact ⟨fun k _ => .inr ⟨by decide, ⟨rfl, fun _ => nofun⟩, rfl⟩, fun _ => nofun⟩
  have sound := gossip_loses_nothing (.of_follows (.init deployment_init) _ follows)
  exact ⟨by decide +kernel, sound.1, sound.2.1 "b" "a" "h" (by decide +kernel)⟩

/-- The second peer to get an advertisement is not told of what the first one was. -/
theorem second_peer_not_told : ¬ ∀ s, (gossiping keyedMac).Reachable s → s.NothingLost := by
  intro all
  have reached : (gossiping keyedMac).Reachable _ := .of_follows (.init deployment_init)
    [.storeLocal "a" 1 "h" "block", .advertise "a" "b" true 2, .advertise "a" "c" true 2,
      .process 1 (plainDraws 3)]
    ⟨trivial, trivial, trivial, trivial, trivial, trivial, trivial, trivial, trivial⟩
  have listed := (all _ reached).known "c" "a" "h" (by decide +kernel)
  revert listed
  decide +kernel

end DistLLM.Gossip
