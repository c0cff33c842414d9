import DistLLM.Pbft.AcrossViews
import DistLLM.Pbft.Frames

/-!
# Who can change the view

A view is entered on the word of its primary, and an honest primary gives it once a quorum asked
for the view. The code checks neither half in full: it accepts a new-view message from any member,
and it counts view-change messages, not their senders. So the quorum is there in the runs in
which every accepted message comes from an honest primary of its view and the counted ones come
from enough nodes.
-/
namespace DistLLM.Pbft

open DistLLM.Library PBFTNode

variable {ι Op PK SK Sig : Type} [LinearOrder ι]

/-! ### What is to hold -/

/-- The text asks for a view in the name of `j`. -/
def Payload.asksFor (j : ι) (view : Int) : Payload ι → Bool
  | .viewChange nodeId wanted _ => decide (nodeId = j ∧ wanted = view)
  | _ => false

variable (c : Cluster ι Op PK SK Sig) (s : ClusterState ι Op PK SK Sig) (view : Int)

/-- A node that may have issued a view change: a member that did, if it is honest. -/
def Issued (j : ι) :
    Prop :=
  j ∈ c.byzantine ∨ (s j).signed.any (Payload.asksFor j view) = true

instance (c : Cluster ι Op PK SK Sig) (s : ClusterState ι Op PK SK Sig) (view : Int) (j : ι) :
    Decidable (Issued c s view j) :=
  inferInstanceAs (Decidable (_ ∨ _))

/-- `2f + 1` members have issued a view change to the view. -/
def QuorumIssued :
    Prop :=
  2 * c.f + 1 ≤ (c.members.filter (Issued c s view)).card

instance (c : Cluster ι Op PK SK Sig) (s : ClusterState ι Op PK SK Sig) (view : Int) :
    Decidable (QuorumIssued c s view) :=
  inferInstanceAs (Decidable (_ ≤ _))

/-- The primary of a view has announced it: an honest one signed the new-view message. -/
def Announced : Prop :=
  ∃ p, c.primaryOf view = some p ∧ (c.Honest p → .newView p view ∈ (s p).signed)

/-- A later view of an honest node was announced by its primary and asked for by a quorum. -/
def ViewsBacked : Prop :=
  ∀ i, c.Honest i → 0 < (s i).view → Announced c s (s i).view ∧ QuorumIssued c s (s i).view

/-- The input is a new-view message that the primary of its view signed. -/
def FromNewPrimary (n : PBFTNode ι Op PK SK Sig) (view : Int) :
    Input ι Op Sig → Prop
  | .newView message => message.newView = view ∧ some message.sender = c.primaryOf view ∧
      n.verifyPayload c.primitives message.sender (.newView message.sender view)
        message.signature = true
  | _ => False

/-- A step moves the node it is taken at to another view only on a new-view message of the
primary of that view, which is the message received or the one the node itself has now signed,
and only if a quorum has asked for the view. -/
def MovesWithQuorum (a : ClusterAction ι Op Sig) : Prop :=
  let entered := (exec c s a a.node).view
  entered = (s a.node).view ∨
    ((FromNewPrimary c (s a.node) entered a.input ∨
        (c.primaryOf entered = some a.node ∧
          .newView a.node entered ∈ (exec c s a a.node).signed)) ∧
      QuorumIssued c s entered)

/-- An accepted new-view message comes from the primary of its view, an honest node. When an
accepted view-change message makes the pile of the new primary high enough, the pile holds the
messages of enough nodes. -/
def SoundViewChange (a : ClusterAction ι Op Sig) : Prop :=
  let n := s a.node
  match a.input with
  | .newView message =>
    n.view < message.newView →
    n.verifyPayload c.primitives message.sender (.newView message.sender message.newView)
      message.signature = true →
    some message.sender = n.primaryOf message.newView ∧ c.Honest message.sender
  | .viewChange message =>
    let pile := n.viewChangeMessages.getD message.newView [] ++ [message]
    n.primaryOf message.newView = some n.nodeId → n.view < message.newView →
    n.verifyPayload c.primitives message.nodeId
      (.viewChange message.nodeId message.newView message.lastCommitted) message.signature = true →
    n.quorumSize ≤ pile.length → n.quorumSize ≤ (pile.map ViewChange.nodeId).toFinset.card
  | _ => True

instance (c : Cluster ι Op PK SK Sig) (s : ClusterState ι Op PK SK Sig) :
    ∀ a, Decidable (SoundViewChange c s a)
  | ⟨_, .newView _⟩ => inferInstanceAs (Decidable (_ → _ → _))
  | ⟨_, .viewChange _⟩ => inferInstanceAs (Decidable (_ → _ → _ → _ → _))
  | ⟨_, .request _⟩ | ⟨_, .prePrepare _⟩ | ⟨_, .prepare _⟩ | ⟨_, .commit _⟩
  | ⟨_, .startViewChange⟩ => .isTrue trivial

section Counting

variable {c : Cluster ι Op PK SK Sig} {s s' : ClusterState ι Op PK SK Sig} {view : Int} {j : ι}

theorem issued_of_signed (lastCommitted : Int)
    (made : .viewChange j view lastCommitted ∈ (s j).signed) : Issued c s view j :=
  Or.inr (List.any_eq_true.mpr ⟨_, made, by simp [Payload.asksFor]⟩)

section

variable (grown : ∀ j, (s j).signed ⊆ (s' j).signed)

include grown

theorem Issued.mono (issued : Issued c s view j) :
    Issued c s' view j := by
  rcases issued with faulty | asked
  · exact Or.inl faulty
  · obtain ⟨payload, made, asks⟩ := List.any_eq_true.mp asked
    exact Or.inr (List.any_eq_true.mpr ⟨payload, grown j made, asks⟩)

theorem QuorumIssued.mono (quorum : QuorumIssued c s view) : QuorumIssued c s' view :=
  le_trans quorum (Finset.card_le_card
    (Finset.monotone_filter_right _ fun _ _ issued => issued.mono grown))

theorem Announced.mono (announced : Announced c s view) : Announced c s' view := by
  obtain ⟨p, isPrimary, made⟩ := announced
  exact ⟨p, isPrimary, fun honest => grown p (made honest)⟩

end

theorem quorumIssued_of_senders {senders : Finset ι} (members : senders ⊆ c.members)
    (issued : ∀ j ∈ senders, Issued c s view j) (large : 2 * c.f + 1 ≤ senders.card) :
    QuorumIssued c s view :=
  le_trans large (Finset.card_le_card fun j sent =>
    Finset.mem_filter.mpr ⟨members sent, issued j sent⟩)

/-- A quorum outnumbers the faulty nodes, so more than `f` honest nodes have asked for the view. -/
theorem QuorumIssued.honest (quorum : QuorumIssued c s view) : c.f < (c.members.filter fun j =>
      j ∉ c.byzantine ∧ (s j).signed.any (Payload.asksFor j view) = true).card := by
  -- who has issued one is faulty or has signed it
  have cover : c.members.filter (Issued c s view) ⊆ c.byzantine ∪ c.members.filter fun j =>
      j ∉ c.byzantine ∧ (s j).signed.any (Payload.asksFor j view) = true := by
    intro j asked
    obtain ⟨member, issued⟩ := Finset.mem_filter.mp asked
    by_cases faulty : j ∈ c.byzantine
    · exact Finset.mem_union_left _ faulty
    · exact Finset.mem_union_right _
        (Finset.mem_filter.mpr ⟨member, faulty, issued.resolve_left faulty⟩)
  have count := (Finset.card_le_card cover).trans (Finset.card_union_le _ _)
  have few := c.few
  unfold QuorumIssued at quorum
  omega

end Counting

/-- What an honest node holds for view changes: everything on its piles was issued, and it has
announced a view and entered one only with a quorum behind it. -/
structure Accounted (c : Cluster ι Op PK SK Sig) (s : ClusterState ι Op PK SK Sig) (i : ι)
    (n : PBFTNode ι Op PK SK Sig) : Prop where
  configured : Configured c i n
  collected : ∀ view, ∀ m ∈ n.viewChangeMessages.getD view [],
    m.nodeId ∈ c.members ∧ Issued c s view m.nodeId
  announced : ∀ view, .newView i view ∈ n.signed → QuorumIssued c s view
  entered : 0 < n.view → Announced c s n.view ∧ QuorumIssued c s n.view

namespace Accounted

variable {c : Cluster ι Op PK SK Sig} {s s' : ClusterState ι Op PK SK Sig} {i : ι}
  {n n' : PBFTNode ι Op PK SK Sig}

theorem mono (grown : ∀ j, (s j).signed ⊆ (s' j).signed) (inv : Accounted c s i n) :
    Accounted c s' i n where
  configured := inv.configured
  collected view m member :=
    ⟨(inv.collected view m member).1, (inv.collected view m member).2.mono grown⟩
  announced view made := (inv.announced view made).mono grown
  entered later := ⟨(inv.entered later).1.mono grown, (inv.entered later).2.mono grown⟩

theorem initial (start : Initial c s) (honest : c.Honest i) : Accounted c s i (s i) := by
  have conf := configured_initial start honest
  obtain ⟨keys, _, built⟩ := start
  have fresh := init_fresh c.primitives (built i honest.1)
  refine ⟨conf, ?_, ?_, ?_⟩
  · intro view m member
    rw [fresh.viewChangeMessages] at member
    cases member
  · intro view made
    rw [fresh.signed] at made
    cases made
  · intro later
    rw [fresh.view] at later
    exact absurd later (lt_irrefl 0)

variable (inv : Accounted c s i n)

include inv

theorem inPhase (phase : n.InPhase n') : Accounted c s i n' := by
  refine ⟨inv.configured.of_sameConfig phase.config, ?_, ?_, ?_⟩
  · rw [phase.viewChangeMessages]
    exact inv.collected
  · intro view made
    rcases phase.votes _ made with old | ⟨_, _, _, vote⟩
    · exact inv.announced view old
    · cases vote
  · rw [phase.view]
    exact inv.entered

theorem signing (payload : Payload ι)
    (other : ∀ view, payload ≠ .newView i view) : Accounted c s i (n.signing payload) := by
  refine ⟨inv.configured.of_sameConfig ⟨rfl, rfl, rfl, rfl, rfl, rfl⟩, inv.collected, ?_,
    inv.entered⟩
  intro view made
  rcases List.mem_append.mp made with old | new
  · exact inv.announced view old
  · exact absurd (List.mem_singleton.mp new).symm (other view)

theorem collecting (message : ViewChange ι Op Sig) (member : message.nodeId ∈ c.members)
    (issued : Issued c s message.newView message.nodeId) :
    Accounted c s i (n.collecting message) := by
  refine ⟨inv.configured.of_sameConfig ⟨rfl, rfl, rfl, rfl, rfl, rfl⟩, ?_, inv.announced,
    inv.entered⟩
  intro view m onPile
  simp only [PBFTNode.collecting, Dict.getD_set] at onPile
  split at onPile
  · next same =>
    subst same
    rcases List.mem_append.mp onPile with old | new
    · exact inv.collected _ m old
    · rw [List.mem_singleton.mp new]
      exact ⟨member, issued⟩
  · exact inv.collected view m onPile

theorem entering (view : Int) (announced : Announced c s view) (quorum : QuorumIssued c s view)
    (lastSequence : Int) (inProgress : Bool) (newViews : Dict Int (NewView ι Op Sig)) :
    Accounted c s i (n.steering view lastSequence inProgress n.viewChangeMessages newViews) :=
  ⟨inv.configured.of_sameConfig ⟨rfl, rfl, rfl, rfl, rfl, rfl⟩, inv.collected, inv.announced,
    fun _ => ⟨announced, quorum⟩⟩

theorem quorumIssued (message : ViewChange ι Op Sig) (member : message.nodeId ∈ c.members)
    (issued : Issued c s message.newView message.nodeId)
    (distinct : n.quorumSize ≤ ((n.viewChangeMessages.getD message.newView [] ++ [message]).map
      ViewChange.nodeId).toFinset.card) : QuorumIssued c s message.newView := by
  have known : ∀ j ∈ ((n.viewChangeMessages.getD message.newView [] ++ [message]).map
      ViewChange.nodeId).toFinset, j ∈ c.members ∧ Issued c s message.newView j := by
    intro j sent
    obtain ⟨m, onPile, rfl⟩ := List.mem_map.mp (List.mem_toFinset.mp sent)
    rcases List.mem_append.mp onPile with old | new
    · exact inv.collected _ m old
    · rw [List.mem_singleton.mp new]
      exact ⟨member, issued⟩
  rw [inv.configured.quorumSize_eq] at distinct
  exact quorumIssued_of_senders (fun j sent => (known j sent).1) (fun j sent => (known j sent).2)
    distinct

end Accounted

/-! ### One step -/

section Step

variable {c : Cluster ι Op PK SK Sig} {s : ClusterState ι Op PK SK Sig}
  {message : ViewChange ι Op Sig}

theorem issued_of_verified {i : ι} (conf : Configured c i (s i))
    (possible : Enabled c s ⟨i, .viewChange message⟩)
    (verified : (s i).verifyPayload c.primitives message.nodeId
      (.viewChange message.nodeId message.newView message.lastCommitted) message.signature = true) :
    message.nodeId ∈ c.members ∧ Issued c s message.newView message.nodeId := by
  obtain ⟨member, made⟩ := possible.2.authentic (conf.keys _) verified
  refine ⟨member, ?_⟩
  by_cases faulty : message.nodeId ∈ c.byzantine
  · exact Or.inl faulty
  · exact issued_of_signed _ (made faulty)

theorem asked_of_pile {i : ι} (inv : Accounted c s i (s i))
    (possible : Enabled c s ⟨i, .viewChange message⟩)
    (sound : SoundViewChange c s ⟨i, .viewChange message⟩)
    (verified : (s i).verifyPayload c.primitives message.nodeId
      (.viewChange message.nodeId message.newView message.lastCommitted) message.signature = true)
    (later : (s i).view < message.newView)
    (isPrimary : (s i).primaryOf message.newView = some (s i).nodeId)
    (quorum : (s i).quorumSize ≤
      (((s i).collecting message).viewChangeMessages.getD message.newView []).length) :
    QuorumIssued c s message.newView := by
  obtain ⟨member, issued⟩ := issued_of_verified inv.configured possible verified
  rw [PBFTNode.collecting, Dict.getD_set, if_pos rfl] at quorum
  exact inv.quorumIssued message member issued (sound isPrimary later verified quorum)

/-- An accepted new view was announced by its primary, an honest node with a quorum behind it. -/
theorem asked_of_newView {i : ι} {message : NewView ι Op Sig} (conf : Configured c i (s i))
    (all : ∀ j, c.Honest j → Accounted c s j (s j)) (possible : Enabled c s ⟨i, .newView message⟩)
    (sound : SoundViewChange c s ⟨i, .newView message⟩) (later : (s i).view < message.newView)
    (verified : (s i).verifyPayload c.primitives message.sender
      (.newView message.sender message.newView) message.signature = true) :
    some message.sender = c.primaryOf message.newView ∧
      .newView message.sender message.newView ∈ (s message.sender).signed ∧
      QuorumIssued c s message.newView := by
  obtain ⟨fromPrimary, loyal⟩ := sound later verified
  have made := (possible.2.authentic (conf.keys _) verified).2 loyal.2
  rw [conf.primaryOf_eq] at fromPrimary
  exact ⟨fromPrimary, made, (all message.sender loyal).announced message.newView made⟩

theorem accounted_step {i : ι} {input : Input ι Op Sig} (inv : Accounted c s i (s i))
    (all : ∀ j, c.Honest j → Accounted c s j (s j)) (possible : Enabled c s ⟨i, input⟩)
    (sound : SoundViewChange c s ⟨i, input⟩) :
    Accounted c (exec c s ⟨i, input⟩) i ((s i).receive c.primitives input) := by
  have grown := ClusterInv.signed_subset_exec c s ⟨i, input⟩
  have before : Accounted c (exec c s ⟨i, input⟩) i (s i) := inv.mono grown
  have honest : c.Honest i := possible.1
  have own : exec c s ⟨i, input⟩ i = (s i).receive c.primitives input := Function.update_self ..
  cases input with
  | request operation => exact before.inPhase (InPhase.handleRequest c.primitives _ operation)
  | prePrepare msg => exact before.inPhase (InPhase.handlePrePrepare c.primitives _ msg)
  | prepare msg => exact before.inPhase (InPhase.handlePrepare c.primitives _ msg)
  | commit msg => exact before.inPhase (InPhase.handleCommit c.primitives _ msg)
  | startViewChange =>
    rcases startViewChange_collects c.primitives (s i) with same | out
    · rw [PBFTNode.receive, same]
      exact before
    · -- the node's own message counts as issued because the node has now signed it
      have named := inv.configured.nodeId
      have issued : Issued c (exec c s ⟨i, .startViewChange⟩) ((s i).view + 1) i := by
        refine issued_of_signed ((s i).ownViewChange c.primitives).lastCommitted ?_
        rw [own, PBFTNode.receive, out]
        simp only [PBFTNode.collecting, PBFTNode.signing, named]
        exact List.mem_append_right _ (List.mem_singleton_self _)
      have signed := before.signing (.viewChange (s i).nodeId ((s i).view + 1)
        ((s i).ownViewChange c.primitives).lastCommitted) (fun view eq => by cases eq)
      have collected := signed.collecting ((s i).ownViewChange c.primitives)
        (by simpa only [ownViewChange, named] using honest.1)
        (by simpa only [ownViewChange, named] using issued)
      rw [PBFTNode.receive, out]
      exact { collected with
        configured := collected.configured.of_sameConfig ⟨rfl, rfl, rfl, rfl, rfl, rfl⟩ }
  | viewChange message =>
    rcases handleViewChange_collects c.primitives (s i) message with
      same | ⟨verified, later, out | ⟨quorum, isPrimary, out⟩⟩
    · rw [PBFTNode.receive, same]
      exact before
    · obtain ⟨member, issued⟩ := issued_of_verified inv.configured possible verified
      rw [PBFTNode.receive, out]
      exact before.collecting message member (issued.mono grown)
    · obtain ⟨member, issued⟩ := issued_of_verified inv.configured possible verified
      obtain ⟨newViews, announcing⟩ := broadcastNewView_eq c.primitives
        ((s i).collecting message) message.newView
      have asked := (asked_of_pile inv possible sound verified later isPrimary quorum).mono grown
      have named := inv.configured.nodeId
      -- the node is the new primary, and signs the new view in this very step
      have announced : Announced c (exec c s ⟨i, .viewChange message⟩) message.newView := by
        refine ⟨i, ?_, fun _ => ?_⟩
        · rw [← inv.configured.primaryOf_eq, isPrimary, named]
        · rw [own, PBFTNode.receive, out, announcing]
          simp only [PBFTNode.steering, PBFTNode.signing, PBFTNode.collecting, named]
          exact List.mem_append_right _ (List.mem_singleton_self _)
      have collected := before.collecting message member (issued.mono grown)
      have signed : Accounted c (exec c s ⟨i, .viewChange message⟩) i
          (((s i).collecting message).signing
            (.newView ((s i).collecting message).nodeId message.newView)) := by
        refine { collected with
          configured := collected.configured.of_sameConfig ⟨rfl, rfl, rfl, rfl, rfl, rfl⟩
          announced := ?_ }
        intro view made
        rcases List.mem_append.mp made with old | new
        · exact collected.announced view old
        · injection List.mem_singleton.mp new with _ same
          rw [same]
          exact asked
      rw [PBFTNode.receive, out, announcing]
      exact signed.entering message.newView announced asked _ false newViews
  | newView message =>
    rcases handleNewView_cases c.primitives (s i) message with same | ⟨later, verified, out⟩
    · rw [PBFTNode.receive, same]
      exact before
    · obtain ⟨fromPrimary, made, quorum⟩ :=
        asked_of_newView inv.configured all possible sound later verified
      have announced : Announced c s message.newView :=
        ⟨message.sender, fromPrimary.symm, fun _ => made⟩
      rw [PBFTNode.receive, out]
      exact (before.entering message.newView (announced.mono grown) (quorum.mono grown)
        (s i).lastSequence false (s i).newViewMessages).inPhase
          (InPhase.foldl_replayEntry c.primitives message.newView _ _)

variable (all : ∀ j, c.Honest j → Accounted c s j (s j)) (a : ClusterAction ι Op Sig)
  (possible : Enabled c s a) (sound : SoundViewChange c s a)

include all a possible sound

theorem accounted_exec (i : ι)
    (honest : c.Honest i) : Accounted c (exec c s a) i (exec c s a i) := by
  by_cases moved : i = a.node
  · subst moved
    have after := accounted_step (all a.node honest) all possible sound
    simpa only [exec, Function.update_self] using after
  · have after := (all i honest).mono (ClusterInv.signed_subset_exec c s a)
    simpa only [exec, Function.update_of_ne moved] using after

theorem movesWithQuorum : MovesWithQuorum c s a := by
  obtain ⟨i, input⟩ := a
  have inv := all i possible.1
  have own : exec c s ⟨i, input⟩ i = (s i).receive c.primitives input := Function.update_self ..
  unfold MovesWithQuorum
  simp only [own]
  cases input with
  | request operation => exact Or.inl (InPhase.handleRequest c.primitives _ operation).view
  | prePrepare msg => exact Or.inl (InPhase.handlePrePrepare c.primitives _ msg).view
  | prepare msg => exact Or.inl (InPhase.handlePrepare c.primitives _ msg).view
  | commit msg => exact Or.inl (InPhase.handleCommit c.primitives _ msg).view
  | startViewChange => exact Or.inl (Quiet.startViewChange c.primitives _).view
  | viewChange message =>
    rcases handleViewChange_collects c.primitives (s i) message with
      same | ⟨verified, later, out | ⟨quorum, isPrimary, out⟩⟩
    · simp only [PBFTNode.receive, same, true_or]
    · simp only [PBFTNode.receive, out, PBFTNode.collecting, true_or]
    · right
      have asked := asked_of_pile inv possible sound verified later isPrimary quorum
      obtain ⟨newViews, announcing⟩ := broadcastNewView_eq c.primitives
        ((s i).collecting message) message.newView
      have named := inv.configured.nodeId
      rw [PBFTNode.receive, out, announcing]
      simp only [PBFTNode.steering, PBFTNode.signing, PBFTNode.collecting, named]
      refine ⟨Or.inr ⟨?_, List.mem_append_right _ (List.mem_singleton_self _)⟩, asked⟩
      rw [← inv.configured.primaryOf_eq, isPrimary, named]
  | newView message =>
    rcases handleNewView_cases c.primitives (s i) message with same | ⟨later, verified, _⟩
    · simp only [PBFTNode.receive, same, true_or]
    · right
      obtain ⟨fromPrimary, -, quorum⟩ :=
        asked_of_newView inv.configured all possible sound later verified
      have entered := handleNewView_view c.primitives later verified
      simp only [PBFTNode.receive, entered]
      exact ⟨Or.inl ⟨rfl, fromPrimary, verified⟩, quorum⟩

end Step

/-- As long as new views are accepted only from honest primaries of them and the counted
view-change messages come from enough nodes, every view an honest node is in or moves to has a
quorum behind it, more than `f` of them honest. -/
theorem views_backed_by_quorum (c : Cluster ι Op PK SK Sig) {s : ClusterState ι Op PK SK Sig}
    (run : (pbft c).Reaches (SoundViewChange c) s) : ViewsBacked c s ∧
    (∀ a, (pbft c).enabled s a → SoundViewChange c s a → MovesWithQuorum c s a) ∧
    (∀ i, c.Honest i → 0 < (s i).view → c.f < (c.members.filter fun j =>
      j ∉ c.byzantine ∧ (s j).signed.any (Payload.asksFor j (s i).view) = true).card) := by
  have all : ∀ j, c.Honest j → Accounted c s j (s j) := by
    apply run.invariant (I := fun s => ∀ j, c.Honest j → Accounted c s j (s j))
    · exact fun s start j honest => Accounted.initial start honest
    · exact fun s a inv possible sound => accounted_exec inv a possible sound
  exact ⟨fun i honest later => (all i honest).entered later,
    fun a possible sound => movesWithQuorum all a possible sound,
    fun i honest later => ((all i honest).entered later).2.honest⟩

/-- The honest nodes of four ask for view 1, and its primary, node 1, announces it to node 3. -/
def askedFor : List (ClusterAction (Fin 4) String (IdealSignature 4)) :=
  [⟨1, .startViewChange⟩, ⟨2, .startViewChange⟩, ⟨3, .startViewChange⟩,
   ⟨1, .viewChange (idealViewChange 2 1 0)⟩,
   ⟨1, .viewChange (idealViewChange 3 1 0)⟩,
   ⟨3, .newView (idealNewView 1 1 {})⟩]

theorem views_backed_by_quorum_example : (askedFor.foldl (exec four) (idealStart 4 1) 3).view = 1 ∧
    ViewsBacked four (askedFor.foldl (exec four) (idealStart 4 1)) :=
  ⟨by decide +kernel, (views_backed_by_quorum four
    ((Machine.Reaches.init (idealStart_initial 4 1 _ _ _)).of_follows askedFor
      (by decide +kernel))).1⟩

/-- Node 0 is faulty and not the primary of view 1, yet its new-view message is enough to move
node 2 there. Its one view-change message, delivered three times, makes node 1 announce the
view. Nobody else has asked for it. -/
theorem faulty_node_changes_view :
    (∃ s a, (pbft four).Reachable s ∧ (pbft four).enabled s a ∧ ¬ MovesWithQuorum four s a) ∧
    (∃ s, (pbft four).Reachable s ∧ (s 1).view = 1 ∧ ¬ ViewsBacked four s) := by
  have start := idealStart_initial 4 1 (by decide) {0} (by decide)
  refine ⟨⟨idealStart 4 1, ⟨2, .newView (idealNewView 0 1 {})⟩, .init start, ?_, ?_⟩,
    ⟨(List.replicate 3 ⟨1, .viewChange (idealViewChange 0 1 0)⟩).foldl (exec four)
      (idealStart 4 1), ?_, ?_, ?_⟩⟩
  · decide +kernel
  · rintro (same | ⟨_, asked⟩)
    · exact absurd same (by decide +kernel)
    · exact absurd asked (by decide +kernel)
  · exact (Machine.Reaches.init start).of_follows _ (by decide +kernel)
  · decide +kernel
  · intro backed
    exact absurd (backed 1 (by decide +kernel) (by decide +kernel)).2 (by decide +kernel)

end DistLLM.Pbft
