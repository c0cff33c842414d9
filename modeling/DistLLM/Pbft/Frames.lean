import DistLLM.Pbft.Cluster

/-!
# What a PBFT handler leaves alone

The three phases touch the logs, the committed numbers and the own counter, and sign votes.
Identity, keys, view and all that belongs to view changes stay as they are. No handler changes
what the constructor fixed.
-/
namespace DistLLM.Pbft

open DistLLM.Library

variable {ι Op PK SK Sig : Type} (p : Primitives ι Op PK SK Sig)

namespace PBFTNode

/-- Both nodes were constructed from the same arguments. -/
structure SameConfig (n n' : PBFTNode ι Op PK SK Sig) : Prop where
  nodeId : n'.nodeId = n.nodeId
  nodeIds : n'.nodeIds = n.nodeIds
  f : n'.f = n.f
  signingKey : n'.signingKey = n.signingKey
  publicKeys : n'.publicKeys = n.publicKeys
  watermarkWindow : n'.watermarkWindow = n.watermarkWindow

namespace SameConfig

variable {n n' n'' : PBFTNode ι Op PK SK Sig}

theorem refl (n : PBFTNode ι Op PK SK Sig) : SameConfig n n := ⟨rfl, rfl, rfl, rfl, rfl, rfl⟩

theorem trans (first : SameConfig n n') (second : SameConfig n' n'') : SameConfig n n'' :=
  ⟨second.nodeId.trans first.nodeId, second.nodeIds.trans first.nodeIds, second.f.trans first.f,
    second.signingKey.trans first.signingKey, second.publicKeys.trans first.publicKeys,
    second.watermarkWindow.trans first.watermarkWindow⟩

end SameConfig

/-- What a step of the three phases keeps; it signs nothing but votes. -/
structure InPhase (n n' : PBFTNode ι Op PK SK Sig) : Prop where
  config : SameConfig n n'
  view : n'.view = n.view
  viewChangeInProgress : n'.viewChangeInProgress = n.viewChangeInProgress
  viewChangeMessages : n'.viewChangeMessages = n.viewChangeMessages
  newViewMessages : n'.newViewMessages = n.newViewMessages
  signed : n.signed ⊆ n'.signed
  votes : ∀ payload ∈ n'.signed, payload ∈ n.signed ∨
    ∃ view sequence digest, payload = .message n.nodeId view sequence digest

namespace InPhase

variable {n n' n'' : PBFTNode ι Op PK SK Sig}

theorem refl (n : PBFTNode ι Op PK SK Sig) : InPhase n n :=
  ⟨.refl n, rfl, rfl, rfl, rfl, List.Subset.refl _, fun _ made => Or.inl made⟩

theorem trans (first : InPhase n n') (second : InPhase n' n'') : InPhase n n'' := by
  refine ⟨first.config.trans second.config, second.view.trans first.view,
    second.viewChangeInProgress.trans first.viewChangeInProgress,
    second.viewChangeMessages.trans first.viewChangeMessages,
    second.newViewMessages.trans first.newViewMessages,
    List.Subset.trans first.signed second.signed, ?_⟩
  intro payload made
  rcases second.votes payload made with old | vote
  · exact first.votes payload old
  · rw [first.config.nodeId] at vote
    exact Or.inr vote

theorem of_same (config : SameConfig n n') (view : n'.view = n.view)
    (inProgress : n'.viewChangeInProgress = n.viewChangeInProgress)
    (messages : n'.viewChangeMessages = n.viewChangeMessages)
    (newViews : n'.newViewMessages = n.newViewMessages) (signed : n'.signed = n.signed) :
    InPhase n n' := by
  refine ⟨config, view, inProgress, messages, newViews, ?_, ?_⟩
  · rw [signed]
    exact List.Subset.refl _
  · intro payload made
    rw [signed] at made
    exact Or.inl made

section

variable (n : PBFTNode ι Op PK SK Sig)

theorem signing (view sequence : Int) (digest : String) :
    InPhase n (n.signing (.message n.nodeId view sequence digest)) := by
  refine ⟨⟨rfl, rfl, rfl, rfl, rfl, rfl⟩, rfl, rfl, rfl, rfl, List.subset_append_left _ _, ?_⟩
  intro payload made
  rcases List.mem_append.mp made with old | new
  · exact Or.inl old
  · exact Or.inr ⟨view, sequence, digest, List.mem_singleton.mp new⟩

theorem accepting (view sequence : Int)
    (msg : PBFTMessage ι Op Sig) : InPhase n (n.accepting view sequence msg) :=
  (signing n view sequence msg.digest).trans
    (of_same ⟨rfl, rfl, rfl, rfl, rfl, rfl⟩ rfl rfl rfl rfl rfl)

theorem logPrepare (sequence : Int) (msg : PBFTMessage ι Op Sig) :
    InPhase n (n.logPrepare sequence msg) :=
  of_same ⟨rfl, rfl, rfl, rfl, rfl, rfl⟩ rfl rfl rfl rfl rfl

theorem logCommit (sequence : Int) (msg : PBFTMessage ι Op Sig) :
    InPhase n (n.logCommit sequence msg) :=
  of_same ⟨rfl, rfl, rfl, rfl, rfl, rfl⟩ rfl rfl rfl rfl rfl

theorem finalize (sequence : Int) (digest : String) : InPhase n (n.finalize sequence digest) :=
  of_same ⟨rfl, rfl, rfl, rfl, rfl, rfl⟩ rfl rfl rfl rfl rfl

theorem advanceWatermark : InPhase n n.advanceWatermark := by
  unfold PBFTNode.advanceWatermark
  split
  · exact of_same ⟨rfl, rfl, rfl, rfl, rfl, rfl⟩ rfl rfl rfl rfl rfl
  · exact refl n

end

section Handlers

variable [LinearOrder ι]

theorem tryCommitQuorum (n : PBFTNode ι Op PK SK Sig) (sequence : Int) (digest : String) :
    InPhase n (n.tryCommitQuorum sequence digest) := by
  rcases n.tryCommitQuorum_cases sequence digest with same | ⟨_, out⟩
  · rw [same]
    exact refl n
  · rw [out]
    exact (finalize n sequence digest).trans (advanceWatermark _)

variable (p : Primitives ι Op PK SK Sig) (n : PBFTNode ι Op PK SK Sig)

theorem tryPrepareQuorum (sequence : Int)
    (digest : String) : InPhase n (n.tryPrepareQuorum p sequence digest) := by
  rcases n.tryPrepareQuorum_cases p sequence digest with same | out
  · rw [same]
    exact refl n
  · rw [out]
    exact ((signing n n.view sequence digest).trans (logCommit _ sequence _)).trans
      (tryCommitQuorum _ sequence digest)

theorem handleRequest (operation : Op) : InPhase n (n.handleRequest p operation).2 := by
  rcases n.handleRequest_cases p operation with same | ⟨_, msg, _, _, out⟩
  · rw [same]
    exact refl n
  · rw [out]
    have counted : InPhase n { n with lastSequence := n.lastSequence + 1 } :=
      of_same ⟨rfl, rfl, rfl, rfl, rfl, rfl⟩ rfl rfl rfl rfl rfl
    exact counted.trans (accepting _ n.view (n.lastSequence + 1) msg)

variable (msg : PBFTMessage ι Op Sig)

include msg

theorem handlePrePrepare : InPhase n (n.handlePrePrepare p msg).2 := by
  rcases n.handlePrePrepare_cases p msg with same | ⟨_, _, _, _, _, _, out⟩
  · rw [same]
    exact refl n
  · rw [out]
    exact ((accepting n n.view msg.sequence msg).trans (logPrepare _ msg.sequence _)).trans
      (tryPrepareQuorum p _ msg.sequence msg.digest)

theorem handlePrepare : InPhase n (n.handlePrepare p msg).2 := by
  rcases n.handlePrepare_cases p msg with same | ⟨_, _, _, out⟩
  · rw [same]
    exact refl n
  · rw [out]
    exact (logPrepare n msg.sequence msg).trans (tryPrepareQuorum p _ msg.sequence msg.digest)

theorem handleCommit : InPhase n (n.handleCommit p msg).2 := by
  rcases n.handleCommit_cases p msg with same | ⟨_, _, out⟩
  · rw [same]
    exact refl n
  · rw [out]
    exact (logCommit n msg.sequence msg).trans (tryCommitQuorum _ msg.sequence msg.digest)

end Handlers

theorem foldl_replayEntry (newView : Int) (items : List (Int × PBFTMessage ι Op Sig))
    (n : PBFTNode ι Op PK SK Sig) : InPhase n (items.foldl (replayEntry p newView) n) := by
  induction items generalizing n with
  | nil => exact refl n
  | cons item rest ih =>
    rw [List.foldl_cons]
    rcases n.replayEntry_cases p newView item with same | ⟨_, out⟩
    · rw [same]
      exact ih n
    · rw [out]
      exact ((accepting n newView item.1 _).trans (logPrepare _ item.1 _)).trans (ih _)

end InPhase

/-- The node after it put a view-change message on its pile. -/
def collecting (n : PBFTNode ι Op PK SK Sig) (message : ViewChange ι Op Sig) :
    PBFTNode ι Op PK SK Sig :=
  { n with
    viewChangeMessages := n.viewChangeMessages.set message.newView
      (n.viewChangeMessages.getD message.newView [] ++ [message]) }

/-- The view-change message that a node makes of its state. -/
def ownViewChange (n : PBFTNode ι Op PK SK Sig) :
    ViewChange ι Op Sig :=
  let lastCommitted :=
    if some : n.committedSequences.Nonempty then n.committedSequences.max' some else 0
  { nodeId := n.nodeId
    newView := n.view + 1
    lastCommitted
    signature := some (p.sign n.signingKey (.viewChange n.nodeId (n.view + 1) lastCommitted))
    prePrepareLog := n.prePrepareLog.entries.filter fun e => decide (e.1 > n.lowWatermark)
    prepareLog := n.prepareLog.entries.filter fun e => decide (e.1 > n.lowWatermark) }

theorem startViewChange_collects (n : PBFTNode ι Op PK SK Sig) :
    n.startViewChange p = n ∨
    n.startViewChange p =
      { (n.signing (.viewChange n.nodeId (n.view + 1) (n.ownViewChange p).lastCommitted)).collecting
          (n.ownViewChange p) with viewChangeInProgress := true } := by
  unfold startViewChange
  split
  · exact Or.inl rfl
  · exact Or.inr rfl

theorem handleViewChange_collects [LinearOrder ι] (n : PBFTNode ι Op PK SK Sig)
    (message : ViewChange ι Op Sig) : n.handleViewChange p message = n ∨
    (n.verifyPayload p message.nodeId
        (.viewChange message.nodeId message.newView message.lastCommitted)
        message.signature = true ∧ n.view < message.newView ∧
      (n.handleViewChange p message = n.collecting message ∨ (n.quorumSize ≤
            ((n.collecting message).viewChangeMessages.getD message.newView []).length ∧
          n.primaryOf message.newView = some n.nodeId ∧ n.handleViewChange p message =
            (n.collecting message).broadcastNewView p message.newView))) := by
  unfold handleViewChange
  split
  · exact Or.inl rfl
  split
  · exact Or.inl rfl
  next verified =>
  split
  · exact Or.inl rfl
  next later =>
  refine Or.inr ⟨by simpa using verified, not_le.mp later, ?_⟩
  dsimp only
  split
  · next announces =>
    refine Or.inr ⟨?_, announces.2, rfl⟩
    rw [collecting, Dict.getD_set, if_pos rfl]
    exact announces.1
  · exact Or.inl rfl

theorem SameConfig.receive [LinearOrder ι] (p : Primitives ι Op PK SK Sig)
    (n : PBFTNode ι Op PK SK Sig) (input : Input ι Op Sig) : SameConfig n (n.receive p input) := by
  cases input with
  | request operation => exact (InPhase.handleRequest p n operation).config
  | prePrepare msg => exact (InPhase.handlePrePrepare p n msg).config
  | prepare msg => exact (InPhase.handlePrepare p n msg).config
  | commit msg => exact (InPhase.handleCommit p n msg).config
  | startViewChange =>
    rcases n.startViewChange_cases p with same | ⟨_, _, out⟩
    · simp only [PBFTNode.receive, same]
      exact refl n
    · simp only [PBFTNode.receive, out]
      exact ⟨rfl, rfl, rfl, rfl, rfl, rfl⟩
  | viewChange message =>
    rcases n.handleViewChange_cases p message with same | ⟨_, out⟩ | ⟨_, _, _, out⟩
    · simp only [PBFTNode.receive, same]
      exact refl n
    · simp only [PBFTNode.receive, out]
      exact ⟨rfl, rfl, rfl, rfl, rfl, rfl⟩
    · simp only [PBFTNode.receive, out]
      exact ⟨rfl, rfl, rfl, rfl, rfl, rfl⟩
  | newView message =>
    rcases n.handleNewView_cases p message with same | ⟨_, _, out⟩
    · simp only [PBFTNode.receive, same]
      exact refl n
    · simp only [PBFTNode.receive, out]
      have entered : SameConfig n (n.steering message.newView n.lastSequence false
          n.viewChangeMessages n.newViewMessages) := ⟨rfl, rfl, rfl, rfl, rfl, rfl⟩
      exact entered.trans (InPhase.foldl_replayEntry p message.newView _ _).config

end PBFTNode

variable [LinearOrder ι]

/-- The node was constructed as member `i` of the cluster, with the keys of all members. -/
structure Configured (c : Cluster ι Op PK SK Sig) (i : ι) (n : PBFTNode ι Op PK SK Sig) :
    Prop where
  member : i ∈ c.members
  nodeId : n.nodeId = i
  faults : n.f = c.f
  order : n.nodeIds = c.nodeIds.insertionSort (· ≤ ·)
  signingKey : n.signingKey = c.signingKey i
  keys : ∀ j, n.publicKeys.get? j = if j ∈ c.members then some (c.publicKeyOf j) else none
  window : n.watermarkWindow = 128

variable {s : ClusterState ι Op PK SK Sig}

namespace Configured

variable {c : Cluster ι Op PK SK Sig} {i : ι} {n n' : PBFTNode ι Op PK SK Sig}

theorem init {keys : Dict ι PK}
    (registered : ∀ j, keys.get? j = if j ∈ c.members then some (c.publicKeyOf j) else none)
    (member : i ∈ c.members)
    (built : PBFTNode.init c.primitives i c.nodeIds (some c.f) (c.signingKey i) keys = some n) :
    Configured c i n := by
  unfold PBFTNode.init at built
  rw [if_pos (List.mem_toFinset.mp member)] at built
  cases built
  refine ⟨member, rfl, rfl, rfl, rfl, ?_, rfl⟩
  intro j
  simp only [Dict.get?_update, Dict.get?_set, registered]
  by_cases known : j ∈ c.members
  · simp [known]
  · have other : i ≠ j := fun same => known (same ▸ member)
    simp [known, other]

variable (conf : Configured c i n)

include conf

theorem of_sameConfig (same : n.SameConfig n') : Configured c i n' where
  member := conf.member
  nodeId := same.nodeId.trans conf.nodeId
  faults := same.f.trans conf.faults
  order := same.nodeIds.trans conf.order
  signingKey := same.signingKey.trans conf.signingKey
  keys j := by rw [same.publicKeys, conf.keys]
  window := same.watermarkWindow.trans conf.window

theorem primaryOf_eq (view : Int) :
    n.primaryOf view = c.primaryOf view := by
  simp only [PBFTNode.primaryOf, Cluster.primaryOf, conf.order]

theorem quorumSize_eq : n.quorumSize = 2 * c.f + 1 := by
  rw [PBFTNode.quorumSize, conf.faults]

end Configured

theorem configured_initial {c : Cluster ι Op PK SK Sig} (start : Initial c s) {i : ι}
    (honest : c.Honest i) : Configured c i (s i) := by
  obtain ⟨keys, registered, built⟩ := start
  exact Configured.init registered honest.1 (built i honest.1)

end DistLLM.Pbft
