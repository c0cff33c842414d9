import DistLLM.Pbft.Node

/-!
# What a PBFT handler can do

Each handler either leaves the node as it is or passes all its checks; then the lemma about it
lists them and gives the state it leaves, in terms of the few changes all handlers share.
-/
namespace DistLLM.Pbft.PBFTNode

open DistLLM.Library

variable {ι Op PK SK Sig : Type} [LinearOrder ι]

theorem mem_senders (messages : List (PBFTMessage ι Op Sig)) (digest : String) (j : ι) :
    j ∈ senders messages digest ↔ ∃ m ∈ messages, m.digest = digest ∧ m.sender = j := by
  simp [senders, and_assoc]

/-- In view 0, with nothing numbered, logged, committed or signed. -/
structure Fresh (n : PBFTNode ι Op PK SK Sig) : Prop where
  view : n.view = 0
  lastSequence : n.lastSequence = 0
  committedSequences : n.committedSequences = ∅
  prePrepareLog : n.prePrepareLog = ∅
  prepareLog : n.prepareLog = ∅
  commitLog : n.commitLog = ∅
  lowWatermark : n.lowWatermark = 0
  viewChangeMessages : n.viewChangeMessages = ∅
  newViewMessages : n.newViewMessages = ∅
  signed : n.signed = []
  commits : n.commits = []

theorem init_fresh (p : Primitives ι Op PK SK Sig) {nodeId : ι} {nodeIds : List ι} {f : Option Nat}
    {signingKey : SK} {nodePublicKeys : Dict ι PK} {n : PBFTNode ι Op PK SK Sig}
    (built : init p nodeId nodeIds f signingKey nodePublicKeys = some n) : n.Fresh := by
  unfold init at built
  split at built
  · cases built
    exact ⟨rfl, rfl, rfl, rfl, rfl, rfl, rfl, rfl, rfl, rfl, rfl⟩
  · cases built

section Cases

variable (p : Primitives ι Op PK SK Sig) (n : PBFTNode ι Op PK SK Sig)

/-- Put an entry into the pre-prepare log and sign its digest. -/
def accepting (view sequence : Int) (msg : PBFTMessage ι Op Sig) : PBFTNode ι Op PK SK Sig :=
  { n with
    prePrepareLog := n.prePrepareLog.set sequence msg
    signed := n.signed ++ [.message n.nodeId view sequence msg.digest] }

def signing (payload : Payload ι) : PBFTNode ι Op PK SK Sig :=
  { n with signed := n.signed ++ [payload] }

/-- The message a node signs for itself in a phase. -/
def ownMessage (phase : PBFTPhase) (view sequence : Int) (digest : String) :
    PBFTMessage ι Op Sig :=
  { phase, view, sequence, digest, sender := n.nodeId,
    signature := some (p.sign n.signingKey (.message n.nodeId view sequence digest)) }

variable (msg : PBFTMessage ι Op Sig)

theorem handlePrePrepare_cases : (n.handlePrePrepare p msg).2 = n ∨
    (n.verifySignature p msg = true ∧ some msg.sender = n.primary ∧ msg.view = n.view ∧
      n.lowWatermark ≤ msg.sequence ∧ (∀ op ∈ msg.operation, p.computeDigest op = msg.digest) ∧
      n.prePrepareLog.get? msg.sequence = none ∧ (n.handlePrePrepare p msg).2 =
        ((n.accepting n.view msg.sequence msg).logPrepare msg.sequence
          (n.ownMessage p .prepare n.view msg.sequence msg.digest)).tryPrepareQuorum p
            msg.sequence msg.digest) := by
  unfold handlePrePrepare handlePrePrepareFrom
  split
  · exact Or.inl rfl
  split
  · exact Or.inl rfl
  next verified =>
  split
  · exact Or.inl rfl
  next fromPrimary =>
  split
  · exact Or.inl rfl
  next sameView =>
  split
  · exact Or.inl rfl
  next inWindow =>
  split
  · exact Or.inl rfl
  next digest =>
  split
  · exact Or.inl rfl
  next absent =>
  right
  simp only [Bool.false_eq_true, not_false_eq_true, true_and, not_not, ne_eq] at *
  push Not at digest
  exact ⟨verified, fromPrimary, sameView, inWindow.1, digest, absent, rfl⟩

/-- A request is taken up: the node is the primary, no view change is under way, and the next
sequence number is in the window. -/
def TakesRequest : Prop :=
  some n.nodeId = n.primary ∧ n.viewChangeInProgress = false ∧
    n.checkSequenceWatermark (n.lastSequence + 1)

instance : Decidable n.TakesRequest := inferInstanceAs (Decidable (_ ∧ _ ∧ _))

theorem handlePrePrepareFrom_present (fromPrimary : Bool) {existing : PBFTMessage ι Op Sig}
    (found : n.prePrepareLog.get? msg.sequence = some existing) :
    (n.handlePrePrepareFrom p msg fromPrimary).2 = n := by
  unfold handlePrePrepareFrom
  iterate 6 split; · rfl
  rw [found]

theorem handleRequest_cases (operation : Op) :
    (n.handleRequest p operation).2 = n ∨
    (n.TakesRequest ∧ ∃ msg : PBFTMessage ι Op Sig, msg.digest = p.computeDigest operation ∧
      msg.operation = some operation ∧
      (n.handleRequest p operation).2 =
        { n with lastSequence := n.lastSequence + 1 }.accepting n.view (n.lastSequence + 1)
          msg) := by
  unfold handleRequest
  split
  · exact Or.inl rfl
  next isPrimary =>
  split
  · exact Or.inl rfl
  next stable =>
  dsimp only
  split
  · exact Or.inl rfl
  next inWindow =>
  right
  refine ⟨⟨not_not.mp isPrimary, by simpa using stable, not_not.mp inWindow⟩,
    { phase := .prePrepare, view := n.view, sequence := n.lastSequence + 1,
      digest := p.computeDigest operation, sender := n.nodeId, operation := some operation,
      signature := some (p.sign n.signingKey (.message n.nodeId n.view (n.lastSequence + 1)
        (p.computeDigest operation))) }, rfl, rfl, ?_⟩
  exact handlePrePrepareFrom_present p _ _ true (Dict.get?_set_self _ _ _)

theorem handlePrepare_cases : (n.handlePrepare p msg).2 = n ∨
    (∃ expected, n.prePrepareLog.get? msg.sequence = some expected ∧ msg.digest = expected.digest ∧
      (n.handlePrepare p msg).2 =
        (n.logPrepare msg.sequence msg).tryPrepareQuorum p msg.sequence msg.digest) := by
  unfold handlePrepare
  iterate 4 split; · exact Or.inl rfl
  split
  · exact Or.inl rfl
  next expected found =>
  split
  · exact Or.inl rfl
  next digest =>
  split
  · exact Or.inl rfl
  · exact Or.inr ⟨expected, found, not_not.mp digest, rfl⟩

theorem handleCommit_cases : (n.handleCommit p msg).2 = n ∨
    ((msg.sender = n.nodeId ∨ n.verifySignature p msg = true) ∧
      n.quorumSize ≤ (senders (n.prepareLog.getD msg.sequence []) msg.digest).card ∧
      (n.handleCommit p msg).2 =
        (n.logCommit msg.sequence msg).tryCommitQuorum msg.sequence msg.digest) := by
  unfold handleCommit
  iterate 2 split; · exact Or.inl rfl
  split
  · exact Or.inl rfl
  next verified =>
  split
  · exact Or.inl rfl
  next prepared =>
  split
  · exact Or.inl rfl
  · right
    refine ⟨?_, not_lt.mp prepared, rfl⟩
    by_cases own : msg.sender = n.nodeId
    · exact Or.inl own
    · right
      by_contra unverified
      exact verified ⟨own, unverified⟩

theorem tryPrepareQuorum_cases (sequence : Int) (digest : String) :
    n.tryPrepareQuorum p sequence digest = n ∨ n.tryPrepareQuorum p sequence digest =
      ((n.signing (.message n.nodeId n.view sequence digest)).logCommit sequence
        (n.ownMessage p .commit n.view sequence digest)).tryCommitQuorum sequence digest := by
  unfold tryPrepareQuorum
  split
  · dsimp only
    split
    · exact Or.inr rfl
    · exact Or.inl rfl
  · exact Or.inl rfl

theorem tryCommitQuorum_cases (sequence : Int) (digest : String) :
    n.tryCommitQuorum sequence digest = n ∨
    (n.quorumSize ≤ (senders (n.commitLog.getD sequence []) digest).card ∧
      n.tryCommitQuorum sequence digest = (n.finalize sequence digest).advanceWatermark) := by
  unfold tryCommitQuorum
  split
  · next quorum =>
    split
    · exact Or.inr ⟨quorum, rfl⟩
    · exact Or.inl rfl
  · exact Or.inl rfl

/-- The fields that only steer the view: view, last own sequence number, view-change state. -/
def steering (view lastSequence : Int) (viewChangeInProgress : Bool)
    (viewChangeMessages : Dict Int (List (ViewChange ι Op Sig)))
    (newViewMessages : Dict Int (NewView ι Op Sig)) : PBFTNode ι Op PK SK Sig :=
  { n with view, lastSequence, viewChangeInProgress, viewChangeMessages, newViewMessages }

omit [LinearOrder ι] in
theorem startViewChange_cases : n.startViewChange p = n ∨
    ∃ lastCommitted messages, n.startViewChange p =
      (n.signing (.viewChange n.nodeId (n.view + 1) lastCommitted)).steering n.view n.lastSequence
        true messages n.newViewMessages := by
  unfold startViewChange
  split
  · exact Or.inl rfl
  · exact Or.inr ⟨_, _, rfl⟩

omit [LinearOrder ι] in
/-- Only an entry for a sequence number the log does not have is taken over. -/
theorem replayEntry_cases (newView : Int) (item : Int × PBFTMessage ι Op Sig) :
    n.replayEntry p newView item = n ∨
    (n.prePrepareLog.get? item.1 = none ∧
      n.replayEntry p newView item =
        (n.accepting newView item.1 { item.2 with view := newView }).logPrepare item.1
          (n.ownMessage p .prepare newView item.1 item.2.digest)) := by
  unfold replayEntry
  dsimp only
  split
  · exact Or.inl rfl
  · next absent => exact Or.inr ⟨absent, rfl⟩

theorem handleNewView_cases (message : NewView ι Op Sig) : n.handleNewView p message = n ∨
    (n.view < message.newView ∧
      n.verifyPayload p message.sender (.newView message.sender message.newView)
        message.signature = true ∧ n.handleNewView p message =
        message.checkpoint.prePrepareLog.foldl (replayEntry p message.newView)
          (n.steering message.newView n.lastSequence false n.viewChangeMessages
            n.newViewMessages)) := by
  unfold handleNewView
  split
  · exact Or.inl rfl
  next later =>
  split
  · exact Or.inl rfl
  next verified =>
  exact Or.inr ⟨not_le.mp later, by simpa using verified, rfl⟩

theorem broadcastNewView_eq (newView : Int) : ∃ newViews, n.broadcastNewView p newView =
      (n.signing (.newView n.nodeId newView)).steering newView n.lastSequence false
        n.viewChangeMessages newViews := by
  unfold broadcastNewView
  dsimp only
  unfold handleNewView
  rw [if_pos le_rfl]
  exact ⟨_, rfl⟩

theorem handleViewChange_cases (message : ViewChange ι Op Sig) : n.handleViewChange p message = n ∨
    (∃ messages, n.handleViewChange p message =
      n.steering n.view n.lastSequence n.viewChangeInProgress messages n.newViewMessages) ∨
    (n.view < message.newView ∧ ∃ messages newViews, n.handleViewChange p message =
      (n.signing (.newView n.nodeId message.newView)).steering message.newView n.lastSequence false
        messages newViews) := by
  unfold handleViewChange
  split
  · exact Or.inl rfl
  split
  · exact Or.inl rfl
  split
  · exact Or.inl rfl
  next later =>
  right
  dsimp only
  split
  · right
    obtain ⟨newViews, out⟩ := broadcastNewView_eq p { n with
      viewChangeMessages := n.viewChangeMessages.set message.newView
        (n.viewChangeMessages.getD message.newView [] ++ [message]) } message.newView
    exact ⟨not_le.mp later, _, newViews, out⟩
  · exact Or.inl ⟨_, rfl⟩

end Cases

/-! ### Steps that log nothing -/

/-- Nothing enters the pre-prepare log, view and sequence number stay, signatures only add up. -/
structure Quiet (n n' : PBFTNode ι Op PK SK Sig) : Prop where
  log : ∀ seq pp, n'.prePrepareLog.get? seq = some pp → n.prePrepareLog.get? seq = some pp
  view : n'.view = n.view
  lastSequence : n'.lastSequence = n.lastSequence
  signed : n.signed ⊆ n'.signed

namespace Quiet

variable {n n' n'' : PBFTNode ι Op PK SK Sig}

section

omit [LinearOrder ι]

theorem refl (n : PBFTNode ι Op PK SK Sig) : Quiet n n :=
  ⟨fun _ _ found => found, rfl, rfl, List.Subset.refl _⟩

theorem trans (first : Quiet n n') (second : Quiet n' n'') : Quiet n n'' :=
  ⟨fun seq pp found => first.log seq pp (second.log seq pp found), second.view.trans first.view,
    second.lastSequence.trans first.lastSequence, List.Subset.trans first.signed second.signed⟩

theorem advanceWatermark (n : PBFTNode ι Op PK SK Sig) : Quiet n n.advanceWatermark := by
  unfold PBFTNode.advanceWatermark
  split
  · refine ⟨?_, rfl, rfl, List.Subset.refl _⟩
    intro seq pp found
    rw [Dict.get?_filterKeys] at found
    split at found
    · exact found
    · cases found
  · exact refl n

end

theorem tryCommitQuorum (n : PBFTNode ι Op PK SK Sig) (sequence : Int) (digest : String) :
    Quiet n (n.tryCommitQuorum sequence digest) := by
  rcases n.tryCommitQuorum_cases sequence digest with same | ⟨_, out⟩
  · rw [same]
    exact refl n
  · rw [out]
    have finalized : Quiet n (n.finalize sequence digest) :=
      ⟨fun _ _ found => found, rfl, rfl, List.Subset.refl _⟩
    exact finalized.trans (advanceWatermark _)

section

variable (p : Primitives ι Op PK SK Sig) (n : PBFTNode ι Op PK SK Sig)

theorem tryPrepareQuorum (sequence : Int)
    (digest : String) : Quiet n (n.tryPrepareQuorum p sequence digest) := by
  rcases n.tryPrepareQuorum_cases p sequence digest with same | out
  · rw [same]
    exact refl n
  · rw [out]
    have committed : Quiet n ((n.signing (.message n.nodeId n.view sequence digest)).logCommit
        sequence (n.ownMessage p .commit n.view sequence digest)) :=
      ⟨fun _ _ found => found, rfl, rfl, List.subset_append_left _ _⟩
    exact committed.trans (tryCommitQuorum _ sequence digest)

theorem handlePrepare (msg : PBFTMessage ι Op Sig) : Quiet n (n.handlePrepare p msg).2 := by
  rcases n.handlePrepare_cases p msg with same | ⟨_, _, _, out⟩
  · rw [same]
    exact refl n
  · rw [out]
    have logged : Quiet n (n.logPrepare msg.sequence msg) :=
      ⟨fun _ _ found => found, rfl, rfl, List.Subset.refl _⟩
    exact logged.trans (tryPrepareQuorum p _ msg.sequence msg.digest)

theorem handleCommit (msg : PBFTMessage ι Op Sig) : Quiet n (n.handleCommit p msg).2 := by
  rcases n.handleCommit_cases p msg with same | ⟨_, _, out⟩
  · rw [same]
    exact refl n
  · rw [out]
    have logged : Quiet n (n.logCommit msg.sequence msg) :=
      ⟨fun _ _ found => found, rfl, rfl, List.Subset.refl _⟩
    exact logged.trans (tryCommitQuorum _ msg.sequence msg.digest)

end

omit [LinearOrder ι] in
theorem startViewChange (p : Primitives ι Op PK SK Sig) (n : PBFTNode ι Op PK SK Sig) :
    Quiet n (n.startViewChange p) := by
  rcases n.startViewChange_cases p with same | ⟨_, _, out⟩
  · rw [same]
    exact refl n
  · rw [out]
    exact ⟨fun _ _ found => found, rfl, rfl, List.subset_append_left _ _⟩

end Quiet

omit [LinearOrder ι] in
theorem foldl_replayEntry (p : Primitives ι Op PK SK Sig) (newView : Int)
    (items : List (Int × PBFTMessage ι Op Sig)) (n : PBFTNode ι Op PK SK Sig) :
    (items.foldl (replayEntry p newView) n).view = n.view ∧
      n.signed ⊆ (items.foldl (replayEntry p newView) n).signed := by
  induction items generalizing n with
  | nil => exact ⟨rfl, List.Subset.refl _⟩
  | cons item rest ih =>
    rw [List.foldl_cons]
    obtain ⟨view, signed⟩ := ih (n.replayEntry p newView item)
    rcases n.replayEntry_cases p newView item with same | ⟨_, out⟩
    · rw [same] at view signed ⊢
      exact ⟨view, signed⟩
    · rw [out] at view signed ⊢
      exact ⟨view, List.Subset.trans (List.subset_append_left _ _) signed⟩

theorem handleNewView_view (p : Primitives ι Op PK SK Sig) {n : PBFTNode ι Op PK SK Sig}
    {message : NewView ι Op Sig} (later : n.view < message.newView)
    (verified : n.verifyPayload p message.sender (.newView message.sender message.newView)
      message.signature = true) : (n.handleNewView p message).view = message.newView := by
  unfold handleNewView
  rw [if_neg (not_le.mpr later), if_neg (by simp [verified])]
  exact (foldl_replayEntry p message.newView _ _).1

end DistLLM.Pbft.PBFTNode
