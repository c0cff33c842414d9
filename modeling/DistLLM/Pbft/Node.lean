import DistLLM.Library.Dict
import Mathlib.Data.Finset.Sort

/-!
# PBFTNode

The consensus participant of the Byzantine layer: its logs and its handlers. Node ids `ι`,
operations `Op`, keys and signatures stay abstract, and what the node computes with them is a
parameter. Nothing is sent in the code: a message a node broadcasts is one it signed and put
in its own log. So the node keeps, as histories beside its state, the payloads it signed and
the operations it finalized.
-/
namespace DistLLM.Pbft

open DistLLM.Library

inductive PBFTPhase
  | prePrepare
  | prepare
  | commit
  | reply
  deriving DecidableEq, Repr

structure PBFTMessage (ι Op Sig : Type) where
  phase : PBFTPhase
  view : Int
  sequence : Int
  digest : String
  sender : ι
  operation : Option Op := none
  signature : Option Sig := none
  deriving DecidableEq

/-- The texts that are signed, by their parts. The one of a message names no phase. -/
inductive Payload (ι : Type)
  | message (sender : ι) (view sequence : Int) (digest : String)
  | viewChange (nodeId : ι) (newView lastCommitted : Int)
  | newView (sender : ι) (newView : Int)
  deriving DecidableEq

def PBFTMessage.payload {ι Op Sig : Type} (msg : PBFTMessage ι Op Sig) : Payload ι :=
  .message msg.sender msg.view msg.sequence msg.digest

/-- A view-change message; only the node, the view and `last_committed` are signed. -/
structure ViewChange (ι Op Sig : Type) where
  nodeId : ι
  newView : Int
  lastCommitted : Int
  signature : Option Sig
  prePrepareLog : List (Int × PBFTMessage ι Op Sig)
  prepareLog : List (Int × List (PBFTMessage ι Op Sig))
  deriving DecidableEq

structure Checkpoint (ι Op Sig : Type) where
  prePrepareLog : List (Int × PBFTMessage ι Op Sig) := []
  prepareLog : List (Int × List (PBFTMessage ι Op Sig)) := []
  deriving DecidableEq

/-- A new-view message. An item of its checkpoint that does not parse raises after the items
before it were taken, as at the end of a shorter checkpoint. -/
structure NewView (ι Op Sig : Type) where
  newView : Int
  sender : ι
  signature : Option Sig
  checkpoint : Checkpoint ι Op Sig
  deriving DecidableEq

/-- Digests, truth values of operations, and Ed25519. -/
structure Primitives (ι Op PK SK Sig : Type) where
  computeDigest : Op → String
  truthy : Op → Bool
  publicKey : SK → PK
  sign : SK → Payload ι → Sig
  verify : PK → Payload ι → Sig → Bool

/-! ### The node -/

/-- A finalized sequence number: the digest of the quorum and the operation for the callback. -/
structure CommitRecord (Op : Type) where
  sequence : Int
  digest : String
  operation : Option Op
  deriving DecidableEq

structure PBFTNode (ι Op PK SK Sig : Type) where
  nodeId : ι
  nodeIds : List ι
  f : Nat
  signingKey : SK
  publicKeys : Dict ι PK
  view : Int
  lastSequence : Int
  committedSequences : Finset Int
  prePrepareLog : Dict Int (PBFTMessage ι Op Sig)
  prepareLog : Dict Int (List (PBFTMessage ι Op Sig))
  commitLog : Dict Int (List (PBFTMessage ι Op Sig))
  lowWatermark : Int
  watermarkWindow : Int
  viewChangeInProgress : Bool
  viewChangeMessages : Dict Int (List (ViewChange ι Op Sig))
  newViewMessages : Dict Int (NewView ι Op Sig)
  signed : List (Payload ι)
  commits : List (CommitRecord Op)

namespace PBFTNode

variable {ι Op PK SK Sig : Type} [LinearOrder ι] (p : Primitives ι Op PK SK Sig)
  (n : PBFTNode ι Op PK SK Sig)

/-- `PBFTNode.__init__`; the constructor raises for an id that is not in the list. -/
def init (nodeId : ι) (nodeIds : List ι) (f : Option Nat) (signingKey : SK)
    (nodePublicKeys : Dict ι PK) : Option (PBFTNode ι Op PK SK Sig) :=
  if nodeId ∈ nodeIds then
    some
      { nodeId := nodeId
        nodeIds := nodeIds.insertionSort (· ≤ ·)
        f := f.getD ((nodeIds.length - 1) / 3)
        signingKey := signingKey
        publicKeys := ((∅ : Dict ι PK).set nodeId (p.publicKey signingKey)).update nodePublicKeys
        view := 0
        lastSequence := 0
        committedSequences := ∅
        prePrepareLog := ∅
        prepareLog := ∅
        commitLog := ∅
        lowWatermark := 0
        watermarkWindow := 128
        viewChangeInProgress := false
        viewChangeMessages := ∅
        newViewMessages := ∅
        signed := []
        commits := [] }
  else none

/-- The primary of a view, `p = v mod |R|`. -/
def primaryOf (view : Int) : Option ι :=
  n.nodeIds[(view % n.nodeIds.length).toNat]?

def primary : Option ι := n.primaryOf n.view

def quorumSize : Nat := 2 * n.f + 1

variable (sequence : Int)

def checkSequenceWatermark : Prop :=
  n.lowWatermark ≤ sequence ∧ sequence ≤ n.lowWatermark + n.watermarkWindow

instance (n : PBFTNode ι Op PK SK Sig) (sequence : Int) :
    Decidable (n.checkSequenceWatermark sequence) :=
  inferInstanceAs (Decidable (_ ∧ _))

/-- Drop all logs below the lowest committed sequence number and make it the watermark. -/
def advanceWatermark : PBFTNode ι Op PK SK Sig :=
  if some : n.committedSequences.Nonempty then
    let oldest := n.committedSequences.min' some
    { n with
      prePrepareLog := n.prePrepareLog.filterKeys fun seq => decide (oldest ≤ seq)
      prepareLog := n.prepareLog.filterKeys fun seq => decide (oldest ≤ seq)
      commitLog := n.commitLog.filterKeys fun seq => decide (oldest ≤ seq)
      lowWatermark := oldest }
  else n

/-- Sign a payload with the node's key, and remember that it was signed. -/
def signPayload (payload : Payload ι) : Sig × PBFTNode ι Op PK SK Sig :=
  (p.sign n.signingKey payload, { n with signed := n.signed ++ [payload] })

/-- `_verify_bytes` under the registered key of the sender; without one, or without a
signature, it fails. -/
def verifyPayload (sender : ι) (payload : Payload ι) (signature : Option Sig) : Bool :=
  match signature, n.publicKeys.get? sender with
  | some sig, some pub => p.verify pub payload sig
  | _, _ => false

variable (msg : PBFTMessage ι Op Sig)

def verifySignature : Bool :=
  n.verifyPayload p msg.sender msg.payload msg.signature

/-- `_prepare_log.setdefault(seq, []).append(msg)`. -/
def logPrepare (msg : PBFTMessage ι Op Sig) :
    PBFTNode ι Op PK SK Sig :=
  { n with prepareLog := n.prepareLog.set sequence (n.prepareLog.getD sequence [] ++ [msg]) }

/-- `_commit_log.setdefault(seq, []).append(msg)`. -/
def logCommit (msg : PBFTMessage ι Op Sig) :
    PBFTNode ι Op PK SK Sig :=
  { n with commitLog := n.commitLog.set sequence (n.commitLog.getD sequence [] ++ [msg]) }

def senders (messages : List (PBFTMessage ι Op Sig)) (digest : String) : Finset ι :=
  ((messages.filter fun m => decide (m.digest = digest)).map PBFTMessage.sender).toFinset

/-- Count the sequence number as committed and hand its operation to the callback. -/
def finalize (digest : String) :
    PBFTNode ι Op PK SK Sig :=
  let operation := (n.prePrepareLog.get? sequence).bind PBFTMessage.operation
  { n with
    committedSequences := insert sequence n.committedSequences
    commits := n.commits ++ [{ sequence := sequence, digest := digest, operation := operation }] }

def tryCommitQuorum (digest : String) :
    PBFTNode ι Op PK SK Sig :=
  if n.quorumSize ≤ (senders (n.commitLog.getD sequence []) digest).card then
    if sequence ∉ n.committedSequences then (n.finalize sequence digest).advanceWatermark
    else n
  else n

/-- `_try_prepare_quorum`: broadcast COMMIT once a quorum prepared. -/
def tryPrepareQuorum (digest : String) : PBFTNode ι Op PK SK Sig :=
  if n.quorumSize ≤ (senders (n.prepareLog.getD sequence []) digest).card then
    -- one COMMIT for each sequence number, whatever the digest and the view
    let alreadyCommitted := sequence ∈ n.committedSequences
    let alreadyBroadcast :=
      ∃ m ∈ n.commitLog.getD sequence [], m.sender = n.nodeId ∧ m.phase = .commit
    if ¬ alreadyCommitted ∧ ¬ alreadyBroadcast then
      let (signature, n) := n.signPayload p (.message n.nodeId n.view sequence digest)
      let commit := { phase := .commit, view := n.view, sequence, digest, sender := n.nodeId,
                      signature := some signature }
      (n.logCommit sequence commit).tryCommitQuorum sequence digest
    else n
  else n

def handlePrePrepareFrom (fromPrimary : Bool) : Bool × PBFTNode ι Op PK SK Sig :=
  if msg.phase ≠ .prePrepare then (false, n)
  else if ¬ fromPrimary ∧ ¬ n.verifySignature p msg then (false, n)
  else if ¬ fromPrimary ∧ some msg.sender ≠ n.primary then (false, n)
  else if ¬ fromPrimary ∧ msg.view ≠ n.view then (false, n)
  else if ¬ n.checkSequenceWatermark msg.sequence then (false, n)
  else if ∃ op ∈ msg.operation, p.computeDigest op ≠ msg.digest then (false, n)
  else
    match n.prePrepareLog.get? msg.sequence with
    -- the same digest again is accepted, without another PREPARE
    | some existing => (decide (existing.digest = msg.digest), n)
    | none =>
      let n := { n with prePrepareLog := n.prePrepareLog.set msg.sequence msg }
      let (signature, n) := n.signPayload p (.message n.nodeId n.view msg.sequence msg.digest)
      let prepare := { phase := .prepare, view := n.view, sequence := msg.sequence,
                       digest := msg.digest, sender := n.nodeId, signature := some signature }
      (true, (n.logPrepare msg.sequence prepare).tryPrepareQuorum p msg.sequence msg.digest)

def handlePrePrepare : Bool × PBFTNode ι Op PK SK Sig :=
  n.handlePrePrepareFrom p msg false

/-- `handle_request`. The log entry of the sequence number is overwritten. -/
def handleRequest (operation : Op) :
    Option (PBFTMessage ι Op Sig) × PBFTNode ι Op PK SK Sig :=
  if some n.nodeId ≠ n.primary then (none, n)
  else if n.viewChangeInProgress then (none, n)
  else
    let digest := p.computeDigest operation
    -- the counter of the own requests; nothing else moves it
    let sequence := n.lastSequence + 1
    if ¬ n.checkSequenceWatermark sequence then (none, n)
    else
      let n := { n with lastSequence := sequence }
      let (signature, n) := n.signPayload p (.message n.nodeId n.view sequence digest)
      let msg := { phase := .prePrepare, view := n.view, sequence, digest, sender := n.nodeId,
                   operation := some operation, signature := some signature }
      let n := { n with prePrepareLog := n.prePrepareLog.set sequence msg }
      (some msg, (n.handlePrePrepareFrom p msg true).2)

def handlePrepare : Bool × PBFTNode ι Op PK SK Sig :=
  if msg.phase ≠ .prepare then (false, n)
  else if msg.view ≠ n.view then (false, n)
  -- the own PREPARE is in the log already
  else if msg.sender = n.nodeId then (true, n)
  else if ¬ n.verifySignature p msg then (false, n)
  else
    match n.prePrepareLog.get? msg.sequence with
    | none => (false, n)
    | some expected =>
      if msg.digest ≠ expected.digest then (false, n)
      -- one PREPARE of each sender for a sequence number, of whatever view
      else if ∃ m ∈ n.prepareLog.getD msg.sequence [], m.sender = msg.sender then (true, n)
      else
        (true, (n.logPrepare msg.sequence msg).tryPrepareQuorum p msg.sequence msg.digest)

/-- `handle_commit`. A message in the node's own name is not verified. -/
def handleCommit : Bool × PBFTNode ι Op PK SK Sig :=
  if msg.phase ≠ .commit then (false, n)
  else if msg.view ≠ n.view then (false, n)
  else if msg.sender ≠ n.nodeId ∧ ¬ n.verifySignature p msg then (false, n)
  else if (senders (n.prepareLog.getD msg.sequence []) msg.digest).card < n.quorumSize then
    (false, n)
  else if ∃ m ∈ n.commitLog.getD msg.sequence [], m.sender = msg.sender then (true, n)
  else (true, (n.logCommit msg.sequence msg).tryCommitQuorum msg.sequence msg.digest)

def startViewChange :
    PBFTNode ι Op PK SK Sig :=
  if n.viewChangeInProgress then n
  else
    let newView := n.view + 1
    let lastCommitted :=
      if some : n.committedSequences.Nonempty then n.committedSequences.max' some else 0
    let (signature, n) := n.signPayload p (.viewChange n.nodeId newView lastCommitted)
    let message :=
      { nodeId := n.nodeId
        newView
        lastCommitted
        signature := some signature
        prePrepareLog := n.prePrepareLog.entries.filter fun e => decide (e.1 > n.lowWatermark)
        prepareLog := n.prepareLog.entries.filter fun e => decide (e.1 > n.lowWatermark) }
    { n with
      viewChangeInProgress := true
      viewChangeMessages :=
        n.viewChangeMessages.set newView (n.viewChangeMessages.getD newView [] ++ [message]) }

/-- One item of the checkpoint: take the entry over if there is none, and prepare it. -/
def replayEntry (newView : Int) (n : PBFTNode ι Op PK SK Sig)
    (item : Int × PBFTMessage ι Op Sig) : PBFTNode ι Op PK SK Sig :=
  let (seq, data) := item
  let msg := { data with view := newView }
  match n.prePrepareLog.get? seq with
  -- an entry of the node's own stays, even if it differs
  | some _ => n
  | none =>
    let n := { n with prePrepareLog := n.prePrepareLog.set seq msg }
    let (signature, n) := n.signPayload p (.message n.nodeId newView seq msg.digest)
    n.logPrepare seq
      { phase := .prepare, view := newView, sequence := seq, digest := msg.digest,
        sender := n.nodeId, signature := some signature }

/-- `handle_new_view`. Neither that the sender is the new primary nor the checkpoint is checked. -/
def handleNewView (message : NewView ι Op Sig) : PBFTNode ι Op PK SK Sig :=
  if message.newView ≤ n.view then n
  else if ¬ n.verifyPayload p message.sender (.newView message.sender message.newView)
      message.signature then n
  else
    -- entered before the checkpoint is read, so it stays entered if an item raises
    let n := { n with view := message.newView, viewChangeInProgress := false }
    message.checkpoint.prePrepareLog.foldl (replayEntry p message.newView) n

/-- The checkpoint of the last message among those that committed furthest. -/
def chooseCheckpoint (messages : List (ViewChange ι Op Sig)) : Checkpoint ι Op Sig :=
  let lastCommitted := (messages.map ViewChange.lastCommitted).foldl max
    ((messages.head?.map ViewChange.lastCommitted).getD 0)
  messages.foldl (fun checkpoint m =>
    if m.lastCommitted ≥ lastCommitted then
      { prePrepareLog := m.prePrepareLog, prepareLog := m.prepareLog }
    else checkpoint) {}

/-- `_broadcast_new_view`. The view is set first, so that `handle_new_view` returns at once. -/
def broadcastNewView (newView : Int) : PBFTNode ι Op PK SK Sig :=
  let checkpoint := chooseCheckpoint (n.viewChangeMessages.getD newView [])
  let (signature, n) := n.signPayload p (.newView n.nodeId newView)
  let message := { newView, sender := n.nodeId, signature := some signature, checkpoint }
  let n := { n with
    newViewMessages := n.newViewMessages.set newView message
    view := newView
    viewChangeInProgress := false }
  n.handleNewView p message

/-- `handle_view_change`. Messages are counted, not their senders. -/
def handleViewChange (message : ViewChange ι Op Sig) : PBFTNode ι Op PK SK Sig :=
  if message.nodeId ∉ n.nodeIds then n
  else if ¬ n.verifyPayload p message.nodeId
      (.viewChange message.nodeId message.newView message.lastCommitted) message.signature then n
  else if message.newView ≤ n.view then n
  else
    -- a message that comes twice counts twice
    let collected := n.viewChangeMessages.getD message.newView [] ++ [message]
    let n := { n with
      viewChangeMessages := n.viewChangeMessages.set message.newView collected }
    if n.quorumSize ≤ collected.length ∧ n.primaryOf message.newView = some n.nodeId then
      n.broadcastNewView p message.newView
    else n

/-- `get_committed_operations`: what the pre-prepare log now holds at the committed numbers. -/
def getCommittedOperations :
    List (Int × Op) :=
  (n.committedSequences.sort (· ≤ ·)).filterMap fun seq =>
    match (n.prePrepareLog.get? seq).bind PBFTMessage.operation with
    | some op => if p.truthy op then some (seq, op) else none
    | none => none

omit [LinearOrder ι] in
theorem mem_getCommittedOperations (seq : Int) (op : Op) : (seq, op) ∈ n.getCommittedOperations p ↔
      seq ∈ n.committedSequences ∧ p.truthy op = true ∧
        ∃ pp, n.prePrepareLog.get? seq = some pp ∧ pp.operation = some op := by
  unfold getCommittedOperations
  rw [List.mem_filterMap]
  constructor
  · rintro ⟨seq', member, kept⟩
    rw [Finset.mem_sort] at member
    split at kept
    · next op' found =>
      split at kept
      · next truthy =>
        cases kept
        obtain ⟨pp, entry, operation⟩ := Option.bind_eq_some_iff.mp found
        exact ⟨member, truthy, pp, entry, operation⟩
      · cases kept
    · cases kept
  · rintro ⟨member, truthy, pp, entry, operation⟩
    refine ⟨seq, (Finset.mem_sort _).mpr member, ?_⟩
    simp [entry, operation, truthy]

end PBFTNode

end DistLLM.Pbft
