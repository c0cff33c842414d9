import DistLLM.Library.Machine
import DistLLM.Pbft.Handlers
import Mathlib.Algebra.GroupWithZero.Nat

/-!
# A PBFT cluster with Byzantine members

The honest nodes run their handlers. Everything else is the adversary: it delivers any message
to any honest node in any order and as often as it likes, as long as a signature that verifies
under the key of an honest node is on a payload that this node has signed.
-/
namespace DistLLM.Pbft

open DistLLM.Library PBFTNode

/-! ### The system -/

/-- A cluster of `3f + 1` nodes or more, at most `f` of them Byzantine. -/
structure Cluster (ι Op PK SK Sig : Type) [LinearOrder ι] where
  primitives : Primitives ι Op PK SK Sig
  nodeIds : List ι
  distinct : nodeIds.Nodup
  f : Nat
  size : 3 * f + 1 ≤ nodeIds.length
  signingKey : ι → SK
  byzantine : Finset ι
  byzantine_members : byzantine ⊆ nodeIds.toFinset
  few : byzantine.card ≤ f

variable {ι Op PK SK Sig : Type} [LinearOrder ι]

namespace Cluster

variable (c : Cluster ι Op PK SK Sig)

def members : Finset ι := c.nodeIds.toFinset

def Honest (i : ι) : Prop := i ∈ c.members ∧ i ∉ c.byzantine

instance (i : ι) : Decidable (c.Honest i) := inferInstanceAs (Decidable (_ ∧ _))

def publicKeyOf (i : ι) : PK := c.primitives.publicKey (c.signingKey i)

def primaryOf (view : Int) : Option ι :=
  (c.nodeIds.insertionSort (· ≤ ·))[(view % (c.nodeIds.insertionSort (· ≤ ·)).length).toNat]?

theorem card_members : c.members.card = c.nodeIds.length :=
  List.toFinset_card_of_nodup c.distinct

end Cluster

/-- What a node can be given: a call of its client or its operator, or a message. -/
inductive Input (ι Op Sig : Type)
  | request (operation : Op)
  | prePrepare (msg : PBFTMessage ι Op Sig)
  | prepare (msg : PBFTMessage ι Op Sig)
  | commit (msg : PBFTMessage ι Op Sig)
  | startViewChange
  | viewChange (message : ViewChange ι Op Sig)
  | newView (message : NewView ι Op Sig)
  deriving DecidableEq

def PBFTNode.receive (p : Primitives ι Op PK SK Sig) (n : PBFTNode ι Op PK SK Sig) :
    Input ι Op Sig → PBFTNode ι Op PK SK Sig
  | .request operation => (n.handleRequest p operation).2
  | .prePrepare msg => (n.handlePrePrepare p msg).2
  | .prepare msg => (n.handlePrepare p msg).2
  | .commit msg => (n.handleCommit p msg).2
  | .startViewChange => n.startViewChange p
  | .viewChange message => n.handleViewChange p message
  | .newView message => n.handleNewView p message

theorem PBFTNode.signed_subset_receive (p : Primitives ι Op PK SK Sig)
    (n : PBFTNode ι Op PK SK Sig) (input : Input ι Op Sig) :
    n.signed ⊆ (n.receive p input).signed := by
  have same {n' : PBFTNode ι Op PK SK Sig} (eq : n' = n) : n.signed ⊆ n'.signed := by
    rw [eq]
    exact List.Subset.refl _
  cases input with
  | request operation =>
    rcases n.handleRequest_cases p operation with eq | ⟨_, msg, _, _, out⟩
    · exact same eq
    · simp only [receive, out]
      exact List.subset_append_left _ _
  | prePrepare msg =>
    rcases n.handlePrePrepare_cases p msg with eq | ⟨_, _, _, _, _, _, out⟩
    · exact same eq
    · simp only [receive, out]
      refine List.Subset.trans ?_ (Quiet.tryPrepareQuorum p _ _ _).signed
      exact List.subset_append_left _ _
  | prepare msg => exact (Quiet.handlePrepare p n msg).signed
  | commit msg => exact (Quiet.handleCommit p n msg).signed
  | startViewChange => exact (Quiet.startViewChange p n).signed
  | viewChange message =>
    rcases n.handleViewChange_cases p message with eq | ⟨_, out⟩ | ⟨_, _, _, out⟩
    · exact same eq
    · simp only [receive, out]
      exact List.Subset.refl _
    · simp only [receive, out]
      exact List.subset_append_left _ _
  | newView message =>
    rcases n.handleNewView_cases p message with eq | ⟨_, _, out⟩
    · exact same eq
    · simp only [receive, out]
      have grown := (foldl_replayEntry p message.newView message.checkpoint.prePrepareLog
        (n.steering message.newView n.lastSequence false n.viewChangeMessages
          n.newViewMessages)).2
      exact grown

abbrev ClusterState (ι Op PK SK Sig : Type) := ι → PBFTNode ι Op PK SK Sig

structure ClusterAction (ι Op Sig : Type) where
  node : ι
  input : Input ι Op Sig

variable (c : Cluster ι Op PK SK Sig) (s : ClusterState ι Op PK SK Sig)

/-- Constructed nodes with the public keys of all members, and no others, registered. -/
def Initial : Prop :=
  ∃ keys : Dict ι PK,
    (∀ j, keys.get? j = if j ∈ c.members then some (c.publicKeyOf j) else none) ∧
    ∀ i ∈ c.members,
      PBFTNode.init c.primitives i c.nodeIds (some c.f) (c.signingKey i) keys = some (s i)

/-- Constructed nodes that have gone to a common view, as with new views that bring nothing. -/
def StartsIn (v : Int) (s : ClusterState ι Op PK SK Sig) : Prop :=
  ∃ s₀, Initial c s₀ ∧ ∀ i, c.Honest i → s i = { s₀ i with view := v }

variable {c s} in
theorem Initial.startsIn (start : Initial c s) : StartsIn c 0 s := by
  refine ⟨s, start, fun i honest => ?_⟩
  obtain ⟨keys, _, built⟩ := start
  have view := (init_fresh c.primitives (built i honest.1)).view
  rw [← view]

/-- A signature that passes for one of an honest sender was made by it. -/
def Unforged (sender : ι) (payload : Payload ι) (signature : Option Sig) : Prop :=
  c.Honest sender → ∀ sig ∈ signature,
    c.primitives.verify (c.publicKeyOf sender) payload sig = true → payload ∈ (s sender).signed

variable {c s} in
/-- A payload that a node verifies is from a member, and an honest one has signed it. -/
theorem Unforged.authentic {n : PBFTNode ι Op PK SK Sig} {sender : ι} {payload : Payload ι}
    {signature : Option Sig} (unforged : Unforged c s sender payload signature)
    (keys : n.publicKeys.get? sender =
      if sender ∈ c.members then some (c.publicKeyOf sender) else none)
    (verified : n.verifyPayload c.primitives sender payload signature = true) :
    sender ∈ c.members ∧ (sender ∉ c.byzantine → payload ∈ (s sender).signed) := by
  unfold PBFTNode.verifyPayload at verified
  split at verified
  · next sig pub found =>
    rw [keys] at found
    split at found
    · next member =>
      cases found
      exact ⟨member, fun honest => unforged ⟨member, honest⟩ sig rfl verified⟩
    · cases found
  · cases verified

instance (c : Cluster ι Op PK SK Sig) (s : ClusterState ι Op PK SK Sig) (sender : ι)
    (payload : Payload ι) (signature : Option Sig) :
    Decidable (Unforged c s sender payload signature) :=
  inferInstanceAs (Decidable (_ → _))

/-- An honest node is given something the adversary can make. -/
def Enabled (a : ClusterAction ι Op Sig) : Prop :=
  c.Honest a.node ∧
    match a.input with
    | .request _ => True
    | .prePrepare msg => Unforged c s msg.sender msg.payload msg.signature
    | .prepare msg => Unforged c s msg.sender msg.payload msg.signature
    | .commit msg => Unforged c s msg.sender msg.payload msg.signature
    | .startViewChange => True
    | .viewChange m => Unforged c s m.nodeId (.viewChange m.nodeId m.newView m.lastCommitted)
        m.signature
    | .newView m => Unforged c s m.sender (.newView m.sender m.newView) m.signature

def exec (a : ClusterAction ι Op Sig) : ClusterState ι Op PK SK Sig :=
  Function.update s a.node ((s a.node).receive c.primitives a.input)

def pbft :
    Machine (ClusterState ι Op PK SK Sig) (ClusterAction ι Op Sig) where
  init := Initial c
  enabled := Enabled c
  exec := exec c

instance (c : Cluster ι Op PK SK Sig) (s : ClusterState ι Op PK SK Sig) :
    ∀ a, Decidable ((pbft c).enabled s a)
  | ⟨i, .request _⟩ => inferInstanceAs (Decidable (c.Honest i ∧ True))
  | ⟨i, .prePrepare msg⟩ | ⟨i, .prepare msg⟩ | ⟨i, .commit msg⟩ => inferInstanceAs
      (Decidable (c.Honest i ∧ Unforged c s msg.sender msg.payload msg.signature))
  | ⟨i, .startViewChange⟩ => inferInstanceAs (Decidable (c.Honest i ∧ True))
  | ⟨i, .viewChange m⟩ => inferInstanceAs (Decidable (c.Honest i ∧
      Unforged c s m.nodeId (.viewChange m.nodeId m.newView m.lastCommitted) m.signature))
  | ⟨i, .newView m⟩ => inferInstanceAs (Decidable (c.Honest i ∧
      Unforged c s m.sender (.newView m.sender m.newView) m.signature))

/-- The cluster from a common view on. -/
def pbftIn (v : Int) : Machine (ClusterState ι Op PK SK Sig) (ClusterAction ι Op Sig) :=
  { pbft c with init := StartsIn c v }

instance (c : Cluster ι Op PK SK Sig) (v : Int) (s : ClusterState ι Op PK SK Sig)
    (a : ClusterAction ι Op Sig) : Decidable ((pbftIn c v).enabled s a) :=
  inferInstanceAs (Decidable ((pbft c).enabled s a))

def StaysInView (a : ClusterAction ι Op Sig) : Prop :=
  ((s a.node).receive c.primitives a.input).view = (s a.node).view

instance (c : Cluster ι Op PK SK Sig) (s : ClusterState ι Op PK SK Sig)
    (a : ClusterAction ι Op Sig) : Decidable (StaysInView c s a) :=
  inferInstanceAs (Decidable (_ = _))

/-- A request taken up gets a sequence number without a log entry of another digest. -/
def FreshSequence (p : Primitives ι Op PK SK Sig) (n : PBFTNode ι Op PK SK Sig) (operation : Op) :
    Prop :=
  n.TakesRequest → ∀ pp ∈ n.prePrepareLog.get? (n.lastSequence + 1),
    pp.digest = p.computeDigest operation

instance (p : Primitives ι Op PK SK Sig) (n : PBFTNode ι Op PK SK Sig) (operation : Op) :
    Decidable (FreshSequence p n operation) :=
  inferInstanceAs (Decidable (_ → _))

/-- The entries that an accepted new view brings are not below the watermark, and their
operations have the digests they claim. -/
def SoundCheckpoint (p : Primitives ι Op PK SK Sig) (n : PBFTNode ι Op PK SK Sig)
    (message : NewView ι Op Sig) : Prop :=
  n.view < message.newView →
    n.verifyPayload p message.sender (.newView message.sender message.newView)
      message.signature = true →
    ∀ item ∈ message.checkpoint.prePrepareLog, n.prePrepareLog.get? item.1 = none →
      n.lowWatermark ≤ item.1 ∧ ∀ op ∈ item.2.operation, p.computeDigest op = item.2.digest

instance (p : Primitives ι Op PK SK Sig) (n : PBFTNode ι Op PK SK Sig)
    (message : NewView ι Op Sig) : Decidable (SoundCheckpoint p n message) :=
  inferInstanceAs (Decidable (_ → _ → _))

/-- No step makes a node sign a second digest at a sequence number or log an operation under a
digest that is not its own. -/
def KeepsDigests (a : ClusterAction ι Op Sig) : Prop :=
  match a.input with
  | .request operation => FreshSequence c.primitives (s a.node) operation
  | .newView message => SoundCheckpoint c.primitives (s a.node) message
  | _ => True

instance (c : Cluster ι Op PK SK Sig) (s : ClusterState ι Op PK SK Sig) :
    ∀ a, Decidable (KeepsDigests c s a)
  | ⟨i, .request operation⟩ =>
    inferInstanceAs (Decidable (FreshSequence c.primitives (s i) operation))
  | ⟨i, .newView message⟩ =>
    inferInstanceAs (Decidable (SoundCheckpoint c.primitives (s i) message))
  | ⟨_, .prePrepare _⟩ | ⟨_, .prepare _⟩ | ⟨_, .commit _⟩ | ⟨_, .startViewChange⟩
  | ⟨_, .viewChange _⟩ => .isTrue trivial

/-- A signature that names its key and repeats the text. -/
abbrev IdealSignature (N : Nat) := Fin N × Payload (Fin N)

/-- Signatures that verify exactly under the key that made them; an operation is its digest. -/
def ideal (N : Nat) : Primitives (Fin N) String (Fin N) (Fin N) (IdealSignature N) where
  computeDigest operation := operation
  truthy operation := decide (operation ≠ "")
  publicKey key := key
  sign key payload := (key, payload)
  verify key payload signature := decide (signature = (key, payload))

scoped instance (priority := high) fourNodes : NeZero 4 := ⟨by decide⟩

theorem four_suffice : 3 * 1 + 1 ≤ 4 := by decide

def idealCluster (N f : Nat) (size : 3 * f + 1 ≤ N) (byzantine : Finset (Fin N))
    (few : byzantine.card ≤ f) : Cluster (Fin N) String (Fin N) (Fin N) (IdealSignature N) where
  primitives := ideal N
  nodeIds := List.finRange N
  distinct := List.nodup_finRange N
  f := f
  size := by simpa using size
  signingKey i := i
  byzantine := byzantine
  byzantine_members i _ := by simp
  few := few

def idealKeys (N : Nat) : Dict (Fin N) (Fin N) where
  entries := (List.finRange N).map fun i => (i, i)
  distinct := by simpa [List.map_map, Function.comp_def] using List.nodup_finRange N

def idealStart (N f : Nat) (i : Fin N) :
    PBFTNode (Fin N) String (Fin N) (Fin N) (IdealSignature N) :=
  (PBFTNode.init (ideal N) i (List.finRange N) (some f) i (idealKeys N)).get (by
    simp [PBFTNode.init])

theorem idealStart_initial (N f : Nat) (size : 3 * f + 1 ≤ N) (byzantine : Finset (Fin N))
    (few : byzantine.card ≤ f) :
    Initial (idealCluster N f size byzantine few) (idealStart N f) := by
  refine ⟨idealKeys N, ?_, fun i _ => (Option.some_get _).symm⟩
  intro j
  have member : j ∈ (idealCluster N f size byzantine few).members := by
    simp [Cluster.members, idealCluster]
  rw [if_pos member]
  apply (Dict.mem_entries_iff (idealKeys N) j j).mp
  simp [idealKeys]

def idealMessage {N : Nat} (phase : PBFTPhase) (view : Int) (sender : Fin N) (sequence : Int)
    (digest : String) (operation : Option String) : PBFTMessage (Fin N) String (IdealSignature N) :=
  { phase, view, sequence, digest, sender, operation,
    signature := some (sender, .message sender view sequence digest) }

end DistLLM.Pbft
