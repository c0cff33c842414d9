import DistLLM.Library.Quorum
import DistLLM.Pbft.Cluster

/-!
# What an honest node keeps

An honest node that keeps its digests signs at most one digest at each sequence number, and its
logs remember which: below the watermark nothing is signed any more, above it the pre-prepare
log holds the digest. What it finalizes is backed by a quorum of members, of whom the honest
ones signed the digest.
-/
namespace DistLLM.Pbft

open DistLLM.Library PBFTNode

variable {ι Op PK SK Sig : Type} [LinearOrder ι]

/-- The digest has the voice of `j`: a member, and if honest it signed the digest. -/
def Backed (c : Cluster ι Op PK SK Sig) (signed : ι → List (Payload ι)) (sequence : Int)
    (digest : String) (j : ι) : Prop :=
  j ∈ c.members ∧ (j ∉ c.byzantine → ∃ view, .message j view sequence digest ∈ signed j)

variable {signed' : ι → List (Payload ι)} {sequence : Int} {digest : String}
  {signed : ι → List (Payload ι)}

theorem Backed.mono {c : Cluster ι Op PK SK Sig} {j : ι} (grown : ∀ j, signed j ⊆ signed' j)
    (backed : Backed c signed sequence digest j) : Backed c signed' sequence digest j := by
  refine ⟨backed.1, fun honest => ?_⟩
  obtain ⟨view, made⟩ := backed.2 honest
  exact ⟨view, grown j made⟩

def QuorumBacks (c : Cluster ι Op PK SK Sig) (signed : ι → List (Payload ι)) (sequence : Int)
    (digest : String) : Prop :=
  ∃ A ⊆ c.members, 2 * c.f + 1 ≤ A.card ∧ ∀ j ∈ A, Backed c signed sequence digest j

theorem QuorumBacks.mono {c : Cluster ι Op PK SK Sig} (grown : ∀ j, signed j ⊆ signed' j)
    (quorum : QuorumBacks c signed sequence digest) : QuorumBacks c signed' sequence digest := by
  obtain ⟨A, members, large, backed⟩ := quorum
  exact ⟨A, members, large, fun j inA => (backed j inA).mono grown⟩

def Logged (n : PBFTNode ι Op PK SK Sig) (sequence : Int) (digest : String) : Prop :=
  ∃ pp, n.prePrepareLog.get? sequence = some pp ∧ pp.digest = digest

/-- What everybody signed so far, with the node's own part read off the node. -/
def known (signed : ι → List (Payload ι)) (i : ι) (n : PBFTNode ι Op PK SK Sig) :
    ι → List (Payload ι) :=
  Function.update signed i n.signed

structure NodeInv (c : Cluster ι Op PK SK Sig) (signed : ι → List (Payload ι)) (i : ι)
    (n : PBFTNode ι Op PK SK Sig) : Prop where
  member : i ∈ c.members
  nodeId : n.nodeId = i
  faults : n.f = c.f
  order : n.nodeIds = c.nodeIds.insertionSort (· ≤ ·)
  keys : ∀ j, n.publicKeys.get? j = if j ∈ c.members then some (c.publicKeyOf j) else none
  once : ∀ view view' sequence digest digest', .message i view sequence digest ∈ n.signed →
    .message i view' sequence digest' ∈ n.signed → digest = digest'
  remembered : ∀ view sequence digest, .message i view sequence digest ∈ n.signed →
    sequence < n.lowWatermark ∨ Logged n sequence digest
  retained : ∀ sequence digest, Logged n sequence digest → n.lowWatermark ≤ sequence
  promised : ∀ sequence digest, Logged n sequence digest →
    ∃ view, .message i view sequence digest ∈ n.signed
  operations : ∀ sequence pp, n.prePrepareLog.get? sequence = some pp →
    ∀ op ∈ pp.operation, c.primitives.computeDigest op = pp.digest
  prepares : ∀ sequence, ∀ m ∈ n.prepareLog.getD sequence [], Logged n sequence m.digest
  votes : ∀ sequence, ∀ m ∈ n.commitLog.getD sequence [],
    Backed c (known signed i n) sequence m.digest m.sender
  committed : ∀ sequence ∈ n.committedSequences, ∃ r ∈ n.commits, r.sequence = sequence
  finalized : ∀ r ∈ n.commits, r.sequence ∈ n.committedSequences ∧
    Logged n r.sequence r.digest ∧
    (∀ op ∈ r.operation, c.primitives.computeDigest op = r.digest) ∧
    QuorumBacks c (known signed i n) r.sequence r.digest

namespace NodeInv

variable {c : Cluster ι Op PK SK Sig} {signed : ι → List (Payload ι)} {i : ι}
  {n : PBFTNode ι Op PK SK Sig}

section

omit [LinearOrder ι]

theorem known_grown [DecidableEq ι] (signed : ι → List (Payload ι)) (i : ι)
    {n m : PBFTNode ι Op PK SK Sig} (grown : n.signed ⊆ m.signed) (j : ι) :
    Function.update signed i n.signed j ⊆ Function.update signed i m.signed j := by
  by_cases own : j = i
  · subst own
    rw [Function.update_self, Function.update_self]
    exact grown
  · rw [Function.update_of_ne own, Function.update_of_ne own]
    exact List.Subset.refl _

theorem logged_unique {digest' : String} (first : Logged n sequence digest)
    (second : Logged n sequence digest') : digest = digest' := by
  obtain ⟨pp, found, rfl⟩ := first
  obtain ⟨pp', found', rfl⟩ := second
  cases found.symm.trans found'
  rfl

theorem logged_accepting {view : Int} {msg : PBFTMessage ι Op Sig} {s : Int} {d : String}
    (held : Logged (n.accepting view sequence msg) s d) :
    (s = sequence ∧ d = msg.digest) ∨ Logged n s d := by
  obtain ⟨pp, found, rfl⟩ := held
  simp only [accepting, Dict.get?_set] at found
  split at found
  · next same =>
    cases found
    exact Or.inl ⟨same.symm, rfl⟩
  · exact Or.inr ⟨pp, found, rfl⟩

end

theorem init {keys : Dict ι PK}
    (registered : ∀ j, keys.get? j = if j ∈ c.members then some (c.publicKeyOf j) else none)
    (member : i ∈ c.members)
    (built : PBFTNode.init c.primitives i c.nodeIds (some c.f) (c.signingKey i) keys = some n) :
    NodeInv c signed i n := by
  unfold PBFTNode.init at built
  rw [if_pos (List.mem_toFinset.mp member)] at built
  cases built
  refine ⟨member, rfl, rfl, rfl, ?_, ?_, ?_, ?_, ?_, ?_, ?_, ?_, ?_, ?_⟩
  · intro j
    simp only [Dict.get?_update, Dict.get?_set, registered]
    by_cases known : j ∈ c.members
    · simp [known]
    · have other : i ≠ j := fun same => known (same ▸ member)
      simp [known, other]
  · intro view view' sequence digest digest' made
    cases made
  · intro view sequence digest made
    cases made
  · rintro sequence digest ⟨pp, found, _⟩
    cases found
  · rintro sequence digest ⟨pp, found, _⟩
    cases found
  · intro sequence pp found
    cases found
  · intro sequence m logged
    cases logged
  · intro sequence m logged
    cases logged
  · intro sequence done
    simp at done
  · intro r done
    cases done

/-! ### Changes that all handlers share -/

section

variable (inv : NodeInv c signed i n)

include inv

theorem steering (view lastSequence : Int) (inProgress : Bool)
    (messages : Dict Int (List (ViewChange ι Op Sig))) (newViews : Dict Int (NewView ι Op Sig)) :
    NodeInv c signed i (n.steering view lastSequence inProgress messages newViews) :=
  { inv with }

theorem signing (payload : Payload ι)
    (logged : ∀ view sequence digest, payload = .message i view sequence digest →
      Logged n sequence digest) : NodeInv c signed i (n.signing payload) := by
  have grown := known_grown signed i (n := n) (m := n.signing payload)
    (List.subset_append_left _ _)
  -- whatever is signed now is old or in the log
  have either : ∀ view sequence digest,
      .message i view sequence digest ∈ (n.signing payload).signed →
      .message i view sequence digest ∈ n.signed ∨ Logged n sequence digest := by
    intro view sequence digest made
    rcases List.mem_append.mp made with old | new
    · exact Or.inl old
    · exact Or.inr (logged view sequence digest (List.mem_singleton.mp new).symm)
  have inLog : ∀ view sequence digest digest', .message i view sequence digest ∈ n.signed →
      Logged n sequence digest' → digest = digest' := by
    intro view sequence digest digest' made held
    rcases inv.remembered view sequence digest made with below | held'
    · exact absurd (inv.retained sequence digest' held) (not_le.mpr below)
    · exact logged_unique held' held
  -- two signatures at a sequence number: old ones agree, and a new one agrees with the log
  refine { inv with once := ?_, remembered := ?_, promised := ?_, votes := ?_, finalized := ?_ }
  · intro view view' sequence digest digest' made made'
    rcases either _ _ _ made with old | held <;> rcases either _ _ _ made' with old' | held'
    · exact inv.once view view' sequence digest digest' old old'
    · exact inLog view sequence digest digest' old held'
    · exact (inLog view' sequence digest' digest old' held).symm
    · exact logged_unique held held'
  · intro view sequence digest made
    rcases either view sequence digest made with old | held
    · exact inv.remembered view sequence digest old
    · exact Or.inr held
  · intro sequence digest held
    obtain ⟨view, made⟩ := inv.promised sequence digest held
    exact ⟨view, List.mem_append_left _ made⟩
  · intro sequence m member
    exact (inv.votes sequence m member).mono grown
  · intro r member
    obtain ⟨done, held, operation, quorum⟩ := inv.finalized r member
    exact ⟨done, held, operation, quorum.mono grown⟩

theorem accepting (view sequence : Int) (msg : PBFTMessage ι Op Sig)
    (allowed : n.lowWatermark ≤ sequence)
    (fresh : ∀ pp ∈ n.prePrepareLog.get? sequence, pp.digest = msg.digest)
    (operation : ∀ op ∈ msg.operation, c.primitives.computeDigest op = msg.digest) :
    NodeInv c signed i (n.accepting view sequence msg) := by
  have grown := known_grown signed i (n := n) (m := n.accepting view sequence msg)
    (List.subset_append_left _ _)
  have lookup : ∀ s, (n.accepting view sequence msg).prePrepareLog.get? s =
      if sequence = s then some msg else n.prePrepareLog.get? s := fun s => Dict.get?_set ..
  have here : Logged (n.accepting view sequence msg) sequence msg.digest :=
    ⟨msg, by rw [lookup, if_pos rfl], rfl⟩
  have kept : ∀ s d, Logged n s d → Logged (n.accepting view sequence msg) s d := by
    rintro s d ⟨pp, found, rfl⟩
    by_cases same : sequence = s
    · subst same
      rw [fresh pp found]
      exact here
    · exact ⟨pp, by rw [lookup, if_neg same]; exact found, rfl⟩
  have either : ∀ v s d, .message i v s d ∈ (n.accepting view sequence msg).signed →
      .message i v s d ∈ n.signed ∨ (s = sequence ∧ d = msg.digest) := by
    intro v s d made
    rcases List.mem_append.mp made with old | new
    · exact Or.inl old
    · have eq := List.mem_singleton.mp new
      injection eq with _ _ sameSequence sameDigest
      exact Or.inr ⟨sameSequence, sameDigest⟩
  -- an earlier signature at this sequence number was on the same digest
  have earlier : ∀ v d, .message i v sequence d ∈ n.signed → d = msg.digest := by
    intro v d made
    rcases inv.remembered v sequence d made with below | ⟨pp, found, rfl⟩
    · exact absurd allowed (not_le.mpr below)
    · exact fresh pp found
  refine { inv with
    once := ?_, remembered := ?_, retained := ?_, promised := ?_, operations := ?_,
    prepares := ?_, votes := ?_, finalized := ?_ }
  · intro v v' s d d' made made'
    rcases either v s d made with old | ⟨rfl, rfl⟩
    · rcases either v' s d' made' with old' | ⟨rfl, rfl⟩
      · exact inv.once v v' s d d' old old'
      · exact earlier v d old
    · rcases either v' s d' made' with old' | ⟨_, rfl⟩
      · exact (earlier v' d' old').symm
      · rfl
  · intro v s d made
    rcases either v s d made with old | ⟨rfl, rfl⟩
    · exact (inv.remembered v s d old).imp_right (kept s d)
    · exact Or.inr here
  · intro s d held
    rcases logged_accepting held with ⟨rfl, _⟩ | old
    · exact allowed
    · exact inv.retained s d old
  · intro s d held
    rcases logged_accepting held with ⟨rfl, rfl⟩ | old
    · refine ⟨view, List.mem_append_right _ ?_⟩
      rw [inv.nodeId]
      exact List.mem_singleton_self _
    · obtain ⟨v, made⟩ := inv.promised s d old
      exact ⟨v, List.mem_append_left _ made⟩
  · intro s pp found
    rw [lookup] at found
    split at found
    · cases found
      exact operation
    · exact inv.operations s pp found
  · intro s m member
    exact kept s m.digest (inv.prepares s m member)
  · intro s m member
    exact (inv.votes s m member).mono grown
  · intro r member
    obtain ⟨done, held, own, quorum⟩ := inv.finalized r member
    exact ⟨done, kept _ _ held, own, quorum.mono grown⟩

theorem logPrepare (sequence : Int) (msg : PBFTMessage ι Op Sig)
    (held : Logged n sequence msg.digest) : NodeInv c signed i (n.logPrepare sequence msg) := by
  refine { inv with prepares := ?_ }
  intro s m member
  have split : m ∈ (n.prepareLog.set sequence (n.prepareLog.getD sequence [] ++ [msg])).getD s [] :=
    member
  rw [Dict.getD_set] at split
  split at split
  · next same =>
    subst same
    rcases List.mem_append.mp split with old | new
    · exact inv.prepares sequence m old
    · rw [List.mem_singleton.mp new]
      exact held
  · exact inv.prepares s m split

theorem logCommit (sequence : Int) (msg : PBFTMessage ι Op Sig)
    (backed : Backed c (known signed i n) sequence msg.digest msg.sender) :
    NodeInv c signed i (n.logCommit sequence msg) := by
  refine { inv with votes := ?_ }
  intro s m member
  have split : m ∈ (n.commitLog.set sequence (n.commitLog.getD sequence [] ++ [msg])).getD s [] :=
    member
  rw [Dict.getD_set] at split
  split at split
  · next same =>
    subst same
    rcases List.mem_append.mp split with old | new
    · exact inv.votes sequence m old
    · rw [List.mem_singleton.mp new]
      exact backed
  · exact inv.votes s m split

theorem finalize (sequence : Int) (digest : String) (held : Logged n sequence digest)
    (quorum : QuorumBacks c (known signed i n) sequence digest) :
    NodeInv c signed i (n.finalize sequence digest) := by
  refine { inv with committed := ?_, finalized := ?_ }
  · intro s done
    rcases Finset.mem_insert.mp done with rfl | old
    · exact ⟨_, List.mem_append_right _ (List.mem_singleton_self _), rfl⟩
    · obtain ⟨r, member, at_s⟩ := inv.committed s old
      exact ⟨r, List.mem_append_left _ member, at_s⟩
  · intro r member
    rcases List.mem_append.mp member with old | new
    · obtain ⟨done, rest⟩ := inv.finalized r old
      exact ⟨Finset.mem_insert_of_mem done, rest⟩
    · obtain rfl := List.mem_singleton.mp new
      refine ⟨Finset.mem_insert_self _ _, held, ?_, quorum⟩
      intro op chosen
      obtain ⟨pp, found, own⟩ := Option.bind_eq_some_iff.mp chosen
      obtain ⟨pp', found', rfl⟩ := held
      cases found.symm.trans found'
      exact inv.operations sequence pp found op own

theorem advanceWatermark : NodeInv c signed i n.advanceWatermark := by
  unfold PBFTNode.advanceWatermark
  split
  swap
  · exact inv
  next nonempty =>
  generalize smallest : n.committedSequences.min' nonempty = oldest
  have least : ∀ s ∈ n.committedSequences, oldest ≤ s := by
    intro s done
    rw [← smallest]
    exact Finset.min'_le _ s done
  -- the watermark only rises, since what was committed is still logged
  have higher : n.lowWatermark ≤ oldest := by
    have done : oldest ∈ n.committedSequences := smallest ▸ Finset.min'_mem _ nonempty
    obtain ⟨r, member, rfl⟩ := inv.committed oldest done
    exact inv.retained r.sequence r.digest (inv.finalized r member).2.1
  have kept : ∀ s pp,
      (n.prePrepareLog.filterKeys fun seq => decide (oldest ≤ seq)).get? s = some pp ↔
        oldest ≤ s ∧ n.prePrepareLog.get? s = some pp := by
    intro s pp
    rw [Dict.get?_filterKeys]
    by_cases above : oldest ≤ s
    · simp [above]
    · simp [above]
  have messages : ∀ (d : Dict Int (List (PBFTMessage ι Op Sig))) s m,
      m ∈ (d.filterKeys fun seq => decide (oldest ≤ seq)).getD s [] →
        oldest ≤ s ∧ m ∈ d.getD s [] := by
    intro d s m member
    rw [Dict.getD_filterKeys] at member
    split at member
    · next above => exact ⟨of_decide_eq_true above, member⟩
    · cases member
  refine { inv with
    remembered := ?_, retained := ?_, promised := ?_, operations := ?_, prepares := ?_,
    votes := ?_, finalized := ?_ }
  · intro v s d made
    by_cases above : oldest ≤ s
    · rcases inv.remembered v s d made with below | ⟨pp, found, digest⟩
      · exact absurd (higher.trans above) (not_le.mpr below)
      · exact Or.inr ⟨pp, (kept s pp).mpr ⟨above, found⟩, digest⟩
    · exact Or.inl (not_le.mp above)
  · rintro s d ⟨pp, found, _⟩
    exact ((kept s pp).mp found).1
  · rintro s d ⟨pp, found, digest⟩
    exact inv.promised s d ⟨pp, ((kept s pp).mp found).2, digest⟩
  · intro s pp found
    exact inv.operations s pp ((kept s pp).mp found).2
  · intro s m member
    obtain ⟨above, old⟩ := messages n.prepareLog s m member
    obtain ⟨pp, found, digest⟩ := inv.prepares s m old
    exact ⟨pp, (kept s pp).mpr ⟨above, found⟩, digest⟩
  · intro s m member
    exact inv.votes s m (messages n.commitLog s m member).2
  · intro r member
    obtain ⟨done, ⟨pp, found, digest⟩, rest⟩ := inv.finalized r member
    exact ⟨done, ⟨pp, (kept _ pp).mpr ⟨least _ done, found⟩, digest⟩, rest⟩

/-! ### The handlers -/

theorem tryCommitQuorum (sequence : Int) (digest : String)
    (held : Logged n sequence digest) : NodeInv c signed i (n.tryCommitQuorum sequence digest) := by
  rcases n.tryCommitQuorum_cases sequence digest with same | ⟨quorum, out⟩
  · rw [same]
    exact inv
  · rw [out]
    -- the senders that the code counts are the quorum
    have backed : ∀ j ∈ senders (n.commitLog.getD sequence []) digest,
        Backed c (known signed i n) sequence digest j := by
      intro j voted
      obtain ⟨m, member, rfl, rfl⟩ := (mem_senders _ _ _).mp voted
      exact inv.votes sequence m member
    have large : 2 * c.f + 1 ≤ (senders (n.commitLog.getD sequence []) digest).card := by
      rw [← inv.faults]
      exact quorum
    exact (inv.finalize sequence digest held
      ⟨_, fun j voted => (backed j voted).1, large, backed⟩).advanceWatermark

theorem tryPrepareQuorum (sequence : Int) (digest : String) (held : Logged n sequence digest) :
    NodeInv c signed i (n.tryPrepareQuorum c.primitives sequence digest) := by
  rcases n.tryPrepareQuorum_cases c.primitives sequence digest with same | out
  · rw [same]
    exact inv
  · rw [out]
    have again := inv.signing (.message n.nodeId n.view sequence digest) (by
      intro view s d eq
      injection eq with _ _ sameSequence sameDigest
      rw [← sameSequence, ← sameDigest]
      exact held)
    apply (again.logCommit sequence _ _).tryCommitQuorum sequence digest held
    -- the node's own voice: it has just signed
    refine ⟨?_, fun _ => ⟨n.view, ?_⟩⟩
    · simp only [ownMessage, inv.nodeId]
      exact inv.member
    · simp only [ownMessage, known, inv.nodeId, Function.update_self]
      exact List.mem_append_right _ (List.mem_singleton_self _)

theorem handleRequest (operation : Op) (fresh : FreshSequence c.primitives n operation) :
    NodeInv c signed i (n.handleRequest c.primitives operation).2 := by
  rcases n.handleRequest_cases c.primitives operation with same | ⟨takes, msg, digest, op, out⟩
  · rw [same]
    exact inv
  · rw [out]
    have next := inv.steering n.view (n.lastSequence + 1) n.viewChangeInProgress
      n.viewChangeMessages n.newViewMessages
    -- the old entry at this number, if there is one, has the same digest
    apply next.accepting n.view (n.lastSequence + 1) msg takes.2.2.1
    · intro pp found
      rw [digest]
      exact fresh takes pp found
    · intro op' own
      rw [op] at own
      cases own
      exact digest.symm

theorem handlePrePrepare (msg : PBFTMessage ι Op Sig) :
    NodeInv c signed i (n.handlePrePrepare c.primitives msg).2 := by
  rcases n.handlePrePrepare_cases c.primitives msg with
    same | ⟨_, _, _, allowed, operation, absent, out⟩
  · rw [same]
    exact inv
  · rw [out]
    have accepted := inv.accepting n.view msg.sequence msg allowed
      (fun pp found => by rw [absent] at found; cases found) operation
    have held : Logged (n.accepting n.view msg.sequence msg) msg.sequence msg.digest :=
      ⟨msg, Dict.get?_set_self _ _ _, rfl⟩
    exact (accepted.logPrepare msg.sequence
      (ownMessage c.primitives n .prepare n.view msg.sequence msg.digest) held).tryPrepareQuorum
        msg.sequence msg.digest held

theorem handlePrepare (msg : PBFTMessage ι Op Sig) :
    NodeInv c signed i (n.handlePrepare c.primitives msg).2 := by
  rcases n.handlePrepare_cases c.primitives msg with same | ⟨expected, found, digest, out⟩
  · rw [same]
    exact inv
  · rw [out]
    have held : Logged n msg.sequence msg.digest := ⟨expected, found, digest.symm⟩
    exact (inv.logPrepare msg.sequence msg held).tryPrepareQuorum msg.sequence msg.digest held

theorem handleCommit (msg : PBFTMessage ι Op Sig)
    (verified : n.verifySignature c.primitives msg = true →
      Backed c (known signed i n) msg.sequence msg.digest msg.sender) :
    NodeInv c signed i (n.handleCommit c.primitives msg).2 := by
  rcases n.handleCommit_cases c.primitives msg with same | ⟨authentic, prepared, out⟩
  · rw [same]
    exact inv
  · rw [out]
    -- a prepared digest is the logged one
    have held : Logged n msg.sequence msg.digest := by
      have some : 0 < (senders (n.prepareLog.getD msg.sequence []) msg.digest).card :=
        lt_of_lt_of_le (Nat.succ_pos _) prepared
      obtain ⟨j, prepares⟩ := Finset.card_pos.mp some
      obtain ⟨m, member, digest, _⟩ := (mem_senders _ _ _).mp prepares
      rw [← digest]
      exact inv.prepares msg.sequence m member
    have backed : Backed c (known signed i n) msg.sequence msg.digest msg.sender := by
      rcases authentic with own | signature
      · rw [own, inv.nodeId]
        obtain ⟨view, made⟩ := inv.promised msg.sequence msg.digest held
        refine ⟨inv.member, fun _ => ⟨view, ?_⟩⟩
        rw [known, Function.update_self]
        exact made
      · exact verified signature
    exact (inv.logCommit msg.sequence msg backed).tryCommitQuorum msg.sequence msg.digest held

theorem startViewChange :
    NodeInv c signed i (n.startViewChange c.primitives) := by
  rcases n.startViewChange_cases c.primitives with same | ⟨lastCommitted, messages, out⟩
  · rw [same]
    exact inv
  · rw [out]
    exact (inv.signing _ (fun view s d eq => by cases eq)).steering ..

theorem handleViewChange (message : ViewChange ι Op Sig) :
    NodeInv c signed i (n.handleViewChange c.primitives message) := by
  rcases n.handleViewChange_cases c.primitives message with
    same | ⟨messages, out⟩ | ⟨_, messages, newViews, out⟩
  · rw [same]
    exact inv
  · rw [out]
    exact inv.steering ..
  · rw [out]
    exact (inv.signing _ (fun view s d eq => by cases eq)).steering ..

/-- The items of a checkpoint are taken over one by one; what an earlier one put into the log
excuses a later one. -/
theorem replay (newView : Int) (items : List (Int × PBFTMessage ι Op Sig))
    (sound : ∀ item ∈ items, n.prePrepareLog.get? item.1 = none → n.lowWatermark ≤ item.1 ∧
      ∀ op ∈ item.2.operation, c.primitives.computeDigest op = item.2.digest) :
    NodeInv c signed i (items.foldl (replayEntry c.primitives newView) n) := by
  induction items generalizing n with
  | nil => exact inv
  | cons item rest ih =>
    rw [List.foldl_cons]
    have later : ∀ item ∈ rest, n.prePrepareLog.get? item.1 = none → n.lowWatermark ≤ item.1 ∧
        ∀ op ∈ item.2.operation, c.primitives.computeDigest op = item.2.digest :=
      fun item member => sound item (List.mem_cons_of_mem _ member)
    rcases n.replayEntry_cases c.primitives newView item with same | ⟨absent, out⟩
    · rw [same]
      exact ih inv later
    · rw [out]
      obtain ⟨allowed, operation⟩ := sound item (List.mem_cons_self ..) absent
      have accepted := inv.accepting newView item.1 { item.2 with view := newView } allowed
        (fun pp found => by rw [absent] at found; cases found) operation
      have held : Logged (n.accepting newView item.1 { item.2 with view := newView }) item.1
          item.2.digest := ⟨_, Dict.get?_set_self _ _ _, rfl⟩
      -- the watermark has not moved and the log has only grown
      apply ih (accepted.logPrepare item.1
        (ownMessage c.primitives n .prepare newView item.1 item.2.digest) held)
      intro item' member missing
      have before : n.prePrepareLog.get? item'.1 = none := by
        have lookup : (n.prePrepareLog.set item.1 { item.2 with view := newView }).get? item'.1 =
            none := missing
        rw [Dict.get?_set] at lookup
        split at lookup
        · cases lookup
        · exact lookup
      exact later item' member before

theorem handleNewView (message : NewView ι Op Sig)
    (sound : SoundCheckpoint c.primitives n message) :
    NodeInv c signed i (n.handleNewView c.primitives message) := by
  rcases n.handleNewView_cases c.primitives message with same | ⟨later, verified, out⟩
  · rw [same]
    exact inv
  · rw [out]
    exact (inv.steering ..).replay message.newView _ (sound later verified)

end

theorem mono (grown : ∀ j, signed j ⊆ signed' j)
    (inv : NodeInv c signed i n) : NodeInv c signed' i n := by
  have larger : ∀ j, known signed i n j ⊆ known signed' i n j := by
    intro j
    by_cases own : j = i
    · subst own
      simp only [known, Function.update_self]
      exact List.Subset.refl _
    · simp only [known, Function.update_of_ne own]
      exact grown j
  refine { inv with votes := ?_, finalized := ?_ }
  · intro sequence m member
    exact (inv.votes sequence m member).mono larger
  · intro r member
    obtain ⟨done, held, operation, quorum⟩ := inv.finalized r member
    exact ⟨done, held, operation, quorum.mono larger⟩

end NodeInv

def signedBy (s : ClusterState ι Op PK SK Sig) (j : ι) : List (Payload ι) := (s j).signed

def ClusterInv (c : Cluster ι Op PK SK Sig) (s : ClusterState ι Op PK SK Sig) : Prop :=
  ∀ i, c.Honest i → NodeInv c (signedBy s) i (s i)

namespace ClusterInv

variable {c : Cluster ι Op PK SK Sig} {s : ClusterState ι Op PK SK Sig}

theorem startsIn {v : Int} (start : StartsIn c v s) : ClusterInv c s := by
  obtain ⟨s₀, ⟨keys, registered, built⟩, moved⟩ := start
  intro i honest
  rw [moved i honest]
  have inv : NodeInv c (signedBy s) i (s₀ i) := NodeInv.init registered honest.1 (built i honest.1)
  obtain ⟨⟩ := inv
  constructor <;> assumption

theorem initial (start : Initial c s) : ClusterInv c s := startsIn start.startsIn

theorem known_signedBy (s : ClusterState ι Op PK SK Sig) (i : ι) :
    known (signedBy s) i (s i) = signedBy s :=
  Function.update_eq_self i (signedBy s)

theorem receive {i : ι} (inv : NodeInv c (signedBy s) i (s i)) (input : Input ι Op Sig)
    (possible : Enabled c s ⟨i, input⟩) (keeps : KeepsDigests c s ⟨i, input⟩) :
    NodeInv c (signedBy s) i ((s i).receive c.primitives input) := by
  cases input with
  | request operation => exact inv.handleRequest operation keeps
  | prePrepare msg => exact inv.handlePrePrepare msg
  | prepare msg => exact inv.handlePrepare msg
  | commit msg =>
    apply inv.handleCommit msg
    intro verified
    obtain ⟨member, made⟩ := possible.2.authentic (inv.keys _) verified
    refine ⟨member, fun honest => ⟨msg.view, ?_⟩⟩
    rw [known_signedBy]
    exact made honest
  | startViewChange => exact inv.startViewChange
  | viewChange message => exact inv.handleViewChange message
  | newView message => exact inv.handleNewView message keeps

/-- What an honest node finalized has a quorum of the cluster behind it. -/
theorem quorumBacks (inv : ClusterInv c s) {i : ι} (honest : c.Honest i) {r : CommitRecord Op}
    (member : r ∈ (s i).commits) : QuorumBacks c (signedBy s) r.sequence r.digest := by
  obtain ⟨_, _, _, quorum⟩ := (inv i honest).finalized r member
  rw [known_signedBy] at quorum
  exact quorum

theorem signed_subset_exec (c : Cluster ι Op PK SK Sig) (s : ClusterState ι Op PK SK Sig)
    (a : ClusterAction ι Op Sig) (j : ι) : signedBy s j ⊆ signedBy (exec c s a) j := by
  simp only [signedBy, exec]
  by_cases moved : j = a.node
  · subst moved
    rw [Function.update_self]
    exact signed_subset_receive c.primitives _ a.input
  · rw [Function.update_of_ne moved]
    exact List.Subset.refl _

/-- Only the node that acts changes, and what the others signed stays signed. -/
theorem step (inv : ClusterInv c s) (a : ClusterAction ι Op Sig) (possible : Enabled c s a)
    (keeps : KeepsDigests c s a) : ClusterInv c (exec c s a) := by
  intro i honest
  by_cases moved : i = a.node
  · subst moved
    have after := (receive (inv a.node honest) a.input possible keeps).mono
      (signed_subset_exec c s a)
    simpa only [exec, Function.update_self] using after
  · have after := (inv i honest).mono (signed_subset_exec c s a)
    simpa only [exec, Function.update_of_ne moved] using after

end ClusterInv

end DistLLM.Pbft
