import DistLLM.Pbft.OneView

/-!
# What is committed once all is delivered

A message that arrives before what it builds on is dropped and not kept for later, and a commit
that prunes the log drops the requests below it. In the runs in which neither happens, every
live node files what is delivered to it and answers at once. So when a request and its votes
have reached everybody, it is committed if and only if its PREPAREs are a quorum; and these are
the votes of the backups alone.
-/
namespace DistLLM.Pbft

open DistLLM.Library PBFTNode

variable {ι Op PK SK Sig : Type} [LinearOrder ι]

/-- What was sent about a number has been delivered to every other live node. -/
def AllDelivered (c : Cluster ι Op PK SK Sig) (s : Network ι Op PK SK Sig) (q : Int) : Prop :=
  ∀ x ∈ s.sent, x.number = some q →
    ∀ i ∈ c.members, i ∉ c.byzantine → x.sender ≠ some i → (i, x) ∈ s.delivered

instance [DecidableEq Op] [DecidableEq Sig] (c : Cluster ι Op PK SK Sig)
    (s : Network ι Op PK SK Sig) (q : Int) : Decidable (AllDelivered c s q) :=
  inferInstanceAs (Decidable (∀ x ∈ s.sent, x.number = some q →
    ∀ i ∈ c.members, i ∉ c.byzantine → x.sender ≠ some i → (i, x) ∈ s.delivered))

/-- Every live node has committed the request, and has recorded it once: its callback has run
once, on the operation of the request. -/
def CommittedOnce (c : Cluster ι Op PK SK Sig) (s : Network ι Op PK SK Sig)
    (r : PBFTMessage ι Op Sig) : Prop :=
  ∀ i, c.Honest i → r.sequence ∈ (s.nodes i).committedSequences ∧
    (s.nodes i).commits.filter (fun rec => decide (rec.sequence = r.sequence)) = [recordOf r] ∧
    r.operation.isSome = true

/-- What the message builds on is there: the number in the window for a PRE-PREPARE, the
PRE-PREPARE for a PREPARE, a prepare quorum for a COMMIT. -/
def PBFTNode.Ready (n : PBFTNode ι Op PK SK Sig) : Input ι Op Sig → Prop
  | .prePrepare x => n.checkSequenceWatermark x.sequence
  | .prepare x => (n.prePrepareLog.get? x.sequence).isSome = true
  | .commit x => n.quorumSize ≤ (senders (n.prepareLog.getD x.sequence []) x.digest).card
  | _ => True

instance (n : PBFTNode ι Op PK SK Sig) : DecidablePred n.Ready
  | .prePrepare x => inferInstanceAs (Decidable (n.checkSequenceWatermark x.sequence))
  | .prepare _ => inferInstanceAs (Decidable (_ = _))
  | .commit _ => inferInstanceAs (Decidable (_ ≤ _))
  | .request _ | .startViewChange | .viewChange _ | .newView _ => .isTrue trivial

/-- A message arrives after what it builds on, and the first quorum to be completed at a node is
not above another request in its log. -/
def Timely (m : Int) (s : Network ι Op PK SK Sig) : NetAction ι Op Sig → Prop
  | .deliver i x => (s.nodes i).Ready x ∧
      ((s.nodes i).Completes x → (s.nodes i).committedSequences = ∅ →
        ∀ k ∈ x.number, ∀ q ∈ (s.nodes i).prePrepareLog.keys, m < q → k ≤ q)
  | .request _ _ => True
  | .startViewChange _ => False

instance (m : Int) (s : Network ι Op PK SK Sig) : DecidablePred (Timely m s)
  | .deliver _ _ => inferInstanceAs (Decidable (_ ∧ _))
  | .request _ _ => .isTrue trivial
  | .startViewChange _ => .isFalse id

/-- What is signed with a key verifies under its public key. -/
def SignaturesPass (p : Primitives ι Op PK SK Sig) : Prop :=
  ∀ key payload, p.verify (p.publicKey key) payload (p.sign key payload) = true

variable {x : PBFTMessage ι Op Sig} {j : ι}

section Accepting

variable {c : Cluster ι Op PK SK Sig} {v m : Int} {requests : List (PBFTMessage ι Op Sig)} {i : ι}
  {n : PBFTNode ι Op PK SK Sig} (inv : Voted c v m requests i n)
  (passes : SignaturesPass c.primitives)

include inv passes

theorem Voted.verified (member : x.sender ∈ c.members)
    (own : x.signature = some (c.primitives.sign (c.signingKey x.sender) x.payload)) :
    n.verifySignature c.primitives x = true := by
  have key : n.publicKeys.get? x.sender = some (c.publicKeyOf x.sender) := by
    rw [inv.configured.keys, if_pos member]
  simp only [verifySignature, verifyPayload, own, key]
  exact passes _ _

theorem Voted.accepts (proposed : Proposed c v x) (member : x.sender ∈ c.members)
    (inWindow : n.checkSequenceWatermark x.sequence)
    (absent : n.prePrepareLog.get? x.sequence = none) : (n.handlePrePrepare c.primitives x).2 =
      ((n.accepting n.view x.sequence x).logPrepare x.sequence
        (n.ownMessage c.primitives .prepare n.view x.sequence x.digest)).tryPrepareQuorum
          c.primitives x.sequence x.digest := by
  have verified := inv.verified passes member proposed.signature
  have primary : some x.sender = n.primary := by rw [inv.primary_eq, proposed.primary]
  have view : x.view = n.view := by rw [proposed.view, inv.view]
  -- all checks of the handler pass, one after the other
  have digest : ¬ ∃ op ∈ x.operation, c.primitives.computeDigest op ≠ x.digest := by
    rintro ⟨op, own, differs⟩
    obtain ⟨op', own', same⟩ := proposed.operation
    rw [own'] at own
    cases own
    exact differs same
  unfold PBFTNode.handlePrePrepare handlePrePrepareFrom
  rw [if_neg (not_not.mpr proposed.phase), if_neg (by simp [verified]), if_neg (by simp [primary]),
    if_neg (by simp [view]), if_neg (not_not.mpr inWindow), if_neg digest, absent]
  rfl

theorem Voted.takesPrepare {r : PBFTMessage ι Op Sig} (member : j ∈ c.members) (other : j ≠ i)
    (entry : n.prePrepareLog.get? r.sequence = some r) :
    ((∃ x ∈ n.prepareLog.getD r.sequence [], x.sender = j) ∧
      (n.handlePrepare c.primitives (voteOf c v .prepare r j)).2 = n) ∨
    (n.handlePrepare c.primitives (voteOf c v .prepare r j)).2 =
      (n.logPrepare r.sequence (voteOf c v .prepare r j)).tryPrepareQuorum c.primitives
        r.sequence r.digest := by
  have verified : n.verifySignature c.primitives (voteOf c v .prepare r j) = true :=
    inv.verified passes member rfl
  -- all checks pass but that for a duplicate, which decides
  have foreign : ¬ (voteOf c v .prepare r j).sender = n.nodeId := by
    rw [inv.configured.nodeId]
    exact other
  have phase : ¬ (voteOf c v .prepare r j).phase ≠ .prepare := not_not.mpr rfl
  have sameView : ¬ (voteOf c v .prepare r j).view ≠ n.view := not_not.mpr inv.view.symm
  have sameDigest : ¬ (voteOf c v .prepare r j).digest ≠ r.digest := not_not.mpr rfl
  have found : n.prePrepareLog.get? (voteOf c v .prepare r j).sequence = some r := entry
  unfold PBFTNode.handlePrepare
  rw [if_neg phase, if_neg sameView, if_neg foreign, if_neg (by simp [verified]), found]
  dsimp only
  rw [if_neg sameDigest]
  split
  · next duplicate => exact Or.inl ⟨duplicate, rfl⟩
  · exact Or.inr rfl

theorem Voted.takesCommit {r : PBFTMessage ι Op Sig} (member : j ∈ c.members)
    (quorum : n.quorumSize ≤ (senders (n.prepareLog.getD r.sequence []) r.digest).card) :
    ((∃ x ∈ n.commitLog.getD r.sequence [], x.sender = j) ∧
      (n.handleCommit c.primitives (voteOf c v .commit r j)).2 = n) ∨
    (n.handleCommit c.primitives (voteOf c v .commit r j)).2 =
      (n.logCommit r.sequence (voteOf c v .commit r j)).tryCommitQuorum r.sequence r.digest := by
  have verified : n.verifySignature c.primitives (voteOf c v .commit r j) = true :=
    inv.verified passes member rfl
  have phase : ¬ (voteOf c v .commit r j).phase ≠ .commit := not_not.mpr rfl
  have sameView : ¬ (voteOf c v .commit r j).view ≠ n.view := not_not.mpr inv.view.symm
  have prepared : ¬ (senders (n.prepareLog.getD (voteOf c v .commit r j).sequence [])
      (voteOf c v .commit r j).digest).card < n.quorumSize := not_lt.mpr quorum
  unfold PBFTNode.handleCommit
  rw [if_neg phase, if_neg sameView, if_neg (fun both => both.2 verified), if_neg prepared]
  split
  · next duplicate => exact Or.inl ⟨duplicate, rfl⟩
  · exact Or.inr rfl

end Accepting

/-! ### Filing -/

/-- The message is in the log it belongs to, if its number is after `m`. -/
def PBFTNode.Files (m : Int) (n : PBFTNode ι Op PK SK Sig) : Input ι Op Sig → Prop
  | .prePrepare x => m < x.sequence → n.prePrepareLog.get? x.sequence = some x
  | .prepare x => m < x.sequence → x ∈ n.prepareLog.getD x.sequence []
  | .commit x => m < x.sequence → x ∈ n.commitLog.getD x.sequence []
  | _ => True

/-- A live node has filed what was delivered to it about numbers after `m`, a backup has prepared
what it logged, and nothing logged is below the watermark. -/
structure Filed (c : Cluster ι Op PK SK Sig) (v m : Int) (arrived : Input ι Op Sig → Prop) (i : ι)
    (n : PBFTNode ι Op PK SK Sig) : Prop where
  filed : ∀ x, arrived x → n.Files m x
  answered : Backup c v i → ∀ q pp, m < q → n.prePrepareLog.get? q = some pp →
    ∃ x ∈ n.prepareLog.getD q [], x.sender = i
  gated : ∀ q, m < q → ∀ x ∈ n.commitLog.getD q [], ∃ pp, n.prePrepareLog.get? q = some pp
  low : ∀ q pp, m < q → n.prePrepareLog.get? q = some pp → n.lowWatermark ≤ q
  mark : ∀ some : n.committedSequences.Nonempty,
    n.committedSequences.min' some ≤ max m n.lowWatermark

/-- A live node has answered every quorum it has seen: one of PREPAREs with its COMMIT, one of
COMMITs by committing, and it commits nothing that it has not voted for. -/
structure Prompt (m : Int) (i : ι) (n : PBFTNode ι Op PK SK Sig) : Prop where
  promised : ∀ q digest, m < q →
    n.quorumSize ≤ (senders (n.prepareLog.getD q []) digest).card →
    ∃ x ∈ n.commitLog.getD q [], x.sender = i
  settled : ∀ q digest, m < q →
    n.quorumSize ≤ (senders (n.commitLog.getD q []) digest).card → q ∈ n.committedSequences
  backed : ∀ q, m < q → q ∈ n.committedSequences → ∃ x ∈ n.commitLog.getD q [], x.sender = i

/-- Nothing in the log stands below the number, should it be the first to be committed. -/
def ComesFirst (m : Int) (n : PBFTNode ι Op PK SK Sig) (q : Int) : Prop :=
  n.committedSequences = ∅ → ∀ q' pp, m < q' → n.prePrepareLog.get? q' = some pp → q ≤ q'

section Filing

variable {c : Cluster ι Op PK SK Sig} {v m : Int} {requests : List (PBFTMessage ι Op Sig)} {i : ι}
  {arrived arrived' : Input ι Op Sig → Prop} {n : PBFTNode ι Op PK SK Sig}

section

variable (filed : Filed c v m arrived i n)

include filed

section

variable (voted : Voted c v m requests i n)

include voted

theorem Filed.finalize (q : Int) (digest : String) (first : ComesFirst m n q) :
    let n' := (n.finalize q digest).advanceWatermark
    Filed c v m arrived i n' ∧
      (∀ q', m < q' → n'.prepareLog.getD q' [] = n.prepareLog.getD q' []) ∧
      ∀ q', m < q' → n'.commitLog.getD q' [] = n.commitLog.getD q' [] := by
  have some : (n.finalize q digest).committedSequences.Nonempty := ⟨q, Finset.mem_insert_self _ _⟩
  generalize least : (n.finalize q digest).committedSequences.min' some = oldest
  have below : ∀ k ∈ (n.finalize q digest).committedSequences, oldest ≤ k := by
    intro k member
    rw [← least]
    exact Finset.min'_le _ k member
  -- a logged number is not below the oldest committed one
  have kept : ∀ q' pp, m < q' → n.prePrepareLog.get? q' = Option.some pp → oldest ≤ q' := by
    intro q' pp newer found
    rcases n.committedSequences.eq_empty_or_nonempty with none | before
    · exact (below q (Finset.mem_insert_self _ _)).trans (first none q' pp newer found)
    · calc oldest
          ≤ n.committedSequences.min' before :=
            below _ (Finset.mem_insert_of_mem (Finset.min'_mem _ before))
        _ ≤ max m n.lowWatermark := filed.mark before
        _ ≤ q' := max_le newer.le (filed.low q' pp newer found)
  -- so above `m` the three logs are the same after pruning
  have entries : ∀ q', m < q' →
      (n.prePrepareLog.filterKeys fun seq => decide (oldest ≤ seq)).get? q' =
        n.prePrepareLog.get? q' := by
    intro q' newer
    rw [Dict.get?_filterKeys]
    split
    · rfl
    · next pruned =>
      cases found : n.prePrepareLog.get? q' with
      | none => rfl
      | some pp => exact absurd (decide_eq_true (kept q' pp newer found)) pruned
  have lists : ∀ (d : Dict Int (List (PBFTMessage ι Op Sig))),
      (∀ q', m < q' → ∀ x ∈ d.getD q' [], ∃ pp, n.prePrepareLog.get? q' = Option.some pp) →
      ∀ q', m < q' → (d.filterKeys fun seq => decide (oldest ≤ seq)).getD q' [] = d.getD q' [] := by
    intro d gated q' newer
    rw [Dict.getD_filterKeys]
    split
    · rfl
    · next pruned =>
      refine (List.eq_nil_iff_forall_not_mem.mpr fun x logged => ?_).symm
      obtain ⟨pp, found⟩ := gated q' newer x logged
      exact pruned (decide_eq_true (kept q' pp newer found))
  have prepares := lists n.prepareLog voted.prepared
  have commits := lists n.commitLog filed.gated
  have pruned : (n.finalize q digest).advanceWatermark =
      { n.finalize q digest with
        prePrepareLog := n.prePrepareLog.filterKeys fun seq => decide (oldest ≤ seq)
        prepareLog := n.prepareLog.filterKeys fun seq => decide (oldest ≤ seq)
        commitLog := n.commitLog.filterKeys fun seq => decide (oldest ≤ seq)
        lowWatermark := oldest } := by
    unfold PBFTNode.advanceWatermark
    rw [dif_pos some, least]
    rfl
  rw [pruned]
  refine ⟨⟨?_, ?_, ?_, ?_, ?_⟩, prepares, commits⟩
  · intro x came
    have before := filed.filed x came
    cases x with
    | prePrepare x => exact fun newer => (entries _ newer).trans (before newer)
    | prepare x => exact fun newer => (prepares _ newer).symm ▸ before newer
    | commit x => exact fun newer => (commits _ newer).symm ▸ before newer
    | _ => trivial
  · intro backup q' pp newer found
    rw [prepares q' newer]
    exact filed.answered backup q' pp newer ((entries q' newer).symm.trans found)
  · intro q' newer x logged
    rw [commits q' newer] at logged
    obtain ⟨pp, found⟩ := filed.gated q' newer x logged
    exact ⟨pp, (entries q' newer).trans found⟩
  · intro q' pp newer found
    exact kept q' pp newer ((entries q' newer).symm.trans found)
  · intro nonempty
    exact (le_of_eq least).trans (le_max_right _ _)

theorem tryCommitQuorum_prompt (q : Int) (digest : String)
    (promised : ∀ q' digest', m < q' →
      n.quorumSize ≤ (senders (n.prepareLog.getD q' []) digest').card →
      ∃ x ∈ n.commitLog.getD q' [], x.sender = i)
    (settled : ∀ q' digest', m < q' → (q', digest') ≠ (q, digest) →
      n.quorumSize ≤ (senders (n.commitLog.getD q' []) digest').card → q' ∈ n.committedSequences)
    (backed : ∀ q', m < q' → q' ∈ n.committedSequences → ∃ x ∈ n.commitLog.getD q' [], x.sender = i)
    (own : m < q → ∃ x ∈ n.commitLog.getD q [], x.sender = i)
    (first : n.quorumSize ≤ (senders (n.commitLog.getD q []) digest).card → ComesFirst m n q) :
    Filed c v m arrived i (n.tryCommitQuorum q digest) ∧
      Prompt m i (n.tryCommitQuorum q digest) := by
  have config := (InPhase.tryCommitQuorum n q digest).config
  have size : (n.tryCommitQuorum q digest).quorumSize = n.quorumSize := by
    rw [PBFTNode.quorumSize, config.f, PBFTNode.quorumSize]
  rw [tryCommitQuorum_eq] at size ⊢
  split
  · next quorum =>
    rw [if_pos quorum] at size
    obtain ⟨after, prepares, commits⟩ := filed.finalize voted q digest (first quorum.1)
    -- the quorum is paid by committing, and no other log or number changes
    have committed : (n.finalize q digest).advanceWatermark.committedSequences =
        insert q n.committedSequences := by
      unfold PBFTNode.advanceWatermark
      split <;> rfl
    refine ⟨after, ?_, ?_, ?_⟩
    · intro q' digest' newer large
      rw [prepares q' newer, size] at large
      rw [commits q' newer]
      exact promised q' digest' newer large
    · intro q' digest' newer large
      rw [commits q' newer, size] at large
      rw [committed]
      by_cases here : (q', digest') = (q, digest)
      · cases here
        exact Finset.mem_insert_self _ _
      · exact Finset.mem_insert_of_mem (settled q' digest' newer here large)
    · intro q' newer done
      rw [commits q' newer]
      rw [committed] at done
      rcases Finset.mem_insert.mp done with rfl | before
      · exact own newer
      · exact backed q' newer before
  · next few =>
    refine ⟨filed, promised, ?_, backed⟩
    intro q' digest' newer large
    by_cases here : (q', digest') = (q, digest)
    · cases here
      by_contra fresh
      exact few ⟨large, fresh⟩
    · exact settled q' digest' newer here large

theorem tryPrepareQuorum_prompt (honest : c.Honest i) (numbered : Numbered c v m requests) (q : Int)
    (digest : String)
    (promised : ∀ q' digest', m < q' → (q', digest') ≠ (q, digest) →
      n.quorumSize ≤ (senders (n.prepareLog.getD q' []) digest').card →
      ∃ x ∈ n.commitLog.getD q' [], x.sender = i)
    (settled : ∀ q' digest', m < q' →
      n.quorumSize ≤ (senders (n.commitLog.getD q' []) digest').card → q' ∈ n.committedSequences)
    (backed : ∀ q', m < q' → q' ∈ n.committedSequences → ∃ x ∈ n.commitLog.getD q' [], x.sender = i)
    (first : n.quorumSize ≤ (senders (n.prepareLog.getD q []) digest).card →
      n.quorumSize ≤ (insert n.nodeId (senders (n.commitLog.getD q []) digest)).card →
      ComesFirst m n q) : Filed c v m arrived i (n.tryPrepareQuorum c.primitives q digest) ∧
      Prompt m i (n.tryPrepareQuorum c.primitives q digest) := by
  rw [tryPrepareQuorum_eq]
  split
  · next quorum =>
    have commits : ∀ q', (n.committing c.primitives q digest).commitLog.getD q' [] =
        if q = q' then n.commitLog.getD q' [] ++
          [n.ownMessage c.primitives .commit n.view q digest] else n.commitLog.getD q' [] :=
      fun q' => getD_logCommit _ q q' _
    have more : ∀ q' x, x ∈ n.commitLog.getD q' [] →
        x ∈ (n.committing c.primitives q digest).commitLog.getD q' [] :=
      fun q' x logged => mem_logCommit.mpr (Or.inl logged)
    have own : ∃ x ∈ (n.committing c.primitives q digest).commitLog.getD q [], x.sender = i :=
      ⟨n.ownMessage c.primitives .commit n.view q digest, mem_logCommit.mpr (Or.inr ⟨rfl, rfl⟩),
        voted.configured.nodeId⟩
    have committing : Filed c v m arrived i (n.committing c.primitives q digest) := by
      refine { filed with filed := ?_, gated := ?_ }
      · intro x came
        have before := filed.filed x came
        cases x with
        | commit x => exact fun newer => more _ x (before newer)
        | _ => exact before
      · intro q' newer x logged
        rcases mem_logCommit.mp logged with old | ⟨rfl, -⟩
        · exact filed.gated q' newer x old
        · obtain ⟨r, _, _, _, found⟩ := voted.entry_of_quorum numbered newer quorum.1
          exact ⟨r, found⟩
    -- the own COMMIT answers the PREPAREs, and may complete the commit quorum in turn
    refine tryCommitQuorum_prompt committing (voted.committing honest numbered q digest quorum.1)
      q digest ?_ ?_ ?_ (fun _ => own) ?_
    · intro q' digest' newer large
      by_cases here : (q', digest') = (q, digest)
      · cases here
        exact own
      · obtain ⟨x, logged, sender⟩ := promised q' digest' newer here large
        exact ⟨x, more q' x logged, sender⟩
    · -- no other digest at this number has a new vote
      intro q' digest' newer other large
      have same : senders ((n.committing c.primitives q digest).commitLog.getD q' []) digest' =
          senders (n.commitLog.getD q' []) digest' := by
        rw [commits]
        split
        · next number =>
          subst number
          rw [senders_append, if_neg]
          intro digests
          exact other (by rw [← digests]; rfl)
        · rfl
      rw [same] at large
      exact settled q' digest' newer large
    · intro q' newer done
      obtain ⟨x, logged, sender⟩ := backed q' newer done
      exact ⟨x, more q' x logged, sender⟩
    · intro large
      rw [commits, if_pos rfl, senders_append_own] at large
      exact first quorum.1 large
  · next rest =>
    refine ⟨filed, ?_, settled, backed⟩
    intro q' digest' newer large
    by_cases here : (q', digest') = (q, digest)
    · cases here
      -- the COMMIT is not due because it was sent, or because the number is committed
      by_cases done : q ∈ n.committedSequences
      · exact backed q newer done
      · have sent : n.HasCommitted q := by
          by_contra unsent
          exact rest ⟨large, done, unsent⟩
        obtain ⟨x, logged, sender, _⟩ := sent
        exact ⟨x, logged, sender.trans voted.configured.nodeId⟩
    · exact promised q' digest' newer here large

end

theorem Filed.arrive {x : Input ι Op Sig} (here : n.Files m x) :
    Filed c v m (fun y => arrived y ∨ y = x) i n := by
  refine { filed with filed := ?_ }
  rintro y (came | rfl)
  · exact filed.filed y came
  · exact here

theorem Filed.accept (voted : Voted c v m requests i n) (x : PBFTMessage ι Op Sig)
    (absent : n.prePrepareLog.get? x.sequence = none)
    (allowed : n.lowWatermark ≤ x.sequence) : Filed c v m (fun y => arrived y ∨ y = .prePrepare x) i
      ((n.accepting n.view x.sequence x).logPrepare x.sequence
        (n.ownMessage c.primitives .prepare n.view x.sequence x.digest)) := by
  generalize after : (n.accepting n.view x.sequence x).logPrepare x.sequence
    (n.ownMessage c.primitives .prepare n.view x.sequence x.digest) = n'
  have entries : ∀ q, n'.prePrepareLog.get? q =
      if x.sequence = q then some x else n.prePrepareLog.get? q := by
    intro q
    rw [← after]
    exact Dict.get?_set ..
  have prepares : ∀ q y, y ∈ n'.prepareLog.getD q [] ↔ y ∈ n.prepareLog.getD q [] ∨
      x.sequence = q ∧ y = n.ownMessage c.primitives .prepare n.view x.sequence x.digest := by
    intro q y
    rw [← after]
    exact mem_logPrepare
  have commits : n'.commitLog = n.commitLog := by
    rw [← after]
    rfl
  have committed : n'.committedSequences = n.committedSequences := by
    rw [← after]
    rfl
  have watermark : n'.lowWatermark = n.lowWatermark := by
    rw [← after]
    rfl
  -- the sequence was free, so nothing is written over
  have kept : ∀ q pp, n.prePrepareLog.get? q = some pp → n'.prePrepareLog.get? q = some pp := by
    intro q pp found
    rw [entries, if_neg]
    · exact found
    · rintro rfl
      rw [absent] at found
      cases found
  refine ⟨?_, ?_, ?_, ?_, ?_⟩
  · rintro y (came | rfl)
    · have before := filed.filed y came
      cases y with
      | prePrepare y => exact fun newer => kept _ _ (before newer)
      | prepare y => exact fun newer => (prepares _ y).mpr (Or.inl (before newer))
      | commit y => exact fun newer => commits ▸ before newer
      | _ => trivial
    · intro newer
      rw [entries, if_pos rfl]
  · intro backup q pp newer found
    rw [entries] at found
    split at found
    · next same =>
      exact ⟨_, (prepares q _).mpr (Or.inr ⟨same, rfl⟩), voted.configured.nodeId⟩
    · obtain ⟨y, logged, sender⟩ := filed.answered backup q pp newer found
      exact ⟨y, (prepares q y).mpr (Or.inl logged), sender⟩
  · intro q newer y logged
    rw [commits] at logged
    obtain ⟨pp, found⟩ := filed.gated q newer y logged
    exact ⟨pp, kept q pp found⟩
  · intro q pp newer found
    rw [watermark]
    rw [entries] at found
    split at found
    · next same => exact same ▸ allowed
    · exact filed.low q pp newer found
  · intro some
    simp only [committed, watermark] at some ⊢
    exact filed.mark some

theorem Filed.logPrepare (x : PBFTMessage ι Op Sig) :
    Filed c v m (fun y => arrived y ∨ y = .prepare x) i (n.logPrepare x.sequence x) := by
  refine { filed with filed := ?_, answered := ?_ }
  · rintro y (came | rfl)
    · have before := filed.filed y came
      cases y with
      | prepare y => exact fun newer => mem_logPrepare.mpr (Or.inl (before newer))
      | _ => exact before
    · exact fun _ => mem_logPrepare.mpr (Or.inr ⟨rfl, rfl⟩)
  · intro backup q pp newer found
    obtain ⟨y, logged, sender⟩ := filed.answered backup q pp newer found
    exact ⟨y, mem_logPrepare.mpr (Or.inl logged), sender⟩

theorem Filed.logCommit (x : PBFTMessage ι Op Sig)
    (entry : m < x.sequence → ∃ pp, n.prePrepareLog.get? x.sequence = some pp) :
    Filed c v m (fun y => arrived y ∨ y = .commit x) i (n.logCommit x.sequence x) := by
  refine { filed with filed := ?_, gated := ?_ }
  · rintro y (came | rfl)
    · have before := filed.filed y came
      cases y with
      | commit y => exact fun newer => mem_logCommit.mpr (Or.inl (before newer))
      | _ => exact before
    · exact fun _ => mem_logCommit.mpr (Or.inr ⟨rfl, rfl⟩)
  · intro q newer y logged
    rcases mem_logCommit.mp logged with old | ⟨rfl, -⟩
    · exact filed.gated q newer y old
    · exact entry newer

end

theorem senders_logPrepare (x : PBFTMessage ι Op Sig) {q : Int} {digest : String}
    (other : (q, digest) ≠ (x.sequence, x.digest)) :
    senders ((n.logPrepare x.sequence x).prepareLog.getD q []) digest =
      senders (n.prepareLog.getD q []) digest := by
  rw [getD_logPrepare]
  split
  · next number =>
    subst number
    rw [senders_append, if_neg]
    rintro rfl
    exact other rfl
  · rfl

theorem senders_logCommit (x : PBFTMessage ι Op Sig) {q : Int} {digest : String}
    (other : (q, digest) ≠ (x.sequence, x.digest)) :
    senders ((n.logCommit x.sequence x).commitLog.getD q []) digest =
      senders (n.commitLog.getD q []) digest := by
  rw [getD_logCommit]
  split
  · next number =>
    subst number
    rw [senders_append, if_neg]
    rintro rfl
    exact other rfl
  · rfl

/-! ### Answering a delivery -/

theorem Cluster.primaryOf_mem (isPrimary : c.primaryOf v = some j) : j ∈ c.members := by
  have member := List.mem_of_getElem? isPrimary
  rw [List.mem_insertionSort] at member
  exact List.mem_toFinset.mpr member

section

variable (filed : Filed c v m arrived i n) (prompt : Prompt m i n)
  (voted : Voted c v m requests i n) (honest : c.Honest i) (numbered : Numbered c v m requests)
  (passes : SignaturesPass c.primitives)

include filed prompt voted honest numbered passes

theorem prompt_prePrepare (traffic : Traffic c v m requests (.prePrepare x)) (other : x.sender ≠ i)
    (inWindow : n.checkSequenceWatermark x.sequence)
    (first : n.Completes (.prePrepare x) → ComesFirst m n x.sequence) :
    Filed c v m (fun y => arrived y ∨ y = .prePrepare x) i (n.handlePrePrepare c.primitives x).2 ∧
      Prompt m i (n.handlePrePrepare c.primitives x).2 := by
  -- it is there, or it is accepted
  have split : ((n.handlePrePrepare c.primitives x).2 = n ∧ n.Files m (.prePrepare x)) ∨
      (n.prePrepareLog.get? x.sequence = none ∧ (n.handlePrePrepare c.primitives x).2 =
        ((n.accepting n.view x.sequence x).logPrepare x.sequence
          (n.ownMessage c.primitives .prepare n.view x.sequence x.digest)).tryPrepareQuorum
            c.primitives x.sequence x.digest) := by
    rcases traffic with older | request
    · rcases n.handlePrePrepare_cases c.primitives x with same | ⟨_, _, _, _, _, absent, out⟩
      · exact Or.inl ⟨same, fun newer => absurd older (not_le.mpr newer)⟩
      · exact Or.inr ⟨absent, out⟩
    · cases found : n.prePrepareLog.get? x.sequence with
      | none =>
        have proposed := numbered.proposed x request
        exact Or.inr ⟨rfl, voted.accepts passes proposed (Cluster.primaryOf_mem proposed.primary)
          inWindow found⟩
      | some pp =>
        refine Or.inl ⟨handlePrePrepareFrom_present c.primitives n x false found, ?_⟩
        intro newer
        rcases voted.entries _ pp found with ⟨older, _⟩ | ⟨request', number⟩
        · exact absurd older (not_le.mpr newer)
        · rw [found, numbered.unique request' request number]
  rcases split with ⟨same, here⟩ | ⟨absent, out⟩
  · rw [same]
    exact ⟨filed.arrive here, prompt⟩
  · rw [out]
    have known : (x.sequence ≤ m ∧ x.sequence ≤ m) ∨ (x ∈ requests ∧ x.sequence = x.sequence) :=
      traffic.imp (fun older => ⟨older, older⟩) (fun request => ⟨request, rfl⟩)
    have logged := (voted.accepting n.view x.sequence x known).logPrepare x.sequence
      (n.ownMessage c.primitives .prepare n.view x.sequence x.digest) (by
        rcases traffic with older | request
        · exact Or.inl ⟨older, older⟩
        · refine Or.inr ⟨x, request, rfl, i, ⟨honest, ?_⟩, voted.ownMessage_eq .prepare x⟩
          rw [(numbered.proposed x request).primary]
          exact fun same => other (Option.some.inj same))
      ⟨x, Dict.get?_set_self _ _ _⟩
    refine tryPrepareQuorum_prompt (filed.accept voted x absent inWindow.1) logged honest numbered
      x.sequence x.digest ?_ prompt.settled prompt.backed ?_
    · intro q digest newer different large
      have same := senders_logPrepare (n := n.accepting n.view x.sequence x)
        (n.ownMessage c.primitives .prepare n.view x.sequence x.digest) different
      simp only [ownMessage] at same large
      rw [same] at large
      exact prompt.promised q digest newer large
    · intro prepared committed none q pp newer found
      rw [getD_logPrepare, if_pos rfl, senders_append_own] at prepared
      have lookup : (n.prePrepareLog.set x.sequence x).get? q = some pp := found
      rw [Dict.get?_set] at lookup
      split at lookup
      · next same => exact same.le
      · exact first ⟨prepared, committed⟩ none q pp newer lookup

theorem prompt_prepare (traffic : Traffic c v m requests (.prepare x)) (other : x.sender ≠ i)
    (entry : (n.prePrepareLog.get? x.sequence).isSome = true)
    (first : n.Completes (.prepare x) → ComesFirst m n x.sequence) :
    Filed c v m (fun y => arrived y ∨ y = .prepare x) i (n.handlePrepare c.primitives x).2 ∧
      Prompt m i (n.handlePrepare c.primitives x).2 := by
  -- it is there, or it is logged
  have split : ((n.handlePrepare c.primitives x).2 = n ∧ n.Files m (.prepare x)) ∨
      (n.handlePrepare c.primitives x).2 = (n.logPrepare x.sequence x).tryPrepareQuorum
        c.primitives x.sequence x.digest := by
    rcases traffic with older | ⟨r, request, j, backup, rfl⟩
    · rcases n.handlePrepare_cases c.primitives x with same | ⟨_, _, _, out⟩
      · exact Or.inl ⟨same, fun newer => absurd older (not_le.mpr newer)⟩
      · exact Or.inr out
    · obtain ⟨pp, found⟩ := Option.isSome_iff_exists.mp entry
      rcases voted.entries r.sequence pp found with ⟨older, _⟩ | ⟨request', number⟩
      · exact absurd (numbered.later request) (not_lt.mpr older)
      have same := numbered.unique request' request number
      subst same
      rcases voted.takesPrepare (r := pp) passes backup.1.1 other found with
        ⟨⟨x', logged, sender⟩, same⟩ | out
      · have own := voted.prepare_of_sender numbered request logged
        rw [sender] at own
        exact Or.inl ⟨same, fun _ => own⟩
      · exact Or.inr out
  rcases split with ⟨same, here⟩ | out
  · rw [same]
    exact ⟨filed.arrive here, prompt⟩
  · rw [out]
    have logged := voted.logPrepare x.sequence x (by
      rcases traffic with older | ⟨r, request, j, backup, rfl⟩
      · exact Or.inl ⟨older, older⟩
      · exact Or.inr ⟨r, request, rfl, j, backup, rfl⟩) (Option.isSome_iff_exists.mp entry)
    refine tryPrepareQuorum_prompt (filed.logPrepare x) logged honest numbered x.sequence x.digest
      ?_ prompt.settled prompt.backed ?_
    · intro q digest newer different large
      rw [senders_logPrepare x different] at large
      exact prompt.promised q digest newer large
    · intro prepared committed
      rw [getD_logPrepare, if_pos rfl, senders_append_of_eq _ _ rfl] at prepared
      exact first ⟨prepared, committed⟩

end

variable (filed : Filed c v m arrived i n)

include filed

theorem prompt_commit (prompt : Prompt m i n) (voted : Voted c v m requests i n)
    (numbered : Numbered c v m requests) (passes : SignaturesPass c.primitives)
    (traffic : Traffic c v m requests (.commit x))
    (quorum : n.quorumSize ≤ (senders (n.prepareLog.getD x.sequence []) x.digest).card)
    (first : n.Completes (.commit x) → ComesFirst m n x.sequence) :
    Filed c v m (fun y => arrived y ∨ y = .commit x) i (n.handleCommit c.primitives x).2 ∧
      Prompt m i (n.handleCommit c.primitives x).2 := by
  have split : ((n.handleCommit c.primitives x).2 = n ∧ n.Files m (.commit x)) ∨
      (n.handleCommit c.primitives x).2 =
        (n.logCommit x.sequence x).tryCommitQuorum x.sequence x.digest := by
    rcases traffic with older | ⟨r, request, j, live, rfl⟩
    · rcases n.handleCommit_cases c.primitives x with same | ⟨_, _, out⟩
      · exact Or.inl ⟨same, fun newer => absurd older (not_le.mpr newer)⟩
      · exact Or.inr out
    · rcases voted.takesCommit passes live.1 quorum with ⟨⟨x', logged, sender⟩, same⟩ | out
      · have own := voted.commit_of_sender numbered request logged
        rw [sender] at own
        exact Or.inl ⟨same, fun _ => own⟩
      · exact Or.inr out
  rcases split with ⟨same, here⟩ | out
  · rw [same]
    exact ⟨filed.arrive here, prompt⟩
  · rw [out]
    have entry : m < x.sequence → ∃ r ∈ requests, r.sequence = x.sequence ∧ r.digest = x.digest ∧
        n.prePrepareLog.get? x.sequence = some r :=
      fun newer => voted.entry_of_quorum numbered newer quorum
    have logged := voted.logCommit x.sequence x (by
      rcases traffic with older | ⟨r, request, j, live, rfl⟩
      · exact Or.inl ⟨older, older⟩
      · exact Or.inr ⟨r, request, rfl, j, live, rfl⟩)
      (fun newer => voted.backups_of_quorum newer quorum)
    have more : ∀ q y, y ∈ n.commitLog.getD q [] →
        y ∈ (n.logCommit x.sequence x).commitLog.getD q [] :=
      fun q y old => mem_logCommit.mpr (Or.inl old)
    refine tryCommitQuorum_prompt (filed.logCommit x ?_) logged x.sequence x.digest ?_ ?_ ?_ ?_ ?_
    · intro newer
      obtain ⟨r, _, _, _, found⟩ := entry newer
      exact ⟨r, found⟩
    · intro q digest newer large
      obtain ⟨y, old, sender⟩ := prompt.promised q digest newer large
      exact ⟨y, more q y old, sender⟩
    · intro q digest newer different large
      rw [senders_logCommit x different] at large
      exact prompt.settled q digest newer large
    · intro q newer done
      obtain ⟨y, old, sender⟩ := prompt.backed q newer done
      exact ⟨y, more q y old, sender⟩
    · -- the prepare quorum was answered with the own COMMIT
      intro newer
      obtain ⟨y, old, sender⟩ := prompt.promised x.sequence x.digest newer quorum
      exact ⟨y, more _ y old, sender⟩
    · intro large
      rw [getD_logCommit, if_pos rfl, senders_append_of_eq _ _ rfl] at large
      exact first large

theorem Filed.request (voted : Voted c v m requests i n) (numbered : Numbered c v m requests)
    (isPrimary : c.primaryOf v = some i) (takes : n.TakesRequest)
    (counter : n.lastSequence = m + requests.length) (r : PBFTMessage ι Op Sig) :
    Filed c v m arrived i
      ({ n with lastSequence := n.lastSequence + 1 }.accepting n.view (n.lastSequence + 1) r) := by
  have lookup : ∀ q, (n.prePrepareLog.set (n.lastSequence + 1) r).get? q =
      if n.lastSequence + 1 = q then some r else n.prePrepareLog.get? q := fun q => Dict.get?_set ..
  -- the counter is above every logged number, so the new entry replaces none
  have entries : ∀ q pp, m < q → n.prePrepareLog.get? q = some pp → q ≤ n.lastSequence := by
    intro q pp newer found
    rcases voted.entries q pp found with ⟨older, _⟩ | ⟨member, rfl⟩
    · exact absurd older (not_le.mpr newer)
    · exact counter ▸ numbered.le_length member
  refine { filed with filed := ?_, answered := ?_, gated := ?_, low := ?_ }
  · intro x came
    have before := filed.filed x came
    cases x with
    | prePrepare x =>
      intro newer
      refine (lookup _).trans ?_
      rw [if_neg]
      · exact before newer
      · have old := entries _ _ newer (before newer)
        omega
    | _ => exact before
  · exact fun backup => absurd isPrimary backup.2
  · intro q newer x logged
    obtain ⟨pp, found⟩ := filed.gated q newer x logged
    refine ⟨pp, (lookup q).trans ?_⟩
    rw [if_neg]
    · exact found
    · have old := entries q pp newer found
      omega
  · intro q pp newer found
    have entry := (lookup q).symm.trans found
    split at entry
    · next same => exact same ▸ takes.2.2.1
    · exact filed.low q pp newer entry

theorem Filed.imp (fewer : ∀ x, arrived' x → arrived x) :
    Filed c v m arrived' i n :=
  { filed with filed := fun x came => filed.filed x (fewer x came) }

end Filing

/-! ### Runs -/

section Runs

variable [DecidableEq Op] [DecidableEq Sig] {c : Cluster ι Op PK SK Sig} {v m : Int}
  {s : Network ι Op PK SK Sig}

structure KeepsUp (c : Cluster ι Op PK SK Sig) (v m : Int) (s : Network ι Op PK SK Sig) :
    Prop where
  view : OneView c v m s
  filed : ∀ i, c.Honest i → Filed c v m (fun x => (i, x) ∈ s.delivered) i (s.nodes i)
  prompt : ∀ i, c.Honest i → Prompt m i (s.nodes i)

variable {i : ι}

omit [DecidableEq Op] [DecidableEq Sig] in
theorem IdleNode.filed {n : PBFTNode ι Op PK SK Sig} (idle : IdleNode c v m i n) :
    Filed c v m (fun _ => False) i n ∧ Prompt m i n := by
  refine ⟨⟨fun x => False.elim, ?_, ?_, ?_, ?_⟩, ⟨?_, ?_, ?_⟩⟩
  · exact fun _ q pp newer found => absurd (idle.entries q pp found).1 (not_le.mpr newer)
  · exact fun q newer x logged => absurd (idle.commits q x logged).1 (not_le.mpr newer)
  · exact fun q pp newer found => absurd (idle.entries q pp found).1 (not_le.mpr newer)
  · intro some
    exact (idle.committed _ (Finset.min'_mem _ some)).trans (le_max_left _ _)
  · intro q digest newer large
    obtain ⟨j, counted⟩ := Finset.card_pos.mp (lt_of_lt_of_le (Nat.succ_pos _) large)
    obtain ⟨x, logged, _⟩ := (mem_senders _ _ _).mp counted
    exact absurd (idle.prepares q x logged).1 (not_le.mpr newer)
  · intro q digest newer large
    obtain ⟨j, counted⟩ := Finset.card_pos.mp (lt_of_lt_of_le (Nat.succ_pos _) large)
    obtain ⟨x, logged, _⟩ := (mem_senders _ _ _).mp counted
    exact absurd (idle.commits q x logged).1 (not_le.mpr newer)
  · exact fun q newer done => absurd (idle.committed q done) (not_le.mpr newer)

namespace KeepsUp

variable {start : ClusterState ι Op PK SK Sig → Prop}

theorem initial (idle : ∀ s, start s → Idle c v m s)
    (init : (network c start).init s) : KeepsUp c v m s := by
  refine ⟨OneView.initial idle init, fun i honest => ?_, fun i honest => ?_⟩
  · refine (idle _ init.1 i honest).filed.1.imp fun x came => ?_
    rw [init.2.2.1] at came
    cases came
  · exact (idle _ init.1 i honest).filed.2

theorem request (inv : KeepsUp c v m s) (honest : c.Honest i) (operation : Op) :
    KeepsUp c v m (Network.exec c.primitives s (.request i operation)) := by
  have view := inv.view.request honest operation
  have voted := inv.view.voted i honest
  simp only [Network.exec, handleRequest_eq] at view ⊢
  split at view
  · next takes =>
    rw [if_pos takes]
    obtain ⟨isPrimary, _⟩ := requestMessage_proposed voted takes operation
    have filed := (inv.filed i honest).request voted inv.view.numbered isPrimary takes
      (inv.view.counter i honest isPrimary)
      ((s.nodes i).requestMessage c.primitives operation)
    refine ⟨view, fun j live => ?_, fun j live => ?_⟩
    · refine s.put_elim (fun _ => inv.filed j live) ?_
      rintro rfl
      exact filed
    · refine s.put_elim (fun _ => inv.prompt j live) ?_
      rintro rfl
      exact ⟨(inv.prompt j live).promised, (inv.prompt j live).settled,
        (inv.prompt j live).backed⟩
  · next stays =>
    rw [if_neg stays]
    refine ⟨view, fun j live => ?_, fun j live => ?_⟩
    · refine s.put_elim (fun _ => inv.filed j live) ?_
      rintro rfl
      exact inv.filed j live
    · refine s.put_elim (fun _ => inv.prompt j live) ?_
      rintro rfl
      exact inv.prompt j live

omit [DecidableEq Op] [DecidableEq Sig] in
theorem receive (inv : KeepsUp c v m s) (passes : SignaturesPass c.primitives) (honest : c.Honest i)
    {x : Input ι Op Sig} (sent : x ∈ s.sent) (other : x.sender ≠ some i)
    (timely : Timely m s (.deliver i x)) :
    Filed c v m (fun y => (i, y) ∈ s.delivered ∨ y = x) i ((s.nodes i).receive c.primitives x) ∧
      Prompt m i ((s.nodes i).receive c.primitives x) := by
  have traffic := inv.view.traffic x sent
  have filed := inv.filed i honest
  have prompt := inv.prompt i honest
  have voted := inv.view.voted i honest
  have numbered := inv.view.numbered
  -- the second part of the condition, about the entries of the log
  have first : ∀ k ∈ x.number, (s.nodes i).Completes x → ComesFirst m (s.nodes i) k := by
    intro k number completes none q pp newer found
    refine timely.2 completes none k number q ?_ newer
    exact List.mem_map.mpr ⟨(q, pp), (Dict.mem_entries_iff _ q pp).mpr found, rfl⟩
  cases x with
  | prePrepare x =>
    exact prompt_prePrepare filed prompt voted honest numbered passes traffic
      (fun same => other (congrArg some same)) timely.1 (first _ rfl)
  | prepare x =>
    exact prompt_prepare filed prompt voted honest numbered passes traffic
      (fun same => other (congrArg some same)) timely.1 (first _ rfl)
  | commit x =>
    exact prompt_commit filed prompt voted numbered passes traffic timely.1 (first _ rfl)
  | _ => exact traffic.elim

theorem deliver (inv : KeepsUp c v m s) (passes : SignaturesPass c.primitives) (honest : c.Honest i)
    {x : Input ι Op Sig} (sent : x ∈ s.sent) (other : x.sender ≠ some i)
    (timely : Timely m s (.deliver i x)) :
    KeepsUp c v m (Network.exec c.primitives s (.deliver i x)) := by
  obtain ⟨filed, prompt⟩ := inv.receive passes honest sent other timely
  refine ⟨inv.view.deliver honest sent other, fun j live => ?_, fun j live => ?_⟩
  · refine s.put_elim (fun moved => ?_) ?_
    · refine (inv.filed j live).imp fun y came => ?_
      rcases List.mem_append.mp came with old | new
      · exact old
      · exact absurd (congrArg Prod.fst (List.mem_singleton.mp new)) moved
    · rintro rfl
      refine filed.imp fun y came => ?_
      rcases List.mem_append.mp came with old | new
      · exact Or.inl old
      · exact Or.inr (congrArg Prod.snd (List.mem_singleton.mp new))
  · refine s.put_elim (fun _ => inv.prompt j live) ?_
    rintro rfl
    exact prompt

theorem reached (idle : ∀ s, start s → Idle c v m s) (passes : SignaturesPass c.primitives)
    (run : (network c start).Reaches (Timely m) s) :
    KeepsUp c v m s := by
  apply run.invariant (I := KeepsUp c v m)
  · exact fun s init => initial idle init
  · intro s a inv possible timely
    cases a with
    | request i operation => exact inv.request possible operation
    | startViewChange i => exact timely.elim
    | deliver i x => exact inv.deliver passes possible.1 possible.2.1 possible.2.2 timely

/-! ### Everything delivered -/

variable {r : PBFTMessage ι Op Sig}

section

omit [DecidableEq Op] [DecidableEq Sig]

/-- What a live node has put into its log about a number was sent, so all others have filed it. -/
theorem files_of_posts (inv : KeepsUp c v m s) {q : Int} (all : AllDelivered c s q) (newer : m < q)
    (honest : c.Honest i) (live : c.Honest j) {x : Input ι Op Sig} (posts : (s.nodes j).Posts x)
    (number : x.number = some q) (foreign : x.sender ≠ some i) :
    (s.nodes i).Files m x := by
  have sent := inv.view.posted j live x posts q number newer
  exact (inv.filed i honest).filed x (all x sent number i honest.1 honest.2 foreign)

variable (inv : KeepsUp c v m s) (request : r ∈ s.requests) (all : AllDelivered c s r.sequence)

include inv request all

theorem prepares_everywhere (honest : c.Honest i) (backup : Backup c v j) :
    voteOf c v .prepare r j ∈ (s.nodes i).prepareLog.getD r.sequence [] := by
  have newer := inv.view.numbered.later request
  have proposed := inv.view.numbered.proposed r request
  -- the backup has the request and has voted for it
  have own : voteOf c v .prepare r j ∈ (s.nodes j).prepareLog.getD r.sequence [] := by
    have foreign : (Input.prePrepare r).sender ≠ some j := by
      intro same
      exact backup.2 (proposed.primary.trans same)
    have came := all _ (inv.view.offered r request) rfl j backup.1.1 backup.1.2 foreign
    have entry := (inv.filed j backup.1).filed _ came newer
    obtain ⟨x, logged, sender⟩ := (inv.filed j backup.1).answered backup _ r newer entry
    exact sender ▸ (inv.view.voted j backup.1).prepare_of_sender inv.view.numbered request logged
  by_cases same : j = i
  · subst same
    exact own
  · have posts : (s.nodes j).Posts (.prepare (voteOf c v .prepare r j)) :=
      ⟨(inv.view.voted j backup.1).configured.nodeId.symm, r.sequence, own⟩
    exact inv.files_of_posts all newer honest backup.1 posts rfl
      (fun own => same (Option.some.inj own)) newer

variable (enough : 2 * c.f + 1 ≤ (c.members.filter (Backup c v)).card)

include enough

theorem commits_everywhere (honest : c.Honest i) (live : c.Honest j) :
    voteOf c v .commit r j ∈ (s.nodes i).commitLog.getD r.sequence [] := by
  have newer := inv.view.numbered.later request
  have own : voteOf c v .commit r j ∈ (s.nodes j).commitLog.getD r.sequence [] := by
    -- with the PREPAREs of all backups there the node owes its COMMIT, and has logged it
    have quorum : (s.nodes j).quorumSize ≤
        (senders ((s.nodes j).prepareLog.getD r.sequence []) r.digest).card := by
      rw [(inv.view.voted j live).configured.quorumSize_eq]
      refine enough.trans (Finset.card_le_card fun k member => ?_)
      have backup := (Finset.mem_filter.mp member).2
      exact (mem_senders _ _ _).mpr
        ⟨_, inv.prepares_everywhere request all live backup, rfl, rfl⟩
    obtain ⟨x, logged, sender⟩ := (inv.prompt j live).promised _ _ newer quorum
    exact sender ▸ (inv.view.voted j live).commit_of_sender inv.view.numbered request logged
  by_cases same : j = i
  · subst same
    exact own
  · have posts : (s.nodes j).Posts (.commit (voteOf c v .commit r j)) :=
      ⟨(inv.view.voted j live).configured.nodeId.symm, r.sequence, own⟩
    exact inv.files_of_posts all newer honest live posts rfl
      (fun own => same (Option.some.inj own)) newer

theorem committedOnce : CommittedOnce c s r := by
  intro i honest
  have newer := inv.view.numbered.later request
  have voted := inv.view.voted i honest
  -- and with the COMMITs of all backups it has committed
  have done : r.sequence ∈ (s.nodes i).committedSequences := by
    refine (inv.prompt i honest).settled r.sequence r.digest newer ?_
    rw [voted.configured.quorumSize_eq]
    refine enough.trans (Finset.card_le_card fun k member => ?_)
    have backup := (Finset.mem_filter.mp member).2
    exact (mem_senders _ _ _).mpr
      ⟨_, inv.commits_everywhere request all enough honest backup.1, rfl, rfl⟩
  refine ⟨done, ?_, ?_⟩
  · -- there is a record, there is at most one, and it is that of the request
    obtain ⟨rec, member, number⟩ := voted.recorded _ newer done
    have only : ∀ rec ∈ (s.nodes i).commits, rec.sequence = r.sequence → rec = recordOf r := by
      intro rec member number
      rcases voted.records rec member with older | ⟨_, r', member', rfl⟩
      · omega
      · cases inv.view.numbered.unique member' request number
        rfl
    have found : rec ∈ (s.nodes i).commits.filter fun rec => decide (rec.sequence = r.sequence) :=
      List.mem_filter.mpr ⟨member, decide_eq_true number⟩
    have single := voted.once _ newer
    rw [only rec member number] at found
    cases listed : (s.nodes i).commits.filter fun rec => decide (rec.sequence = r.sequence) with
    | nil =>
      rw [listed] at found
      cases found
    | cons first rest =>
      rw [listed] at found single
      have : rest = [] := List.eq_nil_of_length_eq_zero (by simpa using single)
      subst this
      rw [List.mem_singleton.mp found]
  · obtain ⟨op, own, _⟩ := (inv.view.numbered.proposed r request).operation
    rw [own]
    rfl

end

end KeepsUp

omit [DecidableEq Op] [DecidableEq Sig] in
theorem card_backups (size : c.nodeIds.length = 3 * c.f + 1) {p : ι}
    (isPrimary : c.primaryOf v = some p) (honest : c.Honest p) :
    (c.members.filter (Backup c v)).card = 3 * c.f - c.byzantine.card := by
  have live : c.members.filter (Backup c v) = (c.members \ c.byzantine).erase p := by
    ext j
    simp only [Finset.mem_filter, Backup, Cluster.Honest, Finset.mem_erase, Finset.mem_sdiff,
      isPrimary]
    constructor
    · rintro ⟨_, honest, other⟩
      exact ⟨fun same => other (congrArg some same.symm), honest⟩
    · rintro ⟨other, honest⟩
      exact ⟨honest.1, honest, fun same => other (Option.some.inj same).symm⟩
  have rest : (c.members \ c.byzantine).card = c.members.card - c.byzantine.card :=
    Finset.card_sdiff_of_subset c.byzantine_members
  rw [live, Finset.card_erase_of_mem (Finset.mem_sdiff.mpr honest), rest, c.card_members, size]
  omega

/-- In a cluster of `3f + 1` with an honest primary, a request whose messages have all been
delivered is committed by every live node exactly if fewer than `f` nodes are silent. -/
theorem live_nodes_commit_iff (c : Cluster ι Op PK SK Sig) (v m : Int)
    (size : c.nodeIds.length = 3 * c.f + 1) (passes : SignaturesPass c.primitives) {p : ι}
    (isPrimary : c.primaryOf v = some p) (honest : c.Honest p) {s : Network ι Op PK SK Sig}
    (run : (network c (Idle c v m)).Reaches (Timely m) s) {r : PBFTMessage ι Op Sig}
    (request : r ∈ s.requests) (all : AllDelivered c s r.sequence) :
    CommittedOnce c s r ↔ c.byzantine.card < c.f := by
  have inv := KeepsUp.reached (fun _ idle => idle) passes run
  have few := c.few
  have count := card_backups size isPrimary honest
  constructor
  · intro committed
    have newer := inv.view.numbered.later request
    -- a COMMIT was logged above a quorum of PREPAREs, and only backups prepare
    obtain ⟨x, logged, _⟩ := (inv.prompt p honest).backed _ newer (committed p honest).1
    have enough := (inv.view.voted p honest).quorate _ newer x logged
    omega
  · intro fewer
    exact inv.committedOnce request all (by omega)

end Runs

/-- The primary, node 0, numbers a request and everybody gets it; then the listed backups' votes
and the listed nodes' commits reach the others on the list. -/
def round (live : List (Fin 4)) (committing : List (Fin 4)) :
    List (NetAction (Fin 4) String (IdealSignature 4)) :=
  let proposal := .prePrepare (idealMessage .prePrepare 0 0 1 "A" (some "A"))
  let others (j : Fin 4) := live.filter fun i => decide (i ≠ j)
  .request 0 "A" :: (others 0).map (fun i => .deliver i proposal) ++
    (others 0).flatMap (fun j => (others j).map fun i => vote .prepare i j 1 "A") ++
    committing.flatMap fun j => (others j).map fun i => vote .commit i j 1 "A"

def requestA : PBFTMessage (Fin 4) String (IdealSignature 4) :=
  idealMessage .prePrepare 0 0 1 "A" (some "A")

theorem ideal_signaturesPass (N : Nat) : SignaturesPass (ideal N) :=
  fun _ _ => decide_eq_true rfl

theorem live_nodes_commit_example : 0 < 1 ∧ CommittedOnce fourHonest
      ((round [0, 1, 2, 3] [0, 1, 2, 3]).foldl (Network.exec (ideal 4)) (idealNetwork 4 1))
      requestA := by
  refine ⟨by decide, (live_nodes_commit_iff fourHonest 0 0 (by decide +kernel)
    (ideal_signaturesPass 4) (p := 0) (by decide +kernel) (by decide +kernel)
    ((Machine.Reaches.init ?_).of_follows (round [0, 1, 2, 3] [0, 1, 2, 3]) ?_) ?_ ?_).mpr ?_⟩
  · exact (idealNetwork_init 4 1 (by decide) ∅ (by decide)).imp_left StartsIn.idle
  · decide +kernel
  · decide +kernel
  · decide +kernel
  · decide +kernel

def oneSilent : Cluster (Fin 4) String (Fin 4) (Fin 4) (IdealSignature 4) :=
  idealCluster 4 1 four_suffice {3} (by decide)

def alone : Cluster (Fin 1) String (Fin 1) (Fin 1) (IdealSignature 1) :=
  idealCluster 1 0 (by decide) ∅ (by decide)

/-- The round of `round [0, 1, 2, 3]`, except that the PREPARE of node 1 reaches node 3 before
the PRE-PREPARE does. -/
def overtaken : List (NetAction (Fin 4) String (IdealSignature 4)) :=
  match round [0, 1, 2, 3] [0, 1, 2] with
  | request :: first :: second :: third :: rest =>
    request :: first :: second :: vote .prepare 3 1 1 "A" :: third ::
      rest.filter fun a => decide (a ≠ vote .prepare 3 1 1 "A")
  | acts => acts

/-- With one silent node of four, and with a single node, the request is never committed,
although every message arrives in time. With no silent node it is not committed everywhere if a
PREPARE overtakes the PRE-PREPARE. -/
theorem silent_node_blocks_commit :
    (∃ s r, (network oneSilent (Idle oneSilent 0 0)).Reaches (Timely 0) s ∧ r ∈ s.requests ∧
      AllDelivered oneSilent s r.sequence ∧ ¬ CommittedOnce oneSilent s r) ∧
    (∃ s r, (network alone (Idle alone 0 0)).Reaches (Timely 0) s ∧ r ∈ s.requests ∧
      AllDelivered alone s r.sequence ∧ ¬ CommittedOnce alone s r) ∧
    (∃ s r, (network fourHonest (Idle fourHonest 0 0)).Reaches (fun _ a => KeepsView a) s ∧
      r ∈ s.requests ∧ AllDelivered fourHonest s r.sequence ∧ ¬ CommittedOnce fourHonest s r) := by
  have start {N f : Nat} (size : 3 * f + 1 ≤ N) (silent : Finset (Fin N)) (few : silent.card ≤ f) :
      (network (idealCluster N f size silent few)
        (Idle (idealCluster N f size silent few) 0 0)).init (idealNetwork N f) :=
    (idealNetwork_init N f size silent few).imp_left StartsIn.idle
  refine ⟨⟨(round [0, 1, 2] []).foldl (Network.exec (ideal 4)) (idealNetwork 4 1), requestA,
      ?_, ?_, ?_, ?_⟩,
    ⟨[NetAction.request 0 "A"].foldl (Network.exec (ideal 1)) (idealNetwork 1 0),
      idealMessage .prePrepare 0 0 1 "A" (some "A"), ?_, ?_, ?_, ?_⟩,
    ⟨overtaken.foldl (Network.exec (ideal 4)) (idealNetwork 4 1), requestA, ?_, ?_, ?_, ?_⟩⟩
  · exact (Machine.Reaches.init (start _ _ _)).of_follows _ (by decide +kernel)
  · decide +kernel
  · decide +kernel
  · intro committed
    exact absurd (committed 0 (by decide +kernel)).1 (by decide +kernel)
  · exact (Machine.Reaches.init (start _ _ _)).of_follows _ (by decide +kernel)
  · decide +kernel
  · decide +kernel
  · intro committed
    exact absurd (committed 0 (by decide +kernel)).1 (by decide +kernel)
  · exact (Machine.Reaches.init (start _ _ _)).of_follows _ (by decide +kernel)
  · decide +kernel
  · decide +kernel
  · intro committed
    exact absurd (committed 3 (by decide +kernel)).1 (by decide +kernel)

end DistLLM.Pbft
