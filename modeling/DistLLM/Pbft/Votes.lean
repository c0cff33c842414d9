import DistLLM.Pbft.Network

/-!
# The votes of one view

In a view that nobody leaves, every message about a request of its primary is the request itself
or the vote of a live node for it, and every log holds only those. Numbers up to a bound may have
a history of their own; the requests of the run are numbered from there on. The primary puts its
request into its log before it handles it and so never prepares it: the PREPAREs are those of the
other live nodes, the backups.
-/
namespace DistLLM.Pbft

open DistLLM.Library PBFTNode

variable {ι Op PK SK Sig : Type} [LinearOrder ι]

/-! ### What the handlers do with a message -/

variable (n : PBFTNode ι Op PK SK Sig) (l : List (PBFTMessage ι Op Sig)) (m : PBFTMessage ι Op Sig)
  (sequence : Int) (phase : PBFTPhase) {digest : String} {q : Int}

namespace PBFTNode

/-- The number whose commit quorum a message would complete: counted with the sender of the
message and, where the node would broadcast its own COMMIT, with the node. -/
def Completes : Input ι Op Sig → Prop
  | .prePrepare m =>
    n.quorumSize ≤ (insert n.nodeId (senders (n.prepareLog.getD m.sequence []) m.digest)).card ∧
    n.quorumSize ≤ (insert n.nodeId (senders (n.commitLog.getD m.sequence []) m.digest)).card
  | .prepare m =>
    n.quorumSize ≤ (insert m.sender (senders (n.prepareLog.getD m.sequence []) m.digest)).card ∧
    n.quorumSize ≤ (insert n.nodeId (senders (n.commitLog.getD m.sequence []) m.digest)).card
  | .commit m =>
    n.quorumSize ≤ (insert m.sender (senders (n.commitLog.getD m.sequence []) m.digest)).card
  | _ => False

instance (n : PBFTNode ι Op PK SK Sig) : DecidablePred n.Completes
  | .prePrepare _ | .prepare _ => inferInstanceAs (Decidable (_ ∧ _))
  | .commit _ => inferInstanceAs (Decidable (_ ≤ _))
  | .request _ | .startViewChange | .viewChange _ | .newView _ => .isFalse id

theorem senders_append (digest : String) :
    senders (l ++ [m]) digest =
      if m.digest = digest then insert m.sender (senders l digest) else senders l digest := by
  ext j
  split
  · next same =>
    simp only [mem_senders, List.mem_append, List.mem_singleton, Finset.mem_insert]
    constructor
    · rintro ⟨m', old | rfl, own, rfl⟩
      · exact Or.inr ⟨m', old, own, rfl⟩
      · exact Or.inl rfl
    · rintro (rfl | ⟨m', old, own, rfl⟩)
      · exact ⟨m, Or.inr rfl, same, rfl⟩
      · exact ⟨m', Or.inl old, own, rfl⟩
  · next other =>
    simp only [mem_senders, List.mem_append, List.mem_singleton]
    constructor
    · rintro ⟨m', old | rfl, own, rfl⟩
      · exact ⟨m', old, own, rfl⟩
      · exact absurd own other
    · rintro ⟨m', old, own, rfl⟩
      exact ⟨m', Or.inl old, own, rfl⟩

theorem senders_append_of_eq (own : m.digest = digest) :
    senders (l ++ [m]) digest = insert m.sender (senders l digest) := by
  rw [senders_append, if_pos own]

theorem senders_append_own (p : Primitives ι Op PK SK Sig) (n : PBFTNode ι Op PK SK Sig)
    (l : List (PBFTMessage ι Op Sig)) (phase : PBFTPhase) (view sequence : Int) (digest : String) :
    senders (l ++ [n.ownMessage p phase view sequence digest]) digest =
      insert n.nodeId (senders l digest) :=
  senders_append_of_eq l _ rfl

section

omit [LinearOrder ι]

theorem getD_logPrepare (sequence q : Int) (m : PBFTMessage ι Op Sig) :
    (n.logPrepare sequence m).prepareLog.getD q [] =
      if sequence = q then n.prepareLog.getD q [] ++ [m] else n.prepareLog.getD q [] := by
  simp only [logPrepare, Dict.getD_set]
  split
  · next same => rw [same]
  · rfl

theorem getD_logCommit (sequence q : Int) (m : PBFTMessage ι Op Sig) :
    (n.logCommit sequence m).commitLog.getD q [] =
      if sequence = q then n.commitLog.getD q [] ++ [m] else n.commitLog.getD q [] := by
  simp only [logCommit, Dict.getD_set]
  split
  · next same => rw [same]
  · rfl

theorem mem_logPrepare {n : PBFTNode ι Op PK SK Sig} {sequence : Int}
    {m m' : PBFTMessage ι Op Sig} : m' ∈ (n.logPrepare sequence m).prepareLog.getD q [] ↔
      m' ∈ n.prepareLog.getD q [] ∨ sequence = q ∧ m' = m := by
  rw [getD_logPrepare]
  split
  · next same => simp [same]
  · next other => simp [other]

theorem mem_logCommit {n : PBFTNode ι Op PK SK Sig} {sequence : Int}
    {m m' : PBFTMessage ι Op Sig} : m' ∈ (n.logCommit sequence m).commitLog.getD q [] ↔
      m' ∈ n.commitLog.getD q [] ∨ sequence = q ∧ m' = m := by
  rw [getD_logCommit]
  split
  · next same => simp [same]
  · next other => simp [other]

end

def HasCommitted (sequence : Int) : Prop :=
  ∃ m ∈ n.commitLog.getD sequence [], m.sender = n.nodeId ∧ m.phase = .commit

instance (n : PBFTNode ι Op PK SK Sig) (sequence : Int) : Decidable (n.HasCommitted sequence) :=
  inferInstanceAs (Decidable (∃ m ∈ _, _))

variable (p : Primitives ι Op PK SK Sig) (n : PBFTNode ι Op PK SK Sig)

/-- The node after it broadcast a COMMIT, with the quorum not yet looked at. -/
def committing (sequence : Int) (digest : String) : PBFTNode ι Op PK SK Sig :=
  (n.signing (.message n.nodeId n.view sequence digest)).logCommit sequence
    (n.ownMessage p .commit n.view sequence digest)

theorem tryPrepareQuorum_eq (digest : String) :
    n.tryPrepareQuorum p sequence digest =
      if n.quorumSize ≤ (senders (n.prepareLog.getD sequence []) digest).card ∧
          sequence ∉ n.committedSequences ∧ ¬ n.HasCommitted sequence then
        (n.committing p sequence digest).tryCommitQuorum sequence digest
      else n := by
  unfold tryPrepareQuorum
  split
  · next quorum =>
    dsimp only
    split
    · next fresh =>
      rw [if_pos ⟨quorum, fresh⟩]
      rfl
    · next stale => rw [if_neg fun all => stale all.2]
  · next few => rw [if_neg fun all => few all.1]

theorem tryCommitQuorum_eq (digest : String) :
    n.tryCommitQuorum sequence digest =
      if n.quorumSize ≤ (senders (n.commitLog.getD sequence []) digest).card ∧
          sequence ∉ n.committedSequences then
        (n.finalize sequence digest).advanceWatermark
      else n := by
  unfold tryCommitQuorum
  split
  · next quorum =>
    split
    · next fresh => rw [if_pos ⟨quorum, fresh⟩]
    · next stale => rw [if_neg fun both => stale both.2]
  · next few => rw [if_neg fun both => few both.1]

/-- The message a primary makes of a request. -/
def requestMessage (operation : Op) : PBFTMessage ι Op Sig :=
  { phase := .prePrepare, view := n.view, sequence := n.lastSequence + 1,
    digest := p.computeDigest operation, sender := n.nodeId, operation := some operation,
    signature := some (p.sign n.signingKey (.message n.nodeId n.view (n.lastSequence + 1)
      (p.computeDigest operation))) }

theorem handleRequest_eq (operation : Op) :
    n.handleRequest p operation =
      if n.TakesRequest then
        (some (n.requestMessage p operation),
          { n with lastSequence := n.lastSequence + 1 }.accepting n.view (n.lastSequence + 1)
            (n.requestMessage p operation))
      else (none, n) := by
  unfold handleRequest
  split
  · next isBackup =>
    have stays : ¬ n.TakesRequest := fun takes => isBackup takes.1
    rw [if_neg stays]
  next isPrimary =>
  split
  · next changing =>
    have stays : ¬ n.TakesRequest := fun takes => absurd takes.2.1 (by simp [changing])
    rw [if_neg stays]
  next stable =>
  dsimp only
  split
  · next outside =>
    have stays : ¬ n.TakesRequest := fun takes => outside takes.2.2
    rw [if_neg stays]
  next inWindow =>
  have takes : n.TakesRequest :=
    ⟨not_not.mp isPrimary, by simpa using stable, not_not.mp inWindow⟩
  rw [if_pos takes]
  exact congrArg (Prod.mk _) (handlePrePrepareFrom_present p _ _ true (Dict.get?_set_self _ _ _))

end PBFTNode

section Votes

variable (c : Cluster ι Op PK SK Sig) (v m : Int)

def Backup (j : ι) : Prop := c.Honest j ∧ c.primaryOf v ≠ some j

instance (j : ι) : Decidable (Backup c v j) := inferInstanceAs (Decidable (_ ∧ _))

/-- The vote of a node for a request in a phase. -/
def voteOf (phase : PBFTPhase) (r : PBFTMessage ι Op Sig) (j : ι) : PBFTMessage ι Op Sig :=
  { phase, view := v, sequence := r.sequence, digest := r.digest, sender := j,
    signature := some (c.primitives.sign (c.signingKey j) (.message j v r.sequence r.digest)) }

def recordOf (r : PBFTMessage ι Op Sig) : CommitRecord Op :=
  { sequence := r.sequence, digest := r.digest, operation := r.operation }

/-- A message that the primary of the view made of a request. -/
structure Proposed (r : PBFTMessage ι Op Sig) : Prop where
  phase : r.phase = .prePrepare
  view : r.view = v
  primary : c.primaryOf v = some r.sender
  operation : ∃ op, r.operation = some op ∧ c.primitives.computeDigest op = r.digest
  signature : r.signature = some (c.primitives.sign (c.signingKey r.sender) r.payload)

/-- The requests of a run are numbered from `m + 1` on without gaps. -/
structure Numbered (requests : List (PBFTMessage ι Op Sig)) : Prop where
  proposed : ∀ r ∈ requests, Proposed c v r
  numbers : requests.map PBFTMessage.sequence =
    (List.range requests.length).map fun k : Nat => m + 1 + (k : Int)

/-- The messages of a view about numbers after `m`, and any about earlier ones. -/
def Traffic (requests : List (PBFTMessage ι Op Sig)) : Input ι Op Sig → Prop
  | .prePrepare x => x.sequence ≤ m ∨ x ∈ requests
  | .prepare x => x.sequence ≤ m ∨ ∃ r ∈ requests, ∃ j, Backup c v j ∧ x = voteOf c v .prepare r j
  | .commit x => x.sequence ≤ m ∨ ∃ r ∈ requests, ∃ j, c.Honest j ∧ x = voteOf c v .commit r j
  | _ => False

end Votes

variable {r : PBFTMessage ι Op Sig}

namespace Numbered

variable {c : Cluster ι Op PK SK Sig} {v m : Int} {requests : List (PBFTMessage ι Op Sig)}
  (numbered : Numbered c v m requests)

include numbered

theorem getElem_sequence (k : Nat)
    (inside : k < requests.length) : requests[k].sequence = m + 1 + k := by
  have here := congrArg (fun l => l[k]?) numbered.numbers
  simpa [inside] using here

section

variable {r : PBFTMessage ι Op Sig} (member : r ∈ requests)

include member

theorem index : ∃ k, ∃ inside : k < requests.length, requests[k] = r ∧ r.sequence = m + 1 + k := by
  obtain ⟨k, inside, rfl⟩ := List.mem_iff_getElem.mp member
  exact ⟨k, inside, rfl, numbered.getElem_sequence k inside⟩

theorem later : m < r.sequence := by
  obtain ⟨k, _, _, number⟩ := numbered.index member
  omega

theorem le_length : r.sequence ≤ m + requests.length := by
  obtain ⟨k, inside, _, number⟩ := numbered.index member
  omega

end

theorem unique {r' : PBFTMessage ι Op Sig} (member : r ∈ requests) (member' : r' ∈ requests)
    (same : r.sequence = r'.sequence) : r = r' := by
  obtain ⟨k, inside, rfl, number⟩ := numbered.index member
  obtain ⟨k', inside', rfl, number'⟩ := numbered.index member'
  have : k = k' := by omega
  subst this
  rfl

theorem append (proposed : Proposed c v r)
    (number : r.sequence = m + 1 + requests.length) : Numbered c v m (requests ++ [r]) := by
  refine ⟨?_, ?_⟩
  · intro r' member
    rcases List.mem_append.mp member with old | new
    · exact numbered.proposed r' old
    · rw [List.mem_singleton.mp new]
      exact proposed
  · rw [List.map_append, numbered.numbers, List.length_append, List.length_singleton,
      List.range_succ, List.map_append]
    simp [number]

end Numbered

/-- A live node of the view. Whatever it holds about numbers after `m` is a request of the run
or a vote for one, it logs a PREPARE only below the request, and it finalizes a number once, with
the digest and the operation of the request. -/
structure Voted (c : Cluster ι Op PK SK Sig) (v m : Int)
    (requests : List (PBFTMessage ι Op Sig)) (i : ι) (n : PBFTNode ι Op PK SK Sig) : Prop where
  configured : Configured c i n
  view : n.view = v
  entries : ∀ q pp, n.prePrepareLog.get? q = some pp →
    (q ≤ m ∧ pp.sequence ≤ m) ∨ (pp ∈ requests ∧ pp.sequence = q)
  prepares : ∀ q, ∀ x ∈ n.prepareLog.getD q [], (q ≤ m ∧ x.sequence ≤ m) ∨
    ∃ r ∈ requests, r.sequence = q ∧ ∃ j, Backup c v j ∧ x = voteOf c v .prepare r j
  commits : ∀ q, ∀ x ∈ n.commitLog.getD q [], (q ≤ m ∧ x.sequence ≤ m) ∨
    ∃ r ∈ requests, r.sequence = q ∧ ∃ j, c.Honest j ∧ x = voteOf c v .commit r j
  prepared : ∀ q, m < q → ∀ x ∈ n.prepareLog.getD q [], ∃ pp, n.prePrepareLog.get? q = some pp
  quorate : ∀ q, m < q → ∀ x ∈ n.commitLog.getD q [],
    2 * c.f + 1 ≤ (c.members.filter (Backup c v)).card
  recorded : ∀ q, m < q → q ∈ n.committedSequences → ∃ rec ∈ n.commits, rec.sequence = q
  records : ∀ rec ∈ n.commits, rec.sequence ≤ m ∨
    (rec.sequence ∈ n.committedSequences ∧ ∃ r ∈ requests, rec = recordOf r)
  once : ∀ q, m < q → (n.commits.filter fun rec => decide (rec.sequence = q)).length ≤ 1

namespace Voted

variable {c : Cluster ι Op PK SK Sig} {v m : Int} {requests requests' : List (PBFTMessage ι Op Sig)}
  {i : ι} {n : PBFTNode ι Op PK SK Sig} {x : PBFTMessage ι Op Sig}

section

variable (inv : Voted c v m requests i n)

include inv

theorem mono (more : requests ⊆ requests') : Voted c v m requests' i n := by
  refine { inv with entries := ?_, prepares := ?_, commits := ?_, records := ?_ }
  · intro q pp found
    exact (inv.entries q pp found).imp_right fun request => ⟨more request.1, request.2⟩
  · intro q x logged
    refine (inv.prepares q x logged).imp_right ?_
    rintro ⟨r, member, vote⟩
    exact ⟨r, more member, vote⟩
  · intro q x logged
    refine (inv.commits q x logged).imp_right ?_
    rintro ⟨r, member, vote⟩
    exact ⟨r, more member, vote⟩
  · intro rec member
    refine (inv.records rec member).imp_right ?_
    rintro ⟨done, r, request, own⟩
    exact ⟨done, r, more request, own⟩

theorem primary_eq : n.primary = c.primaryOf v := by
  rw [PBFTNode.primary, inv.view, inv.configured.primaryOf_eq]

theorem ownMessage_eq (r : PBFTMessage ι Op Sig) :
    n.ownMessage c.primitives phase n.view r.sequence r.digest = voteOf c v phase r i := by
  simp only [ownMessage, voteOf, inv.view, inv.configured.nodeId, inv.configured.signingKey]

theorem prepare_of_sender (numbered : Numbered c v m requests) (request : r ∈ requests)
    (logged : x ∈ n.prepareLog.getD r.sequence []) :
    voteOf c v .prepare r x.sender ∈ n.prepareLog.getD r.sequence [] := by
  rcases inv.prepares _ x logged with ⟨older, _⟩ | ⟨r', member, number, j, _, rfl⟩
  · exact absurd older (not_le.mpr (numbered.later request))
  · cases numbered.unique member request number
    exact logged

theorem commit_of_sender (numbered : Numbered c v m requests) (request : r ∈ requests)
    (logged : x ∈ n.commitLog.getD r.sequence []) :
    voteOf c v .commit r x.sender ∈ n.commitLog.getD r.sequence [] := by
  rcases inv.commits _ x logged with ⟨older, _⟩ | ⟨r', member, number, j, _, rfl⟩
  · exact absurd older (not_le.mpr (numbered.later request))
  · cases numbered.unique member request number
    exact logged

theorem request_of_prepare (newer : m < q) {j : ι}
    (counted : j ∈ senders (n.prepareLog.getD q []) digest) :
    Backup c v j ∧ ∃ r ∈ requests, r.sequence = q ∧ r.digest = digest ∧
      voteOf c v .prepare r j ∈ n.prepareLog.getD q [] := by
  obtain ⟨x, logged, own, rfl⟩ := (mem_senders _ _ _).mp counted
  -- a counted PREPARE above `m` is the vote of a backup for a request
  rcases inv.prepares q x logged with ⟨older, _⟩ | ⟨r, member, number, j, backup, rfl⟩
  · exact absurd older (not_le.mpr newer)
  · exact ⟨backup, r, member, number, own, logged⟩

theorem backups_of_quorum (newer : m < q)
    (quorum : n.quorumSize ≤ (senders (n.prepareLog.getD q []) digest).card) :
    2 * c.f + 1 ≤ (c.members.filter (Backup c v)).card := by
  rw [inv.configured.quorumSize_eq] at quorum
  refine quorum.trans (Finset.card_le_card ?_)
  intro j counted
  obtain ⟨backup, _⟩ := inv.request_of_prepare newer counted
  exact Finset.mem_filter.mpr ⟨backup.1.1, backup⟩

theorem entry_of_quorum (numbered : Numbered c v m requests) (newer : m < q)
    (quorum : n.quorumSize ≤ (senders (n.prepareLog.getD q []) digest).card) :
    ∃ r ∈ requests, r.sequence = q ∧ r.digest = digest ∧ n.prePrepareLog.get? q = some r := by
  -- a quorum has a member, and a logged PREPARE has the entry beside it
  have some : 0 < (senders (n.prepareLog.getD q []) digest).card :=
    lt_of_lt_of_le (Nat.succ_pos _) quorum
  obtain ⟨j, counted⟩ := Finset.card_pos.mp some
  obtain ⟨_, r, member, number, own, logged⟩ := inv.request_of_prepare newer counted
  obtain ⟨pp, found⟩ := inv.prepared q newer _ logged
  rcases inv.entries q pp found with ⟨older, _⟩ | ⟨member', number'⟩
  · exact absurd older (not_le.mpr newer)
  · have same := numbered.unique member' member (number'.trans number.symm)
    subst same
    exact ⟨pp, member, number, own, found⟩

end

/-! ### Changes that the handlers share -/

variable (inv : Voted c v m requests i n)

include inv

theorem signing (payload : Payload ι) :
    Voted c v m requests i (n.signing payload) :=
  { inv with configured := inv.configured.of_sameConfig ⟨rfl, rfl, rfl, rfl, rfl, rfl⟩ }

theorem accepting (view q : Int) (pp : PBFTMessage ι Op Sig)
    (known : (q ≤ m ∧ pp.sequence ≤ m) ∨ (pp ∈ requests ∧ pp.sequence = q)) :
    Voted c v m requests i (n.accepting view q pp) := by
  have lookup : ∀ q', (n.accepting view q pp).prePrepareLog.get? q' =
      if q = q' then some pp else n.prePrepareLog.get? q' := fun q' => Dict.get?_set ..
  refine { inv with
    configured := inv.configured.of_sameConfig ⟨rfl, rfl, rfl, rfl, rfl, rfl⟩
    entries := ?_, prepared := ?_ }
  · intro q' pp' found
    rw [lookup] at found
    split at found
    · next same =>
      cases found
      exact same ▸ known
    · exact inv.entries q' pp' found
  · intro q' newer x logged
    rw [lookup]
    split
    · exact ⟨pp, rfl⟩
    · exact inv.prepared q' newer x logged

theorem logPrepare (q : Int) (x : PBFTMessage ι Op Sig)
    (known : (q ≤ m ∧ x.sequence ≤ m) ∨
      ∃ r ∈ requests, r.sequence = q ∧ ∃ j, Backup c v j ∧ x = voteOf c v .prepare r j)
    (entry : ∃ pp, n.prePrepareLog.get? q = some pp) :
    Voted c v m requests i (n.logPrepare q x) := by
  refine { inv with
    configured := inv.configured.of_sameConfig ⟨rfl, rfl, rfl, rfl, rfl, rfl⟩
    prepares := ?_, prepared := ?_ }
  · intro q' x' logged
    rcases mem_logPrepare.mp logged with old | ⟨rfl, rfl⟩
    · exact inv.prepares q' x' old
    · exact known
  · intro q' newer x' logged
    rcases mem_logPrepare.mp logged with old | ⟨rfl, -⟩
    · exact inv.prepared q' newer x' old
    · exact entry

theorem logCommit (q : Int) (x : PBFTMessage ι Op Sig)
    (known : (q ≤ m ∧ x.sequence ≤ m) ∨
      ∃ r ∈ requests, r.sequence = q ∧ ∃ j, c.Honest j ∧ x = voteOf c v .commit r j)
    (enough : m < q → 2 * c.f + 1 ≤ (c.members.filter (Backup c v)).card) :
    Voted c v m requests i (n.logCommit q x) := by
  refine { inv with
    configured := inv.configured.of_sameConfig ⟨rfl, rfl, rfl, rfl, rfl, rfl⟩
    commits := ?_, quorate := ?_ }
  · intro q' x' logged
    rcases mem_logCommit.mp logged with old | ⟨rfl, rfl⟩
    · exact inv.commits q' x' old
    · exact known
  · intro q' newer x' logged
    rcases mem_logCommit.mp logged with old | ⟨rfl, -⟩
    · exact inv.quorate q' newer x' old
    · exact enough newer

theorem finalize (q : Int) (digest : String) (fresh : q ∉ n.committedSequences)
    (known : m < q → ∃ r ∈ requests, r.sequence = q ∧ r.digest = digest ∧
      n.prePrepareLog.get? q = some r) : Voted c v m requests i (n.finalize q digest) := by
  refine { inv with
    configured := inv.configured.of_sameConfig ⟨rfl, rfl, rfl, rfl, rfl, rfl⟩
    recorded := ?_, records := ?_, once := ?_ }
  · intro q' newer done
    rcases Finset.mem_insert.mp done with rfl | old
    · exact ⟨_, List.mem_append_right _ (List.mem_singleton_self _), rfl⟩
    · obtain ⟨rec, member, number⟩ := inv.recorded q' newer old
      exact ⟨rec, List.mem_append_left _ member, number⟩
  · intro rec member
    rcases List.mem_append.mp member with old | new
    · exact (inv.records rec old).imp_right fun known =>
        ⟨Finset.mem_insert_of_mem known.1, known.2⟩
    · obtain rfl := List.mem_singleton.mp new
      rcases le_or_gt q m with older | newer
      · exact Or.inl older
      · obtain ⟨r, request, rfl, rfl, found⟩ := known newer
        refine Or.inr ⟨Finset.mem_insert_self _ _, r, request, ?_⟩
        simp [recordOf, found]
  · -- there was no record of this number before
    intro q' newer
    simp only [PBFTNode.finalize, List.filter_append, List.length_append]
    by_cases same : q = q'
    · subst same
      have none : n.commits.filter (fun rec => decide (rec.sequence = q)) = [] := by
        rw [List.filter_eq_nil_iff]
        intro rec member number
        rcases inv.records rec member with older | ⟨done, _⟩
        · rw [of_decide_eq_true number] at older
          exact absurd older (not_le.mpr newer)
        · rw [of_decide_eq_true number] at done
          exact fresh done
      simp [none]
    · simpa [same] using inv.once q' newer

theorem advanceWatermark :
    Voted c v m requests i n.advanceWatermark := by
  have conf := inv.configured.of_sameConfig (InPhase.advanceWatermark n).config
  unfold PBFTNode.advanceWatermark at conf ⊢
  split
  swap
  · exact inv
  next nonempty =>
  rw [dif_pos nonempty] at conf
  generalize n.committedSequences.min' nonempty = oldest at conf ⊢
  -- pruning drops an entry with its votes, and nothing above the oldest committed number
  have kept : ∀ (d : Dict Int (List (PBFTMessage ι Op Sig))) q x,
      x ∈ (d.filterKeys fun seq => decide (oldest ≤ seq)).getD q [] →
        oldest ≤ q ∧ x ∈ d.getD q [] := by
    intro d q x member
    rw [Dict.getD_filterKeys] at member
    split at member
    · next above => exact ⟨of_decide_eq_true above, member⟩
    · cases member
  refine { inv with
    configured := conf
    entries := ?_, prepares := ?_, commits := ?_, prepared := ?_, quorate := ?_ }
  · intro q pp found
    rw [Dict.get?_filterKeys] at found
    split at found
    · exact inv.entries q pp found
    · cases found
  · exact fun q x logged => inv.prepares q x (kept _ q x logged).2
  · exact fun q x logged => inv.commits q x (kept _ q x logged).2
  · intro q newer x logged
    obtain ⟨above, old⟩ := kept _ q x logged
    obtain ⟨pp, found⟩ := inv.prepared q newer x old
    exact ⟨pp, by rw [Dict.get?_filterKeys, if_pos (by simpa using above), found]⟩
  · exact fun q newer x logged => inv.quorate q newer x (kept _ q x logged).2

theorem tryCommitQuorum (q : Int) (digest : String)
    (known : m < q → ∃ r ∈ requests, r.sequence = q ∧ r.digest = digest ∧
      n.prePrepareLog.get? q = some r) : Voted c v m requests i (n.tryCommitQuorum q digest) := by
  rw [tryCommitQuorum_eq]
  split
  · next quorum => exact (inv.finalize q digest quorum.2 known).advanceWatermark
  · exact inv

section

variable (honest : c.Honest i) (numbered : Numbered c v m requests)

include honest numbered

theorem committing (q : Int) (digest : String)
    (quorum : n.quorumSize ≤ (senders (n.prepareLog.getD q []) digest).card) :
    Voted c v m requests i (n.committing c.primitives q digest) := by
  refine (inv.signing (.message n.nodeId n.view q digest)).logCommit q _ ?_ ?_
  · rcases le_or_gt q m with older | newer
    · exact Or.inl ⟨older, older⟩
    · obtain ⟨r, member, rfl, rfl, _⟩ := inv.entry_of_quorum numbered newer quorum
      exact Or.inr ⟨r, member, rfl, i, honest, inv.ownMessage_eq .commit r⟩
  · exact fun newer => inv.backups_of_quorum newer quorum

theorem tryPrepareQuorum (q : Int) (digest : String) :
    Voted c v m requests i (n.tryPrepareQuorum c.primitives q digest) := by
  rw [tryPrepareQuorum_eq]
  split
  · next quorum =>
    exact (inv.committing honest numbered q digest quorum.1).tryCommitQuorum q digest
      (fun newer => inv.entry_of_quorum numbered newer quorum.1)
  · exact inv

theorem handlePrePrepare (traffic : Traffic c v m requests (.prePrepare x)) (other : x.sender ≠ i) :
    Voted c v m requests i (n.handlePrePrepare c.primitives x).2 := by
  rcases n.handlePrePrepare_cases c.primitives x with same | ⟨_, _, _, _, _, _, out⟩
  · rw [same]
    exact inv
  · rw [out]
    have accepted := inv.accepting n.view x.sequence x
      (traffic.imp (fun older => ⟨older, older⟩) (fun request => ⟨request, rfl⟩))
    -- the entry is logged first, and then the own PREPARE below it
    refine (accepted.logPrepare x.sequence _ ?_ ⟨x, Dict.get?_set_self _ _ _⟩).tryPrepareQuorum
      honest numbered _ _
    rcases traffic with older | request
    · exact Or.inl ⟨older, older⟩
    · refine Or.inr ⟨x, request, rfl, i, ⟨honest, ?_⟩, inv.ownMessage_eq .prepare x⟩
      -- a node that is delivered a request is not its sender, so it is a backup
      rw [(numbered.proposed x request).primary]
      exact fun same => other (Option.some.inj same)

theorem handlePrepare (traffic : Traffic c v m requests (.prepare x)) :
    Voted c v m requests i (n.handlePrepare c.primitives x).2 := by
  rcases n.handlePrepare_cases c.primitives x with same | ⟨expected, found, _, out⟩
  · rw [same]
    exact inv
  · rw [out]
    refine (inv.logPrepare x.sequence x ?_ ⟨expected, found⟩).tryPrepareQuorum honest numbered _ _
    rcases traffic with older | ⟨r, member, j, backup, rfl⟩
    · exact Or.inl ⟨older, older⟩
    · exact Or.inr ⟨r, member, rfl, j, backup, rfl⟩

end

theorem handleCommit (numbered : Numbered c v m requests)
    (traffic : Traffic c v m requests (.commit x)) :
    Voted c v m requests i (n.handleCommit c.primitives x).2 := by
  rcases n.handleCommit_cases c.primitives x with same | ⟨_, quorum, out⟩
  · rw [same]
    exact inv
  · rw [out]
    refine (inv.logCommit x.sequence x ?_ (fun newer => inv.backups_of_quorum newer quorum)
      ).tryCommitQuorum _ _ (fun newer => inv.entry_of_quorum numbered newer quorum)
    rcases traffic with older | ⟨r, member, j, live, rfl⟩
    · exact Or.inl ⟨older, older⟩
    · exact Or.inr ⟨r, member, rfl, j, live, rfl⟩

theorem receive (honest : c.Honest i) (numbered : Numbered c v m requests) {x : Input ι Op Sig}
    (traffic : Traffic c v m requests x)
    (other : x.sender ≠ some i) : Voted c v m requests i (n.receive c.primitives x) := by
  cases x with
  | prePrepare x =>
    exact inv.handlePrePrepare honest numbered traffic (fun same => other (congrArg some same))
  | prepare x => exact inv.handlePrepare honest numbered traffic
  | commit x => exact inv.handleCommit numbered traffic
  | _ => exact traffic.elim

end Voted

end DistLLM.Pbft
