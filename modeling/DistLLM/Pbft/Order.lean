import DistLLM.Pbft.OneView

/-!
# The order of execution

A node hands an operation to its callback at the moment its commit quorum is complete. So it
executes in the order in which its quorums complete, which is the order of the sequence numbers
in the runs in which no quorum completes before that of the number below.
-/
namespace DistLLM.Pbft

open DistLLM.Library PBFTNode

variable {ι Op PK SK Sig : Type} [LinearOrder ι]

/-- The operations a node has passed to its callback, in the order of the calls. -/
def PBFTNode.executed (n : PBFTNode ι Op PK SK Sig) : List Op :=
  n.commits.filterMap CommitRecord.operation

/-- The operations of the accepted requests, ordered by sequence number. -/
def Network.ordered (s : Network ι Op PK SK Sig) : List Op :=
  (s.requests.insertionSort (fun r r' => r.sequence ≤ r'.sequence)).filterMap PBFTMessage.operation

/-- Every node has executed a prefix of the ordered operations, so of two nodes one has
executed a prefix of what the other has. -/
def ExecutesInOrder (c : Cluster ι Op PK SK Sig) (s : Network ι Op PK SK Sig) : Prop :=
  (∀ i, c.Honest i → (s.nodes i).executed <+: s.ordered) ∧
  ∀ i j, c.Honest i → c.Honest j →
    (s.nodes i).executed <+: (s.nodes j).executed ∨ (s.nodes j).executed <+: (s.nodes i).executed

/-- No delivery completes the commit quorum of a number before the number below is committed at
the node, and nobody starts a view change. -/
def CompletesInOrder (s : Network ι Op PK SK Sig) : NetAction ι Op Sig → Prop
  | .deliver i x => (s.nodes i).Completes x → ∀ k ∈ x.number,
      k ∉ (s.nodes i).committedSequences → k = 1 ∨ k - 1 ∈ (s.nodes i).committedSequences
  | .request _ _ => True
  | .startViewChange _ => False

instance (s : Network ι Op PK SK Sig) : DecidablePred (CompletesInOrder s)
  | .deliver _ _ => inferInstanceAs (Decidable (_ → _))
  | .request _ _ => .isTrue trivial
  | .startViewChange _ => .isFalse id

variable (n : PBFTNode ι Op PK SK Sig)

namespace PBFTNode

/-- The history is longer by the record of a number that was not committed. -/
def Records (n n' : PBFTNode ι Op PK SK Sig) (rec : CommitRecord Op) : Prop :=
  rec.sequence ∉ n.committedSequences ∧ n'.commits = n.commits ++ [rec] ∧
    n'.committedSequences = insert rec.sequence n.committedSequences

omit [LinearOrder ι] in
@[simp] theorem advanceWatermark_commits : n.advanceWatermark.commits = n.commits := by
  unfold advanceWatermark
  split <;> rfl

omit [LinearOrder ι] in
@[simp] theorem advanceWatermark_committedSequences :
    n.advanceWatermark.committedSequences = n.committedSequences := by
  unfold advanceWatermark
  split <;> rfl

theorem tryCommitQuorum_records (q : Int) (digest : String) :
    ((n.tryCommitQuorum q digest).commits = n.commits ∧
      (n.tryCommitQuorum q digest).committedSequences = n.committedSequences) ∨
    (n.quorumSize ≤ (senders (n.commitLog.getD q []) digest).card ∧
      ∃ rec : CommitRecord Op, rec.sequence = q ∧ n.Records (n.tryCommitQuorum q digest) rec) := by
  rw [tryCommitQuorum_eq]
  split
  · next quorum =>
    -- the operation is read from the log before the watermark prunes it
    let operation := (n.prePrepareLog.get? q).bind PBFTMessage.operation
    refine Or.inr ⟨quorum.1, { sequence := q, digest, operation }, rfl, quorum.2, ?_, ?_⟩
    · rw [advanceWatermark_commits]
      rfl
    · rw [advanceWatermark_committedSequences]
      rfl
  · exact Or.inl ⟨rfl, rfl⟩

theorem tryPrepareQuorum_records (p : Primitives ι Op PK SK Sig) (n : PBFTNode ι Op PK SK Sig)
    (q : Int) (digest : String) : ((n.tryPrepareQuorum p q digest).commits = n.commits ∧
      (n.tryPrepareQuorum p q digest).committedSequences = n.committedSequences) ∨
    (n.quorumSize ≤ (senders (n.prepareLog.getD q []) digest).card ∧
      n.quorumSize ≤ (insert n.nodeId (senders (n.commitLog.getD q []) digest)).card ∧
      ∃ rec : CommitRecord Op,
        rec.sequence = q ∧ n.Records (n.tryPrepareQuorum p q digest) rec) := by
  rw [tryPrepareQuorum_eq]
  split
  · next quorum =>
    rcases (n.committing p q digest).tryCommitQuorum_records q digest with same | ⟨large, records⟩
    · exact Or.inl same
    · refine Or.inr ⟨quorum.1, ?_, records⟩
      have counted : (n.committing p q digest).commitLog.getD q [] =
          n.commitLog.getD q [] ++ [n.ownMessage p .commit n.view q digest] := by
        rw [committing, getD_logCommit, if_pos rfl]
        rfl
      rw [counted, senders_append_own] at large
      exact large
  · exact Or.inl ⟨rfl, rfl⟩

theorem receive_records (p : Primitives ι Op PK SK Sig) (n : PBFTNode ι Op PK SK Sig)
    {x : Input ι Op Sig} {k : Int} (number : x.number = some k) :
    ((n.receive p x).commits = n.commits ∧
      (n.receive p x).committedSequences = n.committedSequences) ∨
    (n.Completes x ∧ ∃ rec : CommitRecord Op, rec.sequence = k ∧
      n.Records (n.receive p x) rec) := by
  cases x with
  | prePrepare x =>
    cases number
    rcases n.handlePrePrepare_cases p x with same | ⟨_, _, _, _, _, _, out⟩
    · rw [receive, same]
      exact Or.inl ⟨rfl, rfl⟩
    · rw [receive, out]
      refine (tryPrepareQuorum_records p _ x.sequence x.digest).imp id ?_
      rintro ⟨prepared, committed, records⟩
      rw [getD_logPrepare, if_pos rfl, senders_append_own] at prepared
      exact ⟨⟨prepared, committed⟩, records⟩
  | prepare x =>
    cases number
    rcases n.handlePrepare_cases p x with same | ⟨_, _, _, out⟩
    · rw [receive, same]
      exact Or.inl ⟨rfl, rfl⟩
    · rw [receive, out]
      refine (tryPrepareQuorum_records p _ x.sequence x.digest).imp id ?_
      rintro ⟨prepared, committed, records⟩
      rw [getD_logPrepare, if_pos rfl, senders_append_of_eq _ _ rfl] at prepared
      exact ⟨⟨prepared, committed⟩, records⟩
  | commit x =>
    cases number
    rcases n.handleCommit_cases p x with same | ⟨_, _, out⟩
    · rw [receive, same]
      exact Or.inl ⟨rfl, rfl⟩
    · rw [receive, out]
      refine (tryCommitQuorum_records _ x.sequence x.digest).imp id ?_
      rintro ⟨committed, records⟩
      rw [getD_logCommit, if_pos rfl, senders_append_of_eq _ _ rfl] at committed
      exact ⟨committed, records⟩
  | _ => cases number

end PBFTNode

/-- The node has finalized the first requests of the run, in their order. -/
def Ordered (requests : List (PBFTMessage ι Op Sig)) (n : PBFTNode ι Op PK SK Sig) : Prop :=
  ∃ l : Nat, l ≤ requests.length ∧ n.commits = (requests.take l).map recordOf ∧
    ∀ q, q ∈ n.committedSequences ↔ 1 ≤ q ∧ q ≤ l

namespace Ordered

variable {c : Cluster ι Op PK SK Sig} {v : Int} {requests : List (PBFTMessage ι Op Sig)} {i : ι}
  {n n' : PBFTNode ι Op PK SK Sig}

omit [LinearOrder ι] in
theorem append (inv : Ordered requests n) (r : PBFTMessage ι Op Sig) :
    Ordered (requests ++ [r]) n := by
  obtain ⟨l, inside, commits, committed⟩ := inv
  refine ⟨l, ?_, ?_, committed⟩
  · rw [List.length_append]
    omega
  · rw [commits, List.take_append_of_le_length inside]

theorem records (inv : Ordered requests n) (numbered : Numbered c v 0 requests)
    (after : Voted c v 0 requests i n') {rec : CommitRecord Op} (records : n.Records n' rec)
    (next : rec.sequence = 1 ∨ rec.sequence - 1 ∈ n.committedSequences) : Ordered requests n' := by
  obtain ⟨l, inside, commits, committed⟩ := inv
  obtain ⟨fresh, extended, inserted⟩ := records
  rw [committed] at fresh
  -- exactly the first `l` numbers are committed, so the new one is the next
  have number : rec.sequence = l + 1 := by
    rcases next with first | below
    · omega
    · rw [committed] at below
      omega
  -- the new record is that of a request, which its number finds in the list
  have member : rec ∈ n'.commits := by
    rw [extended]
    exact List.mem_append_right _ (List.mem_singleton_self _)
  rcases after.records rec member with older | ⟨_, r, request, rfl⟩
  · omega
  · obtain ⟨k, within, rfl, place⟩ := numbered.index request
    have : k = l := by
      simp only [recordOf] at number
      omega
    subst this
    refine ⟨k + 1, within, ?_, ?_⟩
    · rw [extended, commits, List.take_add_one, List.getElem?_eq_getElem within, List.map_append]
      rfl
    · intro q
      rw [inserted, Finset.mem_insert, committed, number]
      omega

omit [LinearOrder ι] in
theorem executed_beginning (inv : Ordered requests n) :
    n.executed <+: requests.filterMap PBFTMessage.operation := by
  obtain ⟨l, _, commits, _⟩ := inv
  have same : (requests.map recordOf).filterMap CommitRecord.operation =
      requests.filterMap PBFTMessage.operation := by
    rw [List.filterMap_map]
    rfl
  rw [executed, commits, ← same]
  exact ((List.take_prefix l requests).map recordOf).filterMap _

end Ordered

/-! ### Runs -/

section Runs

variable [DecidableEq Op] [DecidableEq Sig] {c : Cluster ι Op PK SK Sig} {v : Int}
  {s : Network ι Op PK SK Sig}

theorem ordered_step (view : OneView c v 0 s)
    (inv : ∀ i, c.Honest i → Ordered s.requests (s.nodes i))
    {a : NetAction ι Op Sig} (possible : NetEnabled c s a) (inOrder : CompletesInOrder s a) :
    ∀ i, c.Honest i → Ordered (Network.exec c.primitives s a).requests
      ((Network.exec c.primitives s a).nodes i) := by
  intro j live
  cases a with
  | request i operation =>
    simp only [Network.exec, handleRequest_eq]
    split
    · have longer := (inv j live).append ((s.nodes i).requestMessage c.primitives operation)
      refine s.put_elim (fun _ => longer) ?_
      rintro rfl
      exact longer
    · simp only [Option.toList_none, List.append_nil]
      refine s.put_elim (fun _ => inv j live) ?_
      rintro rfl
      exact inv j live
  | startViewChange i => exact inOrder.elim
  | deliver i x =>
    have after := (view.deliver possible.1 possible.2.1 possible.2.2).voted i possible.1
    simp only [Network.exec, Network.put_nodes_self] at after ⊢
    by_cases moved : j = i
    · subst moved
      rw [Network.put_nodes_self]
      cases number : x.number with
      | none =>
        -- the view has no such traffic
        have traffic := view.traffic x possible.2.1
        cases x <;> first | exact traffic.elim | cases number
      | some k =>
        rcases receive_records c.primitives (s.nodes j) number with
          ⟨commits, committed⟩ | ⟨completes, rec, rfl, records⟩
        · obtain ⟨l, inside, before, numbers⟩ := inv j live
          exact ⟨l, inside, commits.trans before, committed ▸ numbers⟩
        · exact (inv j live).records view.numbered after records
            (inOrder completes rec.sequence number records.1)
    · rw [Network.put_nodes_of_ne _ _ moved]
      exact inv j live

omit [DecidableEq Op] [DecidableEq Sig] in
theorem ordered_eq (view : OneView c v 0 s) :
    s.ordered = s.requests.filterMap PBFTMessage.operation := by
  -- the requests are in the order of their numbers already
  have sorted : s.requests.Pairwise fun r r' => r.sequence ≤ r'.sequence := by
    rw [List.pairwise_iff_getElem]
    intro k k' inside inside' before
    rw [view.numbered.getElem_sequence k inside, view.numbered.getElem_sequence k' inside']
    omega
  rw [Network.ordered, List.Pairwise.insertionSort_eq sorted]

/-- From any common view, and even with silent nodes: if quorums complete in the order of their
numbers, every node executes in that order. -/
theorem executes_in_order (c : Cluster ι Op PK SK Sig) (v : Int)
    {s : Network ι Op PK SK Sig} (run : (network c (StartsIn c v)).Reaches CompletesInOrder s) :
    ExecutesInOrder c s := by
  have inv : OneView c v 0 s ∧ ∀ i, c.Honest i → Ordered s.requests (s.nodes i) := by
    apply run.invariant (I := fun s => OneView c v 0 s ∧
      ∀ i, c.Honest i → Ordered s.requests (s.nodes i))
    · intro s init
      refine ⟨OneView.initial (fun _ start => start.idle) init, fun i honest => ?_⟩
      obtain ⟨_, _, _, _, _, committed, commits, _⟩ := init.1.fresh honest
      refine ⟨0, Nat.zero_le _, by simpa using commits, fun q => ?_⟩
      rw [committed]
      simp
      omega
    · intro s a inv possible inOrder
      refine ⟨inv.1.step possible ?_, ordered_step inv.1 inv.2 possible inOrder⟩
      cases a with
      | startViewChange i => exact inOrder.elim
      | _ => trivial
  have executed : ∀ i, c.Honest i → (s.nodes i).executed <+: s.ordered := by
    intro i honest
    rw [ordered_eq inv.1]
    exact (inv.2 i honest).executed_beginning
  exact ⟨executed, fun i j honest honest' =>
    List.prefix_or_prefix_of_prefix (executed i honest) (executed j honest')⟩

end Runs

/-- Node 0 numbers a request, the backups prepare it, and node 3 gets a commit quorum for it. -/
def quorumAtThree (sequence : Int) (operation : String) :
    List (NetAction (Fin 4) String (IdealSignature 4)) :=
  let proposal := .prePrepare (idealMessage .prePrepare 0 0 sequence operation (some operation))
  [.deliver 1 proposal, .deliver 2 proposal, .deliver 3 proposal,
   vote .prepare 1 2 sequence operation, vote .prepare 1 3 sequence operation,
   vote .prepare 2 1 sequence operation, vote .prepare 2 3 sequence operation,
   vote .prepare 3 1 sequence operation, vote .prepare 3 2 sequence operation,
   vote .commit 3 1 sequence operation, vote .commit 3 2 sequence operation]

def bothRequested : List (NetAction (Fin 4) String (IdealSignature 4)) :=
  [.request 0 "A", .request 0 "B"]

theorem executes_in_order_example :
    let s := (bothRequested ++ quorumAtThree 1 "A" ++ quorumAtThree 2 "B").foldl
      (Network.exec (ideal 4)) (idealNetwork 4 1)
    (s.nodes 3).executed = ["A", "B"] ∧ ExecutesInOrder fourHonest s :=
  ⟨by decide +kernel, executes_in_order fourHonest 0
    ((Machine.Reaches.init (idealNetwork_init 4 1 _ _ _)).of_follows
      (bothRequested ++ quorumAtThree 1 "A" ++ quorumAtThree 2 "B") (by decide +kernel))⟩

/-- The commit quorum of the second request completes first at node 3, which executes it at
once. -/
theorem execution_overtakes :
    ∃ s, (network fourHonest (StartsIn fourHonest 0)).Reaches (fun _ a => KeepsView a) s ∧
      (s.nodes 3).executed = ["B"] ∧ ¬ ExecutesInOrder fourHonest s := by
  refine ⟨(bothRequested ++ quorumAtThree 2 "B").foldl (Network.exec (ideal 4))
    (idealNetwork 4 1), ?_, ?_, ?_⟩
  · exact (Machine.Reaches.init (idealNetwork_init 4 1 _ _ _)).of_follows _ (by decide +kernel)
  · decide +kernel
  · intro inOrder
    exact absurd (inOrder.1 3 (by decide +kernel)) (by decide +kernel)

end DistLLM.Pbft
