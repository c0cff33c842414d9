import DistLLM.Pbft.Votes

/-!
# Runs within one view

The nodes start in a common view with nothing under way after the number `m`, and nobody starts
a view change. Then all traffic is requests of the primary and votes for them.
-/
namespace DistLLM.Pbft

open DistLLM.Library PBFTNode

variable {ι Op PK SK Sig : Type} [LinearOrder ι]

/-- A live node that has come to view `v` by whatever history: what it has logged and committed
has a number up to `m`, and the primary of the view has used just these. -/
structure IdleNode (c : Cluster ι Op PK SK Sig) (v m : Int) (i : ι) (n : PBFTNode ι Op PK SK Sig) :
    Prop where
  configured : Configured c i n
  view : n.view = v
  entries : ∀ q pp, n.prePrepareLog.get? q = some pp → q ≤ m ∧ pp.sequence ≤ m
  prepares : ∀ q, ∀ x ∈ n.prepareLog.getD q [], q ≤ m ∧ x.sequence ≤ m
  commits : ∀ q, ∀ x ∈ n.commitLog.getD q [], q ≤ m ∧ x.sequence ≤ m
  committed : ∀ q ∈ n.committedSequences, q ≤ m
  records : ∀ rec ∈ n.commits, rec.sequence ≤ m
  counter : c.primaryOf v = some i → n.lastSequence = m

def Idle (c : Cluster ι Op PK SK Sig) (v m : Int) (s : ClusterState ι Op PK SK Sig) : Prop :=
  ∀ i, c.Honest i → IdleNode c v m i (s i)

variable {c : Cluster ι Op PK SK Sig} {s : ClusterState ι Op PK SK Sig}

variable {i : ι} {v : Int}

theorem StartsIn.fresh (start : StartsIn c v s) (honest : c.Honest i) :
    Configured c i (s i) ∧ (s i).view = v ∧ (s i).prePrepareLog = ∅ ∧ (s i).prepareLog = ∅ ∧
      (s i).commitLog = ∅ ∧ (s i).committedSequences = ∅ ∧ (s i).commits = [] ∧
      (s i).lastSequence = 0 ∧ (s i).lowWatermark = 0 := by
  obtain ⟨s₀, initial, moved⟩ := start
  have conf := configured_initial initial honest
  obtain ⟨keys, _, built⟩ := initial
  have fresh := init_fresh c.primitives (built i honest.1)
  rw [moved i honest]
  exact ⟨conf.of_sameConfig ⟨rfl, rfl, rfl, rfl, rfl, rfl⟩, rfl, fresh.prePrepareLog,
    fresh.prepareLog, fresh.commitLog, fresh.committedSequences, fresh.commits,
    fresh.lastSequence, fresh.lowWatermark⟩

theorem StartsIn.idle (start : StartsIn c v s) : Idle c v 0 s := by
  intro i honest
  obtain ⟨conf, view, entries, prepares, commits, committed, records, counter, _⟩ :=
    start.fresh honest
  refine ⟨conf, view, ?_, ?_, ?_, ?_, ?_, fun _ => counter⟩
  · intro q pp found
    rw [entries] at found
    cases found
  · intro q x logged
    rw [prepares] at logged
    cases logged
  · intro q x logged
    rw [commits] at logged
    cases logged
  · intro q done
    simp [committed] at done
  · intro rec member
    simp [records] at member

variable {n : PBFTNode ι Op PK SK Sig}

theorem IdleNode.voted {m : Int} (idle : IdleNode c v m i n) : Voted c v m [] i n := by
  refine ⟨idle.configured, idle.view, fun q pp found => Or.inl (idle.entries q pp found),
    fun q x logged => Or.inl (idle.prepares q x logged),
    fun q x logged => Or.inl (idle.commits q x logged), ?_, ?_, ?_,
    fun rec member => Or.inl (idle.records rec member), ?_⟩
  · exact fun q newer x logged => absurd (idle.prepares q x logged).1 (not_le.mpr newer)
  · exact fun q newer x logged => absurd (idle.commits q x logged).1 (not_le.mpr newer)
  · exact fun q newer done => absurd (idle.committed q done) (not_le.mpr newer)
  · intro q newer
    have none : n.commits.filter (fun rec => decide (rec.sequence = q)) = [] := by
      rw [List.filter_eq_nil_iff]
      intro rec member number
      have older := idle.records rec member
      rw [of_decide_eq_true number] at older
      exact absurd older (not_le.mpr newer)
    rw [none]
    exact Nat.zero_le 1

/-! ### The invariant -/

def KeepsView : NetAction ι Op Sig → Prop
  | .startViewChange _ => False
  | _ => True

instance : ∀ a : NetAction ι Op Sig, Decidable (KeepsView a)
  | .startViewChange _ => .isFalse id
  | .request _ _ | .deliver _ _ => .isTrue trivial

structure OneView (c : Cluster ι Op PK SK Sig) (v m : Int) (s : Network ι Op PK SK Sig) :
    Prop where
  voted : ∀ i, c.Honest i → Voted c v m s.requests i (s.nodes i)
  numbered : Numbered c v m s.requests
  counter : ∀ i, c.Honest i → c.primaryOf v = some i →
    (s.nodes i).lastSequence = m + s.requests.length
  traffic : ∀ x ∈ s.sent, Traffic c v m s.requests x
  posted : ∀ i, c.Honest i → ∀ x, (s.nodes i).Posts x → ∀ q ∈ x.number, m < q → x ∈ s.sent
  offered : ∀ r ∈ s.requests, .prePrepare r ∈ s.sent
  arrived : ∀ e ∈ s.delivered, e.2 ∈ s.sent

variable {requests : List (PBFTMessage ι Op Sig)}

theorem requestMessage_proposed {m : Int} (voted : Voted c v m requests i n)
    (takes : n.TakesRequest) (operation : Op) :
    c.primaryOf v = some i ∧ Proposed c v (n.requestMessage c.primitives operation) := by
  have isPrimary : c.primaryOf v = some i := by
    rw [← voted.primary_eq, ← takes.1, voted.configured.nodeId]
  refine ⟨isPrimary, rfl, voted.view, ?_, ⟨operation, rfl, rfl⟩, ?_⟩
  · simpa only [requestMessage, voted.configured.nodeId] using isPrimary
  · simp only [requestMessage, PBFTMessage.payload, voted.configured.signingKey,
      voted.configured.nodeId]

variable {x : Input ι Op Sig}

theorem inPhase_receive {m : Int} (n : PBFTNode ι Op PK SK Sig)
    (traffic : Traffic c v m requests x) : n.InPhase (n.receive c.primitives x) ∧
      (n.receive c.primitives x).lastSequence = n.lastSequence := by
  cases x with
  | prePrepare x =>
    refine ⟨InPhase.handlePrePrepare c.primitives n x, ?_⟩
    rcases n.handlePrePrepare_cases c.primitives x with same | ⟨_, _, _, _, _, _, out⟩
    · rw [receive, same]
    · rw [receive, out]
      exact (Quiet.tryPrepareQuorum c.primitives _ x.sequence x.digest).lastSequence
  | prepare x =>
    exact ⟨InPhase.handlePrepare c.primitives n x,
      (Quiet.handlePrepare c.primitives n x).lastSequence⟩
  | commit x =>
    exact ⟨InPhase.handleCommit c.primitives n x,
      (Quiet.handleCommit c.primitives n x).lastSequence⟩
  | _ => exact traffic.elim

namespace OneView

variable {c : Cluster ι Op PK SK Sig} {v m : Int} {s : Network ι Op PK SK Sig}

theorem traffic_of_posts {n' : PBFTNode ι Op PK SK Sig} (voted : Voted c v m requests i n')
    (phase : n.InPhase n') (posts : n'.Posts x)
    (fresh : ¬ n.Posts x) : Traffic c v m requests x := by
  cases x with
  | prePrepare x =>
    obtain ⟨_, q, found⟩ := posts
    exact (voted.entries q x found).imp (fun older => older.2) (fun request => request.1)
  | prepare x =>
    obtain ⟨_, q, logged⟩ := posts
    refine (voted.prepares q x logged).imp (fun older => older.2) ?_
    rintro ⟨r, member, _, vote⟩
    exact ⟨r, member, vote⟩
  | commit x =>
    obtain ⟨_, q, logged⟩ := posts
    refine (voted.commits q x logged).imp (fun older => older.2) ?_
    rintro ⟨r, member, _, vote⟩
    exact ⟨r, member, vote⟩
  | viewChange x =>
    -- nothing of a view change is new in the three phases
    simp only [Posts, phase.viewChangeMessages, phase.config.nodeId] at posts
    exact absurd posts fresh
  | newView x =>
    simp only [Posts, phase.newViewMessages, phase.config.nodeId] at posts
    exact absurd posts fresh
  | _ => exact posts.elim

variable [DecidableEq Op] [DecidableEq Sig]

theorem put (inv : OneView c v m s) (honest : c.Honest i) {delivered : List (ι × Input ι Op Sig)}
    (more : s.requests ⊆ requests) (numbered : Numbered c v m requests)
    (voted : Voted c v m requests i n) (phase : (s.nodes i).InPhase n)
    (counter : c.primaryOf v = some i → n.lastSequence = m + requests.length)
    (steady : c.primaryOf v = some i ∨ requests = s.requests)
    (offered : ∀ r ∈ requests, r ∈ s.requests ∨ n.Posts (.prePrepare r))
    (arrived : ∀ e ∈ delivered, e.2 ∈ s.sent) :
    OneView c v m { s.put i n with requests, delivered } := by
  -- what the node posts was sent before, or is sent now that it is new
  have posted : ∀ x, n.Posts x → ∀ q ∈ x.number, m < q → x ∈ (s.put i n).sent := by
    intro x posts q number newer
    rw [Network.mem_sent_put]
    by_cases before : (s.nodes i).Posts x
    · exact Or.inl (inv.posted i honest x before q number newer)
    · exact Or.inr ⟨posts, before⟩
  refine ⟨?_, numbered, ?_, ?_, ?_, ?_, ?_⟩
  · intro j live
    refine s.put_elim (fun _ => (inv.voted j live).mono more) ?_
    rintro rfl
    exact voted
  · intro j live isPrimary
    refine s.put_elim (P := fun n => n.lastSequence = m + requests.length) (fun moved => ?_) ?_
    · rcases steady with primary | same
      · exact absurd (Option.some.inj (isPrimary.symm.trans primary)) moved
      · rw [same]
        exact inv.counter j live isPrimary
    · rintro rfl
      exact counter isPrimary
  · intro x sent
    rcases (s.mem_sent_put i n x).mp sent with old | ⟨posts, fresh⟩
    · have before := inv.traffic x old
      cases x with
      | prePrepare x => exact before.imp_right (more ·)
      | prepare x =>
        exact before.imp_right fun ⟨r, member, vote⟩ => ⟨r, more member, vote⟩
      | commit x =>
        exact before.imp_right fun ⟨r, member, vote⟩ => ⟨r, more member, vote⟩
      | _ => exact before.elim
    · exact traffic_of_posts voted phase posts fresh
  · intro j live
    refine s.put_elim (P := fun n' => ∀ x, n'.Posts x → ∀ q ∈ x.number, m < q → x ∈ (s.put i n).sent)
      (fun _ x posts q number newer => ?_) fun _ => posted
    exact (s.mem_sent_put i n x).mpr (Or.inl (inv.posted j live x posts q number newer))
  · intro r member
    rcases offered r member with old | new
    · exact (s.mem_sent_put i n _).mpr (Or.inl (inv.offered r old))
    · exact posted _ new r.sequence rfl (numbered.later member)
  · intro e member
    exact (s.mem_sent_put i n _).mpr (Or.inl (arrived e member))

theorem initial {start : ClusterState ι Op PK SK Sig → Prop}
    (idle : ∀ s, start s → Idle c v m s) (init : (network c start).init s) : OneView c v m s := by
  obtain ⟨begun, sent, delivered, requests⟩ := init
  have nodes := idle _ begun
  refine ⟨?_, ?_, ?_, ?_, ?_, ?_, ?_⟩
  · intro i honest
    rw [requests]
    exact (nodes i honest).voted
  · rw [requests]
    refine ⟨fun r member => ?_, rfl⟩
    cases member
  · intro i honest isPrimary
    simpa [requests] using (nodes i honest).counter isPrimary
  · intro x member
    rw [sent] at member
    cases member
  · intro i honest x posts q number newer
    cases x with
    | prePrepare x =>
      obtain ⟨_, q', found⟩ := posts
      cases number
      exact absurd ((nodes i honest).entries q' x found).2 (not_le.mpr newer)
    | prepare x =>
      obtain ⟨_, q', logged⟩ := posts
      cases number
      exact absurd ((nodes i honest).prepares q' x logged).2 (not_le.mpr newer)
    | commit x =>
      obtain ⟨_, q', logged⟩ := posts
      cases number
      exact absurd ((nodes i honest).commits q' x logged).2 (not_le.mpr newer)
    | _ => cases number
  · intro r member
    rw [requests] at member
    cases member
  · intro e member
    rw [delivered] at member
    cases member

theorem request (inv : OneView c v m s) (honest : c.Honest i) (operation : Op) :
    OneView c v m (Network.exec c.primitives s (.request i operation)) := by
  have voted := inv.voted i honest
  have phase := InPhase.handleRequest c.primitives (s.nodes i) operation
  simp only [Network.exec]
  rw [handleRequest_eq] at phase ⊢
  split
  · next takes =>
    rw [if_pos takes] at phase
    obtain ⟨isPrimary, proposed⟩ := requestMessage_proposed voted takes operation
    have counter := inv.counter i honest isPrimary
    -- the counter of the primary makes the number the next one of the run
    have number : ((s.nodes i).requestMessage c.primitives operation).sequence =
        m + 1 + s.requests.length := by
      simp only [requestMessage, counter]
      omega
    have numbered := inv.numbered.append proposed number
    have counted : Voted c v m (s.requests ++ [(s.nodes i).requestMessage c.primitives operation])
        i { s.nodes i with lastSequence := (s.nodes i).lastSequence + 1 } :=
      { voted.mono (List.subset_append_left _ _) with
        configured := voted.configured.of_sameConfig ⟨rfl, rfl, rfl, rfl, rfl, rfl⟩ }
    have logged := counted.accepting (s.nodes i).view ((s.nodes i).lastSequence + 1)
      ((s.nodes i).requestMessage c.primitives operation)
      (Or.inr ⟨List.mem_append_right _ (List.mem_singleton_self _), rfl⟩)
    refine inv.put honest (List.subset_append_left _ _) numbered logged phase ?_ (Or.inl isPrimary)
      ?_ inv.arrived
    · intro _
      simp only [accepting, List.length_append, counter]
      simp
      omega
    · intro r member
      rcases List.mem_append.mp member with old | new
      · exact Or.inl old
      · rw [List.mem_singleton.mp new]
        exact Or.inr ⟨rfl, _, Dict.get?_set_self _ _ _⟩
  · simp only [Option.toList_none, List.append_nil]
    exact inv.put honest (List.Subset.refl _) inv.numbered voted (InPhase.refl _)
      (inv.counter i honest) (Or.inr rfl) (fun r member => Or.inl member) inv.arrived

theorem deliver (inv : OneView c v m s) (honest : c.Honest i) (sent : x ∈ s.sent)
    (other : x.sender ≠ some i) :
    OneView c v m (Network.exec c.primitives s (.deliver i x)) := by
  have traffic := inv.traffic x sent
  obtain ⟨phase, counter⟩ := inPhase_receive (s.nodes i) traffic
  refine inv.put honest (List.Subset.refl _) inv.numbered
    ((inv.voted i honest).receive honest inv.numbered traffic other) phase ?_ (Or.inr rfl)
    (fun r member => Or.inl member) ?_
  · intro isPrimary
    rw [counter]
    exact inv.counter i honest isPrimary
  · intro e member
    rcases List.mem_append.mp member with old | new
    · exact inv.arrived e old
    · rw [List.mem_singleton.mp new]
      exact sent

/-- Unless an honest node starts a view change, no message makes one leave its view. -/
theorem step (inv : OneView c v m s) {a : NetAction ι Op Sig} (possible : NetEnabled c s a)
    (keeps : KeepsView a) : OneView c v m (Network.exec c.primitives s a) := by
  cases a with
  | request i operation => exact inv.request possible operation
  | startViewChange i => exact keeps.elim
  | deliver i x => exact inv.deliver possible.1 possible.2.1 possible.2.2

end OneView

def idealNetwork (N f : Nat) : Network (Fin N) String (Fin N) (Fin N) (IdealSignature N) where
  nodes := idealStart N f
  sent := []
  delivered := []
  requests := []

theorem idealNetwork_init (N f : Nat) (size : 3 * f + 1 ≤ N) (silent : Finset (Fin N))
    (few : silent.card ≤ f) : (network (idealCluster N f size silent few)
      (StartsIn (idealCluster N f size silent few) 0)).init (idealNetwork N f) :=
  ⟨(idealStart_initial N f size silent few).startsIn, rfl, rfl, rfl⟩

def fourHonest : Cluster (Fin 4) String (Fin 4) (Fin 4) (IdealSignature 4) :=
  idealCluster 4 1 four_suffice ∅ (by decide)

/-- The vote of a node in view 0, delivered to another. -/
def vote (phase : PBFTPhase) (receiver sender : Fin 4) (sequence : Int) (digest : String) :
    NetAction (Fin 4) String (IdealSignature 4) :=
  let msg := idealMessage phase 0 sender sequence digest none
  .deliver receiver (if phase = .commit then .commit msg else .prepare msg)

end DistLLM.Pbft
