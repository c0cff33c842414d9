import DistLLM.Pbft.Invariant

/-!
# Agreement within a view

Two quorums share an honest node, and that node signed one digest, if the cluster is not too
large for its quorums of `2f + 1`. In a larger cluster agreement within a view still follows if
the primary is honest: then every digest in an honest log is one that the primary signed.
-/
namespace DistLLM.Pbft

open DistLLM.Library PBFTNode

variable {ι Op PK SK Sig : Type} [LinearOrder ι]

/-- No two honest nodes commit different digests at one sequence number. -/
def CommitsAgree (c : Cluster ι Op PK SK Sig) (s : ClusterState ι Op PK SK Sig) : Prop :=
  ∀ i j, c.Honest i → c.Honest j → ∀ r ∈ (s i).commits, ∀ r' ∈ (s j).commits,
    r.sequence = r'.sequence → r.digest = r'.digest

/-- The operation an honest node hands to its callback has the committed digest. -/
def CallbackMatches (c : Cluster ι Op PK SK Sig) (s : ClusterState ι Op PK SK Sig) : Prop :=
  ∀ i, c.Honest i → ∀ r ∈ (s i).commits, ∀ op ∈ r.operation,
    c.primitives.computeDigest op = r.digest

namespace ClusterInv

variable {c : Cluster ι Op PK SK Sig} {s : ClusterState ι Op PK SK Sig}

theorem commitsAgree (inv : ClusterInv c s)
    (enough : c.nodeIds.length + c.byzantine.card ≤ 4 * c.f + 1) : CommitsAgree c s := by
  intro i j honest honest' r member r' member' same
  obtain ⟨A, inA, largeA, backsA⟩ := inv.quorumBacks honest member
  obtain ⟨B, inB, largeB, backsB⟩ := inv.quorumBacks honest' member'
  -- two quorums of 2f + 1 exceed the cluster by more than its Byzantine members
  have large : c.members.card + c.byzantine.card < A.card + B.card := by
    rw [c.card_members]
    omega
  obtain ⟨k, known, loyal, kA, kB⟩ := exists_honest_inter_of_card inA inB large
  obtain ⟨view, made⟩ := (backsA k kA).2 loyal
  obtain ⟨view', made'⟩ := (backsB k kB).2 loyal
  rw [← same] at made'
  exact (inv k ⟨known, loyal⟩).once view view' r.sequence r.digest r'.digest made made'

theorem callbackMatches (inv : ClusterInv c s) : CallbackMatches c s :=
  fun i honest r member => ((inv i honest).finalized r member).2.2.1

end ClusterInv

theorem PBFTNode.receive_cases (p : Primitives ι Op PK SK Sig) (n : PBFTNode ι Op PK SK Sig)
    (input : Input ι Op Sig) (stays : (n.receive p input).view = n.view) :
    Quiet n (n.receive p input) ∨
    (∃ operation msg, input = .request operation ∧ n.TakesRequest ∧
      n.receive p input =
        { n with lastSequence := n.lastSequence + 1 }.accepting n.view (n.lastSequence + 1) msg) ∨
    (∃ msg, input = .prePrepare msg ∧ n.verifySignature p msg = true ∧
      some msg.sender = n.primary ∧ n.lowWatermark ≤ msg.sequence ∧
      n.prePrepareLog.get? msg.sequence = none ∧
      Quiet (n.accepting n.view msg.sequence msg) (n.receive p input)) := by
  have same {n' : PBFTNode ι Op PK SK Sig} (eq : n' = n) : Quiet n n' := by
    rw [eq]
    exact Quiet.refl n
  cases input with
  | request operation =>
    rcases n.handleRequest_cases p operation with eq | ⟨takes, msg, _, _, out⟩
    · exact Or.inl (same eq)
    · exact Or.inr (Or.inl ⟨operation, msg, rfl, takes, out⟩)
  | prePrepare msg =>
    rcases n.handlePrePrepare_cases p msg with
      eq | ⟨verified, fromPrimary, _, allowed, _, absent, out⟩
    · exact Or.inl (same eq)
    · refine Or.inr (Or.inr ⟨msg, rfl, verified, fromPrimary, allowed, absent, ?_⟩)
      simp only [receive, out]
      have prepared : Quiet (n.accepting n.view msg.sequence msg)
          ((n.accepting n.view msg.sequence msg).logPrepare msg.sequence
            (n.ownMessage p .prepare n.view msg.sequence msg.digest)) :=
        ⟨fun _ _ found => found, rfl, rfl, List.Subset.refl _⟩
      exact prepared.trans (Quiet.tryPrepareQuorum p _ _ _)
  | prepare msg => exact Or.inl (Quiet.handlePrepare p n msg)
  | commit msg => exact Or.inl (Quiet.handleCommit p n msg)
  | startViewChange => exact Or.inl (Quiet.startViewChange p n)
  | viewChange message =>
    rcases n.handleViewChange_cases p message with eq | ⟨_, out⟩ | ⟨later, _, _, out⟩
    · exact Or.inl (same eq)
    · simp only [receive, out]
      exact Or.inl ⟨fun _ _ found => found, rfl, rfl, List.Subset.refl _⟩
    · -- the new primary would have entered its view
      simp only [receive, out] at stays
      exact absurd stays (ne_of_gt later)
  | newView message =>
    rcases n.handleNewView_cases p message with eq | ⟨later, verified, _⟩
    · exact Or.inl (same eq)
    · have entered := handleNewView_view p later verified
      exact absurd (entered.symm.trans stays) (ne_of_gt later)

variable {digest : String} {sequence : Int}

omit [LinearOrder ι] in
theorem PBFTNode.Quiet.logged {n n' : PBFTNode ι Op PK SK Sig} (quiet : Quiet n n')
    (held : Logged n' sequence digest) :
    Logged n sequence digest := by
  obtain ⟨pp, found, own⟩ := held
  exact ⟨pp, quiet.log sequence pp found, own⟩

/-! ### The invariant of a view -/

/-- An honest primary has no entry above its counter, and every entry of an honest node has a digest
that the primary signed. -/
structure ViewInv (c : Cluster ι Op PK SK Sig) (v : Int) (s : ClusterState ι Op PK SK Sig) : Prop
    where
  nodes : ClusterInv c s
  view : ∀ i, c.Honest i → (s i).view = v
  counted : ∀ i, c.Honest i → c.primaryOf v = some i → ∀ sequence digest,
    Logged (s i) sequence digest → sequence ≤ (s i).lastSequence
  proposed : ∀ i j, c.Honest i → c.Honest j → c.primaryOf v = some j → ∀ sequence digest,
    Logged (s i) sequence digest → ∃ view, .message j view sequence digest ∈ signedBy s j

namespace ViewInv

variable {c : Cluster ι Op PK SK Sig} {s : ClusterState ι Op PK SK Sig} {v : Int}

theorem startsIn (start : StartsIn c v s) : ViewInv c v s := by
  have inv := ClusterInv.startsIn start
  obtain ⟨s₀, ⟨_, _, built⟩, moved⟩ := start
  have nothing : ∀ i, c.Honest i → ∀ sequence digest, ¬ Logged (s i) sequence digest := by
    rintro i honest sequence digest ⟨pp, found, _⟩
    rw [moved i honest, (init_fresh c.primitives (built i honest.1)).prePrepareLog] at found
    cases found
  exact ⟨inv, fun i honest => by rw [moved i honest],
    fun i honest _ sequence digest held => absurd held (nothing i honest sequence digest),
    fun i _ honest _ _ sequence digest held => absurd held (nothing i honest sequence digest)⟩

section

variable (inv : ViewInv c v s)

include inv

theorem primary_eq {i : ι} (honest : c.Honest i) : (s i).primary = c.primaryOf v := by
  simp only [PBFTNode.primary, PBFTNode.primaryOf, inv.view i honest, (inv.nodes i honest).order,
    Cluster.primaryOf]

theorem keepsDigests {a : ClusterAction ι Op Sig} (possible : Enabled c s a)
    (stays : StaysInView c s a) : KeepsDigests c s a := by
  obtain ⟨i, input⟩ := a
  have honest : c.Honest i := possible.1
  cases input with
  | request operation =>
    intro takes pp found
    have isPrimary : c.primaryOf v = some i := by
      rw [← inv.primary_eq honest, ← takes.1, (inv.nodes i honest).nodeId]
    have counted : (s i).lastSequence + 1 ≤ (s i).lastSequence :=
      inv.counted i honest isPrimary _ pp.digest ⟨pp, found, rfl⟩
    omega
  | newView message =>
    intro later verified
    have entered := handleNewView_view c.primitives later verified
    exact absurd (entered.symm.trans stays) (ne_of_gt later)
  | _ => trivial

theorem signed_of_fromPrimary {i j : ι} (honest : c.Honest i) (loyal : c.Honest j)
    (isPrimary : c.primaryOf v = some j) {msg : PBFTMessage ι Op Sig}
    (possible : Enabled c s ⟨i, .prePrepare msg⟩)
    (verified : (s i).verifySignature c.primitives msg = true)
    (sender : some msg.sender = (s i).primary) :
    .message j msg.view msg.sequence msg.digest ∈ signedBy s j := by
  rw [inv.primary_eq honest, isPrimary] at sender
  have made := (possible.2.authentic ((inv.nodes i honest).keys _) verified).2
  rw [PBFTMessage.payload, Option.some.inj sender] at made
  exact made loyal.2

/-- The primary logs its requests at its counter, and logs no pre-prepare that somebody sends
in its name: it has logged all it signed. -/
theorem counted_step {i : ι} (honest : c.Honest i) (isPrimary : c.primaryOf v = some i)
    {input : Input ι Op Sig} (possible : Enabled c s ⟨i, input⟩)
    (stays : StaysInView c s ⟨i, input⟩)
    (held : Logged ((s i).receive c.primitives input) sequence digest) :
    sequence ≤ ((s i).receive c.primitives input).lastSequence := by
  have before := inv.counted i honest isPrimary sequence digest
  rcases receive_cases c.primitives (s i) input stays with
    quiet | ⟨_, msg, _, _, out⟩ | ⟨msg, rfl, verified, sender, allowed, absent, quiet⟩
  · rw [quiet.lastSequence]
    exact before (quiet.logged held)
  · rw [out] at held ⊢
    rcases NodeInv.logged_accepting held with ⟨rfl, _⟩ | old
    · exact le_rfl
    · exact (before old).trans (Int.le_of_lt (Int.lt_succ _))
  · rw [quiet.lastSequence]
    rcases NodeInv.logged_accepting (quiet.logged held) with ⟨rfl, _⟩ | old
    · have made := inv.signed_of_fromPrimary honest honest isPrimary possible verified sender
      rcases (inv.nodes i honest).remembered _ _ _ made with below | ⟨pp, found, _⟩
      · exact absurd allowed (not_le.mpr below)
      · rw [absent] at found
        cases found
    · exact before old

theorem proposed_step {i j : ι} (honest : c.Honest i) (loyal : c.Honest j)
    (isPrimary : c.primaryOf v = some j) (other : i ≠ j) {input : Input ι Op Sig}
    (possible : Enabled c s ⟨i, input⟩) (stays : StaysInView c s ⟨i, input⟩)
    (held : Logged ((s i).receive c.primitives input) sequence digest) :
    ∃ view, .message j view sequence digest ∈ signedBy s j := by
  have before := inv.proposed i j honest loyal isPrimary sequence digest
  rcases receive_cases c.primitives (s i) input stays with
    quiet | ⟨_, _, _, takes, _⟩ | ⟨msg, rfl, verified, sender, _, _, quiet⟩
  · exact before (quiet.logged held)
  · -- only the primary takes up requests
    have named := takes.1
    rw [(inv.nodes i honest).nodeId, inv.primary_eq honest, isPrimary] at named
    exact absurd (Option.some.inj named) other
  · rcases NodeInv.logged_accepting (quiet.logged held) with ⟨rfl, rfl⟩ | old
    · exact ⟨msg.view, inv.signed_of_fromPrimary honest loyal isPrimary possible verified sender⟩
    · exact before old

theorem step (a : ClusterAction ι Op Sig) (possible : Enabled c s a)
    (stays : StaysInView c s a) : ViewInv c v (exec c s a) := by
  have nodes := inv.nodes.step a possible (inv.keepsDigests possible stays)
  have grown := ClusterInv.signed_subset_exec c s a
  obtain ⟨i, input⟩ := a
  have here : exec c s ⟨i, input⟩ i = (s i).receive c.primitives input :=
    Function.update_self ..
  have other : ∀ j, j ≠ i → exec c s ⟨i, input⟩ j = s j := fun j different =>
    Function.update_of_ne different ..
  refine ⟨nodes, ?_, ?_, ?_⟩
  · -- the view is kept by assumption
    intro j loyal
    by_cases moved : j = i
    · subst moved
      rw [here]
      exact stays.trans (inv.view j loyal)
    · rw [other j moved]
      exact inv.view j loyal
  · intro j loyal isPrimary sequence digest held
    by_cases moved : j = i
    · subst moved
      rw [here] at held ⊢
      exact inv.counted_step loyal isPrimary possible stays held
    · rw [other j moved] at held ⊢
      exact inv.counted j loyal isPrimary sequence digest held
  · intro j k loyal loyal' isPrimary sequence digest held
    by_cases own : j = k
    · -- the primary signs what it logs
      subst own
      exact (nodes j loyal).promised sequence digest held
    · have before : ∃ view, .message k view sequence digest ∈ signedBy s k := by
        by_cases moved : j = i
        · subst moved
          rw [here] at held
          exact inv.proposed_step loyal loyal' isPrimary own possible stays held
        · rw [other j moved] at held
          exact inv.proposed j k loyal loyal' isPrimary sequence digest held
      obtain ⟨view, made⟩ := before
      exact ⟨view, grown k made⟩

end

theorem reached (run : (pbftIn c v).Reaches (StaysInView c) s) : ViewInv c v s :=
  run.invariant (fun _ start => startsIn start) fun _ a inv possible stays =>
    inv.step a possible stays

/-- Below an honest primary the logs agree, whatever the size of the cluster. -/
theorem commitsAgree (inv : ViewInv c v s) {p : ι} (isPrimary : c.primaryOf v = some p)
    (loyal : c.Honest p) : CommitsAgree c s := by
  intro i j honest honest' r member r' member' same
  obtain ⟨_, held, _, _⟩ := (inv.nodes i honest).finalized r member
  obtain ⟨_, held', _, _⟩ := (inv.nodes j honest').finalized r' member'
  obtain ⟨view, made⟩ := inv.proposed i p honest loyal isPrimary _ _ held
  obtain ⟨view', made'⟩ := inv.proposed j p honest' loyal isPrimary _ _ held'
  rw [← same] at made'
  exact (inv.nodes p loyal).once view view' r.sequence r.digest r'.digest made made'

end ViewInv

/-- While no honest node changes its view, the commits of honest nodes agree if the cluster is
small enough for its quorums or the primary is honest. -/
theorem commits_agree_within_view (c : Cluster ι Op PK SK Sig) (v : Int)
    (enough : c.nodeIds.length + c.byzantine.card ≤ 4 * c.f + 1 ∨
      ∃ p, c.primaryOf v = some p ∧ c.Honest p)
    {s : ClusterState ι Op PK SK Sig} (run : (pbftIn c v).Reaches (StaysInView c) s) :
    CommitsAgree c s ∧ CallbackMatches c s := by
  have inv := ViewInv.reached run
  refine ⟨?_, inv.nodes.callbackMatches⟩
  rcases enough with small | ⟨p, isPrimary, loyal⟩
  · exact inv.nodes.commitsAgree small
  · exact inv.commitsAgree isPrimary loyal

/-- One round in a cluster of four whose primary, node 0, is Byzantine: node 1 commits. -/
def oneRound : List (ClusterAction (Fin 4) String (IdealSignature 4)) :=
  [⟨1, .prePrepare (idealMessage .prePrepare 0 0 1 "X" (some "X"))⟩,
   ⟨2, .prePrepare (idealMessage .prePrepare 0 0 1 "X" (some "X"))⟩,
   ⟨1, .prepare (idealMessage .prepare 0 0 1 "X" none)⟩,
   ⟨1, .prepare (idealMessage .prepare 0 2 1 "X" none)⟩,
   ⟨1, .commit (idealMessage .commit 0 0 1 "X" none)⟩,
   ⟨1, .commit (idealMessage .commit 0 2 1 "X" none)⟩]

def four : Cluster (Fin 4) String (Fin 4) (Fin 4) (IdealSignature 4) :=
  idealCluster 4 1 four_suffice {0} (by decide)

theorem commits_agree_within_view_example :
    ({ sequence := 1, digest := "X", operation := some "X" } : CommitRecord String) ∈
      (oneRound.foldl (exec four) (idealStart 4 1) 1).commits ∧
    CommitsAgree four (oneRound.foldl (exec four) (idealStart 4 1)) ∧
    CallbackMatches four (oneRound.foldl (exec four) (idealStart 4 1)) :=
  ⟨by decide +kernel, commits_agree_within_view four 0 (Or.inl (by decide +kernel))
    ((Machine.Reaches.init (m := pbftIn four 0) (idealStart_initial 4 1 _ _ _).startsIn).of_follows
      oneRound (by decide +kernel))⟩

def five : Cluster (Fin 5) String (Fin 5) (Fin 5) (IdealSignature 5) :=
  idealCluster 5 1 (by decide) {0} (by decide)

/-- The Byzantine primary of five nodes sends one request to nodes 1 and 2 and another to nodes
3 and 4. Three of five are a quorum, so one honest node of each pair prepares and commits with
its partner and the primary. The partner's COMMIT carries the signature of its PREPARE. -/
def equivocation : List (ClusterAction (Fin 5) String (IdealSignature 5)) :=
  [⟨1, .prePrepare (idealMessage .prePrepare 0 0 1 "X" (some "X"))⟩,
   ⟨2, .prePrepare (idealMessage .prePrepare 0 0 1 "X" (some "X"))⟩,
   ⟨3, .prePrepare (idealMessage .prePrepare 0 0 1 "Y" (some "Y"))⟩,
   ⟨4, .prePrepare (idealMessage .prePrepare 0 0 1 "Y" (some "Y"))⟩,
   ⟨1, .prepare (idealMessage .prepare 0 0 1 "X" none)⟩,
   ⟨1, .prepare (idealMessage .prepare 0 2 1 "X" none)⟩,
   ⟨3, .prepare (idealMessage .prepare 0 0 1 "Y" none)⟩,
   ⟨3, .prepare (idealMessage .prepare 0 4 1 "Y" none)⟩,
   ⟨1, .commit (idealMessage .commit 0 0 1 "X" none)⟩,
   ⟨1, .commit (idealMessage .commit 0 2 1 "X" none)⟩,
   ⟨3, .commit (idealMessage .commit 0 0 1 "Y" none)⟩,
   ⟨3, .commit (idealMessage .commit 0 4 1 "Y" none)⟩]

/-- Five nodes have the default `f` of 1 but quorums of three, which need not share an honest
node. -/
theorem equivocation_commits_both : five.f = (five.nodeIds.length - 1) / 3 ∧
    ∃ s, (pbft five).Reaches (StaysInView five) s ∧ ¬ CommitsAgree five s := by
  refine ⟨by decide +kernel, equivocation.foldl (exec five) (idealStart 5 1), ?_, ?_⟩
  · exact (Machine.Reaches.init (idealStart_initial 5 1 _ _ _)).of_follows equivocation
      (by decide +kernel)
  · intro agree
    have same := agree 1 3 (by decide +kernel) (by decide +kernel) ⟨1, "X", some "X"⟩
      (by decide +kernel) ⟨1, "Y", some "Y"⟩ (by decide +kernel) rfl
    exact absurd same (by decide)

end DistLLM.Pbft
