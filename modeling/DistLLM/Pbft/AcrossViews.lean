import DistLLM.Pbft.Agreement

/-!
# Agreement across views

A view change carries no proof of what was prepared before it. So agreement over all views rests
on what the honest nodes remember: it holds in the runs in which none of them signs a second
digest at a sequence number. Two steps of the code can make it do so. A new primary numbers its
requests with its own counter, which may be behind, and a checkpoint is taken over unchecked.
-/
namespace DistLLM.Pbft

open DistLLM.Library PBFTNode

variable {ι Op PK SK Sig : Type} [LinearOrder ι]

/-- An honest node returns, at a sequence number that an honest node has committed, only an
operation with the committed digest. -/
def ReturnsCommitted (c : Cluster ι Op PK SK Sig) (s : ClusterState ι Op PK SK Sig) : Prop :=
  ∀ i j, c.Honest i → c.Honest j → ∀ r ∈ (s i).commits, ∀ op,
    (r.sequence, op) ∈ (s j).getCommittedOperations c.primitives →
      c.primitives.computeDigest op = r.digest

namespace ClusterInv

variable {c : Cluster ι Op PK SK Sig} {s : ClusterState ι Op PK SK Sig}

theorem reached (run : (pbft c).Reaches (KeepsDigests c) s) : ClusterInv c s :=
  run.invariant (fun _ start => initial start) fun _ a inv possible keeps =>
    inv.step a possible keeps

theorem returnsCommitted (inv : ClusterInv c s) (agree : CommitsAgree c s) :
    ReturnsCommitted c s := by
  intro i j honest honest' r member op returned
  obtain ⟨done, _, pp, found, operation⟩ :=
    (mem_getCommittedOperations c.primitives (s j) r.sequence op).mp returned
  obtain ⟨r', member', same⟩ := (inv j honest').committed r.sequence done
  obtain ⟨_, held, _, _⟩ := (inv j honest').finalized r' member'
  rw [same] at held
  calc c.primitives.computeDigest op
      = pp.digest := (inv j honest').operations r.sequence pp found op operation
    _ = r'.digest := NodeInv.logged_unique ⟨pp, found, rfl⟩ held
    _ = r.digest := (agree i j honest honest' r member r' member' same.symm).symm

end ClusterInv

/-- In a cluster of `3f + 1` no two honest nodes commit different digests at a sequence number,
in whatever views, and none returns another operation there, as long as digests are kept. -/
theorem commits_agree_across_views (c : Cluster ι Op PK SK Sig)
    (size : c.nodeIds.length = 3 * c.f + 1) {s : ClusterState ι Op PK SK Sig}
    (run : (pbft c).Reaches (KeepsDigests c) s) : CommitsAgree c s ∧ ReturnsCommitted c s := by
  have inv := ClusterInv.reached run
  have enough : c.nodeIds.length + c.byzantine.card ≤ 4 * c.f + 1 := by
    have few := c.few
    omega
  exact ⟨inv.commitsAgree enough, inv.returnsCommitted (inv.commitsAgree enough)⟩

/-- A view-change message as the network hands it on: its logs are not signed. -/
def idealViewChange {N : Nat} (sender : Fin N) (newView lastCommitted : Int) :
    ViewChange (Fin N) String (IdealSignature N) :=
  { nodeId := sender, newView, lastCommitted,
    signature := some (sender, .viewChange sender newView lastCommitted),
    prePrepareLog := [], prepareLog := [] }

def idealNewView {N : Nat} (sender : Fin N) (newView : Int)
    (checkpoint : Checkpoint (Fin N) String (IdealSignature N)) :
    NewView (Fin N) String (IdealSignature N) :=
  { newView, sender, signature := some (sender, .newView sender newView), checkpoint }

/-- Node 0, which is not the primary of view 1, announces it to nodes 2 and 3 with a checkpoint
whose entry has the digest of `"X"` and carries an operation. Node 3 commits the entry. -/
def takenOver (operation : String) : List (ClusterAction (Fin 4) String (IdealSignature 4)) :=
  let message := idealNewView 0 1
    { prePrepareLog := [(1, idealMessage .prePrepare 0 0 1 "X" (some operation))] }
  [⟨2, .newView message⟩, ⟨3, .newView message⟩,
   ⟨3, .prepare (idealMessage .prepare 1 0 1 "X" none)⟩,
   ⟨3, .prepare (idealMessage .prepare 1 2 1 "X" none)⟩,
   ⟨3, .commit (idealMessage .commit 1 0 1 "X" none)⟩,
   ⟨3, .commit (idealMessage .commit 1 2 1 "X" none)⟩]

theorem commits_agree_across_views_example :
    (1, "X") ∈ ((takenOver "X").foldl (exec four) (idealStart 4 1) 3).getCommittedOperations
      (ideal 4) ∧ CommitsAgree four ((takenOver "X").foldl (exec four) (idealStart 4 1)) ∧
    ReturnsCommitted four ((takenOver "X").foldl (exec four) (idealStart 4 1)) := by
  refine ⟨?_, commits_agree_across_views four (by decide +kernel)
    ((Machine.Reaches.init (idealStart_initial 4 1 _ _ _)).of_follows (takenOver "X") ?_)⟩
  · decide +kernel
  · decide +kernel

/-- After node 1 committed at sequence number 1, the nodes 1, 2 and 3 change to view 1, whose
primary is node 1. Its own counter is still 0, so it gives its first request the number 1 again,
over the committed entry. Node 3, which has no entry there, commits it. -/
def numberReused : List (ClusterAction (Fin 4) String (IdealSignature 4)) :=
  [⟨1, .startViewChange⟩, ⟨2, .startViewChange⟩, ⟨3, .startViewChange⟩,
   ⟨1, .viewChange (idealViewChange 2 1 0)⟩,
   ⟨1, .viewChange (idealViewChange 3 1 0)⟩,
   ⟨3, .newView (idealNewView 1 1 {})⟩,
   ⟨1, .request "Y"⟩,
   ⟨3, .prePrepare (idealMessage .prePrepare 1 1 1 "Y" (some "Y"))⟩,
   ⟨3, .prepare (idealMessage .prepare 1 0 1 "Y" none)⟩,
   ⟨3, .prepare (idealMessage .prepare 1 1 1 "Y" none)⟩,
   ⟨3, .commit (idealMessage .commit 1 0 1 "Y" none)⟩,
   ⟨3, .commit (idealMessage .commit 1 1 1 "Y" none)⟩]

/-- A number used twice makes nodes 1 and 3 commit different digests and node 1 return the
operation it did not commit; an unchecked checkpoint makes node 3 return an operation whose
digest nobody committed. -/
theorem view_change_breaks_agreement :
    (∃ s, (pbft four).Reachable s ∧ ¬ CommitsAgree four s ∧ ¬ ReturnsCommitted four s) ∧
    (∃ s, (pbft four).Reachable s ∧ ¬ ReturnsCommitted four s) := by
  have start := idealStart_initial 4 1 (by decide) {0} (by decide)
  refine ⟨⟨(oneRound ++ numberReused).foldl (exec four) (idealStart 4 1), ?_, ?_, ?_⟩,
    ⟨(takenOver "Z").foldl (exec four) (idealStart 4 1), ?_, ?_⟩⟩
  · exact (Machine.Reaches.init start).of_follows (oneRound ++ numberReused) (by decide +kernel)
  · intro agree
    have same := agree 1 3 (by decide +kernel) (by decide +kernel) ⟨1, "X", some "X"⟩
      (by decide +kernel) ⟨1, "Y", some "Y"⟩ (by decide +kernel) rfl
    exact absurd same (by decide)
  · intro returns
    have same := returns 1 1 (by decide +kernel) (by decide +kernel) ⟨1, "X", some "X"⟩
      (by decide +kernel) "Y" (by decide +kernel)
    exact absurd same (by decide)
  · exact (Machine.Reaches.init start).of_follows (takenOver "Z") (by decide +kernel)
  · intro returns
    have same := returns 3 3 (by decide +kernel) (by decide +kernel) ⟨1, "X", some "Z"⟩
      (by decide +kernel) "Z" (by decide +kernel)
    exact absurd same (by decide)

end DistLLM.Pbft
