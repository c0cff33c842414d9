import DistLLM.Crdt.Replicas

/-!
# Convergence

A replica is what the operations that it has absorbed mean. So two replicas that have absorbed the
same operations show the same entries, in whatever order and how often they have merged, and
whatever their clocks have read.
-/
namespace DistLLM.Crdt

open DistLLM.Library

variable {κ V ν : Type}

theorem Distinct.writes {ops : Set (Op κ V ν)} (distinct : Distinct ops) (key : κ) :
    ∀ reg ∈ writesTo ops key, ∀ reg' ∈ writesTo ops key,
      reg.timestamp = reg'.timestamp → reg = reg' := by
  rintro reg ⟨op, member, written⟩ reg' ⟨op', member', written'⟩ same
  obtain rfl := distinct op member op' member' key key reg reg' written written' same
  simpa [written] using written'

variable [LinearOrder ν]

theorem Means.unique {ops : Set (Op κ V ν)} {map map' : CRDTCacheMap κ V ν}
    (distinct : Distinct ops) (means : Means ops map) (means' : Means ops map') :
    map.membership.adds = map'.membership.adds ∧
      map.membership.removes = map'.membership.removes ∧ map.values = map'.values := by
  refine ⟨?_, ?_, ?_⟩
  · ext pair
    rw [means.adds, means'.adds]
  · ext pair
    rw [means.removes, means'.removes]
  · funext key
    exact (means.values key).unique (distinct.writes key) (means'.values key)

namespace Replicas

variable [DecidableEq κ] {s : Replicas κ V ν} {n m : ν}

/-- **Strong eventual convergence.** After every run of puts, removes and merges, with any readings
of the wall clocks, replicas that have absorbed the same local operations return the same keys and
the same items. -/
theorem replicas_converge (reached : (machine κ V ν).Reachable s)
    (same : s.absorbed n = s.absorbed m) :
    (s.nodes n).keys = (s.nodes m).keys ∧ (s.nodes n).items = (s.nodes m).items := by
  have sound := sound_of_reaches reached
  have known : s.known m = s.known n := by simp [known, same]
  have distinct : Distinct (s.known n) := fun op member op' member' =>
    sound.distinct op (mem_log_of_known member) op' (mem_log_of_known member')
  obtain ⟨adds, removes, values⟩ :=
    Means.unique distinct (sound.means n) ((sound.means m).congr known)
  have elements : (s.nodes n).membership.elements = (s.nodes m).membership.elements := by
    ext elem
    simp only [ORSet.mem_elements, adds, removes]
  have get : (s.nodes n).get = (s.nodes m).get := by
    funext key
    simp [CRDTCacheMap.get, elements, values]
  have keys : (s.nodes n).keys = (s.nodes m).keys := by
    simp [CRDTCacheMap.keys, elements, get]
  refine ⟨keys, ?_⟩
  funext key
  simp [CRDTCacheMap.items, keys, get]

/-- Node 1 is behind: its put of key 7 is stamped earlier than that of node 0, on which both agree
after merging each other. -/
theorem replicas_converge_pair : ∃ s : Replicas Nat String Nat, (s.nodes 0).items 7 = some "a" ∧
      (s.nodes 0).keys = (s.nodes 1).keys ∧ (s.nodes 0).items = (s.nodes 1).items := by
  have fresh : (machine Nat String Nat).init
      ⟨fun n => CRDTCacheMap.create n (if n = 0 then 100 else 50), [], fun _ => ∅⟩ :=
    ⟨⟨_, rfl⟩, rfl, rfl⟩
  have reached : (machine Nat String Nat).Reachable _ := .of_follows (.init fresh)
    [.put 0 7 (some "a") 110, .put 1 7 (some "b") 40,
      .merge 0 1 [(7, ⟨50, 1, 1⟩)] fun _ => 120,
      .merge 1 0 [(7, ⟨110, 0, 0⟩), (7, ⟨50, 1, 1⟩)] fun _ => 30]
    (by decide)
  refine ⟨_, ?_, replicas_converge reached ?_⟩ <;> decide

end Replicas

end DistLLM.Crdt
