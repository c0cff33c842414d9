import DistLLM.Library.Dict
import Mathlib.Data.List.Sort

/-!
# Topology versions

`TopologyVersion`: which node runs which layers of the model, as an immutable snapshot with a
version number. Times of creation are left out.
-/
namespace DistLLM.Reconfig

open Library

variable {κ : Type}

/-- Node ids are compared by their order. -/
scoped instance (priority := high) lawfulKeys [LinearOrder κ] : LawfulBEq κ := inferInstance

/-- The first and the last layer of a node. -/
structure NodeAssignment (κ : Type) where
  nodeId : κ
  startLayer : Int
  endLayer : Int
  deriving DecidableEq, Repr

namespace NodeAssignment

def Runs (a : NodeAssignment κ) (layer : Int) : Prop := a.startLayer ≤ layer ∧ layer ≤ a.endLayer

instance (a : NodeAssignment κ) (layer : Int) : Decidable (a.Runs layer) :=
  inferInstanceAs (Decidable (_ ∧ _))

def Apart (a b : NodeAssignment κ) : Prop := ∀ layer, a.Runs layer → ¬ b.Runs layer

theorem apart_iff (a b : NodeAssignment κ) :
    a.Apart b ↔ a.endLayer < a.startLayer ∨ b.endLayer < b.startLayer ∨
      a.endLayer < b.startLayer ∨ b.endLayer < a.startLayer := by
  constructor
  · intro apart
    by_contra meet
    -- the later one of the two first layers is run by both
    have both := apart (max a.startLayer b.startLayer)
    simp only [Runs] at both
    omega
  · intro away layer here there
    simp only [Runs] at here there
    omega

instance (a b : NodeAssignment κ) : Decidable (a.Apart b) := decidable_of_iff' _ (apart_iff a b)

theorem Apart.symm {a b : NodeAssignment κ} (apart : a.Apart b) : b.Apart a :=
  fun layer here there => apart layer there here

/-- The order of `assignments`: by first layer, then by node. -/
def before [LinearOrder κ] (a b : NodeAssignment κ) : Bool :=
  decide (a.startLayer < b.startLayer ∨ a.startLayer = b.startLayer ∧ a.nodeId ≤ b.nodeId)

end NodeAssignment

structure TopologyVersion (κ : Type) where
  version : Int
  topologyId : String
  assignments : List (NodeAssignment κ) := []
  deriving DecidableEq, Repr

def byNode [DecidableEq κ] (assignments : List (NodeAssignment κ)) :
    Dict κ (NodeAssignment κ) :=
  assignments.foldl (fun d a => d.set a.nodeId a) ∅

/-- What `diff` returns; a changed node stands with its assignments before and after. -/
structure TopologyDiff (κ : Type) where
  added : List (NodeAssignment κ)
  removed : List (NodeAssignment κ)
  changed : List (NodeAssignment κ × NodeAssignment κ)

namespace TopologyVersion

variable (t : TopologyVersion κ)

def nodeIds : List κ := t.assignments.map NodeAssignment.nodeId

/-- `with_assignment`: the assignment of a node is replaced, or added. -/
def withAssignment [LinearOrder κ] (nodeId : κ) (startLayer endLayer : Int) :
    TopologyVersion κ :=
  { t with
    assignments := List.insertionSort (fun a b => a.before b = true)
      ((t.assignments.filter fun a => decide (a.nodeId ≠ nodeId)) ++
        [⟨nodeId, startLayer, endLayer⟩]) }

/-- `without_node`. The version number stays. -/
def withoutNode [DecidableEq κ] (nodeId : κ) : TopologyVersion κ :=
  { t with assignments := t.assignments.filter fun a => decide (a.nodeId ≠ nodeId) }

def diff [DecidableEq κ] (other : TopologyVersion κ) : TopologyDiff κ :=
  let selfMap := byNode t.assignments
  let otherMap := byNode other.assignments
  { added := (selfMap.filterKeys fun nid => (otherMap.get? nid).isNone).values
    removed := (otherMap.filterKeys fun nid => (selfMap.get? nid).isNone).values
    changed := selfMap.entries.filterMap fun (nid, sa) =>
      match otherMap.get? nid with
      | some oa =>
        if (sa.startLayer, sa.endLayer) ≠ (oa.startLayer, oa.endLayer) then some (oa, sa) else none
      | none => none }

/-- `compatible`: nodes are added or removed, but not both. -/
def compatible [DecidableEq κ] (other : TopologyVersion κ) : Bool :=
  let diff := t.diff other
  !(!diff.added.isEmpty && !diff.removed.isEmpty)

section Lemmas

variable {nodeId : κ} {startLayer endLayer : Int}

@[simp] theorem withoutNode_version [DecidableEq κ] :
    (t.withoutNode nodeId).version = t.version := rfl

theorem withAssignment_perm [LinearOrder κ] (nodeId : κ) (startLayer endLayer : Int) :
    (t.withAssignment nodeId startLayer endLayer).assignments.Perm
      (⟨nodeId, startLayer, endLayer⟩ ::
        t.assignments.filter fun a => decide (a.nodeId ≠ nodeId)) :=
  (List.perm_insertionSort _ _).trans (List.perm_append_singleton _ _)

end Lemmas

end TopologyVersion

/-- No node twice, no layer run by two nodes, and each of the model's layers run by one. -/
structure Layout (layers : Nat) (assignments : List (NodeAssignment κ)) : Prop where
  nodes : (assignments.map NodeAssignment.nodeId).Nodup
  disjoint : assignments.Pairwise NodeAssignment.Apart
  cover : ∀ layer : Int, 0 ≤ layer → layer < layers → ∃ a ∈ assignments, a.Runs layer

namespace Layout

variable {layers : Nat} {as bs : List (NodeAssignment κ)}

theorem perm (layout : Layout layers as) (same : as.Perm bs) : Layout layers bs where
  nodes := (same.map _).nodup_iff.mp layout.nodes
  disjoint := layout.disjoint.perm same fun apart => apart.symm
  cover layer low high := by
    obtain ⟨a, member, runs⟩ := layout.cover layer low high
    exact ⟨a, same.mem_iff.mp member, runs⟩

theorem cons_iff (layout : Layout layers as) {a : NodeAssignment κ}
    (new : a.nodeId ∉ as.map NodeAssignment.nodeId) :
    Layout layers (a :: as) ↔ ∀ b ∈ as, a.Apart b := by
  constructor
  · intro grown
    exact (List.pairwise_cons.mp grown.disjoint).1
  · intro apart
    refine ⟨List.nodup_cons.mpr ⟨new, layout.nodes⟩,
      List.pairwise_cons.mpr ⟨apart, layout.disjoint⟩, fun layer low high => ?_⟩
    obtain ⟨b, member, runs⟩ := layout.cover layer low high
    exact ⟨b, List.mem_cons_of_mem _ member, runs⟩

end Layout

end DistLLM.Reconfig
