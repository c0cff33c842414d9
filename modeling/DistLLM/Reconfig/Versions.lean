import DistLLM.Library.Machine
import DistLLM.Reconfig.Topology
import Mathlib.Data.String.Basic

/-!
# Planning topology changes

`add_node` and `remove_node` of the reconfigurator: the plan they return and the version they put
into the map. A removed node leaves its layers to nobody, and its version carries the number of the
one before; an added node takes layers that others have.
-/
namespace DistLLM.Reconfig

open Library

variable {κ : Type} [LinearOrder κ]

inductive PlanAction
  | addNode
  | removeNode
  | changeLayers
  deriving DecidableEq, Repr

structure ReconfigurationPlan (κ : Type) where
  newVersion : Int
  newTopologyId : String
  action : PlanAction
  targetNodeId : κ
  assignmentsBefore : List (NodeAssignment κ)
  assignmentsAfter : List (NodeAssignment κ)
  requiresFullCheckpoint : Bool := true
  deriving DecidableEq, Repr

abbrev Versions (κ : Type) := Dict Int (TopologyVersion κ)

namespace Versions

variable (versions : Versions κ)

/-- `max(versions.keys()) if versions else 0`. -/
def current : Int := versions.keys.max?.getD 0

def currentAssignments : List (NodeAssignment κ) :=
  ((versions.get? (current versions)).map TopologyVersion.assignments).getD []

/-- What both calls return and leave: the new version in the map, and the plan. -/
def planned (action : PlanAction) (target : κ) (topologyId : String)
    (newTopo : TopologyVersion κ) : ReconfigurationPlan κ × Versions κ :=
  let newVersion := current versions + 1
  ({ newVersion, newTopologyId := topologyId, action, targetNodeId := target
     assignmentsBefore := currentAssignments versions
     assignmentsAfter := newTopo.assignments
     requiresFullCheckpoint :=
      match versions.get? (current versions) with
      | some beforeTopo => !beforeTopo.compatible newTopo
      | none => true },
    versions.set newVersion newTopo)

/-- The version that `add_node` builds. The assignments before are carried forward over the new
one, also that of a node which was there already. -/
def withNode (nodeId : κ) (startLayer endLayer : Int) (topologyId : String) : TopologyVersion κ :=
  (currentAssignments versions).foldl
    (fun topo a => topo.withAssignment a.nodeId a.startLayer a.endLayer)
    (TopologyVersion.withAssignment { version := current versions + 1, topologyId }
      nodeId startLayer endLayer)

variable [ToString κ]

/-- `add_node`, as far as the host and the port of the node do not matter. -/
def addNode (nodeId : κ) (startLayer endLayer : Int) (topologyId : Option String) :
    ReconfigurationPlan κ × Versions κ :=
  let given := topologyId.filter fun text => decide (text ≠ "")
  let tid := given.getD s!"live-add-{nodeId}-v{current versions + 1}"
  planned versions .addNode nodeId tid (withNode versions nodeId startLayer endLayer tid)

/-- The version that `remove_node` builds, with the number of the version before. -/
def withoutNode (nodeId : κ) (topologyId : String) : TopologyVersion κ :=
  match versions.get? (current versions) with
  | some beforeTopo => beforeTopo.withoutNode nodeId
  | none => { version := current versions + 1, topologyId }

def removeNode (nodeId : κ) : ReconfigurationPlan κ × Versions κ :=
  let tid := s!"live-remove-{nodeId}-v{current versions + 1}"
  planned versions .removeNode nodeId tid (withoutNode versions nodeId tid)

end Versions

section Lemmas

variable {versions : Versions κ}

theorem withAssignments_perm (as : List (NodeAssignment κ)) (t : TopologyVersion κ)
    (distinct : (as.map NodeAssignment.nodeId).Nodup) :
    (as.foldl (fun topo a => topo.withAssignment a.nodeId a.startLayer a.endLayer) t).version =
        t.version ∧ (as.foldl (fun topo a => topo.withAssignment a.nodeId a.startLayer a.endLayer)
        t).assignments.Perm
        ((t.assignments.filter fun b => decide (b.nodeId ∉ as.map NodeAssignment.nodeId)) ++
          as) := by
  induction as generalizing t with
  | nil => simp
  | cons a rest ih =>
    simp only [List.map_cons, List.nodup_cons] at distinct
    obtain ⟨version, perm⟩ :=
      ih (t.withAssignment a.nodeId a.startLayer a.endLayer) distinct.2
    refine ⟨version, perm.trans ?_⟩
    -- the assignment just added is not replaced later
    have filtered := (t.withAssignment_perm a.nodeId a.startLayer a.endLayer).filter fun b =>
        decide (b.nodeId ∉ rest.map NodeAssignment.nodeId)
    rw [List.filter_cons_of_pos (by simpa using distinct.1), List.filter_filter] at filtered
    refine (filtered.append_right rest).trans ?_
    have others : (t.assignments.filter fun b => decide (b.nodeId ∉
          (a :: rest).map NodeAssignment.nodeId)) =
        t.assignments.filter fun b => decide (b.nodeId ∉ rest.map NodeAssignment.nodeId) &&
          decide (b.nodeId ≠ a.nodeId) := by
      apply List.filter_congr
      intro b _
      simp only [List.map_cons, List.mem_cons, not_or, Bool.decide_and]
      rw [Bool.and_comm]
    rw [others]
    exact List.perm_middle.symm

theorem withNode_spec (distinct :
    ((Versions.currentAssignments versions).map NodeAssignment.nodeId).Nodup)
    (nodeId : κ) (startLayer endLayer : Int) (topologyId : String) :
    let topo := Versions.withNode versions nodeId startLayer endLayer topologyId
    topo.version = Versions.current versions + 1 ∧
      topo.assignments.Perm
        (if nodeId ∈ (Versions.currentAssignments versions).map NodeAssignment.nodeId then
          Versions.currentAssignments versions
        else ⟨nodeId, startLayer, endLayer⟩ :: Versions.currentAssignments versions) := by
  obtain ⟨version, perm⟩ := withAssignments_perm (Versions.currentAssignments versions)
    (TopologyVersion.withAssignment
      { version := Versions.current versions + 1, topologyId } nodeId startLayer endLayer) distinct
  have single : (TopologyVersion.withAssignment
      { version := Versions.current versions + 1, topologyId } nodeId startLayer
        endLayer).assignments = [⟨nodeId, startLayer, endLayer⟩] := by
    simp [TopologyVersion.withAssignment]
  rw [single] at perm
  refine ⟨version, perm.trans (List.Perm.of_eq ?_)⟩
  by_cases there : nodeId ∈ (Versions.currentAssignments versions).map NodeAssignment.nodeId
  · rw [if_pos there, List.filter_cons_of_neg (by simpa using there)]
    rfl
  · rw [if_neg there, List.filter_cons_of_pos (by simpa using there)]
    rfl

section

omit [LinearOrder κ]

theorem le_current {k : Int} (member : k ∈ versions.keys) : k ≤ Versions.current versions := by
  unfold Versions.current
  cases top : versions.keys.max? with
  | none =>
    rw [List.max?_eq_none_iff] at top
    simp [top] at member
  | some greatest => exact (List.max?_eq_some_iff.mp top).2 k member

theorem current_mem (stored : versions.keys ≠ []) : Versions.current versions ∈ versions.keys := by
  unfold Versions.current
  cases top : versions.keys.max? with
  | none => exact absurd (List.max?_eq_none_iff.mp top) stored
  | some greatest => exact (List.max?_eq_some_iff.mp top).1

theorem current_fresh : versions.get? (Versions.current versions + 1) = none := by
  by_contra present
  obtain ⟨topo, found⟩ := Option.ne_none_iff_exists'.mp present
  have := le_current (versions.mem_keys_iff.mpr ⟨topo, found⟩)
  omega

theorem current_set (topo : TopologyVersion κ) :
    Versions.current (versions.set (Versions.current versions + 1) topo) =
      Versions.current versions + 1 := by
  have new : Versions.current versions + 1 ∈
      (versions.set (Versions.current versions + 1) topo).keys :=
    (Dict.mem_keys_iff _).mpr ⟨topo, by simp⟩
  apply le_antisymm
  · have top := current_mem (List.ne_nil_of_mem new)
    obtain ⟨_, found⟩ := (Dict.mem_keys_iff _).mp top
    rw [Dict.get?_set] at found
    split at found
    next same => omega
    next =>
      have := le_current (versions.mem_keys_iff.mpr ⟨_, found⟩)
      omega
  · exact le_current new

end

end Lemmas

/-! ### Runs -/

variable [ToString κ]

inductive PlanningAction (κ : Type)
  | addNode (nodeId : κ) (startLayer endLayer : Int) (topologyId : Option String)
  | removeNode (nodeId : κ)

/-- The map, and the versions produced so far under the keys they were given. -/
structure Planning (κ : Type) where
  versions : Versions κ
  produced : List (Int × TopologyVersion κ) := []

namespace Planning

/-- The version that a call puts under the next number. -/
def next (p : Planning κ) : PlanningAction κ → TopologyVersion κ
  | .addNode nodeId startLayer endLayer topologyId =>
    let given := topologyId.filter fun text => decide (text ≠ "")
    Versions.withNode p.versions nodeId startLayer endLayer
      (given.getD s!"live-add-{nodeId}-v{Versions.current p.versions + 1}")
  | .removeNode nodeId =>
    Versions.withoutNode p.versions nodeId
      s!"live-remove-{nodeId}-v{Versions.current p.versions + 1}"

def exec (p : Planning κ) (act : PlanningAction κ) : Planning κ :=
  { versions :=
      match act with
      | .addNode nodeId startLayer endLayer topologyId =>
        (Versions.addNode p.versions nodeId startLayer endLayer topologyId).2
      | .removeNode nodeId => (Versions.removeNode p.versions nodeId).2
    produced := p.produced ++ [(Versions.current p.versions + 1, p.next act)] }

theorem exec_versions (p : Planning κ) (act : PlanningAction κ) :
    (p.exec act).versions = p.versions.set (Versions.current p.versions + 1) (p.next act) := by
  cases act <;> rfl

end Planning

/-- A map to start from: versions under their own numbers, the current one a layout of the
model. -/
structure Starts (layers : Nat) (versions : Versions κ) : Prop where
  stored : versions.keys ≠ []
  numbered : ∀ k topo, versions.get? k = some topo → topo.version = k
  layout : Layout layers (Versions.currentAssignments versions)

def planning (κ : Type) [LinearOrder κ] [ToString κ] (layers : Nat) :
    Machine (Planning κ) (PlanningAction κ) where
  init p := Starts layers p.versions ∧ p.produced = []
  enabled _ _ := True
  exec := Planning.exec

/-- A produced version is as it should be: under its own number, above all the numbers in use, and
a layout of the model. -/
structure WellFormed (layers : Nat) (versions : Versions κ) (key : Int)
    (topo : TopologyVersion κ) : Prop where
  numbered : topo.version = key
  larger : ∀ k ∈ versions.keys, k < key
  layout : Layout layers topo.assignments

/-- What all the versions produced in a run should be: stored under their own numbers, each number
above the earlier ones, and layouts of the model. -/
structure AllWellFormed (layers : Nat) (p : Planning κ) : Prop where
  stored : ∀ e ∈ p.produced, p.versions.get? e.1 = some e.2 ∧ e.2.version = e.1
  increasing : p.produced.Pairwise fun e e' => e.1 < e'.1
  layout : ∀ e ∈ p.produced, Layout layers e.2.assignments

/-- A call adds a node that is there already, or one whose layers nobody has; it removes none. -/
def KeepsLayout (p : Planning κ) : PlanningAction κ → Prop
  | .addNode nodeId startLayer endLayer _ =>
    nodeId ∈ (Versions.currentAssignments p.versions).map NodeAssignment.nodeId ∨
      ∀ b ∈ Versions.currentAssignments p.versions,
        (NodeAssignment.mk nodeId startLayer endLayer).Apart b
  | .removeNode _ => False

instance (p : Planning κ) (act : PlanningAction κ) : Decidable (KeepsLayout p act) := by
  cases act <;> unfold KeepsLayout <;> infer_instance

section

variable {layers : Nat} {p : Planning κ}

theorem wellFormed_iff (starts : Starts layers p.versions) (act : PlanningAction κ) :
    WellFormed layers p.versions (Versions.current p.versions + 1) (p.next act) ↔
      KeepsLayout p act := by
  have larger : ∀ k ∈ p.versions.keys, k < Versions.current p.versions + 1 := fun k member =>
    Int.lt_add_one_of_le (le_current member)
  cases act with
  | addNode nodeId startLayer endLayer topologyId =>
    obtain ⟨version, perm⟩ := withNode_spec starts.layout.nodes nodeId startLayer endLayer
      ((topologyId.filter fun text => decide (text ≠ "")).getD
        s!"live-add-{nodeId}-v{Versions.current p.versions + 1}")
    have layout_iff : Layout layers (p.next
        (.addNode nodeId startLayer endLayer topologyId)).assignments ↔
          KeepsLayout p (.addNode nodeId startLayer endLayer topologyId) := by
      simp only [KeepsLayout]
      by_cases there : nodeId ∈
          (Versions.currentAssignments p.versions).map NodeAssignment.nodeId
      · rw [if_pos there] at perm
        exact iff_of_true (starts.layout.perm perm.symm) (.inl there)
      · rw [if_neg there] at perm
        rw [← starts.layout.cons_iff there]
        constructor
        · intro layout
          exact .inr (layout.perm perm)
        · rintro (old | grown)
          · exact absurd old there
          · exact grown.perm perm.symm
    rw [← layout_iff]
    exact ⟨fun formed => formed.layout, fun layout => ⟨version, larger, layout⟩⟩
  | removeNode nodeId =>
    refine iff_of_false (fun formed => ?_) id
    obtain ⟨topo, found⟩ := (Dict.mem_keys_iff _).mp (current_mem starts.stored)
    have number := formed.numbered
    -- the number of the version before is kept
    simp only [Planning.next, Versions.withoutNode, found, TopologyVersion.withoutNode_version,
      starts.numbered _ _ found] at number
    omega

theorem Starts.exec (starts : Starts layers p.versions) {act : PlanningAction κ}
    (keeps : KeepsLayout p act) : Starts layers (p.exec act).versions := by
  have formed := (wellFormed_iff starts act).mpr keeps
  rw [Planning.exec_versions]
  refine ⟨?_, fun k topo found => ?_, ?_⟩
  · exact List.ne_nil_of_mem ((Dict.mem_keys_iff _).mpr ⟨p.next act, Dict.get?_set_self _ _ _⟩)
  · rw [Dict.get?_set] at found
    split at found
    next same =>
      cases found
      exact formed.numbered.trans same
    next => exact starts.numbered k topo found
  · simpa [Versions.currentAssignments, current_set] using formed.layout

/-- The map and the produced versions along a run. -/
structure Produces (layers : Nat) (p : Planning κ) : Prop where
  starts : Starts layers p.versions
  formed : AllWellFormed layers p

theorem Produces.exec (produces : Produces layers p) {act : PlanningAction κ}
    (keeps : KeepsLayout p act) : Produces layers (p.exec act) := by
  obtain ⟨starts, stored, increasing, layout⟩ := produces
  have formed := (wellFormed_iff starts act).mpr keeps
  have below : ∀ e ∈ p.produced, e.1 < Versions.current p.versions + 1 := fun e member =>
    formed.larger e.1 ((Dict.mem_keys_iff _).mpr ⟨e.2, (stored e member).1⟩)
  refine ⟨starts.exec keeps, fun e member => ?_, ?_, fun e member => ?_⟩
  · rw [Planning.exec_versions, Dict.get?_set]
    rcases List.mem_append.mp member with old | new
    · rw [if_neg (by have := below e old; omega)]
      exact stored e old
    · obtain rfl := List.mem_singleton.mp new
      exact ⟨if_pos rfl, formed.numbered⟩
  · refine List.pairwise_append.mpr ⟨increasing, List.pairwise_singleton _ _, ?_⟩
    intro e old e' new
    obtain rfl := List.mem_singleton.mp new
    exact below e old
  · rcases List.mem_append.mp member with old | new
    · exact layout e old
    · obtain rfl := List.mem_singleton.mp new
      exact formed.layout

/-- **Topology versions.** In every run that removes no node and adds only nodes that are there
already or whose layers nobody has, every version produced is stored under its own number, above
all earlier numbers, and is a layout of the model. The condition is exact: from there a call
produces a well formed version if and only if it meets it. -/
theorem versions_wellFormed (reached : (planning κ layers).Reaches KeepsLayout p) :
    AllWellFormed layers p ∧
      ∀ act, WellFormed layers p.versions (Versions.current p.versions + 1) (p.next act) ↔
        KeepsLayout p act := by
  have produces : Produces layers p := by
    apply Machine.Reaches.invariant _ _ reached
    · rintro p ⟨starts, none⟩
      exact ⟨starts, by simp [none], by simp [none], by simp [none]⟩
    · intro p act produces _ keeps
      exact produces.exec keeps
  exact ⟨produces.formed, wellFormed_iff produces.starts⟩

end

def twoNodes : Versions String :=
  ⟨[(1, ⟨1, "v1", [⟨"a", 0, 3⟩, ⟨"b", 4, 7⟩]⟩)], by decide⟩

theorem twoNodes_starts : Starts 8 twoNodes where
  stored := by decide
  numbered k topo found := by
    have member := (Dict.mem_entries_iff twoNodes k topo).mpr found
    simp only [twoNodes, List.mem_singleton, Prod.mk.injEq] at member
    rw [member.1, member.2]
  layout := by
    refine ⟨by decide, by decide, fun layer low high => ?_⟩
    by_cases first : layer ≤ 3
    · exact ⟨⟨"a", 0, 3⟩, by decide, low, first⟩
    · refine ⟨⟨"b", 4, 7⟩, by decide, ?_⟩
      simp only [NodeAssignment.Runs]
      omega

theorem twoNodes_init : (planning String 8).init { versions := twoNodes } := ⟨twoNodes_starts, rfl⟩

/-- The second node is added again, and a third one behind the layers of the model. -/
theorem versions_wellFormed_twoNodes :
    AllWellFormed 8 ([PlanningAction.addNode "b" 0 7 none, .addNode "c" 8 9 none].foldl
      (planning String 8).exec { versions := twoNodes }) := by
  refine (versions_wellFormed (.of_follows (.init twoNodes_init) _ ?_)).1
  exact ⟨trivial, by decide, trivial, by decide, trivial⟩

/-- Version 2 without the second node carries the number 1, and nobody runs the layers 4 to 7. -/
theorem removed_keeps_number : ¬ ∀ p, (planning String 8).Reachable p → AllWellFormed 8 p := by
  intro all
  have reached : (planning String 8).Reachable _ :=
    .of_follows (.init twoNodes_init) [.removeNode "b"] ⟨trivial, trivial, trivial⟩
  have number := ((all _ reached).stored (2, ⟨1, "v1", [⟨"a", 0, 3⟩]⟩) (by decide)).2
  revert number
  decide

end DistLLM.Reconfig
