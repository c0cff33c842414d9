import DistLLM.Reconfig.Manager

/-!
# Rolling back

What a rollback that returns true restores. The orchestrator gets back the nodes it still had, and
the selector only ever moves to a higher version. A reconfiguration that fails is rolled back in
name only: it ends in a state in which every later one is refused, unless another call was waiting
meanwhile and ends well.
-/
namespace DistLLM.Reconfig

open Library

variable {κ ρ : Type} [LinearOrder κ]

/-- The orchestrator has the nodes and the layers of the version, and new requests get it. -/
structure RestoredTo [DecidableEq ρ] (s : PipelineReconfigurator κ ρ) (v : Int) : Prop where
  topology : ∃ target, s.versions.get? v = some target ∧
    s.orchestrator.listing = target.assignments
  requests : ∀ sel, s.selector = some sel → ∀ r, (sel.assignRequest r).1.topologyVersion = v

/-- The nodes of the version are all registered still, each of them once and in the order of their
layers, and new requests get a version that is not above it. -/
structure CanRestore (s : PipelineReconfigurator κ ρ) (v : Int) : Prop where
  registered : ∀ target, s.versions.get? v = some target →
    ∀ a ∈ target.assignments, (s.orchestrator.nodes.get? a.nodeId).isSome = true
  distinct : ∀ target, s.versions.get? v = some target → target.nodeIds.Nodup
  ordered : ∀ target, s.versions.get? v = some target →
    target.assignments.Pairwise fun a b => a.startLayer ≤ b.startLayer
  current : ∀ sel, s.selector = some sel →
    sel.currentVersion = v ∨ sel.currentVersion ≤ v ∧ (sel.versions.get? v).isSome = true

/-! ### The orchestrator -/

instance : Std.Total (byStart (κ := κ)) := ⟨fun e e' => le_total e.2.startLayer e'.2.startLayer⟩

instance : IsTrans _ (byStart (κ := κ)) := ⟨fun _ _ _ => le_trans⟩

namespace PipelineOrchestrator

variable {o : PipelineOrchestrator κ}

def Consistent (o : PipelineOrchestrator κ) : Prop := ∀ nid, nid ∈ o.nodeOrder ↔ nid ∈ o.nodes.keys

/-- The order is what registering makes of the nodes. -/
def Sorted (o : PipelineOrchestrator κ) : Prop :=
  o.nodeOrder = (o.nodes.entries.insertionSort byStart).map Prod.fst

omit [LinearOrder κ] in
theorem Sorted.consistent (sorted : o.Sorted) : o.Consistent := by
  intro nid
  rw [sorted]
  exact ((List.perm_insertionSort _ _).map Prod.fst).mem_iff

theorem registerNodes_sorted (sorted : o.Sorted) (nodes : List (PipelineNode κ)) :
    (nodes.foldl registerNode o).Sorted := by
  induction nodes generalizing o with
  | nil => exact sorted
  | cons node rest ih => exact ih (o := o.registerNode node) rfl

theorem Consistent.unregisterNode (consistent : o.Consistent) (nodeId : κ) :
    (o.unregisterNode nodeId).Consistent := by
  intro nid
  have here := consistent nid
  simp only [Dict.mem_keys_iff] at here ⊢
  simp only [PipelineOrchestrator.unregisterNode, List.mem_filter, Dict.get?_filterKeys,
    decide_eq_true_eq, here]
  by_cases same : nid = nodeId <;> simp [same]

theorem Consistent.registered_iff (consistent : o.Consistent) (nid : κ) :
    (o.connectionSnapshot nid).isSome = true ↔ (o.nodes.get? nid).isSome = true := by
  have here := consistent nid
  rw [Dict.mem_keys_iff, ← Option.isSome_iff_exists] at here
  simp only [connectionSnapshot, here]
  split
  · rfl
  next absent => simp [absent]

theorem foldl_unregisterNode (ids : List κ) (o : PipelineOrchestrator κ) :
    (∀ nid, (ids.foldl PipelineOrchestrator.unregisterNode o).nodes.get? nid =
        if nid ∈ ids then none else o.nodes.get? nid) ∧
      (ids.foldl PipelineOrchestrator.unregisterNode o).nodeOrder =
        o.nodeOrder.filter fun n => decide (n ∉ ids) := by
  induction ids generalizing o with
  | nil => simp
  | cons first rest ih =>
    obtain ⟨nodes, order⟩ := ih (o.unregisterNode first)
    constructor
    · intro nid
      rw [List.foldl_cons, nodes nid]
      by_cases later : nid ∈ rest <;> by_cases here : nid = first <;>
        simp [PipelineOrchestrator.unregisterNode, Dict.get?_filterKeys, later, here]
    · rw [List.foldl_cons, order, PipelineOrchestrator.unregisterNode, List.filter_filter]
      apply List.filter_congr
      intro nid _
      simp only [List.mem_cons, not_or, Bool.decide_and]
      exact Bool.and_comm _ _

theorem Consistent.cleared (consistent : o.Consistent) :
    o.nodeOrder.foldl PipelineOrchestrator.unregisterNode o = {} := by
  obtain ⟨nodes, order⟩ := foldl_unregisterNode o.nodeOrder o
  have none_left : (o.nodeOrder.foldl PipelineOrchestrator.unregisterNode o).nodes = ∅ := by
    apply Dict.eq_empty_of_size
    rw [Dict.size, List.length_eq_zero_iff, List.eq_nil_iff_forall_not_mem]
    rintro ⟨nid, node⟩ member
    have found := (nodes nid).symm.trans ((Dict.mem_entries_iff _ _ _).mp member)
    split at found
    · cases found
    next absent =>
      rw [consistent nid, Dict.mem_keys_iff] at absent
      exact absent ⟨node, found⟩
  generalize o.nodeOrder.foldl PipelineOrchestrator.unregisterNode o = left at *
  obtain ⟨_, _⟩ := left
  simp_all

def assignmentOf (e : κ × PipelineNode κ) : NodeAssignment κ :=
  ⟨e.1, e.2.startLayer, e.2.endLayer⟩

theorem Sorted.listing (sorted : o.Sorted) :
    o.listing = (o.nodes.entries.insertionSort byStart).map assignmentOf := by
  rw [PipelineOrchestrator.listing, sorted, List.filterMap_map, ← List.filterMap_eq_map']
  apply List.filterMap_congr
  rintro ⟨nid, node⟩ member
  have found := (Dict.mem_entries_iff _ nid node).mp (List.mem_insertionSort _ |>.mp member)
  simp [found, assignmentOf]

theorem registerNodes_entries (nodes : List (PipelineNode κ))
    (distinct : (nodes.map PipelineNode.nodeId).Nodup)
    (new : ∀ node ∈ nodes, o.nodes.get? node.nodeId = none) :
    (nodes.foldl registerNode o).nodes.entries =
      o.nodes.entries ++ nodes.map fun node => (node.nodeId, node) := by
  induction nodes generalizing o with
  | nil => simp
  | cons node rest ih =>
    simp only [List.map_cons, List.nodup_cons] at distinct
    rw [List.foldl_cons, ih distinct.2]
    · simp [registerNode, Dict.entries_set_of_absent _ _ _ (new node List.mem_cons_self)]
    · intro other member
      have apart : node.nodeId ≠ other.nodeId := fun same =>
        distinct.1 (same ▸ List.mem_map_of_mem (f := PipelineNode.nodeId) member)
      simpa [registerNode, Dict.get?_set, apart] using new other (List.mem_cons_of_mem _ member)

theorem mem_registerNodes (nodes : List (PipelineNode κ)) {nid : κ}
    (member : nid ∈ (nodes.foldl registerNode o).nodes.keys) :
    nid ∈ o.nodes.keys ∨ nid ∈ nodes.map PipelineNode.nodeId := by
  induction nodes generalizing o with
  | nil => exact .inl member
  | cons node rest ih =>
    rcases ih (o := o.registerNode node) member with before | later
    · obtain ⟨_, found⟩ := (Dict.mem_keys_iff _).mp before
      rw [registerNode, Dict.get?_set] at found
      split at found
      next same => exact .inr (by simp [same])
      next => exact .inl ((Dict.mem_keys_iff _).mpr ⟨_, found⟩)
    · exact .inr (List.mem_cons_of_mem _ later)

variable (consistent : o.Consistent) (target : List (NodeAssignment κ))

include consistent target

theorem Consistent.rebuilt_eq :
    o.rebuilt target = (target.filterMap o.reconnected).foldl registerNode {} := by
  rw [rebuilt, consistent.cleared, List.foldl_filterMap]
  congr 1
  funext o' a
  cases o.reconnected a <;> rfl

theorem Consistent.rebuilt_sorted : (o.rebuilt target).Sorted := by
  rw [consistent.rebuilt_eq]
  exact registerNodes_sorted (o := {}) rfl _

theorem Consistent.rebuilt_listing_iff : (o.rebuilt target).listing = target ↔
      (∀ a ∈ target, (o.nodes.get? a.nodeId).isSome = true) ∧
        (target.map NodeAssignment.nodeId).Nodup ∧
        target.Pairwise fun a b => a.startLayer ≤ b.startLayer := by
  rw [(consistent.rebuilt_sorted target).listing]
  constructor
  · intro restored
    have permuted : ((o.rebuilt target).nodes.keys).Perm (target.map NodeAssignment.nodeId) := by
      conv_rhs => rw [← restored, List.map_map]
      exact ((List.perm_insertionSort byStart _).map Prod.fst).symm
    refine ⟨fun a member => ?_, ?_, ?_⟩
    · -- a listed node was registered for some assignment of its id
      have listed := permuted.mem_iff.mpr (List.mem_map_of_mem (f := NodeAssignment.nodeId) member)
      rw [consistent.rebuilt_eq] at listed
      rcases mem_registerNodes _ listed with nothing | registered
      · simp [Dict.keys] at nothing
      · obtain ⟨node, inside, id⟩ := List.mem_map.mp registered
        obtain ⟨b, _, known⟩ := List.mem_filterMap.mp inside
        obtain ⟨old, present, rfl⟩ := Option.map_eq_some_iff.mp known
        rw [← consistent.registered_iff, ← id]
        exact Option.isSome_iff_exists.mpr ⟨old, present⟩
    · exact permuted.nodup_iff.mp (o.rebuilt target).nodes.distinct
    · rw [← restored]
      exact List.pairwise_map.mpr (List.pairwise_insertionSort byStart _)
  · rintro ⟨registered, distinct, ordered⟩
    have nodes : (target.filterMap o.reconnected).map
        (fun node => assignmentOf (node.nodeId, node)) = target := by
      rw [List.map_filterMap]
      apply (List.filterMap_congr ?_).trans List.filterMap_some
      intro a member
      obtain ⟨old, present⟩ := Option.isSome_iff_exists.mp
        ((consistent.registered_iff a.nodeId).mpr (registered a member))
      simp [reconnected, present, assignmentOf]
    have ids : (target.filterMap o.reconnected).map PipelineNode.nodeId =
        target.map NodeAssignment.nodeId := by
      conv_rhs => rw [← nodes, List.map_map]
      rfl
    have entries := registerNodes_entries (o := {}) (target.filterMap o.reconnected)
      (ids ▸ distinct) fun _ _ => rfl
    rw [← consistent.rebuilt_eq] at entries
    have listed : (o.rebuilt target).nodes.entries.map assignmentOf = target := by
      rw [entries]
      simpa [Function.comp_def] using nodes
    rw [← listed] at ordered
    have sortedEntries : (o.rebuilt target).nodes.entries.Pairwise byStart :=
      (@List.pairwise_map _ _ assignmentOf _ _).mp ordered
    rw [sortedEntries.insertionSort_eq, listed]

end PipelineOrchestrator

variable {v : Int}

section

variable {s : PipelineReconfigurator κ ρ}

omit [LinearOrder κ] in
theorem activated_current (sel : RequestPipelineSelector κ ρ) (v : Int) :
    (sel.activateVersion v).2.currentVersion = v ↔
      sel.currentVersion = v ∨ sel.currentVersion ≤ v ∧ (sel.versions.get? v).isSome = true := by
  unfold RequestPipelineSelector.activateVersion
  cases known : sel.versions.get? v with
  | none => simp
  | some topo =>
    simp only [gt_iff_lt, Option.isSome_some, and_true]
    split
    · exact iff_of_true rfl (by omega)
    · constructor
      · exact fun same => .inl same
      · omega

variable [DecidableEq ρ]

omit [DecidableEq ρ] in
theorem rollback_spec (returned : (s.rollback v).1 = true) :
    ∃ target, s.versions.get? v = some target ∧
      (s.rollback v).2 = { s.activate v with
        orchestrator := s.orchestrator.rebuilt target.assignments
        state := .completed } := by
  unfold PipelineReconfigurator.rollback at *
  cases known : s.versions.get? v with
  | none => simp [known] at returned
  | some target => exact ⟨target, rfl, rfl⟩

theorem rollback_iff [Nonempty ρ] (consistent : s.orchestrator.Consistent)
    (returned : (s.rollback v).1 = true) : RestoredTo (s.rollback v).2 v ↔ CanRestore s v := by
  obtain ⟨target, known, after⟩ := rollback_spec returned
  rw [after]
  have topology := consistent.rebuilt_listing_iff target.assignments
  constructor
  · rintro ⟨⟨target', known', listing⟩, requests⟩
    obtain rfl : target = target' := by
      rw [PipelineReconfigurator.activate, known] at known'
      exact Option.some.inj known'
    obtain ⟨registered, distinct, ordered⟩ := topology.mp listing
    refine ⟨?_, ?_, ?_, fun sel present => ?_⟩
    · rintro _ found
      cases known.symm.trans found
      exact registered
    · rintro _ found
      cases known.symm.trans found
      exact distinct
    · rintro _ found
      cases known.symm.trans found
      exact ordered
    · have version := requests (sel.activateVersion v).2 (by
        simp [PipelineReconfigurator.activate, present]) (Classical.arbitrary ρ)
      exact (activated_current sel v).mp version
  · rintro ⟨registered, distinct, ordered, current⟩
    refine ⟨⟨target, known, topology.mpr ⟨registered target known, distinct target known,
      ordered target known⟩⟩, fun sel present r => ?_⟩
    obtain ⟨old, before, rfl⟩ := Option.map_eq_some_iff.mp present
    exact (activated_current old v).mpr (current old before)

end

/-! ### Runs -/

variable [ToString κ] [DecidableEq ρ]

def RollsBackWhole (run : ReconfigRun κ ρ) : ReconfigAction κ ρ → Prop
  | .rollback v => (run.manager.rollback v).1 = true → CanRestore run.manager v
  | _ => True

variable {s : PipelineReconfigurator κ ρ}

omit [ToString κ] in
theorem RestoredTo.keep {s' : PipelineReconfigurator κ ρ} (restored : RestoredTo s v)
    (versions : ∀ topo, s.versions.get? v = some topo → s'.versions.get? v = some topo)
    (orchestrator : s'.orchestrator = s.orchestrator)
    (selector : ∀ sel', s'.selector = some sel' → ∃ sel, s.selector = some sel ∧
      sel'.currentVersion = sel.currentVersion) : RestoredTo s' v := by
  obtain ⟨⟨target, known, listing⟩, requests⟩ := restored
  refine ⟨⟨target, versions target known, orchestrator ▸ listing⟩, fun sel' present r => ?_⟩
  obtain ⟨sel, before, same⟩ := selector sel' present
  exact same.trans (requests sel before r)

omit [ToString κ] in
theorem RestoredTo.withVersions (restored : RestoredTo s v) (topo : TopologyVersion κ) :
    RestoredTo (s.withVersions (s.versions.set (Versions.current s.versions + 1) topo)) v := by
  refine restored.keep (fun target known => ?_) rfl fun sel' present => ?_
  · -- the key of a new version is not in use
    have other : Versions.current s.versions + 1 ≠ v := by
      rintro rfl
      cases current_fresh.symm.trans known
    simpa [PipelineReconfigurator.withVersions, Dict.get?_set, other] using known
  · simp only [PipelineReconfigurator.withVersions] at present
    split at present
    · obtain ⟨sel, before, rfl⟩ := Option.map_eq_some_iff.mp present
      exact ⟨sel, before, rfl⟩
    · exact ⟨sel', present, rfl⟩

omit [LinearOrder κ] [ToString κ] in
theorem exec_currentVersion (sel : RequestPipelineSelector κ ρ) (act : SelectorAction κ ρ)
    (quiet : act.activates = false) : (sel.exec act).currentVersion = sel.currentVersion := by
  cases act with
  | assign | complete | store | drop => rfl
  | activate => cases quiet
  | deactivate v =>
    simp only [RequestPipelineSelector.exec, RequestPipelineSelector.deactivateVersion]
    split
    · rfl
    · split <;> rfl
  | migrate r v =>
    rcases migrateRequest_cases sel r v with ⟨-, same⟩ | ⟨topo, old, -, -, moved⟩
    · simp [RequestPipelineSelector.exec, same]
    · simp [RequestPipelineSelector.exec, moved]
  | migrationRound m => exact (round_spec _ m sel).2.2.1

omit [ToString κ] in
theorem applyTopologyChange_consistent {o : PipelineOrchestrator κ} (consistent : o.Consistent)
    (plan : ReconfigurationPlan κ) : (o.applyTopologyChange plan).Consistent := by
  unfold PipelineOrchestrator.applyTopologyChange
  split
  · split
    · exact PipelineOrchestrator.Sorted.consistent rfl
    · exact consistent
  · exact consistent.unregisterNode _
  · exact consistent

/-- The orchestrator is consistent, and still as the last rollback left it. -/
structure Rolled (run : ReconfigRun κ ρ) : Prop where
  consistent : run.manager.orchestrator.Consistent
  restored : ∀ v, run.rolledBack = some v → RestoredTo run.manager v

theorem consistent_exec {run : ReconfigRun κ ρ}
    (consistent : run.manager.orchestrator.Consistent) (act : ReconfigAction κ ρ) :
    (run.exec act).manager.orchestrator.Consistent := by
  cases act with
  | addNode | removeNode | selector => exact consistent
  | applyReconfiguration plan =>
    simp only [ReconfigRun.exec, PipelineReconfigurator.applyReconfiguration]
    split
    · exact consistent
    · split <;> exact applyTopologyChange_consistent consistent plan
  | rollback v =>
    simp only [ReconfigRun.exec, PipelineReconfigurator.rollback]
    split
    · exact consistent
    · exact (consistent.rebuilt_sorted _).consistent

theorem Rolled.exec [Nonempty ρ] {run : ReconfigRun κ ρ} (rolled : Rolled run)
    {act : ReconfigAction κ ρ} (whole : RollsBackWhole run act) : Rolled (run.exec act) := by
  refine ⟨consistent_exec rolled.consistent act, fun v last => ?_⟩
  cases act with
  | addNode nodeId startLayer endLayer topologyId =>
    exact (rolled.restored v last).withVersions _
  | removeNode nodeId => exact (rolled.restored v last).withVersions _
  | applyReconfiguration plan => cases last
  | rollback target =>
    simp only [ReconfigRun.exec] at last ⊢
    by_cases returned : (run.manager.rollback target).1 = true
    · rw [if_pos returned] at last
      cases last
      exact (rollback_iff rolled.consistent returned).mpr (whole returned)
    · have unchanged : (run.manager.rollback target).2 = run.manager := by
        unfold PipelineReconfigurator.rollback at *
        split at returned
        next => rfl
        next => simp at returned
      rw [if_neg returned] at last
      rw [unchanged]
      exact rolled.restored v last
  | selector act =>
    simp only [ReconfigRun.exec] at last ⊢
    cases quiet : act.activates with
    | true => simp [quiet] at last
    | false =>
      simp only [quiet, Bool.false_eq_true, if_false] at last
      refine (rolled.restored v last).keep (fun _ known => known) rfl fun sel' present => ?_
      obtain ⟨sel, before, rfl⟩ := Option.map_eq_some_iff.mp present
      exact ⟨sel, before, exec_currentVersion sel act quiet⟩

/-- **Rollback.** In every run whose rollbacks find the nodes of their version registered, and the
selector not above it, the orchestrator and the requests stay with the version of the last
rollback until the pipeline is reconfigured again. The condition is exact: from there a rollback
that returns true restores its version if and only if it is met. -/
theorem rollback_restores [Nonempty ρ] {run : ReconfigRun κ ρ}
    (reached : (reconfiguring κ ρ).Reaches RollsBackWhole run) :
    (∀ v, run.rolledBack = some v → RestoredTo run.manager v) ∧
      ∀ v, (run.manager.rollback v).1 = true →
        (RestoredTo (run.manager.rollback v).2 v ↔ CanRestore run.manager v) := by
  have rolled : Rolled run := by
    apply Machine.Reaches.invariant _ _ reached
    · rintro run ⟨none, nodes, registered⟩
      refine ⟨?_, by simp [none]⟩
      rw [registered]
      exact (PipelineOrchestrator.registerNodes_sorted (o := {}) rfl nodes).consistent
    · intro run act rolled _ whole
      exact rolled.exec whole
  exact ⟨rolled.restored, fun v => rollback_iff rolled.consistent⟩

def twoStages : PipelineReconfigurator String String where
  versions := twoNodes
  orchestrator := [⟨"a", "10.0.0.1", 50051, 0, 3, 0⟩, ⟨"b", "10.0.0.2", 50051, 4, 7, 0⟩].foldl
    PipelineOrchestrator.registerNode {}
  selector := some (.create twoNodes 1)
  shared := true

theorem twoStages_init : (reconfiguring String String).init { manager := twoStages } :=
  ⟨rfl, _, rfl⟩

theorem apartStages_init :
    (reconfiguring String String).init { manager := { twoStages with shared := false } } :=
  ⟨rfl, _, rfl⟩

/-- A third node is added and taken back. The selector, which has a version map of its own, was not
told about it. -/
theorem rollback_restores_twoStages :
    RestoredTo ([ReconfigAction.addNode "c" 8 11 (some "v2"),
      .applyReconfiguration (twoStages.addNode "c" 8 11 (some "v2")).1, .rollback 1].foldl
      (reconfiguring String String).exec
        { manager := { twoStages with shared := false } }).manager 1 := by
  refine (rollback_restores (.of_follows (.init apartStages_init) _ ?_)).1 1 (by decide)
  refine ⟨?_, trivial, ?_, trivial, ?_, fun _ => ⟨?_, ?_, ?_, ?_⟩, trivial⟩
  · intro act same
    cases same
  · intro act same
    cases same
  · intro act same
    cases same
  · rintro target ⟨⟩
    decide
  · rintro target ⟨⟩
    decide
  · rintro target ⟨⟩
    decide
  · rintro sel ⟨⟩
    exact .inl rfl

/-- Once the third node is applied, new requests stay on its version after a rollback. -/
theorem rolled_back_requests_stay : ¬ ∀ run, (reconfiguring String String).Reachable run →
      ∀ v, run.rolledBack = some v → RestoredTo run.manager v := by
  intro all
  have reached : (reconfiguring String String).Reachable _ :=
    .of_follows (.init twoStages_init)
      [.addNode "c" 8 11 (some "v2"),
        .applyReconfiguration (twoStages.addNode "c" 8 11 (some "v2")).1, .rollback 1]
      ⟨nofun, trivial, nofun, trivial, nofun, trivial, trivial⟩
  have version := (all _ reached 1 (by decide)).requests _ rfl "r"
  revert version
  decide

/-! ### Failed reconfigurations -/

/-- What goes wrong on the way: priming the checkpointer raises, or a call of the orchestrator
raises and leaves it in some state. -/
structure Faults (κ : Type) where
  checkpoint : Bool := false
  change : Option (PipelineOrchestrator κ) := none

namespace PipelineReconfigurator

/-- What `apply_reconfiguration` does once the node is drained, with its error paths. Without a
selector nothing is checkpointed. -/
def finishReconfiguration (s : PipelineReconfigurator κ ρ) (faults : Faults κ)
    (plan : ReconfigurationPlan κ) : Bool × PipelineReconfigurator κ ρ :=
  if faults.checkpoint = true ∧ s.selector.isSome = true then (false, { s with state := .failed })
  else
    match faults.change with
    | some left => (false, { s with orchestrator := left }.rollbackInternal plan)
    | none =>
      let applied := { s with orchestrator := s.orchestrator.applyTopologyChange plan }
      if applied.orchestrator.verifyTopology plan then
        (true, { applied.activate plan.newVersion with state := .completed })
      else (false, applied.rollbackInternal plan)

def finishRollback (s : PipelineReconfigurator κ ρ) (faults : Faults κ) (targetVersion : Int)
    (target : TopologyVersion κ) : Bool × PipelineReconfigurator κ ρ :=
  match faults.change with
  | some left => (false, { s with orchestrator := left, state := .failed })
  | none => (true, { s.activate targetVersion with
      orchestrator := s.orchestrator.rebuilt target.assignments
      state := .completed })

end PipelineReconfigurator

/-- A call that waits until nodes are drained. Others come in between. -/
inductive Waiting (κ : Type)
  | reconfiguration (plan : ReconfigurationPlan κ)
  | rollback (targetVersion : Int) (target : TopologyVersion κ)

def Waiting.finish (s : PipelineReconfigurator κ ρ) (faults : Faults κ) :
    Waiting κ → Bool × PipelineReconfigurator κ ρ
  | reconfiguration plan => s.finishReconfiguration faults plan
  | rollback targetVersion target => s.finishRollback faults targetVersion target

/-- The manager and the calls in progress. -/
structure Reconfigs (κ ρ : Type) where
  manager : PipelineReconfigurator κ ρ
  waiting : List (Waiting κ) := []

/-- A call, of which a reconfiguration or a rollback begins to wait here, or the rest of a waiting
one. -/
inductive Step (κ ρ : Type)
  | call (act : ReconfigAction κ ρ)
  | finish (i : Nat) (faults : Faults κ)

namespace Reconfigs

def exec (s : Reconfigs κ ρ) : Step κ ρ → Reconfigs κ ρ
  | .call (.applyReconfiguration plan) =>
    if s.manager.state ≠ .idle ∧ s.manager.state ≠ .completed then s
    else { manager := { s.manager with state := .draining }
           waiting := s.waiting ++ [.reconfiguration plan] }
  | .call (.rollback v) =>
    match s.manager.versions.get? v with
    | none => s
    | some target => { manager := { s.manager with state := .rollingBack }
                       waiting := s.waiting ++ [.rollback v target] }
  | .call act => { s with manager := (ReconfigRun.exec { manager := s.manager } act).manager }
  | .finish i faults =>
    match s.waiting[i]? with
    | none => s
    | some w => { manager := (w.finish s.manager faults).2, waiting := s.waiting.eraseIdx i }

omit [ToString κ] [DecidableEq ρ] in
/-- What `apply_reconfiguration` returns in a step, if a call of it ends there. -/
def returned (s : Reconfigs κ ρ) : Step κ ρ → Option Bool
  | .call (.applyReconfiguration _) =>
    if s.manager.state ≠ .idle ∧ s.manager.state ≠ .completed then some false else none
  | .call _ => none
  | .finish i faults =>
    match s.waiting[i]? with
    | some (.reconfiguration plan) => some (s.manager.finishReconfiguration faults plan).1
    | _ => none

end Reconfigs

/-- A new manager with any versions, nodes and selector. -/
def concurrentReconfiguring (κ ρ : Type) [LinearOrder κ] [ToString κ] [DecidableEq ρ] :
    Machine (Reconfigs κ ρ) (Step κ ρ) where
  init s := s.manager.state = .idle ∧ s.waiting = []
  enabled _ _ := True
  exec := Reconfigs.exec

section

variable {s : Reconfigs κ ρ}

/-- With nothing in between, a reconfiguration is the one in a single step. -/
theorem exec_finish_applyReconfiguration (plan : ReconfigurationPlan κ)
    (ready : s.manager.state = .idle ∨ s.manager.state = .completed) :
    (s.exec (.call (.applyReconfiguration plan))).exec (.finish s.waiting.length {}) =
      { s with manager := (s.manager.applyReconfiguration plan).2 } := by
  have accepted : ¬(s.manager.state ≠ .idle ∧ s.manager.state ≠ .completed) := by tauto
  simp only [Reconfigs.exec, if_neg accepted, List.getElem?_append_right (Nat.le_refl _),
    Nat.sub_self, List.getElem?_cons_zero, List.eraseIdx_append_of_length_le (Nat.le_refl _),
    List.eraseIdx_cons_zero, List.append_nil, Waiting.finish,
    PipelineReconfigurator.finishReconfiguration, PipelineReconfigurator.applyReconfiguration]
  simp only [Bool.false_eq_true, false_and, if_false]
  split <;> rfl

theorem exec_finish_rollback {v : Int} {target : TopologyVersion κ}
    (known : s.manager.versions.get? v = some target) :
    (s.exec (.call (.rollback v))).exec (.finish s.waiting.length {}) =
      { s with manager := (s.manager.rollback v).2 } := by
  simp only [Reconfigs.exec, known, List.getElem?_append_right (Nat.le_refl _), Nat.sub_self,
    List.getElem?_cons_zero, List.eraseIdx_append_of_length_le (Nat.le_refl _),
    List.eraseIdx_cons_zero, List.append_nil, Waiting.finish, PipelineReconfigurator.finishRollback,
    PipelineReconfigurator.rollback]
  rfl

end

/-- No rollback by hand begins, and nothing raises. -/
def Step.Quiet : Step κ ρ → Prop
  | call (.rollback _) => False
  | call _ => True
  | finish _ faults => faults = {}

/-- Some later reconfiguration succeeds, without a rollback by hand before it. -/
def CanApplyAgain (s : Reconfigs κ ρ) : Prop :=
  ∃ (steps : List (Step κ ρ)) (plan : ReconfigurationPlan κ), (∀ step ∈ steps, step.Quiet) ∧
    ((steps.foldl Reconfigs.exec s).manager.applyReconfiguration plan).1 = true

/-- A failed call leaves the nodes, the versions and the routes as they were, and the manager
ready for the next one. -/
structure Undone (s s' : Reconfigs κ ρ) : Prop where
  nodes : s'.manager.orchestrator = s.manager.orchestrator
  current : Versions.current s'.manager.versions = Versions.current s.manager.versions
  routes : s'.manager.selector.map RequestPipelineSelector.routes =
    s.manager.selector.map RequestPipelineSelector.routes
  next : CanApplyAgain s'

/-- The waiting call ends well if nothing raises: a rollback, or a plan that verifies on the nodes
there are. -/
def EndsWell (o : PipelineOrchestrator κ) : Waiting κ → Prop
  | .reconfiguration plan => (o.applyTopologyChange plan).verifyTopology plan = true
  | .rollback .. => True

/-- The calls that wait on when a step has ended one. -/
def othersWaiting (s : Reconfigs κ ρ) : Step κ ρ → List (Waiting κ)
  | .call _ => s.waiting
  | .finish i _ => s.waiting.eraseIdx i

/-- The call is refused, or the checkpointer raises, or it fails later with the nodes as they were
and with a version that is not the current one. -/
def LeavesTopology (s : Reconfigs κ ρ) : Step κ ρ → Prop
  | .call _ => True
  | .finish i faults => faults.checkpoint = true ∧ s.manager.selector.isSome = true ∨
      (∀ left ∈ faults.change, left = s.manager.orchestrator) ∧
        ∀ plan, s.waiting[i]? = some (.reconfiguration plan) →
          Versions.current (s.manager.versions.filterKeys fun v => decide (v ≠ plan.newVersion)) =
            Versions.current s.manager.versions

section

variable {o : PipelineOrchestrator κ} {plan : ReconfigurationPlan κ}

omit [ToString κ] in
/-- A change that does not verify was none. -/
theorem applyTopologyChange_of_unverified
    (unverified : (o.applyTopologyChange plan).verifyTopology plan = false) :
    o.applyTopologyChange plan = o := by
  unfold PipelineOrchestrator.applyTopologyChange PipelineOrchestrator.verifyTopology at *
  cases action : plan.action with
  | addNode =>
    simp only [action, decide_eq_false_iff_not] at unverified ⊢
    cases found : plan.assignmentsAfter.find? fun a => decide (a.nodeId = plan.targetNodeId) with
    | none => rfl
    | some a =>
      -- the node that was registered has its place in the order
      have target : a.nodeId = plan.targetNodeId := by simpa using List.find?_some found
      refine absurd ?_ unverified
      simp only [found]
      rw [← target]
      refine ((List.perm_insertionSort byStart _).map Prod.fst).mem_iff.mpr ?_
      exact (Dict.mem_keys_iff _).mpr ⟨_, Dict.get?_set_self ..⟩
  | removeNode => simp [action, PipelineOrchestrator.unregisterNode] at unverified
  | changeLayers => rfl

end

/-- A manager that takes no call, and of the calls that wait none ends well. -/
structure Stuck (s : Reconfigs κ ρ) : Prop where
  busy : s.manager.state ≠ .idle ∧ s.manager.state ≠ .completed
  none_ends : ∀ w ∈ s.waiting, ¬ EndsWell s.manager.orchestrator w

section

variable {s : Reconfigs κ ρ}

/-- Nothing but a rollback by hand gets out of it. -/
theorem Stuck.exec (stuck : Stuck s) {step : Step κ ρ} (quiet : step.Quiet) :
    Stuck (s.exec step) := by
  cases step with
  | call act =>
    cases act with
    | addNode | removeNode | selector => exact ⟨stuck.busy, stuck.none_ends⟩
    | applyReconfiguration plan =>
      rw [Reconfigs.exec, if_pos stuck.busy]
      exact stuck
    | rollback v => cases quiet
  | finish i faults =>
    obtain rfl : faults = {} := quiet
    simp only [Reconfigs.exec]
    cases found : s.waiting[i]? with
    | none => exact stuck
    | some w =>
      have fails := stuck.none_ends w (List.mem_of_getElem? found)
      cases w with
      | rollback => exact absurd trivial fails
      | reconfiguration plan =>
        have unverified : (s.manager.orchestrator.applyTopologyChange plan).verifyTopology plan =
            false := by simpa [EndsWell] using fails
        have same := applyTopologyChange_of_unverified unverified
        rw [same] at unverified
        simp only [Waiting.finish, PipelineReconfigurator.finishReconfiguration,
          Bool.false_eq_true, false_and, if_false, same, unverified]
        refine ⟨⟨nofun, nofun⟩, ?_⟩
        intro other later
        exact stuck.none_ends other (List.mem_of_mem_eraseIdx later)

theorem Stuck.foldl_exec (stuck : Stuck s) {steps : List (Step κ ρ)}
    (quiet : ∀ step ∈ steps, step.Quiet) : Stuck (steps.foldl Reconfigs.exec s) := by
  induction steps generalizing s with
  | nil => exact stuck
  | cons step rest ih =>
    refine ih (stuck.exec (quiet step List.mem_cons_self)) ?_
    intro step later
    exact quiet step (List.mem_cons_of_mem _ later)

theorem Stuck.not_canApplyAgain (stuck : Stuck s) : ¬ CanApplyAgain s := by
  rintro ⟨steps, plan, quiet, succeeds⟩
  rw [PipelineReconfigurator.applyReconfiguration, if_pos (stuck.foldl_exec quiet).busy] at succeeds
  cases succeeds

/-- A manager that takes no call takes one again exactly if a waiting call ends well. -/
theorem canApplyAgain_iff (plan : ReconfigurationPlan κ)
    (busy : s.manager.state ≠ .idle ∧ s.manager.state ≠ .completed) :
    CanApplyAgain s ↔ ∃ w ∈ s.waiting, EndsWell s.manager.orchestrator w := by
  constructor
  · intro again
    by_contra none_ends
    push Not at none_ends
    exact Stuck.not_canApplyAgain ⟨busy, none_ends⟩ again
  · rintro ⟨w, member, ends⟩
    obtain ⟨i, found⟩ := List.getElem?_of_mem member
    have completed : (s.exec (.finish i {})).manager.state = .completed := by
      simp only [Reconfigs.exec, found]
      cases w with
      | reconfiguration waited =>
        simp only [Waiting.finish, PipelineReconfigurator.finishReconfiguration,
          Bool.false_eq_true, false_and, if_false]
        have verified : (s.manager.orchestrator.applyTopologyChange waited).verifyTopology waited =
          true := ends
        rw [if_pos verified]
      | rollback => rfl
    -- a plan that asks for no node verifies
    refine ⟨[.finish i {}],
      { plan with action := .changeLayers, assignmentsAfter := [] }, ?_, ?_⟩
    · intro step member
      rw [List.mem_singleton.mp member]
      rfl
    · simp [PipelineReconfigurator.applyReconfiguration, completed,
        PipelineOrchestrator.verifyTopology]

omit [LinearOrder κ] [ToString κ] [DecidableEq ρ] in
theorem routes_withVersions (m : PipelineReconfigurator κ ρ) (versions : Versions κ) :
    (m.withVersions versions).selector.map RequestPipelineSelector.routes =
      m.selector.map RequestPipelineSelector.routes := by
  unfold PipelineReconfigurator.withVersions
  cases m.shared <;> cases m.selector <;> rfl

omit [ToString κ] [DecidableEq ρ] in
/-- A waiting call that fails leaves the manager `failed`, with the routes as they were. -/
theorem finishReconfiguration_failed {m : PipelineReconfigurator κ ρ} {faults : Faults κ}
    {plan : ReconfigurationPlan κ} (fails : (m.finishReconfiguration faults plan).1 = false) :
    (m.finishReconfiguration faults plan).2.state = .failed ∧
      (m.finishReconfiguration faults plan).2.selector.map RequestPipelineSelector.routes =
        m.selector.map RequestPipelineSelector.routes ∧
      ((m.finishReconfiguration faults plan).2.orchestrator = m.orchestrator ∧
          Versions.current (m.finishReconfiguration faults plan).2.versions =
            Versions.current m.versions ↔
        faults.checkpoint = true ∧ m.selector.isSome = true ∨
          (∀ left ∈ faults.change, left = m.orchestrator) ∧
            Versions.current (m.versions.filterKeys fun v => decide (v ≠ plan.newVersion)) =
              Versions.current m.versions) := by
  unfold PipelineReconfigurator.finishReconfiguration at *
  by_cases unprimed : faults.checkpoint = true ∧ m.selector.isSome = true
  · simp [unprimed]
  rw [if_neg unprimed] at fails ⊢
  rw [or_iff_right unprimed]
  cases change : faults.change with
  | some left =>
    refine ⟨rfl, routes_withVersions .., ?_⟩
    simp [PipelineReconfigurator.rollbackInternal, PipelineReconfigurator.withVersions]
  | none =>
    simp only [change] at fails
    split at fails
    next => cases fails
    next unverified =>
      have same := applyTopologyChange_of_unverified (Bool.not_eq_true _ ▸ unverified)
      rw [same] at unverified
      simp only [same, unverified]
      refine ⟨rfl, routes_withVersions .., ?_⟩
      simp [PipelineReconfigurator.rollbackInternal, PipelineReconfigurator.withVersions]

/-- **Failed reconfigurations.** In whatever state and whatever fails, a reconfiguration that
returns false is undone exactly if it changed nothing that is not put back, and another call that
waits meanwhile ends well: nothing else takes the manager out of the state it is left in. -/
theorem failed_undone_iff {step : Step κ ρ} (fails : s.returned step = some false) :
    Undone s (s.exec step) ↔ LeavesTopology s step ∧
      ∃ w ∈ othersWaiting s step, EndsWell s.manager.orchestrator w := by
  cases step with
  | call act =>
    cases act with
    | addNode | removeNode | rollback | selector => cases fails
    | applyReconfiguration plan =>
      by_cases busy : s.manager.state ≠ .idle ∧ s.manager.state ≠ .completed
      · have same : s.exec (.call (.applyReconfiguration plan)) = s := by
          rw [Reconfigs.exec, if_pos busy]
        rw [same, othersWaiting, ← canApplyAgain_iff plan busy]
        constructor
        · intro undone
          exact ⟨trivial, undone.next⟩
        · rintro ⟨-, next⟩
          exact ⟨rfl, rfl, rfl, next⟩
      · rw [Reconfigs.returned, if_neg busy] at fails
        cases fails
  | finish i faults =>
    unfold Reconfigs.returned at fails
    cases found : s.waiting[i]? with
    | none => simp [found] at fails
    | some w =>
      cases w with
      | rollback => simp [found] at fails
      | reconfiguration plan =>
        simp only [found, Option.some.injEq] at fails
        obtain ⟨failed, routes, kept⟩ := finishReconfiguration_failed fails
        have ended : s.exec (.finish i faults) =
            { manager := (s.manager.finishReconfiguration faults plan).2
              waiting := s.waiting.eraseIdx i } := by
          simp only [Reconfigs.exec, found, Waiting.finish]
        have again := canApplyAgain_iff (s := s.exec (.finish i faults)) plan
          (by simp [ended, failed])
        have leaves : LeavesTopology s (.finish i faults) ↔
            (s.manager.finishReconfiguration faults plan).2.orchestrator = s.manager.orchestrator ∧
              Versions.current (s.manager.finishReconfiguration faults plan).2.versions =
                Versions.current s.manager.versions := by
          rw [kept]
          simp [LeavesTopology, found]
        rw [leaves]
        constructor
        · intro undone
          have nodes := undone.nodes
          have current := undone.current
          have next := again.mp undone.next
          simp only [ended] at nodes current next
          exact ⟨⟨nodes, current⟩, nodes ▸ next⟩
        · rintro ⟨⟨nodes, current⟩, next⟩
          refine ⟨?_, ?_, ?_, again.mpr ?_⟩
          · rw [ended]
            exact nodes
          · rw [ended]
            exact current
          · rw [ended]
            exact routes
          · rw [ended, nodes]
            exact next

end

/-- A plan for layers of a node that is not registered. -/
def changeUnregistered : ReconfigurationPlan String where
  newVersion := 2
  newTopologyId := "v2"
  action := .changeLayers
  targetNodeId := "a"
  assignmentsBefore := []
  assignmentsAfter := [⟨"a", 0, 3⟩, ⟨"c", 4, 7⟩]
  requiresFullCheckpoint := true

/-- A call with a plan that verifies waits. -/
def addDraining : Reconfigs String String :=
  { manager := { twoStages with state := .draining }
    waiting := [.reconfiguration (twoStages.addNode "c" 8 11 none).1] }

/-- A call that is refused while a node is being added has done no harm. -/
theorem failed_undone_iff_twoStages :
    Undone addDraining (addDraining.exec (.call (.applyReconfiguration changeUnregistered))) :=
  (failed_undone_iff (by decide)).mpr
    ⟨trivial, .reconfiguration (twoStages.addNode "c" 8 11 none).1, List.mem_cons_self,
      by unfold EndsWell; decide⟩

theorem concurrent_init : (concurrentReconfiguring String String).init { manager := twoStages } :=
  ⟨rfl, rfl⟩

/-- Behind the plan that does not verify a node can no longer be added. -/
theorem failure_not_undone : ¬ ∀ s : Reconfigs String String,
      (concurrentReconfiguring String String).Reachable s → ∀ step,
        s.returned step = some false → Undone s (s.exec step) := by
  intro all
  have reached : (concurrentReconfiguring String String).Reachable _ :=
    .step (.call (.applyReconfiguration changeUnregistered)) (.init concurrent_init) trivial trivial
  have undone := all _ reached (.finish 0 {}) (by decide)
  refine Stuck.not_canApplyAgain ⟨by decide, ?_⟩ undone.next
  intro w member
  cases member

end DistLLM.Reconfig
