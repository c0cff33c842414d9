import DistLLM.Reconfig.Selector

/-!
# The reconfiguration manager

`PipelineReconfigurator` with the orchestrator whose nodes it registers and the selector it tells
about new versions. Draining and checkpointing change none of the three; callbacks, the history of
reconfigurations and the health of nodes are left out.
-/
namespace DistLLM.Reconfig

open Library

variable {κ ρ : Type} [LinearOrder κ]

structure PipelineNode (κ : Type) where
  nodeId : κ
  host : String
  port : Int
  startLayer : Int
  endLayer : Int
  totalLayers : Int := 0
  deriving DecidableEq, Repr

def byStart (e e' : κ × PipelineNode κ) : Prop := e.2.startLayer ≤ e'.2.startLayer

instance : DecidableRel (byStart (κ := κ)) := fun _ _ => inferInstanceAs (Decidable (_ ≤ _))

structure PipelineOrchestrator (κ : Type) where
  nodes : Dict κ (PipelineNode κ) := ∅
  nodeOrder : List κ := []

namespace PipelineOrchestrator

variable (o : PipelineOrchestrator κ)

/-- `register_node`: the order is by first layer, and by registration where these are equal. -/
def registerNode (node : PipelineNode κ) : PipelineOrchestrator κ :=
  let nodes := o.nodes.set node.nodeId node
  { nodes, nodeOrder := (nodes.entries.insertionSort byStart).map Prod.fst }

def unregisterNode (nodeId : κ) : PipelineOrchestrator κ :=
  { nodes := o.nodes.filterKeys fun n => decide (n ≠ nodeId)
    nodeOrder := o.nodeOrder.filter fun n => decide (n ≠ nodeId) }

def listing : List (NodeAssignment κ) :=
  o.nodeOrder.filterMap fun nid =>
    (o.nodes.get? nid).map fun node => ⟨nid, node.startLayer, node.endLayer⟩

/-- `_apply_topology_change`. A node that is added has no address yet. -/
def applyTopologyChange (plan : ReconfigurationPlan κ) : PipelineOrchestrator κ :=
  match plan.action with
  | .addNode =>
    match plan.assignmentsAfter.find? fun a => decide (a.nodeId = plan.targetNodeId) with
    | some a =>
      o.registerNode { nodeId := a.nodeId, host := "", port := 0, startLayer := a.startLayer,
                       endLayer := a.endLayer }
    | none => o
  | .removeNode => o.unregisterNode plan.targetNodeId
  | .changeLayers => o

def verifyTopology (plan : ReconfigurationPlan κ) : Bool :=
  match plan.action with
  | .addNode => decide (plan.targetNodeId ∈ o.nodeOrder)
  | .removeNode => decide (plan.targetNodeId ∉ o.nodeOrder)
  | .changeLayers => plan.assignmentsAfter.all fun a => decide (a.nodeId ∈ o.nodeOrder)

def connectionSnapshot (nodeId : κ) : Option (PipelineNode κ) :=
  if nodeId ∈ o.nodeOrder then o.nodes.get? nodeId else none

/-- The node that a rollback registers for an assignment, with the address it had. -/
def reconnected (a : NodeAssignment κ) : Option (PipelineNode κ) :=
  (o.connectionSnapshot a.nodeId).map fun node =>
    { nodeId := a.nodeId, host := node.host, port := node.port
      startLayer := a.startLayer, endLayer := a.endLayer }

/-- The orchestrator of a rollback: all nodes go, and those of the target come back whose address
is known. -/
def rebuilt (target : List (NodeAssignment κ)) : PipelineOrchestrator κ :=
  target.foldl (fun o' a =>
    match o.reconnected a with
    | some node => o'.registerNode node
    | none => o') (o.nodeOrder.foldl unregisterNode o)

end PipelineOrchestrator

/-! ### The manager -/

inductive ReconfigState
  | idle
  | draining
  | checkpointing
  | applying
  | verifying
  | rollingBack
  | completed
  | failed
  deriving DecidableEq, Repr

/-- `shared`: the selector was given the same version map. -/
structure PipelineReconfigurator (κ ρ : Type) where
  versions : Versions κ
  state : ReconfigState := .idle
  orchestrator : PipelineOrchestrator κ
  selector : Option (RequestPipelineSelector κ ρ)
  shared : Bool

namespace PipelineReconfigurator

variable (s : PipelineReconfigurator κ ρ)

/-- The version map is changed, for the selector too where it is shared. -/
def withVersions (versions : Versions κ) : PipelineReconfigurator κ ρ :=
  { s with
    versions
    selector := if s.shared then s.selector.map fun sel => { sel with versions } else s.selector }

/-- `self._selector.activate_version(version)`. -/
def activate (version : Int) : PipelineReconfigurator κ ρ :=
  { s with selector := s.selector.map fun sel => (sel.activateVersion version).2 }

def addNode [ToString κ] (nodeId : κ) (startLayer endLayer : Int) (topologyId : Option String) :
    ReconfigurationPlan κ × PipelineReconfigurator κ ρ :=
  let r := Versions.addNode s.versions nodeId startLayer endLayer topologyId
  (r.1, s.withVersions r.2)

def removeNode [ToString κ] (nodeId : κ) : ReconfigurationPlan κ × PipelineReconfigurator κ ρ :=
  let r := Versions.removeNode s.versions nodeId
  (r.1, s.withVersions r.2)

/-- `_rollback_internal`: the version goes; the orchestrator stays as it is. -/
def rollbackInternal (plan : ReconfigurationPlan κ) : PipelineReconfigurator κ ρ :=
  { s.withVersions (s.versions.filterKeys fun v => decide (v ≠ plan.newVersion)) with
    state := .failed }

def applyReconfiguration (plan : ReconfigurationPlan κ) : Bool × PipelineReconfigurator κ ρ :=
  if s.state ≠ .idle ∧ s.state ≠ .completed then (false, s)
  else
    let applied := { s with orchestrator := s.orchestrator.applyTopologyChange plan }
    if applied.orchestrator.verifyTopology plan then
      (true, { applied.activate plan.newVersion with state := .completed })
    else (false, applied.rollbackInternal plan)

def rollback (targetVersion : Int) : Bool × PipelineReconfigurator κ ρ :=
  match s.versions.get? targetVersion with
  | none => (false, s)
  | some target =>
    (true, { s.activate targetVersion with
      orchestrator := s.orchestrator.rebuilt target.assignments
      state := .completed })

end PipelineReconfigurator

inductive ReconfigAction (κ ρ : Type)
  | addNode (nodeId : κ) (startLayer endLayer : Int) (topologyId : Option String)
  | removeNode (nodeId : κ)
  | applyReconfiguration (plan : ReconfigurationPlan κ)
  | rollback (targetVersion : Int)
  | selector (act : SelectorAction κ ρ)

def SelectorAction.writesVersions : SelectorAction κ ρ → Bool
  | .store .. | .drop _ => true
  | _ => false

def SelectorAction.activates : SelectorAction κ ρ → Bool
  | .activate _ => true
  | _ => false

/-- The manager, and the version of the last rollback that returned true, while no later call
reconfigures the pipeline or activates a version. -/
structure ReconfigRun (κ ρ : Type) where
  manager : PipelineReconfigurator κ ρ
  rolledBack : Option Int := none

namespace ReconfigRun

variable [ToString κ] [DecidableEq ρ]

def exec (run : ReconfigRun κ ρ) : ReconfigAction κ ρ → ReconfigRun κ ρ
  | .addNode nodeId startLayer endLayer topologyId =>
    { run with manager := (run.manager.addNode nodeId startLayer endLayer topologyId).2 }
  | .removeNode nodeId => { run with manager := (run.manager.removeNode nodeId).2 }
  | .applyReconfiguration plan => { manager := (run.manager.applyReconfiguration plan).2 }
  | .rollback v =>
    let r := run.manager.rollback v
    { manager := r.2, rolledBack := if r.1 then some v else run.rolledBack }
  | .selector act =>
    { manager := { run.manager with selector := run.manager.selector.map fun sel => sel.exec act }
      rolledBack := if act.activates then none else run.rolledBack }

end ReconfigRun

/-- Any versions, any nodes registered one after the other, and any selector or none. -/
def reconfiguring (κ ρ : Type) [LinearOrder κ] [ToString κ] [DecidableEq ρ] :
    Machine (ReconfigRun κ ρ) (ReconfigAction κ ρ) where
  init run := run.rolledBack = none ∧
    ∃ nodes : List (PipelineNode κ),
      run.manager.orchestrator = nodes.foldl PipelineOrchestrator.registerNode {}
  enabled _ act := ∀ act', act = .selector act' → act'.writesVersions = false
  exec := ReconfigRun.exec

end DistLLM.Reconfig
