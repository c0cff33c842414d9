import DistLLM.Recovery.Planning
import Mathlib.Data.Finset.Card

/-!
# The recovery manager

Handling the failure of a node: it is marked as draining and dead, its sequences are recovered from
their checkpoints, and its layers are redistributed. A dry run goes through the same steps without
the callbacks. How long things take is an argument, and so is what the callbacks do.
-/
namespace DistLLM.Recovery

open DistLLM.Library

inductive RecoveryState
  | idle
  | detecting
  | draining
  | redistributing
  | recoveringSequences
  | verifying
  | failed
  deriving DecidableEq

/-- The token state of a sequence in flight. The cached keys and values and the time are left out. -/
structure SequenceCheckpoint where
  requestId : String
  promptTokens : List Nat
  generatedTokens : List Nat
  nodeId : String

structure NodeRecoveryPlan where
  failedNodeId : String
  redistributions : List LayerRedistribution := []
  recoveredSequences : List String := []
  totalSequencesLost : Nat := 0
  recoveryTimeMs : ℚ := 0
  drainTimeMs : ℚ := 0
  weightsTransferred : Bool := false

/-- An entry of the audit history, always about a recovery. -/
structure HistoryEntry where
  timestamp : ℚ
  nodeId : String
  sequencesRecovered : Nat
  sequencesLost : Nat
  redistributions : Nat
  durationMs : ℚ
  weightsTransferred : Bool

structure Metrics where
  recoveries : Nat := 0
  failedNodes : Nat := 0
  sequencesRecovered : Nat := 0
  sequencesLost : Nat := 0
  checkpointCount : Nat := 0
  totalRecoveryTimeMs : ℚ := 0
  pendingWeightReloads : Nat := 0

/-- How a call meets the world: the clock, and whether the drain and the recover callback raise. What
the other callbacks raise is caught without effect. -/
structure Surroundings where
  drainTimeMs : ℚ := 0
  totalTimeMs : ℚ := 0
  now : ℚ := 0
  drainRaises : Bool := false
  recoverRaises : Bool := false

structure NodeRecoveryManager where
  state : RecoveryState := .idle
  draining : Finset String := ∅
  deadNodes : Finset String := ∅
  checkpoints : Dict String SequenceCheckpoint := ∅
  seqToNode : Dict String String := ∅
  recoveredRequests : Finset String := ∅
  pendingWeightReload : Finset String := ∅
  dryRun : Bool := false
  /-- the drain callback is set -/
  onDrain : Bool := false
  /-- the recover callback is set -/
  onRecover : Bool := false
  layerAssignments : Dict String LayerRange := ∅
  metrics : Metrics := {}
  recoveryHistory : List HistoryEntry := []

namespace NodeRecoveryManager

variable (mgr : NodeRecoveryManager)

def setLayerAssignments (assignments : Dict String LayerRange) : NodeRecoveryManager :=
  { mgr with layerAssignments := assignments }

def getCheckpointsForNode (nodeId : String) : List String :=
  (mgr.checkpoints.entries.filter fun entry => entry.2.nodeId = nodeId).map Prod.fst

/-- Step 1: the node is draining and dead, before the drain callback is called. -/
def markFailed (failedNodeId : String) : NodeRecoveryManager :=
  { mgr with
    state := .draining
    draining := insert failedNodeId mgr.draining
    deadNodes := insert failedNodeId mgr.deadNodes }

/-- Steps 2 and 3: the sequences of the node with the number of those lost. -/
def recoverSequences (failedNodeId : String) (around : Surroundings) :
    NodeRecoveryManager × List String × Nat :=
  let recoveredIds := mgr.getCheckpointsForNode failedNodeId
  let mgr := { mgr with state := .recoveringSequences }
  if mgr.onRecover && recoveredIds ≠ [] then
    if !mgr.dryRun && around.recoverRaises then (mgr, [], recoveredIds.length)
    else
      let flagged := { mgr with
        recoveredRequests := mgr.recoveredRequests ∪ recoveredIds.toFinset }
      if mgr.dryRun then (flagged, recoveredIds, 0)
      else
        ({ flagged with
            checkpoints := mgr.checkpoints.filterKeys fun rid => rid ∉ recoveredIds
            seqToNode := mgr.seqToNode.filterKeys fun rid => rid ∉ recoveredIds },
          recoveredIds, 0)
  else (mgr, [], recoveredIds.length)

/-- Survivors whose new layers still need their weights. -/
def flagWeightReloads (redistributions : List LayerRedistribution) : NodeRecoveryManager :=
  let flagged := (redistributions.filter fun rd =>
    rd.requiresWeightLoad && rd.addedStartLayer ≤ rd.addedEndLayer).map (·.survivingNodeId)
  let pending := mgr.pendingWeightReload ∪ flagged.toFinset
  { mgr with
    pendingWeightReload := pending
    metrics := { mgr.metrics with pendingWeightReloads := pending.card } }

def refreshedAssignments (failedNodeId : String) (redistributions : List LayerRedistribution) :
    Dict String LayerRange :=
  redistributions.foldl (fun refreshed rd =>
    refreshed.set rd.survivingNodeId (rd.newStartLayer, rd.newEndLayer))
    (mgr.layerAssignments.filterKeys fun nid => nid ≠ failedNodeId)

/-- Step 5: a plan for the layers of the node, which is carried out unless this is a dry run. -/
def redistributeLayers (failedNodeId : String) :
    Except RecoveryError (NodeRecoveryManager × List LayerRedistribution) :=
  match mgr.layerAssignments.get? failedNodeId with
  | none => .ok (mgr, [])
  | some (start, stop) => do
    let survivors := mgr.layerAssignments.filterKeys fun nid => nid ≠ failedNodeId
    let redistributions ← computeRedistributions start stop survivors
    if redistributions ≠ [] ∧ mgr.dryRun = false then
      return ((mgr.flagWeightReloads redistributions).setLayerAssignments
        (mgr.refreshedAssignments failedNodeId redistributions), redistributions)
    else return (mgr, redistributions)

/-- Steps 6 and 7: metrics and audit history. -/
def record (plan : NodeRecoveryPlan) (around : Surroundings) : NodeRecoveryManager :=
  { mgr with
    state := .idle
    metrics := { mgr.metrics with
      recoveries := mgr.metrics.recoveries + 1
      failedNodes := mgr.metrics.failedNodes + 1
      sequencesRecovered := mgr.metrics.sequencesRecovered + plan.recoveredSequences.length
      sequencesLost := mgr.metrics.sequencesLost + plan.totalSequencesLost
      totalRecoveryTimeMs := mgr.metrics.totalRecoveryTimeMs + around.totalTimeMs }
    recoveryHistory := mgr.recoveryHistory ++ [{
      timestamp := around.now
      nodeId := plan.failedNodeId
      sequencesRecovered := plan.recoveredSequences.length
      sequencesLost := plan.totalSequencesLost
      redistributions := plan.redistributions.length
      durationMs := around.totalTimeMs
      weightsTransferred := plan.weightsTransferred }] }

/-- A call leaves the manager as it is when it returns or raises. -/
def onNodeFailure (failedNodeId : String) (around : Surroundings) :
    NodeRecoveryManager × Except RecoveryError NodeRecoveryPlan :=
  if failedNodeId ∈ mgr.deadNodes ∨ failedNodeId ∈ mgr.draining then
    (mgr, .ok { failedNodeId })
  else
    let marked := mgr.markFailed failedNodeId
    if mgr.onDrain && !mgr.dryRun && around.drainRaises then (marked, .error .drainCallback)
    else
      let (recovered, recoveredSequences, totalSequencesLost) :=
        marked.recoverSequences failedNodeId around
      match recovered.redistributeLayers failedNodeId with
      | .error raised => (recovered, .error raised)
      | .ok (redistributed, redistributions) =>
        let plan : NodeRecoveryPlan :=
          { failedNodeId, redistributions, recoveredSequences, totalSequencesLost
            recoveryTimeMs := around.totalTimeMs
            drainTimeMs := around.drainTimeMs }
        (redistributed.record plan around, .ok plan)

def dryRunRecovery (failedNodeId : String) (around : Surroundings) :
    NodeRecoveryManager × Except RecoveryError NodeRecoveryPlan :=
  let (after, result) := { mgr with dryRun := true }.onNodeFailure failedNodeId around
  ({ after with dryRun := mgr.dryRun }, result)

end NodeRecoveryManager

end DistLLM.Recovery
