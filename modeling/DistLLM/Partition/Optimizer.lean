import DistLLM.Library.Dict
import DistLLM.Partition.CostModel
import Mathlib.Algebra.Order.Field.Basic

/-!
# The partition optimizer

Contiguous ranges of layers for the nodes of a pipeline, with the slowest node as fast as
possible: an exact dynamic programme, and a beam search for large instances.
-/
namespace DistLLM.Partition

open DistLLM.Library

variable (numLayers : Nat) {F : Type}

/-- What the optimizer asks of a cost model, at its batch size and sequence length. -/
structure CostModel (F : Type) where
  evaluate : String → Nat → Nat → NodeCost F
  combinedThroughput : List (String × Nat × Nat) → F
  pipelineLatency : List (String × Nat × Nat) → F

/-- The tuner together with the infos of the nodes: the cost of a range under the method that is
recommended for it, `none` where there is no info for the node or no recommendation. -/
structure QuantTuner (F : Type) where
  evaluateWithQuant : Nat → Nat → Nat → Option (NodeCost F)

structure PartitionPoint (F : Type) where
  nodeId : String
  startLayer : Nat
  endLayer : Nat
  estimatedTimeMs : F
  quantMethod : String := "none"

structure PartitionSolution (F : Type) where
  points : List (PartitionPoint F) := []
  maxNodeTimeMs : F
  totalTimeMs : F
  estimatedThroughputTokS : F
  pipelineLatencyMs : F
  numOomNodes : Nat := 0
  explanation : String := ""

inductive SolveError
  /-- `RecursionError`: no recommendation, and `_evaluate_node` asks for one again -/
  | recursionError
  /-- `AttributeError`: 'list' object has no attribute 'points' -/
  | attributeError
  deriving DecidableEq

structure PartitionOptimizer (F : Type) where
  costModel : CostModel F
  nodeIds : List String
  batchSize : Nat := 1
  seqLen : Nat := 4096
  allowOom : Bool := false
  gpuCounts : Dict String Nat := ∅
  minLayersPerNode : Nat := 1
  quantTuner : Option (QuantTuner F) := none
  /-- Python's `round`, to so many digits. -/
  round : F → Nat → F

/-- One entry of `_dp` and `_split`: a cost, `none` for infinity, and the first layer of the last
node, `none` for -1. -/
structure Cell (F : Type) where
  cost : Option F := none
  split : Option Nat := none

/-- A history of the beam search: its bottleneck and the range of each node. -/
abbrev BeamState (F : Type) := F × List (Nat × Nat)

namespace PartitionSolution

def unsolved [Zero F] (explanation : String) : PartitionSolution F :=
  { maxNodeTimeMs := 0, totalTimeMs := 0, estimatedThroughputTokS := 0, pipelineLatencyMs := 0
    explanation }

def ranges (solution : PartitionSolution F) : List (Nat × Nat) :=
  solution.points.map fun point => (point.startLayer, point.endLayer)

end PartitionSolution

namespace PartitionOptimizer

variable [Field F] [LinearOrder F] (opt : PartitionOptimizer F)

def minLayers : Nat := max 1 opt.minLayersPerNode

/-! ### The cost of a range -/

/-- With several GPUs the computation is shared, and they talk to each other. -/
def nodeTimeMs (nodeId : String) (cost : NodeCost F) : F :=
  let gpuCount := opt.gpuCounts.getD nodeId 1
  if 1 < gpuCount then
    cost.computeTimeMs / gpuCount + cost.communicationTimeMs + cost.communicationTimeMs * (1/10)
  else cost.totalTimeMs

def accept (nodeId : String) (cost : NodeCost F) : Option F :=
  if !opt.allowOom && !cost.fitsInMemory then none else some (opt.nodeTimeMs nodeId cost)

def evaluateNode (nodeIdx startLayer endLayer : Nat) : Except SolveError (Option F) :=
  match opt.nodeIds[nodeIdx]? with
  | none => .ok none
  | some nodeId =>
    match opt.quantTuner with
    | none => .ok (opt.accept nodeId (opt.costModel.evaluate nodeId startLayer endLayer))
    | some tuner =>
      match tuner.evaluateWithQuant nodeIdx startLayer endLayer with
      | none => .error .recursionError
      | some qcost => .ok (opt.accept nodeId qcost)

/-! ### The dynamic programme

Columns are computed one after the other: column `k` is about the first `k + 1` nodes, and its
entry `i` about the first `i` layers. -/

def initialCell (i : Nat) : Except SolveError (Cell F) :=
  if i = 0 then .ok {}
  else do
    match ← opt.evaluateNode 0 0 i with
    | none => return {}
    | some cost => return { cost := some cost, split := some 0 }

def trySplit (previous : List (Cell F)) (k i : Nat) (best : Cell F) (j : Nat) :
    Except SolveError (Cell F) :=
  match (previous.getD j {}).cost with
  | none => .ok best
  | some prevCost => do
    match ← opt.evaluateNode k j i with
    | none => return best
    | some nodeCost =>
      let maxCost := max prevCost nodeCost
      if best.cost.all fun least => maxCost < least then
        return { cost := some maxCost, split := some j }
      else return best

def fillCell (previous : List (Cell F)) (k i : Nat) : Except SolveError (Cell F) :=
  if i = 0 then .ok {}
  else
    let minJ := max 1 (k * opt.minLayers)
    -- j in range(min_j, i - min_l + 1)
    (List.range' minJ (i + 1 - opt.minLayers - minJ)).foldlM (opt.trySplit previous k i) {}

/-- `_initialize_dp` for `k = 0`, else one round of the outer loop of `_run_dp`. -/
def column (numLayers : Nat) : Nat → Except SolveError (List (Cell F))
  | 0 => (List.range (numLayers + 1)).mapM opt.initialCell
  | k + 1 => do
    let previous ← column numLayers k
    (List.range (numLayers + 1)).mapM (opt.fillCell previous (k + 1))

def runDp (numLayers : Nat) : Except SolveError (List (List (Cell F))) :=
  (List.range (min opt.nodeIds.length (numLayers + 1))).mapM (opt.column numLayers)

variable (dp : List (List (Cell F)))

def cell (i k : Nat) : Cell F := (dp.getD k []).getD i {}

/-- One round of the first loop of `_backtrack`. -/
def keepBest (numLayers : Nat) (best : Option F × Nat) (k : Nat) :
    Option F × Nat :=
  match (cell dp numLayers k).cost with
  | none => best
  | some cost => if best.1.all fun least => cost < least then (some cost, k) else best

/-- The number of nodes, less one, of the cheapest entry for all layers; the first of them. -/
def bestColumn (numLayers : Nat) : Nat :=
  ((List.range (min opt.nodeIds.length numLayers)).foldl (keepBest dp numLayers) (none, 0)).2

/-- The loop of `_backtrack`, from the last node back to the first. -/
def follow (dp : List (List (Cell F))) : Nat → Nat → List (Nat × Nat × Nat)
  | k, stop =>
    if stop = 0 then []
    else match (cell dp stop k).split with
      | none => []
      | some start =>
        (k, start, stop) :: match k with
          | 0 => []
          | k + 1 => follow dp k start

def point (nodeId : String) (startLayer endLayer : Nat) : PartitionPoint F :=
  { nodeId, startLayer, endLayer
    estimatedTimeMs := (opt.costModel.evaluate nodeId startLayer endLayer).totalTimeMs }

def backtrack (numLayers : Nat) : List (PartitionPoint F) :=
  (follow dp (opt.bestColumn dp numLayers) numLayers).reverse.map fun (k, start, stop) =>
    opt.point (opt.nodeIds.getD k "") start stop

def enforceBoundaryLayers (numLayers : Nat) (points : List (PartitionPoint F)) :
    List (PartitionPoint F) :=
  let fixedFirst := points.modifyHead fun first => { first with startLayer := 0 }
  let fixedLast := match fixedFirst.getLast? with
    | none => []
    | some last => fixedFirst.dropLast ++ [{ last with endLayer := numLayers }]
  fixedLast.map fun point => opt.point point.nodeId point.startLayer point.endLayer

/-- With a tuner this reads `.points` of what is a list. -/
def attachQuantizationPlan (points : List (PartitionPoint F)) :
    Except SolveError (List (PartitionPoint F)) :=
  if opt.quantTuner.isSome then .error .attributeError else .ok points

def finalize (points : List (PartitionPoint F)) : PartitionSolution F :=
  if points = [] then .unsolved "No valid partition found"
  else
    let costs := points.map fun p => opt.costModel.evaluate p.nodeId p.startLayer p.endLayer
    let oomCount := costs.countP fun cost => !cost.fitsInMemory
    let triples := points.map fun p => (p.nodeId, p.startLayer, p.endLayer)
    { points := points.map fun p => opt.point p.nodeId p.startLayer p.endLayer
      maxNodeTimeMs := opt.round (costs.foldl (fun most cost => max most cost.totalTimeMs) 0) 2
      totalTimeMs := opt.round (costs.map (·.totalTimeMs)).sum 2
      estimatedThroughputTokS := opt.round (opt.costModel.combinedThroughput triples) 0
      pipelineLatencyMs := opt.round (opt.costModel.pipelineLatency triples) 2
      numOomNodes := oomCount
      explanation := "DP minimax optimized, " ++ toString points.length ++ "/"
        ++ toString opt.nodeIds.length ++ " nodes, "
        ++ if opt.allowOom && oomCount != 0 then toString oomCount ++ " OOM-tolerant"
          else if oomCount != 0 then "OOM on " ++ toString oomCount ++ " nodes" else "no OOM" }

/-- Layer `layersUsed - 1` goes to the last node of the history. -/
def extendLast (layersUsed : Nat) : BeamState F → Except SolveError (Option (BeamState F))
  | (cost, history) =>
    match history.getLast? with
    | none => .ok none
    | some last => do
      match ← opt.evaluateNode (history.length - 1) last.1 layersUsed with
      | none => return none
      | some nodeCost =>
        return some (max cost nodeCost, history.dropLast ++ [(last.1, layersUsed)])

/-- Layer `layersUsed - 1` begins the range of another node. -/
def startNew (layersUsed : Nat) : BeamState F → Except SolveError (Option (BeamState F))
  | (cost, history) =>
    if opt.nodeIds.length ≤ history.length then .ok none
    else do
      match ← opt.evaluateNode history.length (layersUsed - 1) layersUsed with
      | none => return none
      | some nodeCost =>
        return some (max cost nodeCost, history ++ [(layersUsed - 1, layersUsed)])

abbrev Beam (F : Type) := Dict (Nat × Nat) (List (BeamState F))

def beamCell (beamWidth : Nat) (states : Beam F) (layersUsed nodesUsed : Nat) :
    Except SolveError (List (BeamState F)) := do
  let extended ← (states.getD (layersUsed - 1, nodesUsed) []).mapM (opt.extendLast layersUsed)
  let started ← (states.getD (layersUsed - 1, nodesUsed - 1) []).mapM (opt.startNew layersUsed)
  let candidates := (extended ++ started).reduceOption
  return (candidates.mergeSort fun a b => a.1 ≤ b.1).take beamWidth

def beamStep (beamWidth layersUsed : Nat) (states : Beam F) (nodesUsed : Nat) :
    Except SolveError (Beam F) := do
  return states.set (layersUsed, nodesUsed)
    (← opt.beamCell beamWidth states layersUsed nodesUsed)

def beamRound (beamWidth : Nat) (states : Beam F) (layersUsed : Nat) :
    Except SolveError (Beam F) :=
  (List.range' 1 (min opt.nodeIds.length (layersUsed / opt.minLayers + 1))).foldlM
    (opt.beamStep beamWidth layersUsed) states

def beamStates (beamWidth numLayers : Nat) : Except SolveError (Beam F) :=
  (List.range' 1 numLayers).foldlM (opt.beamRound beamWidth) ((∅ : Beam F).set (0, 0) [(0, [])])

/-- One round of the loop that looks for the best final state. -/
def keepHistory (best : Option F × List (Nat × Nat)) (state : BeamState F) :
    Option F × List (Nat × Nat) :=
  if best.1.all fun least => state.1 < least then (some state.1, state.2) else best

/-- The cheapest history for all layers; the first of them. -/
def bestHistory (states : Beam F) (numLayers : Nat) : List (Nat × Nat) :=
  (((states.entries.filter fun entry => entry.1.1 = numLayers).flatMap (·.2)).foldl
    keepHistory (none, [])).2

def beamSearchSolve (numLayers beamWidth : Nat) :
    Except SolveError (PartitionSolution F) := do
  let history := bestHistory (← opt.beamStates beamWidth numLayers) numLayers
  if history = [] then return .unsolved "Beam search found no valid partition"
  else return opt.finalize (opt.nodeIds.zipWith (fun nodeId range =>
    opt.point nodeId range.1 range.2) history)

def singleNodeSolution (nodeId : String) (numLayers : Nat) : PartitionSolution F :=
  let cost := opt.costModel.evaluate nodeId 0 numLayers
  let totalMs := opt.nodeTimeMs nodeId cost
  { points := [{ nodeId, startLayer := 0, endLayer := numLayers, estimatedTimeMs := totalMs }]
    maxNodeTimeMs := opt.round totalMs 2
    totalTimeMs := opt.round totalMs 2
    estimatedThroughputTokS :=
      opt.round (opt.batchSize * opt.seqLen / max (totalMs / 1000) (1 / 10 ^ 9)) 0
    pipelineLatencyMs := opt.round totalMs 2
    numOomNodes := if cost.fitsInMemory then 0 else 1
    explanation := "Single node (no partitioning needed)" }

def UsesBeam (numLayers : Nat) : Prop := 200 < numLayers ∧ 8 < opt.nodeIds.length

instance (numLayers : Nat) : Decidable (opt.UsesBeam numLayers) :=
  inferInstanceAs (Decidable (_ ∧ _))

def solve (numLayers : Nat) : Except SolveError (PartitionSolution F) :=
  match opt.nodeIds with
  | [] => .ok (.unsolved "No nodes available")
  | [nodeId] => .ok (opt.singleNodeSolution nodeId numLayers)
  | _ =>
    if opt.UsesBeam numLayers then opt.beamSearchSolve numLayers 10
    else do
      let dp ← opt.runDp numLayers
      let points := opt.enforceBoundaryLayers numLayers (opt.backtrack dp numLayers)
      return opt.finalize (← opt.attachQuantizationPlan points)

end PartitionOptimizer

end DistLLM.Partition
