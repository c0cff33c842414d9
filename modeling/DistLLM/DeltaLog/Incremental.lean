import DistLLM.Library.Dict
import DistLLM.Library.Folds
import Mathlib.Data.Rat.Init

/-!
# The parameter delta log

`IncrementalRecovery` keeps what each step changed since the last checkpoint, at most `max_deltas`
steps of it, and replays the changes over the checkpoint's parameters.
-/
namespace DistLLM.DeltaLog

open Library

inductive RaisedError
  | valueError (message : String)
  | runtimeError
  deriving DecidableEq, Repr

/-- The elements of a tensor. A parameter keeps its shape. -/
abbrev Tensor := List ℚ

/-- An elementwise operation, which raises on tensors of different sizes. -/
def Tensor.elementwise (f : ℚ → ℚ → ℚ) (a b : Tensor) : Except RaisedError Tensor :=
  if a.length = b.length then .ok (List.zipWith f a b) else .error .runtimeError

def Tensor.isZero (delta : Tensor) : Bool := delta.all fun x => decide (x = 0)

/-- Parameters by name; `none` is Python's None. -/
abbrev Params := Dict String (Option Tensor)

structure ParameterDelta where
  step : Int
  name : String
  delta : Tensor
  deriving DecidableEq, Repr

structure IncrementalRecovery where
  maxDeltas : Nat
  positive : 1 ≤ maxDeltas
  checkpointStep : Int
  deltas : Dict Int (Dict String ParameterDelta)
  stepOrder : List Int
  latestStep : Int

namespace IncrementalRecovery

def new (maxDeltas : Nat) (positive : 1 ≤ maxDeltas) (checkpointStep : Int) :
    IncrementalRecovery where
  maxDeltas := maxDeltas
  positive := positive
  checkpointStep := checkpointStep
  deltas := ∅
  stepOrder := []
  latestStep := checkpointStep

variable (r : IncrementalRecovery) (step : Int)

def deltasAt : Dict String ParameterDelta := r.deltas.getD step ∅

def findPreviousDelta (name : String) (beforeStep : Int) : Option ParameterDelta :=
  r.stepOrder.reverse.findSome? fun s =>
    if beforeStep ≤ s then none else (r.deltasAt s).get? name

def accumulate (name : String) (accumulated : Option Tensor) (s : Int) :
    Except RaisedError (Option Tensor) :=
  match (r.deltasAt s).get? name, accumulated with
  | none, _ => .ok accumulated
  | some recorded, none => .ok (some recorded.delta)
  | some recorded, some sum => do
    let sum ← Tensor.elementwise (· + ·) sum recorded.delta
    return some sum

def estimatePreviousValue (name : String) (step : Int) : Except RaisedError (Option Tensor) :=
  (r.stepOrder.takeWhile fun s => decide (s ≤ step)).foldlM (r.accumulate name) none

def baseValue (baseParams : Option Params) (name : String) (current : Tensor) :
    Except RaisedError Tensor := do
  let base ← match baseParams.bind fun base => base.get? name with
    | some given => .ok given
    | none =>
      match r.findPreviousDelta name step with
      | some _ => r.estimatePreviousValue name (step - 1)
      -- the first recorded change: the parameter is compared with itself
      | none => .ok (some current)
  return base.getD current

def addDelta (baseParams : Option Params) (stepDeltas : Dict String ParameterDelta)
    (item : String × Option Tensor) : Except RaisedError (Dict String ParameterDelta) :=
  match item with
  | (_, none) => .ok stepDeltas
  | (name, some current) =>
    if current.length = 0 then .ok stepDeltas
    else do
      let base ← r.baseValue step baseParams name current
      let delta ← Tensor.elementwise (· - ·) current base
      return if Tensor.isZero delta then stepDeltas else stepDeltas.set name ⟨step, name, delta⟩

/-- The oldest step goes when there are more than `max_deltas`. -/
def evictOldest : IncrementalRecovery :=
  match r.stepOrder with
  | [] => r
  | oldest :: rest =>
    if r.maxDeltas < r.stepOrder.length then
      { r with stepOrder := rest, deltas := r.deltas.filterKeys fun s => decide (s ≠ oldest) }
    else r

def store (stepDeltas : Dict String ParameterDelta) : IncrementalRecovery :=
  if stepDeltas.size = 0 then r
  else
    evictOldest
      { r with
        deltas := r.deltas.set step stepDeltas
        stepOrder := r.stepOrder ++ [step]
        latestStep := step }

def saveDelta (params : Params) (baseParams : Option Params) :
    Except RaisedError IncrementalRecovery :=
  if step ≤ r.latestStep then
    .error (.valueError ("Step " ++ toString step ++ " must be > latest step " ++
      toString r.latestStep))
  else do
    let stepDeltas ← params.entries.foldlM (r.addDelta step baseParams) ∅
    return r.store step stepDeltas

def applyDelta (params : Params) (item : String × ParameterDelta) : Except RaisedError Params :=
  match params.get? item.1 with
  | some (some value) => do
    let value ← Tensor.elementwise (· + ·) value item.2.delta
    return params.set item.1 (some value)
  | _ => .ok params

def applyStep (params : Params) (s : Int) : Except RaisedError Params :=
  (r.deltasAt s).entries.foldlM applyDelta params

def stepsToApply (targetStep : Int) : List Int :=
  r.stepOrder.filter fun s => decide (r.checkpointStep < s ∧ s ≤ targetStep)

def recoverTo (targetStep : Int) (params : Params) : Except RaisedError Params :=
  if targetStep < r.checkpointStep then
    .error (.valueError ("target_step " ++ toString targetStep ++ " is before checkpoint step " ++
      toString r.checkpointStep))
  else if r.latestStep < targetStep then
    .error (.valueError ("target_step " ++ toString targetStep ++ " exceeds latest step " ++
      toString r.latestStep ++ "; call save_delta first"))
  else (r.stepsToApply targetStep).foldlM r.applyStep params

def setCheckpoint : Except RaisedError IncrementalRecovery :=
  if step < r.checkpointStep then
    .error (.valueError ("New checkpoint step " ++ toString step ++
      " must be >= current checkpoint step " ++ toString r.checkpointStep))
  else
    let stale := r.stepOrder.filter fun s => decide (s ≤ step)
    .ok { r with
      deltas := r.deltas.filterKeys fun s => decide (s ∉ stale)
      -- every stale occurrence is removed once
      stepOrder := r.stepOrder.filter fun s => decide (¬ s ≤ step)
      checkpointStep := step }

def clear : IncrementalRecovery :=
  { r with deltas := ∅, stepOrder := [], latestStep := r.checkpointStep }

end IncrementalRecovery

end DistLLM.DeltaLog
