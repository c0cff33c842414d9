import DistLLM.Library.Dict
import Mathlib.Data.Rat.Floor

/-!
# Redistribution of the layers of a failed node

Ranges of layers are inclusive. The orphaned range goes to the neighbours of the failed node; where
the ranges of the survivors are no clean layout, the whole span is divided anew.
-/
namespace DistLLM.Recovery

open DistLLM.Library

abbrev LayerRange := Int × Int

inductive RecoveryError
  /-- `ZeroDivisionError`: both neighbours of the orphaned range are empty, or a layer takes no
  memory -/
  | zeroDivision
  /-- what the drain callback raised -/
  | drainCallback
  deriving DecidableEq

structure LayerRedistribution where
  survivingNodeId : String
  addedStartLayer : Int
  addedEndLayer : Int
  newStartLayer : Int
  newEndLayer : Int
  requiresWeightLoad : Bool := true
  deriving DecidableEq

/-- The digits of Python's `int`: underscores may stand between them. -/
def parseDigits (value : Nat) (afterDigit : Bool) : List Char → Option Nat
  | [] => if afterDigit then some value else none
  | c :: rest =>
    if c.isDigit then parseDigits (value * 10 + (c.toNat - '0'.toNat)) true rest
    else if c = '_' ∧ afterDigit then parseDigits value false rest
    else none

/-- Python's `int` of a string, with ASCII digits. -/
def parseInt (text : String) : Option Int :=
  let stripped := ((text.toList.dropWhile Char.isWhitespace).reverse.dropWhile
    Char.isWhitespace).reverse
  match stripped with
  | '-' :: digits => (parseDigits 0 false digits).map fun n => -n
  | '+' :: digits => (parseDigits 0 false digits).map fun n => n
  | digits => (parseDigits 0 false digits).map fun n => n

def zeroPadded (width n : Nat) : String :=
  let digits := toString n
  String.ofList (List.replicate (width - digits.length) '0') ++ digits

/-- Deterministic ordering for node ids, numeric-aware where they are numbers. -/
def sortKey (nid : String) : String :=
  match parseInt nid with
  | some n => if n < 0 then "-" ++ zeroPadded 19 n.natAbs else zeroPadded 20 n.natAbs
  | none => nid

/-- Everyone gets the same, and the first in order one more while there is a rest. -/
def equalSplit (total : Nat) (nids : List String) : Dict String Nat :=
  ((nids.mergeSort (· ≤ ·)).zipIdx).foldl (fun counts (nid, i) =>
    counts.set nid (total / nids.length + if i < total % nids.length then 1 else 0)) ∅

def exactShare (total : Nat) (totalWeight weight : ℚ) : ℚ := total * max 0 weight / totalWeight

/-- Largest fractional parts first, ties by the larger sort key. -/
def remainderOrder (total : Nat) (totalWeight : ℚ) (weights : Dict String ℚ) : List String :=
  let key := fun entry : String × ℚ =>
    (Int.fract (exactShare total totalWeight entry.2), sortKey entry.1)
  (weights.entries.mergeSort fun a b =>
    (key b).1 < (key a).1 || (key b).1 = (key a).1 && (key b).2 ≤ (key a).2).map Prod.fst

def largestRemainderSplit (total : Nat) (weights : Dict String ℚ) : Dict String Nat :=
  let totalWeight := (weights.values.map (max 0)).sum
  if weights.entries = [] then ∅
  else if totalWeight ≤ 0 then equalSplit total weights.keys
  else
    let floors : Dict String Nat := weights.entries.foldl (fun counts (nid, weight) =>
      counts.set nid ⌊exactShare total totalWeight weight⌋.toNat) ∅
    let order := remainderOrder total totalWeight weights
    (List.range (total - floors.values.sum)).foldl (fun counts i =>
      let nid := order.getD (i % order.length) ""
      counts.set nid (counts.getD nid 0 + 1)) floors

/-- No range meets the orphaned one or the next range. -/
def isCleanTiling (failedStart failedEnd : Int) : List (String × LayerRange) → Bool
  | [] => true
  | (_, start, stop) :: rest =>
    (stop < failedStart || failedEnd < start) &&
      (match rest with
        | [] => true
        | (_, next, _) :: _ => stop < next) &&
      isCleanTiling failedStart failedEnd rest

/-- The ranges laid out one after the other, without those that get no layer. -/
def layOut (counts : Dict String Nat) : Int → List (String × LayerRange) → List LayerRedistribution
  | _, [] => []
  | cursor, (nid, _) :: rest =>
    let count := counts.getD nid 0
    if count = 0 then layOut counts cursor rest
    else
      { survivingNodeId := nid
        addedStartLayer := cursor
        addedEndLayer := cursor + count - 1
        newStartLayer := cursor
        newEndLayer := cursor + count - 1 } :: layOut counts (cursor + count) rest

def retilingRedistributions (survivors : List (String × LayerRange)) (spanStart spanEnd : Int)
    (weights : Option (Dict String ℚ)) : List LayerRedistribution :=
  let weighed : Dict String ℚ := survivors.foldl (fun w (nid, start, stop) =>
    w.set nid (match weights with
      | none => ((stop - start + 1 : Int) : ℚ)
      | some given => max 1 (given.getD nid 1))) ∅
  layOut (largestRemainderSplit (spanEnd - spanStart + 1).toNat weighed) spanStart survivors

def orderedByRange (nodes : Dict String LayerRange) : List (String × LayerRange) :=
  nodes.entries.mergeSort fun a b => a.2.1 < b.2.1 || a.2.1 = b.2.1 && a.2.2 ≤ b.2.2

/-- The whole span, of the survivors and of the orphaned range, divided anew. -/
def retileSpan (ordered : List (String × LayerRange)) (failedStart failedEnd : Int) :
    List LayerRedistribution :=
  match ordered.head?, ordered.getLast? with
  | some first, some last =>
    retilingRedistributions ordered (min first.2.1 failedStart) (max last.2.2 failedEnd) none
  | _, _ => []

def layerCount (range : LayerRange) : Int := range.2 - range.1 + 1

def leftShare (deadCount : Int) :
    Option (String × LayerRange) → Option (String × LayerRange) → Except RecoveryError Int
  | _, none => .ok deadCount
  | none, some _ => .ok 0
  | some left, some right =>
    let sizes := layerCount left.2 + layerCount right.2
    if sizes = 0 then .error .zeroDivision
    else .ok ((deadCount * layerCount left.2).fdiv sizes)

/-- The orphaned range goes to its neighbours, the first `share` layers to the left one. -/
def absorb (failedStart failedEnd share : Int) (left right : Option (String × LayerRange)) :
    List LayerRedistribution :=
  let deadCount := failedEnd - failedStart + 1
  let offset := if left.isSome then share else 0
  let added := failedStart + offset
  (left.map fun (nid, start, stop) =>
    { survivingNodeId := nid
      addedStartLayer := failedStart
      addedEndLayer := failedStart + share - 1
      newStartLayer := start
      newEndLayer := max stop (failedStart + share - 1)
      requiresWeightLoad := decide (0 < share) : LayerRedistribution }).toList ++
  (right.map fun (nid, start, stop) =>
    { survivingNodeId := nid
      addedStartLayer := added
      addedEndLayer := added + (deadCount - offset) - 1
      newStartLayer := min start added
      newEndLayer := stop
      requiresWeightLoad := decide (0 < deadCount - offset) : LayerRedistribution }).toList

def computeRedistributions (failedStart failedEnd : Int) (surviving : Dict String LayerRange) :
    Except RecoveryError (List LayerRedistribution) :=
  let ordered := orderedByRange surviving
  let deadCount := failedEnd - failedStart + 1
  if surviving.entries = [] then .ok []
  else if deadCount ≤ 0 then .ok []
  else if !isCleanTiling failedStart failedEnd ordered then
    .ok (retileSpan ordered failedStart failedEnd)
  else
    let left := (ordered.filter fun node => node.2.2 < failedStart).getLast?
    let right := (ordered.filter fun node => failedEnd < node.2.1).head?
    if left.isNone && right.isNone then .ok (retileSpan ordered failedStart failedEnd)
    else do
      let share ← leftShare deadCount left right
      return absorb failedStart failedEnd share left right

end DistLLM.Recovery
