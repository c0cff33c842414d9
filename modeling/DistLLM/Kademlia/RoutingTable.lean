import DistLLM.Library.Closest
import DistLLM.Library.Dict
import DistLLM.Library.Machine
import DistLLM.Library.Tiling
import Mathlib.Algebra.GroupWithZero.Nat
import Mathlib.Algebra.Order.Ring.Rat

/-!
# The routing table of the DHT

`KBucket` and `RoutingTable`: the nodes a peer knows, in buckets that each cover a range of node
IDs. Clock readings are handed in.
-/
namespace DistLLM.Kademlia

open Library

def K : Nat := 20

def B : Nat := 160

abbrev NodeId := List UInt8

def fromBytes (nodeId : NodeId) : Nat := nodeId.foldl (fun value byte => value * 256 + byte.toNat) 0

def xorDistance (a b : NodeId) : Nat := fromBytes a ^^^ fromBytes b

structure KademliaNode where
  nodeId : NodeId
  ip : String
  port : Int
  tcpPort : Int := 0
  deriving DecidableEq, Repr

/-- Both ends belong to the range. The least recently seen node is the first one. -/
structure KBucket where
  rangeStart : Nat
  rangeEnd : Nat
  nodes : Dict NodeId KademliaNode := ∅
  lastAccessed : Rat

namespace KBucket

variable (b : KBucket)

def isFull : Bool := decide (K ≤ b.nodes.size)

def touch (now : Rat) : KBucket := { b with lastAccessed := now }

/-- `add_node`. A node that is there already stays as it is and goes to the end. -/
def addNode (now : Rat) (node : KademliaNode) : Bool × KBucket :=
  if (b.nodes.get? node.nodeId).isSome then
    (true, { b with nodes := b.nodes.moveToEnd node.nodeId, lastAccessed := now })
  else if !b.isFull then
    (true, { b with nodes := b.nodes.set node.nodeId node, lastAccessed := now })
  else (false, b.touch now)

def removeNode (nodeId : NodeId) : KBucket :=
  { b with nodes := b.nodes.filterKeys fun nid => decide (nid ≠ nodeId) }

def mid : Nat := (b.rangeStart + b.rangeEnd) / 2

/-- `split`: two buckets with the halves of the range and the nodes that belong there. -/
def split (now : Rat) : KBucket × KBucket :=
  ({ rangeStart := b.rangeStart, rangeEnd := b.mid, lastAccessed := now,
     nodes := b.nodes.filterKeys fun nid => decide (fromBytes nid ≤ b.mid) },
   { rangeStart := b.mid + 1, rangeEnd := b.rangeEnd, lastAccessed := now,
     nodes := b.nodes.filterKeys fun nid => !decide (fromBytes nid ≤ b.mid) })

def Covers (value : Nat) : Prop := b.rangeStart ≤ value ∧ value ≤ b.rangeEnd

instance (value : Nat) : Decidable (b.Covers value) := inferInstanceAs (Decidable (_ ∧ _))

def inRange (nodeId : NodeId) : Bool := decide (b.Covers (fromBytes nodeId))

end KBucket

structure RoutingTable where
  localNodeId : NodeId
  buckets : List KBucket

namespace RoutingTable

def create (localNodeId : NodeId) (now : Rat) : RoutingTable where
  localNodeId
  buckets := [{ rangeStart := 0, rangeEnd := 2 ^ B - 1, lastAccessed := now }]

variable (t : RoutingTable)

def allNodes : List KademliaNode := t.buckets.flatMap fun b => b.nodes.values

/-- `find_bucket`: the first bucket whose range has the node ID, and its place in the list. -/
def findBucket (nodeId : NodeId) : Option (Nat × KBucket) :=
  (t.buckets.findIdx? fun b => b.inRange nodeId).bind fun idx =>
    t.buckets[idx]?.map fun bucket => (idx, bucket)

/-- `self._buckets[idx : idx + 1] = new`. A bucket that is changed in place is replaced too. -/
def replace (idx : Nat) (new : List KBucket) : RoutingTable :=
  { t with buckets := t.buckets.take idx ++ new ++ t.buckets.drop (idx + 1) }

/-- The bucket has the local ID in its range, and more than two IDs. -/
def canSplit (bucket : KBucket) : Bool :=
  bucket.inRange t.localNodeId && decide (1 < bucket.rangeEnd - bucket.rangeStart)

def splitBucket (now : Rat) (idx : Nat) (bucket : KBucket) : RoutingTable :=
  let halves := bucket.split now
  t.replace idx [halves.1, halves.2]

/-- `insert_node`. A full bucket is split at most once. -/
def insertNode (now : Rat) (node : KademliaNode) : Bool × RoutingTable :=
  if node.nodeId = t.localNodeId then (false, t)
  else
    match t.findBucket node.nodeId with
    | none => (false, t)
    | some (idx, bucket) =>
      let r := bucket.addNode now node
      let touched := t.replace idx [r.2]
      if r.1 then (true, touched)
      else if t.canSplit bucket then
        let halved := touched.splitBucket now idx r.2
        match halved.findBucket node.nodeId with
        | some (newIdx, newBucket) =>
          let r' := newBucket.addNode now node
          (r'.1, halved.replace newIdx [r'.2])
        | none => (false, halved)
      else (false, touched)

def removeNode (nodeId : NodeId) : RoutingTable :=
  match t.findBucket nodeId with
  | some (idx, bucket) => t.replace idx [bucket.removeNode nodeId]
  | none => t

def findNearest (targetId : NodeId) (count : Nat) : List KademliaNode :=
  (t.allNodes.insertionSort (byCost fun n => xorDistance n.nodeId targetId)).take count

end RoutingTable

/-- `split` stands for a caller that splits a bucket of the table and puts the halves in its
place, `touch` for a refresh of a bucket. -/
inductive TableAction
  | insertNode (now : Rat) (node : KademliaNode)
  | removeNode (nodeId : NodeId)
  | split (now : Rat) (idx : Nat)
  | touch (now : Rat) (idx : Nat)

namespace RoutingTable

def exec (t : RoutingTable) : TableAction → RoutingTable
  | .insertNode now node => (t.insertNode now node).2
  | .removeNode nodeId => t.removeNode nodeId
  | .split now idx =>
    match t.buckets[idx]? with
    | some bucket => t.splitBucket now idx bucket
    | none => t
  | .touch now idx =>
    match t.buckets[idx]? with
    | some bucket => t.replace idx [bucket.touch now]
    | none => t

end RoutingTable

/-- Only a bucket with more than one ID is split. -/
def routing (localNodeId : NodeId) : Machine RoutingTable TableAction where
  init t := ∃ now, t = .create localNodeId now
  enabled t act := ∀ now idx bucket, act = .split now idx → t.buckets[idx]? = some bucket →
    bucket.rangeStart < bucket.rangeEnd
  exec := RoutingTable.exec

end DistLLM.Kademlia
