import DistLLM.Crdt.CacheMap
import DistLLM.Library.Machine
import Mathlib.Algebra.Order.Field.Rat
import Mathlib.Data.Finset.Card

/-!
# The prefix index of a cluster

Digests of cached prefixes in a replicated map, and the messages with which clusters tell each other
of them. A message lists the live entries with the stamps of their registers. The peers of an index
and its counters are left out, since nothing here reads them; a wire stamp is a stamp.
-/
namespace DistLLM.Crdt

open DistLLM.Library

variable {ν : Type}

abbrev PrefixKey := String × String

structure CacheDigest (ν : Type) where
  clusterId : ν
  prefixHash : String
  modelId : String
  ttl : ℚ
  lastAccess : ℚ
  reuseCount : Int
  kvBlockRef : String := ""
  deriving DecidableEq

namespace CacheDigest

def key (digest : CacheDigest ν) : PrefixKey := (digest.prefixHash, digest.modelId)

def isExpired (digest : CacheDigest ν) (now : ℚ) : Bool :=
  decide (digest.ttl < now - digest.lastAccess)

end CacheDigest

/-- A serialised digest, under the keys of the wire. -/
structure RawEntry (ν : Type) where
  c : ν
  h : String
  m : String
  t : ℚ
  a : ℚ
  r : Int
  b : Option String
  ts : Option (Timestamp ν)

structure GossipMessage (ν : Type) where
  type : String
  entries : List (RawEntry ν)
  compact : Bool

namespace CacheGossipProtocol

def serializeEntry (compact : Bool) (hlc : PrefixKey → Option (Timestamp ν))
    (entry : CacheDigest ν) : RawEntry ν where
  c := entry.clusterId
  h := entry.prefixHash
  m := entry.modelId
  t := entry.ttl
  a := entry.lastAccess
  r := entry.reuseCount
  b := if compact then none else some entry.kvBlockRef
  ts := hlc (entry.prefixHash, entry.modelId)

def buildDigestMessage (entries : List (CacheDigest ν)) (compact : Bool)
    (hlc : PrefixKey → Option (Timestamp ν)) : GossipMessage ν where
  type := "cache_digest"
  entries := entries.map (serializeEntry compact hlc)
  compact

def deserializeEntry (raw : RawEntry ν) (compact : Bool) : CacheDigest ν where
  clusterId := raw.c
  prefixHash := raw.h
  modelId := raw.m
  ttl := raw.t
  lastAccess := raw.a
  reuseCount := raw.r
  kvBlockRef := if compact then "" else raw.b.getD ""

variable [LinearOrder ν]

/-- One entry of a message; without a stamp it is a write of this node. -/
def mergeEntry (map : CRDTCacheMap PrefixKey (CacheDigest ν) ν) (compact : Bool)
    (raw : RawEntry ν) (readings : Int × Int) : CRDTCacheMap PrefixKey (CacheDigest ν) ν :=
  let remote := deserializeEntry raw compact
  match raw.ts with
  | some ts => map.ingest remote.key (some remote) ts readings.1 readings.2
  | none => (map.put remote.key (some remote) readings.1).2

/-- The loop of `merge_digest`, with the readings of the wall clock for each entry. -/
def mergeDigest (compact : Bool) : List (RawEntry ν) → (Nat → Int × Int) →
    CRDTCacheMap PrefixKey (CacheDigest ν) ν → CRDTCacheMap PrefixKey (CacheDigest ν) ν
  | [], _, map => map
  | raw :: entries, readings, map =>
    mergeDigest compact entries (fun i => readings (i + 1)) (mergeEntry map compact raw (readings 0))

end CacheGossipProtocol

/-- `timestamp_of`: of a key that is absent or removed there is none. -/
def CRDTCacheMap.timestampOf {κ V : Type} (map : CRDTCacheMap κ V ν) (key : κ) :
    Option (Timestamp ν) :=
  match map.values key with
  | none => none
  | some reg => if reg.value.isNone then none else some reg.timestamp

structure CrossClusterPrefixIndex (ν : Type) where
  clusterId : ν
  index : CRDTCacheMap PrefixKey (CacheDigest ν) ν

namespace CrossClusterPrefixIndex

open CacheGossipProtocol

variable [LinearOrder ν]

def create (clusterId : ν) (ns : Int) : CrossClusterPrefixIndex ν where
  clusterId
  index := .create clusterId ns

/-- `lookup`, with two readings of the time and two of the clock. A hit is a write. -/
def lookup (self : CrossClusterPrefixIndex ν) (prefixHash modelId : String) (now now' : ℚ)
    (ns ns' : Int) : Option (CacheDigest ν) × CrossClusterPrefixIndex ν :=
  let key := (prefixHash, modelId)
  match self.index.get key with
  | none => (none, self)
  | some entry =>
    if entry.isExpired now then
      (none, { self with index := (self.index.remove key ns ns').2 })
    else
      let updated := { entry with lastAccess := now', reuseCount := entry.reuseCount + 1 }
      match self.index.timestampOf key with
      | none => (some updated, { self with index := (self.index.put key (some updated) ns).2 })
      | some existing =>
        let (stamp, clock) :=
          self.index.clock.update ns existing.physicalNs existing.counter
        let index := { self.index with membership := { self.index.membership with clock } }
        if existing < stamp then
          (some updated, { self with index := (index.put key (some updated) ns').2 })
        else (some updated, { self with index })

/-- `announce`, with a reading of the time and one of the clock. -/
def announce (self : CrossClusterPrefixIndex ν) (prefixHash modelId kvBlockRef : String)
    (ttl now : ℚ) (ns : Int) : CacheDigest ν × CrossClusterPrefixIndex ν :=
  let key := (prefixHash, modelId)
  let reuseCount :=
    match self.index.get key with
    | none => 1
    | some existing => existing.reuseCount + 1
  let digest : CacheDigest ν :=
    { clusterId := self.clusterId, prefixHash, modelId, ttl, lastAccess := now, reuseCount,
      kvBlockRef }
  (digest, { self with index := (self.index.put key (some digest) ns).2 })

/-- `order` lists the keys as iterating over them does. -/
def Lists (self : CrossClusterPrefixIndex ν) (order : List PrefixKey) : Prop :=
  order.Nodup ∧ order.toFinset = self.index.keys

instance (self : CrossClusterPrefixIndex ν) (order : List PrefixKey) :
    Decidable (self.Lists order) :=
  inferInstanceAs (Decidable (_ ∧ _))

/-- The keys to evict, in the order in which Python lists them. -/
def expiredKeys (self : CrossClusterPrefixIndex ν) (order : List PrefixKey) (now : ℚ) :
    List PrefixKey :=
  order.filter fun key =>
    match self.index.get key with
    | none => false
    | some entry => entry.isExpired now

/-- Keys removed one after the other, each with two readings of the clock. -/
def removeAll : List PrefixKey → (Nat → Int × Int) → CRDTCacheMap PrefixKey (CacheDigest ν) ν →
    CRDTCacheMap PrefixKey (CacheDigest ν) ν
  | [], _, map => map
  | key :: keys, readings, map =>
    removeAll keys (fun i => readings (i + 1)) (map.remove key (readings 0).1 (readings 0).2).2

def evictExpired (self : CrossClusterPrefixIndex ν) (order : List PrefixKey) (now : ℚ)
    (readings : Nat → Int × Int) : Nat × CrossClusterPrefixIndex ν :=
  let evicted := self.expiredKeys order now
  (evicted.length, { self with index := removeAll evicted readings self.index })

/-- `build_gossip_message`; the values are listed in the order of the keys. -/
def buildGossipMessage (self : CrossClusterPrefixIndex ν) (compact : Bool)
    (order : List PrefixKey) : GossipMessage ν :=
  let entries := order.filterMap self.index.get
  let hlc key := if key ∈ self.index.keys then self.index.timestampOf key else none
  buildDigestMessage entries compact hlc

def processGossipMessage (self : CrossClusterPrefixIndex ν) (msg : GossipMessage ν)
    (readings : Nat → Int × Int) : Nat × CrossClusterPrefixIndex ν :=
  if msg.type ≠ "cache_digest" then (0, self)
  else
    let index := mergeDigest msg.compact msg.entries readings self.index
    (index.keys.card, { self with index })

end CrossClusterPrefixIndex

/-- The indexes of the clusters, with the messages built, each by a cluster, and which clusters
have received which. -/
structure Clusters (ν : Type) where
  cluster : ν → CrossClusterPrefixIndex ν
  sent : List (ν × GossipMessage ν) := []
  received : List (ν × Nat) := []

namespace Clusters

/-- A call at a cluster. A message that has been built can be delivered to any cluster, at any later
time, more than once or never. -/
inductive Action (ν : Type)
  | announce (i : ν) (prefixHash modelId kvBlockRef : String) (ttl now : ℚ) (ns : Int)
  | lookup (i : ν) (prefixHash modelId : String) (now now' : ℚ) (ns ns' : Int)
  | evictExpired (i : ν) (order : List PrefixKey) (now : ℚ) (readings : Nat → Int × Int)
  | build (i : ν) (compact : Bool) (order : List PrefixKey)
  | deliver (j : ν) (n : Nat) (readings : Nat → Int × Int)

/-- Building and delivering messages is gossip, all else is local. -/
def Action.isGossip : Action ν → Bool
  | .build _ _ _ => true
  | .deliver _ _ _ => true
  | _ => false

variable [LinearOrder ν]

def exec (s : Clusters ν) : Action ν → Clusters ν
  | .announce i prefixHash modelId kvBlockRef ttl now ns =>
    { s with
      cluster := Function.update s.cluster i
        ((s.cluster i).announce prefixHash modelId kvBlockRef ttl now ns).2 }
  | .lookup i prefixHash modelId now now' ns ns' =>
    { s with
      cluster := Function.update s.cluster i
        ((s.cluster i).lookup prefixHash modelId now now' ns ns').2 }
  | .evictExpired i order now readings =>
    { s with
      cluster := Function.update s.cluster i ((s.cluster i).evictExpired order now readings).2 }
  | .build i compact order =>
    { s with sent := s.sent ++ [(i, (s.cluster i).buildGossipMessage compact order)] }
  | .deliver j n readings =>
    match s.sent[n]? with
    | none => s
    | some (_, msg) =>
      { s with
        cluster := Function.update s.cluster j ((s.cluster j).processGossipMessage msg readings).2
        received := s.received ++ [(j, n)] }

def Starts (s : Clusters ν) : Prop :=
  ∃ readings : ν → Int, s = { cluster := fun i => .create i (readings i) }

def machine (ν : Type) [LinearOrder ν] (init : Clusters ν → Prop) :
    Machine (Clusters ν) (Action ν) where
  init
  enabled s
    | .evictExpired i order _ _ => (s.cluster i).Lists order
    | .build i _ order => (s.cluster i).Lists order
    | .deliver _ n _ => n < s.sent.length
    | _ => True
  exec := exec

instance (init : Clusters ν → Prop) (s : Clusters ν) :
    ∀ act, Decidable ((machine ν init).enabled s act)
  | .announce _ _ _ _ _ _ _ => .isTrue trivial
  | .lookup _ _ _ _ _ _ _ => .isTrue trivial
  | .evictExpired i order _ _ => inferInstanceAs (Decidable ((s.cluster i).Lists order))
  | .build i _ order => inferInstanceAs (Decidable ((s.cluster i).Lists order))
  | .deliver _ n _ => inferInstanceAs (Decidable (n < s.sent.length))

abbrev Reachable (s : Clusters ν) : Prop := (machine ν Starts).Reachable s

def GossipsTo (s t : Clusters ν) : Prop :=
  (machine ν fun start => start = s).Reaches (fun _ act => act.isGossip = true) t

/-- Each cluster has received a message that each other one has built since. -/
def AllHeard (s t : Clusters ν) : Prop :=
  ∀ i j, i ≠ j → ∃ n, s.sent.length ≤ n ∧ (j, n) ∈ t.received ∧ t.sent[n]?.map Prod.fst = some i

/-- All clusters show the same prefixes with the same digests. -/
def Converged (s : Clusters ν) : Prop :=
  ∀ i j key, (s.cluster i).index.get key = (s.cluster j).index.get key

end Clusters

end DistLLM.Crdt
