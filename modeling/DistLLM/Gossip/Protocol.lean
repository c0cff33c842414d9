import DistLLM.Library.Dict
import Mathlib.Algebra.Order.Ring.Rat
import Mathlib.Data.Finset.Card
import Mathlib.Data.List.Sort

/-!
# Cache advertisements

`GossipProtocol`: what a node stores, what it advertises, and what it takes in from a peer. Block
hashes, Merkle roots, peer metrics and key rotation are left out, and so are the largest
timestamps, which only `has_changes_since` reads.
-/
namespace DistLLM.Gossip

open DistLLM.Library

variable {ν κ K S : Type}

structure VectorClock (ν : Type) where
  clocks : Dict ν Int := ∅

namespace VectorClock

variable [DecidableEq ν]

def increment (clock : VectorClock ν) (nodeId : ν) : VectorClock ν :=
  ⟨clock.clocks.set nodeId (clock.clocks.getD nodeId 0 + 1)⟩

def merge (clock other : VectorClock ν) : VectorClock ν :=
  ⟨other.clocks.entries.foldl (fun clocks e =>
    if e.2 < 0 then clocks else clocks.set e.1 (max (clocks.getD e.1 0) e.2)) clock.clocks⟩

end VectorClock

structure LWWRegister (ν : Type) where
  value : String
  timestamp : Rat
  writerId : ν

/-- The later writer wins, and of two at the same time the one with the larger id. -/
def LWWRegister.merge [LinearOrder ν] (reg other : LWWRegister ν) : LWWRegister ν :=
  if reg.timestamp < other.timestamp then other
  else if other.timestamp = reg.timestamp ∧ reg.writerId < other.writerId then
    { reg with value := other.value, writerId := other.writerId }
  else reg

/-- Where an entry is, with the time at which that was learned. -/
structure CacheRef (ν : Type) where
  nodeId : ν
  entryRef : String
  timestamp : Rat
  deriving DecidableEq, Repr

structure GossipState (ν κ : Type) where
  nodeId : ν
  knownPeers : Finset ν := ∅
  cacheIndex : Dict κ (List (CacheRef ν)) := ∅
  lastExchangeTime : Rat := 0
  localEntries : Dict κ String := ∅
  vectorClock : VectorClock ν := {}
  entryMetadata : Dict κ (LWWRegister ν) := ∅
  tombstones : Dict κ Rat := ∅

structure Advertisement (ν κ : Type) where
  nodeId : ν
  cachePrefixes : List κ
  totalCacheEntries : Nat
  timestamp : Rat
  vectorClock : VectorClock ν
  tombstones : Dict κ Rat
  entryMetadata : Dict κ (LWWRegister ν)
  isDelta : Bool

/-- The state of a node with what it was created with. -/
structure GossipProtocol (ν κ K : Type) where
  state : GossipState ν κ
  maxPeers : Nat := 16
  cacheTtl : Rat := 300
  hmacKey : K

namespace GossipState

variable [DecidableEq κ] (s : GossipState ν κ)

section

variable [DecidableEq ν]

/-- The register is only written where the clock is ahead of it. -/
def storeLocal (now : Rat) (prefixHash : κ) (entryRef : String) : GossipState ν κ :=
  let written : LWWRegister ν := ⟨entryRef, now, s.nodeId⟩
  { s with
    vectorClock := s.vectorClock.increment s.nodeId
    entryMetadata :=
      match s.entryMetadata.get? prefixHash with
      | none => s.entryMetadata.set prefixHash written
      | some reg =>
        if reg.timestamp < now then s.entryMetadata.set prefixHash written else s.entryMetadata
    cacheIndex := s.cacheIndex.set prefixHash
      (((s.cacheIndex.getD prefixHash []).filter fun r => decide (r.nodeId ≠ s.nodeId)) ++
        [⟨s.nodeId, entryRef, now⟩])
    localEntries := s.localEntries.set prefixHash entryRef }

def tombstoneEntry (now : Rat) (prefixHash : κ) : GossipState ν κ :=
  { s with
    vectorClock := s.vectorClock.increment s.nodeId
    tombstones :=
      if s.tombstones.getD prefixHash 0 < now then s.tombstones.set prefixHash now
      else s.tombstones
    localEntries := s.localEntries.filterKeys fun k => decide (k ≠ prefixHash) }

end

/-- Registered after the last exchange, and not under a tombstone. -/
def changedSince (cutoff : Rat) (prefixHash : κ) : Bool :=
  (s.tombstones.get? prefixHash).isNone &&
    (s.entryMetadata.get? prefixHash).any fun reg => decide (cutoff < reg.timestamp)

/-- A delta is about what changed since the last exchange, whoever that was with. -/
def advertise (deltaOnly : Bool) (now : Rat) : Advertisement ν κ × GossipState ν κ :=
  let delta := deltaOnly && decide (0 < s.lastExchangeTime)
  let entryMetadata :=
    if delta then s.entryMetadata.filterKeys (s.changedSince s.lastExchangeTime)
    else s.entryMetadata
  let prefixes :=
    if delta then entryMetadata.keys
    else s.localEntries.keys.filter fun k => (s.tombstones.get? k).isNone
  let tombstones :=
    if delta then s.tombstones.filterKeys fun k =>
      decide (s.lastExchangeTime < s.tombstones.getD k 0)
    else s.tombstones
  ({ nodeId := s.nodeId
     cachePrefixes := prefixes
     totalCacheEntries := prefixes.length
     timestamp := now
     vectorClock := s.vectorClock
     tombstones
     entryMetadata
     isDelta := deltaOnly && decide (prefixes.length < s.localEntries.size) },
    { s with lastExchangeTime := now })

/-- A newer tombstone replaces the one there is, and the entry goes. -/
def mergeTombstone (e : κ × Rat) : GossipState ν κ :=
  if s.tombstones.getD e.1 0 < e.2 then
    { s with
      tombstones := s.tombstones.set e.1 e.2
      localEntries := s.localEntries.filterKeys fun k => decide (k ≠ e.1) }
  else s

def mergeMetadata [LinearOrder ν] (e : κ × LWWRegister ν) : GossipState ν κ :=
  { s with
    entryMetadata := s.entryMetadata.set e.1
      (match s.entryMetadata.get? e.1 with
        | some reg => reg.merge e.2
        | none => e.2) }

section

variable [DecidableEq ν]

/-- A prefix under a tombstone is skipped, and one that the peer is listed for stays as it is. -/
def listPeer (peerId : ν) (now : Rat) (prefixHash : κ) : GossipState ν κ :=
  if (s.tombstones.get? prefixHash).isSome then s
  else
    let refs := s.cacheIndex.getD prefixHash []
    { s with
      cacheIndex := s.cacheIndex.set prefixHash
        (if refs.any fun r => decide (r.nodeId = peerId) then refs else refs ++ [⟨peerId, "", now⟩]) }

omit [DecidableEq κ] in
/-- With too many peers only those of the random sample stay. -/
def addPeer (maxPeers : Nat) (sample : Finset ν → Finset ν) (peerId : ν) : GossipState ν κ :=
  let knownPeers := insert peerId s.knownPeers
  { s with
    knownPeers :=
      if maxPeers < knownPeers.card then knownPeers \ (knownPeers \ sample knownPeers)
      else knownPeers }

/-- Nobody is listed for the prefix, and its register is missing or past its time. -/
def stale (cacheTtl now : Rat) (prefixHash : κ) : Bool :=
  s.cacheIndex.get? prefixHash == some [] &&
    (s.entryMetadata.get? prefixHash).all fun reg => decide (cacheTtl < now - reg.timestamp)

/-- References to peers that are not known any more go, those to the node itself included. -/
def cleanupCacheIndex (cacheTtl now : Rat) : GossipState ν κ :=
  { s with
    cacheIndex := (s.cacheIndex.mapValues fun _ refs =>
      refs.filter fun r => decide (r.nodeId ∈ s.knownPeers)).filterKeys
        fun k => !s.stale cacheTtl now k
    entryMetadata := s.entryMetadata.filterKeys fun k => !s.stale cacheTtl now k }

end

omit [DecidableEq κ] in
/-- `refs.sort(key=timestamp, reverse=True)`, which keeps the order of equal timestamps. -/
def sortRefs (refs : List (CacheRef ν)) : List (CacheRef ν) :=
  refs.mergeSort fun a b => decide (b.timestamp ≤ a.timestamp)

def lookup (prefixHash : κ) : Option ν × GossipState ν κ :=
  match s.cacheIndex.get? prefixHash with
  | none | some [] => (none, s)
  | some refs =>
    let sorted := sortRefs refs
    (sorted.head?.map CacheRef.nodeId,
      { s with cacheIndex := s.cacheIndex.set prefixHash sorted })

def freshRefs (cutoff : Rat) (refs : List (CacheRef ν)) : List (CacheRef ν) :=
  refs.filter fun r => decide (cutoff ≤ r.timestamp)

/-- References go after the time to live, tombstones after twice that time, with the registers. -/
def cleanupExpired (cacheTtl now : Rat) : Nat × GossipState ν κ :=
  let cutoff := now - cacheTtl
  let emptied := fun k => (freshRefs cutoff (s.cacheIndex.getD k [])).isEmpty
  let expired := fun k => (s.tombstones.get? k).any fun ts => decide (ts < now - cacheTtl * 2)
  (s.cacheIndex.keys.countP emptied,
    { s with
      cacheIndex := (s.cacheIndex.mapValues fun _ => freshRefs cutoff).filterKeys fun k => !emptied k
      tombstones := s.tombstones.filterKeys fun k => !expired k
      entryMetadata := s.entryMetadata.filterKeys fun k => !expired k })

end GossipState

namespace GossipProtocol

/-- The signature is over the advertisement, under a key of the node. -/
def verifyMessage [DecidableEq S] (mac : K → Advertisement ν κ → S)
    (node : GossipProtocol ν κ K) (ad : Advertisement ν κ) (hmac : S) : Bool :=
  decide (hmac = mac node.hmacKey ad)

/-- The times of the clock, the random sample of peers, and when the index is cleaned up, if the
one call in a hundred that does it is this one. -/
structure Draws (ν : Type) where
  now : Rat
  sample : Finset ν → Finset ν
  cleanup : Option Rat

variable [LinearOrder ν] [DecidableEq κ]

def takeIn (node : GossipProtocol ν κ K) (ad : Advertisement ν κ) (draws : Draws ν) :
    GossipState ν κ :=
  let clocked := { node.state with vectorClock := node.state.vectorClock.merge ad.vectorClock }
  let buried := ad.tombstones.entries.foldl (fun s e => s.mergeTombstone e) clocked
  let registered := ad.entryMetadata.entries.foldl (fun s e => s.mergeMetadata e) buried
  let listed := ad.cachePrefixes.foldl (fun s k => s.listPeer ad.nodeId draws.now k) registered
  let known := listed.addPeer node.maxPeers draws.sample ad.nodeId
  match draws.cleanup with
  | some now => known.cleanupCacheIndex node.cacheTtl now
  | none => known

def processAdvertisement [DecidableEq S] (mac : K → Advertisement ν κ → S)
    (node : GossipProtocol ν κ K) (ad : Advertisement ν κ) (hmac : S) (draws : Draws ν) :
    List κ × GossipProtocol ν κ K :=
  if node.verifyMessage mac ad hmac then
    let state := node.takeIn ad draws
    (ad.cachePrefixes.filter fun k =>
      (node.state.localEntries.get? k).isNone && (state.tombstones.get? k).isNone,
      { node with state })
  else ([], node)

end GossipProtocol

end DistLLM.Gossip
