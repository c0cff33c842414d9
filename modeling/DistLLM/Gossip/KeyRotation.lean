import DistLLM.Gossip.Protocol

/-!
# Key rotation

The keys of a node over its rotations, and the second entry point for advertisements, which is to
accept the key before the last rotation too while the two overlap.
-/
namespace DistLLM.Gossip

open DistLLM.Library

variable {ν κ K S : Type}

/-- `GossipProtocol` with its keys. The current key is that of the node. -/
structure KeyedProtocol (ν κ K : Type) where
  node : GossipProtocol ν κ K
  /-- A key of the whole deployment is configured. -/
  sharedHmacKey : Bool := false
  keyRotationInterval : Rat := 86400
  keyOverlapPeriod : Rat := 3600
  lastKeyRotation : Rat
  peerHmacKeys : Dict ν K := ∅
  overlapHmacKey : Option K := none
  overlapStart : Rat := 0

namespace KeyedProtocol

variable (s : KeyedProtocol ν κ K)

/-- `check_key_rotation`: the peers whose keys are stale. A shared key stays. -/
def checkKeyRotation (now : Rat) (fresh : K) : List ν × KeyedProtocol ν κ K :=
  if now - s.lastKeyRotation < s.keyRotationInterval then ([], s)
  else if s.sharedHmacKey then ([], { s with lastKeyRotation := now })
  else
    (s.peerHmacKeys.keys,
      { s with
        lastKeyRotation := now
        peerHmacKeys := ∅
        node := { s.node with hmacKey := fresh }
        overlapHmacKey := some s.node.hmacKey
        overlapStart := now })

/-- The signature is valid under the key before the last rotation, which is still accepted. -/
def verifyOverlap [DecidableEq S] (mac : K → Advertisement ν κ → S) (now : Rat)
    (ad : Advertisement ν κ) (hmac : S) : Bool :=
  match s.overlapHmacKey with
  | some key => decide (now - s.overlapStart < s.keyOverlapPeriod) && decide (hmac = mac key ad)
  | none => false

def verifyMessageAnyKey [DecidableEq S] (mac : K → Advertisement ν κ → S) (now : Rat)
    (ad : Advertisement ν κ) (hmac : S) : Bool :=
  s.node.verifyMessage mac ad hmac || s.verifyOverlap mac now ad hmac

def cleanupOverlapKey (now : Rat) : KeyedProtocol ν κ K :=
  if 0 < s.overlapStart ∧ s.keyOverlapPeriod < now - s.overlapStart then
    { s with overlapHmacKey := none, overlapStart := 0 }
  else s

/-- `process_advertisement_any_key`. The clock is read for the cleanup and for the verification. -/
def processAdvertisementAnyKey [LinearOrder ν] [DecidableEq κ] [DecidableEq S]
    (mac : K → Advertisement ν κ → S) (cleaned verified : Rat) (ad : Advertisement ν κ)
    (hmac : S) (draws : GossipProtocol.Draws ν) : List κ × KeyedProtocol ν κ K :=
  let s := s.cleanupOverlapKey cleaned
  if s.verifyMessageAnyKey mac verified ad hmac then
    let r := s.node.processAdvertisement mac ad hmac draws
    (r.1, { s with node := r.2 })
  else ([], s)

/-- Neither of the two verifications on the way logs that the advertisement is ignored. -/
def acceptsAnyKey [DecidableEq S] (mac : K → Advertisement ν κ → S) (cleaned verified : Rat)
    (ad : Advertisement ν κ) (hmac : S) : Bool :=
  let s := s.cleanupOverlapKey cleaned
  s.verifyMessageAnyKey mac verified ad hmac && s.node.verifyMessage mac ad hmac

@[simp] theorem cleanupOverlapKey_node (now : Rat) : (s.cleanupOverlapKey now).node = s.node := by
  unfold cleanupOverlapKey
  split <;> rfl

variable [DecidableEq S] {mac : K → Advertisement ν κ → S}

theorem acceptsAnyKey_eq (cleaned verified : Rat) (ad : Advertisement ν κ) (hmac : S) :
    s.acceptsAnyKey mac cleaned verified ad hmac = s.node.verifyMessage mac ad hmac := by
  simp only [acceptsAnyKey, verifyMessageAnyKey, cleanupOverlapKey_node]
  cases s.node.verifyMessage mac ad hmac <;> simp

theorem eq_mac_of_valid {node : GossipProtocol ν κ K} {ad : Advertisement ν κ} {hmac : S}
    (valid : node.verifyMessage mac ad hmac = true) : hmac = mac node.hmacKey ad := by
  simpa [GossipProtocol.verifyMessage] using valid

variable [LinearOrder ν] [DecidableEq κ]

theorem processAdvertisement_of_invalid {node : GossipProtocol ν κ K} {ad : Advertisement ν κ}
    {hmac : S} (invalid : node.verifyMessage mac ad hmac = false) (draws : GossipProtocol.Draws ν) :
    node.processAdvertisement mac ad hmac draws = ([], node) := by
  simp [GossipProtocol.processAdvertisement, invalid]

/-- An advertisement that is accepted does what it would do under the current key; any other leaves
the node as it is. An overlap key whose period is over goes in both cases. -/
theorem processAdvertisementAnyKey_eq (cleaned verified : Rat) (ad : Advertisement ν κ) (hmac : S)
    (draws : GossipProtocol.Draws ν) :
    s.processAdvertisementAnyKey mac cleaned verified ad hmac draws =
      if s.acceptsAnyKey mac cleaned verified ad hmac then
        let r := s.node.processAdvertisement mac ad (mac s.node.hmacKey ad) draws
        (r.1, { s.cleanupOverlapKey cleaned with node := r.2 })
      else ([], s.cleanupOverlapKey cleaned) := by
  rw [acceptsAnyKey_eq]
  cases valid : s.node.verifyMessage mac ad hmac with
  | true =>
    have signed := eq_mac_of_valid valid
    subst signed
    simp [processAdvertisementAnyKey, verifyMessageAnyKey, valid]
  | false =>
    have ignored := processAdvertisement_of_invalid valid draws
    have kept : { s.cleanupOverlapKey cleaned with node := s.node } = s.cleanupOverlapKey cleaned := by
      rw [← s.cleanupOverlapKey_node cleaned]
    simp [processAdvertisementAnyKey, ignored, kept]

def Due (s : KeyedProtocol ν κ K) (now : Rat) : Prop :=
  s.keyRotationInterval ≤ now - s.lastKeyRotation ∧ s.sharedHmacKey = false

/-- The advertisement is accepted exactly when its signature is valid under one of the keys, then
with the effect it has under the current key, and else ignored with no effect on the node. -/
structure AcceptsAnyKey (mac : K → Advertisement ν κ → S) (s : KeyedProtocol ν κ K)
    (cleaned verified : Rat) (ad : Advertisement ν κ) (hmac : S)
    (draws : GossipProtocol.Draws ν) : Prop where
  accepts : s.acceptsAnyKey mac cleaned verified ad hmac =
    s.verifyMessageAnyKey mac verified ad hmac
  effect : s.verifyMessageAnyKey mac verified ad hmac = true →
    s.processAdvertisementAnyKey mac cleaned verified ad hmac draws =
      s.processAdvertisementAnyKey mac cleaned verified ad (mac s.node.hmacKey ad) draws
  ignores : s.verifyMessageAnyKey mac verified ad hmac = false →
    (s.processAdvertisementAnyKey mac cleaned verified ad hmac draws).1 = [] ∧
      (s.processAdvertisementAnyKey mac cleaned verified ad hmac draws).2.node = s.node

/-- **Key overlap.** Whatever the rotations so far, the second entry point does as it should with
exactly those advertisements that the current key verifies or the overlap key does not. -/
theorem acceptsAnyKey_iff (s : KeyedProtocol ν κ K) (cleaned verified : Rat)
    (ad : Advertisement ν κ) (hmac : S) (draws : GossipProtocol.Draws ν) :
    AcceptsAnyKey mac s cleaned verified ad hmac draws ↔
      s.node.verifyMessage mac ad hmac = true ∨ s.verifyOverlap mac verified ad hmac = false := by
  constructor
  · intro right
    have accepts := right.accepts
    rw [acceptsAnyKey_eq, verifyMessageAnyKey] at accepts
    cases valid : s.node.verifyMessage mac ad hmac with
    | true => exact .inl rfl
    | false =>
      rw [valid, Bool.false_or] at accepts
      exact .inr accepts.symm
  · intro decided
    have same : s.acceptsAnyKey mac cleaned verified ad hmac =
        s.verifyMessageAnyKey mac verified ad hmac := by
      rw [acceptsAnyKey_eq, verifyMessageAnyKey]
      rcases decided with valid | expired
      · simp [valid]
      · simp [expired]
    refine ⟨same, fun verifies => ?_, fun unknown => ?_⟩
    · rw [← same, acceptsAnyKey_eq] at verifies
      rw [eq_mac_of_valid verifies]
    · rw [processAdvertisementAnyKey_eq, same, unknown]
      exact ⟨rfl, s.cleanupOverlapKey_node cleaned⟩

/-- A node that rotates its key once a day, with numbers for keys. -/
def dailyKeys : KeyedProtocol Nat Nat Nat where
  node := { state := { nodeId := 0 }, hmacKey := 1 }
  lastKeyRotation := 0

def onePrefix : Advertisement Nat Nat where
  nodeId := 1
  cachePrefixes := [7]
  totalCacheEntries := 1
  timestamp := 86400
  vectorClock := {}
  tombstones := ∅
  entryMetadata := ∅
  isDelta := false

/-- A minute behind the rotation, an advertisement under the old key is verified and ignored. -/
theorem overlap_key_ignored :
    ¬ ∀ (s : KeyedProtocol Nat Nat Nat) (now : Rat) (fresh : Nat) (later : Rat)
      (ad : Advertisement Nat Nat) (hmac : Nat) (draws : GossipProtocol.Draws Nat),
      s.Due now → AcceptsAnyKey (fun key ad => key + ad.totalCacheEntries)
        (s.checkKeyRotation now fresh).2 later later ad hmac draws := by
  intro all
  have right := all dailyKeys 86400 2 86460 onePrefix 2 ⟨86460, id, none⟩
    ⟨by decide +kernel, rfl⟩
  exact absurd right.accepts (by decide +kernel)

end KeyedProtocol

end DistLLM.Gossip
