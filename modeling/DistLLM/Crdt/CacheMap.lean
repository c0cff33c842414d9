import DistLLM.Crdt.Clock
import DistLLM.Library.Latest
import Mathlib.Data.Finset.Image

/-!
# The replicated cache map

Membership of keys is an observed-remove set, the value of a key a register of the last write. The
causal context is left out, since nothing reads it.
-/
namespace DistLLM.Crdt

open DistLLM.Library

variable {κ V ν : Type}

/-- Elements with the tags of their adds, and the tags that removes have observed. The node of the
set is that of its clock. -/
structure ORSet (κ ν : Type) where
  clock : HybridLogicalClock ν
  adds : Finset (κ × Timestamp ν) := ∅
  removes : Finset (κ × Timestamp ν) := ∅

namespace ORSet

variable [DecidableEq κ] [LinearOrder ν]

/-- The constructor, with the reading of the wall clock. -/
def create (nodeId : ν) (now : Int) : ORSet κ ν where
  clock := { nodeId, lastPhysicalNs := now }

def add (set : ORSet κ ν) (elem : κ) (now : Int) : Timestamp ν × ORSet κ ν :=
  let (tag, clock) := set.clock.tick now
  (tag, { set with clock, adds := insert (elem, tag) set.adds })

def observed (set : ORSet κ ν) (elem : κ) : Finset (κ × Timestamp ν) :=
  set.adds.filter fun pair => pair.1 = elem

def remove (set : ORSet κ ν) (elem : κ) (now : Int) : Timestamp ν × ORSet κ ν :=
  let (tag, clock) := set.clock.tick now
  (tag, { set with clock, removes := set.removes ∪ set.observed elem })

/-- `merge`. The tags of the other set are folded into the clock in the order in which Python lists
them, each with a reading. -/
def merge (set other : ORSet κ ν) (order : List (κ × Timestamp ν)) (readings : Nat → Int) :
    ORSet κ ν where
  clock := set.clock.observeAll readings (order.map Prod.snd)
  adds := set.adds ∪ other.adds
  removes := set.removes ∪ other.removes

/-- `order` lists the tags of a set as iterating over it does. -/
def Lists (set : ORSet κ ν) (order : List (κ × Timestamp ν)) : Prop :=
  order.Nodup ∧ order.toFinset = set.adds ∪ set.removes

instance (set : ORSet κ ν) (order : List (κ × Timestamp ν)) : Decidable (set.Lists order) :=
  inferInstanceAs (Decidable (_ ∧ _))

/-- `merged`: a new set with a new clock, into which only the tags of `other` are folded. -/
def merged (set other : ORSet κ ν) (now : Int) (order : List (κ × Timestamp ν))
    (readings : Nat → Int) : ORSet κ ν :=
  { (create set.clock.nodeId now : ORSet κ ν) with
    adds := set.adds, removes := set.removes }.merge other order readings

def removedTags (set : ORSet κ ν) : Finset (Timestamp ν) := set.removes.image Prod.snd

def elements (set : ORSet κ ν) : Finset κ :=
  (set.adds.filter fun pair => pair.2 ∉ set.removedTags).image Prod.fst

end ORSet

/-- Without a value, the register is a tombstone. -/
structure LWWRegister (V ν : Type) where
  value : Option V
  timestamp : Timestamp ν

namespace LWWRegister

variable [LinearOrder ν]

def merge (reg other : LWWRegister V ν) : LWWRegister V ν :=
  if reg.timestamp < other.timestamp then other
  else if other.timestamp = reg.timestamp ∧ reg.timestamp.nodeId < other.timestamp.nodeId then other
  else reg

/-- A register is taken as it is, or merged into the one that is there. -/
def takeIn (reg : LWWRegister V ν) : Option (LWWRegister V ν) → LWWRegister V ν
  | none => reg
  | some cur => cur.merge reg

end LWWRegister

structure CRDTCacheMap (κ V ν : Type) where
  membership : ORSet κ ν
  values : κ → Option (LWWRegister V ν) := fun _ => none

namespace CRDTCacheMap

variable [DecidableEq κ] [LinearOrder ν]

def clock (map : CRDTCacheMap κ V ν) : HybridLogicalClock ν := map.membership.clock

/-- The constructor, with the reading of the wall clock. -/
def create (nodeId : ν) (now : Int) : CRDTCacheMap κ V ν where
  membership := ORSet.create nodeId now

def put (map : CRDTCacheMap κ V ν) (key : κ) (value : Option V) (now : Int) :
    Timestamp ν × CRDTCacheMap κ V ν :=
  let (tag, membership) := map.membership.add key now
  let newReg : LWWRegister V ν := ⟨value, membership.clock.lastTimestamp⟩
  (tag,
    { membership
      values := Function.update map.values key (some (newReg.takeIn (map.values key))) })

/-- `remove`. The tombstone of the register has a stamp of its own, with a second reading. -/
def remove (map : CRDTCacheMap κ V ν) (key : κ) (now now' : Int) :
    Timestamp ν × CRDTCacheMap κ V ν :=
  let (tag, membership) := map.membership.remove key now
  match map.values key with
  | none => (tag, { map with membership })
  | some existing =>
    let (stamp, clock) := membership.clock.tick now'
    (tag,
      { membership := { membership with clock }
        values := Function.update map.values key (some (existing.merge ⟨none, stamp⟩)) })

def mergeValues (values other : κ → Option (LWWRegister V ν)) (key : κ) :
    Option (LWWRegister V ν) :=
  match other key with
  | none => values key
  | some reg => some (reg.takeIn (values key))

def merge (map other : CRDTCacheMap κ V ν) (order : List (κ × Timestamp ν)) (readings : Nat → Int) :
    CRDTCacheMap κ V ν where
  membership := map.membership.merge other.membership order readings
  values := mergeValues map.values other.values

def merged (map other : CRDTCacheMap κ V ν) (now : Int) (order : List (κ × Timestamp ν))
    (readings : Nat → Int) : CRDTCacheMap κ V ν where
  membership := map.membership.merged other.membership now order readings
  values key :=
    match map.values key, other.values key with
    | some a, some b => some (a.merge b)
    | some a, none => some a
    | none, b => b

def get (map : CRDTCacheMap κ V ν) (key : κ) : Option V :=
  if key ∈ map.membership.elements then
    match map.values key with
    | none => none
    | some reg => reg.value
  else none

def contains (map : CRDTCacheMap κ V ν) (key : κ) : Bool := (map.get key).isSome

def keys (map : CRDTCacheMap κ V ν) : Finset κ :=
  map.membership.elements.filter fun key => (map.get key).isSome

def items (map : CRDTCacheMap κ V ν) (key : κ) : Option V :=
  if key ∈ map.keys then map.get key else none

/-- `ingest`: a value with the stamp that the wire carries. A key that is not present is added
first, with a stamp of this node. -/
def ingest (map : CRDTCacheMap κ V ν) (key : κ) (value : Option V) (ts : Timestamp ν)
    (now now' : Int) : CRDTCacheMap κ V ν :=
  let membership :=
    if key ∈ map.membership.elements then map.membership else (map.membership.add key now).2
  { membership := { membership with clock := (membership.clock.observe now' ts).2 }
    values := Function.update map.values key
      (some ((⟨value, ts⟩ : LWWRegister V ν).takeIn (map.values key))) }

end CRDTCacheMap

theorem ORSet.mem_elements [DecidableEq κ] [LinearOrder ν] {set : ORSet κ ν} {elem : κ} :
    elem ∈ set.elements ↔ ∃ tag, (elem, tag) ∈ set.adds ∧ ∀ other, (other, tag) ∉ set.removes := by
  simp only [ORSet.elements, ORSet.removedTags, Finset.mem_image, Finset.mem_filter]
  constructor
  · rintro ⟨⟨_, tag⟩, ⟨added, alive⟩, rfl⟩
    exact ⟨tag, added, fun other removed => alive ⟨(other, tag), removed, rfl⟩⟩
  · rintro ⟨tag, added, alive⟩
    refine ⟨(elem, tag), ⟨added, ?_⟩, rfl⟩
    rintro ⟨⟨other, _⟩, removed, rfl⟩
    exact alive other removed

theorem LWWRegister.merge_eq [LinearOrder ν] (reg other : LWWRegister V ν) :
    reg.merge other = if reg.timestamp < other.timestamp then other else reg := by
  simp only [LWWRegister.merge]
  split
  · rfl
  · rw [if_neg]
    rintro ⟨same, before⟩
    rw [same] at before
    exact lt_irrefl _ before

theorem LWWRegister.takeIn_eq [LinearOrder ν] (reg : LWWRegister V ν)
    (cur : Option (LWWRegister V ν)) :
    some (reg.takeIn cur) = later LWWRegister.timestamp cur (some reg) := by
  cases cur with
  | none => rfl
  | some mine =>
    simp only [LWWRegister.takeIn, LWWRegister.merge_eq, later]
    split <;> rfl

namespace CRDTCacheMap

variable [LinearOrder ν] {map other : CRDTCacheMap κ V ν} {key : κ}

theorem mergeValues_eq (values other : κ → Option (LWWRegister V ν)) (key : κ) :
    mergeValues values other key = later LWWRegister.timestamp (values key) (other key) := by
  simp only [mergeValues]
  cases other key with
  | none => cases values key <;> rfl
  | some reg => exact LWWRegister.takeIn_eq reg (values key)

variable [DecidableEq κ]

theorem merged_values (now : Int) (order : List (κ × Timestamp ν)) (readings : Nat → Int) :
    (map.merged other now order readings).values key =
      later LWWRegister.timestamp (map.values key) (other.values key) := by
  simp only [merged]
  cases map.values key with
  | none => rfl
  | some a =>
    cases other.values key with
    | none => rfl
    | some b =>
      simp only [LWWRegister.merge_eq, later]
      split <;> rfl

theorem contains_iff : map.contains key = true ↔
    key ∈ map.membership.elements ∧ ∃ reg, map.values key = some reg ∧ reg.value ≠ none := by
  unfold contains get
  split
  next present =>
    cases map.values key with
    | none => simp
    | some reg => simp [present, Option.isSome_iff_ne_none]
  next absent => simp [absent]

theorem put_values (map : CRDTCacheMap κ V ν) (key : κ) (value : Option V) (now : Int) :
    (map.put key value now).2.values key = later LWWRegister.timestamp (map.values key)
      (some ⟨value, (map.clock.tick now).1⟩) := by
  rw [← LWWRegister.takeIn_eq]
  simp [put]
  rfl

theorem put_values_of_ne {key' : κ} (other : key' ≠ key) (value : Option V) (now : Int) :
    (map.put key value now).2.values key' = map.values key' := by
  simp [put, other]

theorem mem_elements_put (map : CRDTCacheMap κ V ν) (key : κ) (value : Option V) (now : Int)
    (key' : κ) : key' ∈ (map.put key value now).2.membership.elements ↔
      key' = key ∧ (map.clock.tick now).1 ∉ map.membership.removedTags ∨
        key' ∈ map.membership.elements := by
  have removed : ∀ tag, tag ∉ map.membership.removedTags ↔
      ∀ other, (other, tag) ∉ map.membership.removes := by
    simp [ORSet.removedTags]
  simp only [ORSet.mem_elements, put, ORSet.add, Finset.mem_insert, Prod.mk.injEq, removed]
  constructor
  · rintro ⟨tag, ⟨rfl, rfl⟩ | added, alive⟩
    · exact .inl ⟨rfl, alive⟩
    · exact .inr ⟨tag, added, alive⟩
  · rintro (⟨rfl, fresh⟩ | ⟨tag, added, alive⟩)
    · exact ⟨_, .inl ⟨rfl, rfl⟩, fresh⟩
    · exact ⟨tag, .inr added, alive⟩

end CRDTCacheMap

end DistLLM.Crdt
