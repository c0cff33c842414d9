import DistLLM.Library.Dict
import DistLLM.Library.Machine
import Mathlib.Algebra.Order.Ring.Rat
import Mathlib.Algebra.BigOperators.Group.List.Basic

/-!
# The tiered memory pool

`TieredMemoryPool`: the caches of three tiers with the bytes each of them counts as used. What
the disk answers and what the clock reads is handed in with each call. Pinning copies data and
does not change it; statistics are left out.
-/
namespace DistLLM.TieredStore

open Library

variable {κ : Type} [DecidableEq κ]

inductive StorageTier
  | hot
  | warm
  | cold
  deriving DecidableEq, Repr

inductive Data
  | tensor (shape : List Nat) (elementSize : Nat) (content : List UInt8)
  | bytes (content : List UInt8)
  | other
  deriving DecidableEq, Repr

def estimateSize : Data → Nat
  | .tensor shape elementSize _ => shape.prod * elementSize
  | .bytes content => content.length
  | .other => 0

structure TieredEntry where
  data : Option Data
  tier : StorageTier
  sizeBytes : Nat
  lastAccess : Rat
  accessCount : Int := 0
  deriving DecidableEq, Repr

/-- The least recently used entry of a tier is the first one. -/
structure Tier (κ : Type) where
  cache : Dict κ TieredEntry := ∅
  used : Int := 0

/-- L1, L2 and L3 are the tiers `hot`, `warm` and `cold`. -/
abbrev TieredMemoryPool (κ : Type) : Type := StorageTier → Tier κ

/-- `mark` is where `evict` stops, the capacity times 0.8 as a float. -/
structure PoolConfig where
  gpuCapacity : Nat
  cpuCapacity : Nat
  nvmeCapacity : Nat
  nvme : Bool
  promotionThreshold : Int
  demotionIdleS : Rat
  mark : Nat → Nat
  mark_le : ∀ capacity, mark capacity ≤ capacity

def PoolConfig.capacity (cfg : PoolConfig) : StorageTier → Nat
  | .hot => cfg.gpuCapacity
  | .warm => cfg.cpuCapacity
  | .cold => if cfg.nvme then cfg.nvmeCapacity else 0

/-- A write to disk may fail, which is logged, or raise. -/
inductive SaveResult
  | saved
  | failed
  | raised
  deriving DecidableEq, Repr

inductive LoadResult
  | loaded (data : Data)
  | missing
  | raised
  deriving DecidableEq, Repr

/-- The clock and the disk during a call. -/
structure Env (κ : Type) where
  now : Rat
  save : κ → SaveResult
  load : LoadResult

/-- What a call leaves behind, whether it returns a value or raises. -/
def afterCall {α : Type} :
    Except (TieredMemoryPool κ) (α × TieredMemoryPool κ) → TieredMemoryPool κ
  | .ok r => r.2
  | .error p => p

def TieredEntry.demoted (tier : StorageTier) (entry : TieredEntry) : TieredEntry :=
  { entry with tier, data := if tier = .cold then none else entry.data }

def TieredEntry.accessed (entry : TieredEntry) (now : Rat) : TieredEntry :=
  { entry with lastAccess := now, accessCount := entry.accessCount + 1 }

def Tier.remove (t : Tier κ) (key : κ) (entry : TieredEntry) : Tier κ :=
  { cache := t.cache.filterKeys fun k => decide (k ≠ key), used := t.used - entry.sizeBytes }

def Tier.store (t : Tier κ) (key : κ) (entry : TieredEntry) : Tier κ :=
  { cache := t.cache.set key entry, used := t.used + entry.sizeBytes }

@[simp] theorem Tier.remove_used (t : Tier κ) (key : κ) (entry : TieredEntry) :
    (t.remove key entry).used = t.used - entry.sizeBytes := rfl

@[simp] theorem Tier.store_used (t : Tier κ) (key : κ) (entry : TieredEntry) :
    (t.store key entry).used = t.used + entry.sizeBytes := rfl

namespace TieredMemoryPool

variable (cfg : PoolConfig) (env : Env κ) (p : TieredMemoryPool κ)

def remove (tier : StorageTier) (key : κ) (entry : TieredEntry) : TieredMemoryPool κ :=
  Function.update p tier ((p tier).remove key entry)

def store (tier : StorageTier) (key : κ) (entry : TieredEntry) : TieredMemoryPool κ :=
  Function.update p tier ((p tier).store key entry)

section Lemmas

variable {p} {tier tier' : StorageTier} {key : κ} {entry : TieredEntry}

@[simp] theorem remove_self : (p.remove tier key entry) tier = (p tier).remove key entry :=
  Function.update_self ..

@[simp] theorem store_self : (p.store tier key entry) tier = (p tier).store key entry :=
  Function.update_self ..

theorem remove_of_ne (other : tier' ≠ tier) : (p.remove tier key entry) tier' = p tier' :=
  Function.update_of_ne other ..

theorem store_of_ne (other : tier' ≠ tier) : (p.store tier key entry) tier' = p tier' :=
  Function.update_of_ne other ..

end Lemmas

variable (tier : StorageTier) (key : κ) (entry : TieredEntry) (sizeBytes : Nat)

def demoteToL2 : TieredMemoryPool κ :=
  p.store .warm key (entry.demoted .warm)

def saveToNvme : SaveResult := if cfg.nvme then env.save key else .failed

/-- `_demote_to_l3`. An entry that is not saved is dropped. -/
def demoteToL3 :
    Except (TieredMemoryPool κ) (TieredMemoryPool κ) :=
  match saveToNvme cfg env key with
  | .saved => .ok (p.store .cold key (entry.demoted .cold))
  | .failed => .ok p
  | .raised => .error p

/-- Least recently used entries of L1 go to L2 while the tier has too many bytes. The list is the
cache, which gets no entries meanwhile. Returns the bytes that went. -/
def demoteL1While (above : Int → Bool) :
    List (κ × TieredEntry) → TieredMemoryPool κ → Nat × TieredMemoryPool κ
  | [], p => (0, p)
  | (key, entry) :: rest, p =>
    if above (p .hot).used then
      let r := demoteL1While above rest (demoteToL2 (p.remove .hot key entry) key entry)
      (entry.sizeBytes + r.1, r.2)
    else (0, p)

def demoteL2While (above : Int → Bool) :
    List (κ × TieredEntry) → TieredMemoryPool κ →
    Except (TieredMemoryPool κ) (Nat × TieredMemoryPool κ)
  | [], p => .ok (0, p)
  | (key, entry) :: rest, p =>
    if above (p .warm).used then do
      let q ← demoteToL3 cfg env (p.remove .warm key entry) key entry
      let r ← demoteL2While above rest q
      .ok (entry.sizeBytes + r.1, r.2)
    else .ok (0, p)

def exceeds (used : Int) : Bool :=
  decide ((cfg.capacity tier : Int) < used + sizeBytes)

def newEntry (data : Option Data) (sizeBytes : Nat) : TieredEntry where
  data
  tier
  sizeBytes
  lastAccess := env.now

def putL1 (data : Option Data) (sizeBytes : Nat) : Bool × TieredMemoryPool κ :=
  let q := (demoteL1While (exceeds cfg .hot sizeBytes) (p .hot).cache.entries p).2
  if exceeds cfg .hot sizeBytes (q .hot).used then (false, q)
  else (true, q.store .hot key (newEntry env .hot data sizeBytes))

/-- `_put_l2`. An entry larger than the tier is stored all the same. -/
def putL2 (data : Option Data) (sizeBytes : Nat) :
    Except (TieredMemoryPool κ) (Bool × TieredMemoryPool κ) := do
  let r ← demoteL2While cfg env (exceeds cfg .warm sizeBytes) (p .warm).cache.entries p
  .ok (true, r.2.store .warm key (newEntry env .warm data sizeBytes))

/-- The loop of `_put_l3`. It leaves the counter as it is. -/
def discardL3While (above : Int → Bool) :
    List (κ × TieredEntry) → TieredMemoryPool κ → TieredMemoryPool κ
  | [], p => p
  | (key, _) :: rest, p =>
    if above (p .cold).used then
      discardL3While above rest (Function.update p .cold
        { (p .cold) with cache := (p .cold).cache.filterKeys fun k => decide (k ≠ key) })
    else p

def putL3 :
    Except (TieredMemoryPool κ) (Bool × TieredMemoryPool κ) :=
  if !cfg.nvme then .ok (false, p)
  else
    let q := discardL3While (exceeds cfg .cold sizeBytes) (p .cold).cache.entries p
    match saveToNvme cfg env key with
    | .saved => .ok (true, q.store .cold key (newEntry env .cold none sizeBytes))
    | .failed => .ok (false, q)
    | .raised => .error q

def put (data : Data) : StorageTier →
    Except (TieredMemoryPool κ) (Bool × TieredMemoryPool κ)
  | .hot => .ok (p.putL1 cfg env key data (estimateSize data))
  | .warm => p.putL2 cfg env key data (estimateSize data)
  | .cold => p.putL3 cfg env key (estimateSize data)

/-- The access is counted, and the entry stays at its place. -/
def access : TieredMemoryPool κ :=
  Function.update p tier { (p tier) with cache := (p tier).cache.set key (entry.accessed env.now) }

def moveToEnd (tier : StorageTier) (key : κ) : TieredMemoryPool κ :=
  Function.update p tier { (p tier) with cache := (p tier).cache.moveToEnd key }

def promoteToL1 : TieredMemoryPool κ :=
  (putL1 cfg env (p.remove .warm key entry) key entry.data entry.sizeBytes).2

def promoteToL2 (data : Data) :
    Except (TieredMemoryPool κ) (Bool × TieredMemoryPool κ) :=
  putL2 cfg env (p.remove .cold key entry) key (some data) entry.sizeBytes

/-- What `get` does with an entry of L3. An entry that cannot be loaded goes, and its bytes stay
counted. -/
def getL3 :
    Except (TieredMemoryPool κ) (Option Data × TieredMemoryPool κ) :=
  match env.load with
  | .loaded data => do
    let r ← promoteToL2 cfg env p key entry data
    .ok (some data, r.2)
  | .missing => .ok (none, Function.update p .cold
      { (p .cold) with cache := (p .cold).cache.filterKeys fun k => decide (k ≠ key) })
  | .raised => .error p

def get (key : κ) : Except (TieredMemoryPool κ) (Option Data × TieredMemoryPool κ) :=
  match (p .hot).cache.get? key with
  | some entry => .ok (entry.data, (p.access env .hot key entry).moveToEnd .hot key)
  | none =>
    match (p .warm).cache.get? key with
    | some entry =>
      let q := p.access env .warm key entry
      if cfg.promotionThreshold ≤ (entry.accessed env.now).accessCount then
        .ok (entry.data, q.promoteToL1 cfg env key (entry.accessed env.now))
      else .ok (entry.data, q.moveToEnd .warm key)
    | none =>
      match (p .cold).cache.get? key with
      | some entry => getL3 cfg env (p.access env .cold key entry) key (entry.accessed env.now)
      | none => .ok (none, p)

def aboveMark (used : Int) : Bool :=
  decide ((cfg.mark (cfg.capacity tier) : Int) < used)

/-- `evict`. The number of bytes to free is not used. -/
def evict : Except (TieredMemoryPool κ) (Nat × TieredMemoryPool κ) := do
  let r := demoteL1While (aboveMark cfg .hot) (p .hot).cache.entries p
  let r' ← demoteL2While cfg env (aboveMark cfg .warm) (r.2 .warm).cache.entries r.2
  .ok (r.1 + r'.1, r'.2)

/-- At most ten entries that were not accessed for some time, least recently used first. -/
def idleEntries (idle : Rat) (entries : List (κ × TieredEntry)) : List (κ × TieredEntry) :=
  (entries.filter fun e => decide (idle < env.now - e.2.lastAccess)).take 10

def demoteIdleEntries : Except (TieredMemoryPool κ) (Unit × TieredMemoryPool κ) := do
  let q := (idleEntries env cfg.demotionIdleS (p .hot).cache.entries).foldl
    (fun q e => demoteToL2 (q.remove .hot e.1 e.2) e.1 e.2) p
  let q' ← (idleEntries env (cfg.demotionIdleS * 2) (q .warm).cache.entries).foldlM
    (fun q e => demoteToL3 cfg env (q.remove .warm e.1 e.2) e.1 e.2) q
  .ok ((), q')

end TieredMemoryPool

inductive TierAction (κ : Type)
  | put (key : κ) (data : Data) (tier : StorageTier)
  | get (key : κ)
  | evict
  | demoteIdleEntries
  deriving DecidableEq, Repr

namespace TieredMemoryPool

def exec (cfg : PoolConfig) (p : TieredMemoryPool κ) (env : Env κ) :
    TierAction κ → TieredMemoryPool κ
  | .put key data tier => afterCall (p.put cfg env key data tier)
  | .get key => afterCall (p.get cfg env key)
  | .evict => afterCall (p.evict cfg env)
  | .demoteIdleEntries => afterCall (p.demoteIdleEntries cfg env)

end TieredMemoryPool

/-- Calls one after the other, each with the answers it gets. -/
def tiering (κ : Type) [DecidableEq κ] (cfg : PoolConfig) :
    Machine (TieredMemoryPool κ) (Env κ × TierAction κ) where
  init p := p = fun _ => {}
  enabled _ _ := True
  exec p act := p.exec cfg act.1 act.2

end DistLLM.TieredStore
