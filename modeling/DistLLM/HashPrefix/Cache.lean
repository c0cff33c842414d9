import DistLLM.Library.Machine
import DistLLM.Radix.Cache
import Mathlib.Data.Finset.Insert

/-!
# The hash prefix cache

`PrefixCache`: entries under the polynomial hash of their tokens and a tenant, a Bloom filter over
the shortest prefixes, an optional `TTLPolicy`, and eviction by memory.
-/
namespace DistLLM.HashPrefix

open Library Radix

abbrev Key := Int × String

/-- The bit array as the set of the bits that are set. -/
structure BloomFilter where
  size : Nat
  numHashes : Nat
  bits : Finset Int

namespace BloomFilter

def hash (f : BloomFilter) (tokenIds : List Token) (seed : Nat) : Int :=
  tokenIds.foldl (fun (h : Int) tok => (h * 31337 + tok + seed * 7919) % (2 ^ 61 - 1)) seed % f.size

def add (f : BloomFilter) (tokenIds : List Token) : BloomFilter :=
  { f with
    bits := (List.range f.numHashes).foldl (fun bits i => insert (f.hash tokenIds i) bits) f.bits }

def mightContain (f : BloomFilter) (tokenIds : List Token) : Bool :=
  (List.range f.numHashes).all fun i => decide (f.hash tokenIds i ∈ f.bits)

def clear (f : BloomFilter) : BloomFilter := { f with bits := ∅ }

end BloomFilter

structure TTLPolicy where
  defaultTtl : Time
  entryTtl : Dict Key Time
  entryStoredAt : Dict Key Time

variable (tokenIds : List Token) (p : TTLPolicy) (key : Key) (now : Time)

namespace TTLPolicy

/-- A key that was never recorded counts as expired. -/
def isExpired : Bool :=
  match p.entryStoredAt.get? key with
  | none => true
  | some storedAt => decide (now - storedAt > p.entryTtl.getD key p.defaultTtl)

def getExpiredKeys (allKeys : List Key) (now : Time) : List Key :=
  allKeys.filter (p.isExpired · now)

def recordAccess : TTLPolicy :=
  { p with entryStoredAt := p.entryStoredAt.set key now }

def remove : TTLPolicy :=
  { p with
    entryTtl := p.entryTtl.filterKeys fun k => decide (k ≠ key)
    entryStoredAt := p.entryStoredAt.filterKeys fun k => decide (k ≠ key) }

def clear : TTLPolicy := { p with entryTtl := ∅, entryStoredAt := ∅ }

end TTLPolicy

/-! ### The cache -/

structure Entry (α : Type) where
  tokens : List Token
  kvData : KvData α
  accessCount : Nat

structure PrefixCache (α : Type) where
  minPrefixLen : Int
  cache : Dict Key (Entry α)
  hits : Nat
  misses : Nat
  memoryBudget : Int
  totalMemoryBytes : Int
  maxEntriesSoft : Int
  ttlPolicy : Option TTLPolicy
  bloom : BloomFilter

/-- What a call of `store` reads from its surroundings: the clock at the record of the access and at
the search for expired keys, and the budget that a check of the memory pressure leaves, if one is
due. -/
structure Readings where
  accessed : Time
  expiry : Time
  adjustedBudget : Option Int

variable {α : Type}

/-- `tokens[:n]`: a negative bound counts from the end. -/
def sliceTo (n : Int) (tokens : List Token) : List Token :=
  if 0 ≤ n then tokens.take n.toNat else tokens.take (tokens.length - (-n).toNat)

def popOldest (d : Dict Key (Entry α)) : Dict Key (Entry α) :=
  match d.entries with
  | [] => d
  | (key, _) :: _ => d.filterKeys fun k => decide (k ≠ key)

namespace PrefixCache

def hashStep (h : Int) (tok : Token) : Int := (h * 31337 + tok) % (2 ^ 61 - 1)

def computeFullHash : Int := tokenIds.foldl hashStep 0

def create (maxEntries minPrefixLen memoryBudgetBytes : Int) (ttlPolicy : Option TTLPolicy) :
    PrefixCache α where
  minPrefixLen := minPrefixLen
  cache := ∅
  hits := 0
  misses := 0
  memoryBudget := memoryBudgetBytes
  totalMemoryBytes := 0
  maxEntriesSoft := maxEntries
  ttlPolicy := ttlPolicy
  bloom := ⟨(max (max maxEntries 1 * 8) (2 ^ 16)).toNat, 7, ∅⟩

variable (c : PrefixCache α)

def maxEntries (size : Nat) : Int := if c.maxEntriesSoft ≠ 0 then c.maxEntriesSoft else size + 1

/-- Take an entry out, with its memory and its time to live. -/
def dropEntry (key : Key) (entry : Entry α) : PrefixCache α :=
  { c with
    cache := c.cache.filterKeys fun k => decide (k ≠ key)
    totalMemoryBytes := max 0 (c.totalMemoryBytes - estimateEntryMemory entry.kvData)
    ttlPolicy := c.ttlPolicy.map (·.remove key) }

/-- The loop over the expired keys, and whether it has returned from the eviction. -/
def evictExpired (neededBytes : Int) : List Key → PrefixCache α → PrefixCache α × Bool
  | [], c => (c, false)
  | key :: rest, c =>
    match c.cache.get? key with
    | none => evictExpired neededBytes rest c
    | some entry =>
      let c := c.dropEntry key entry
      if c.totalMemoryBytes + neededBytes ≤ c.memoryBudget then (c, true)
      else evictExpired neededBytes rest c

def leastUsed : List (Key × Entry α) → Option (Key × Entry α)
  | [] => none
  | e :: rest =>
    match leastUsed rest with
    | none => some e
    | some other => if other.2.accessCount < e.2.accessCount then some other else some e

def victim : Option (Key × Entry α) :=
  if 10 < c.cache.size then c.cache.entries.head? else leastUsed c.cache.entries

/-- Evict until the budget holds; every pass takes an entry. -/
def evictOver (neededBytes : Int) : Nat → PrefixCache α → PrefixCache α
  | 0, c => c
  | fuel + 1, c =>
    if c.memoryBudget < c.totalMemoryBytes + neededBytes then
      match c.victim with
      | none => c
      | some (key, entry) => evictOver neededBytes fuel (c.dropEntry key entry)
    else c

def expiredKeys (now : Time) : List Key :=
  match c.ttlPolicy with
  | none => []
  | some policy => policy.getExpiredKeys c.cache.keys now

def evictUntilFit (readings : Readings) (neededBytes : Int) : PrefixCache α :=
  let c := { c with memoryBudget := readings.adjustedBudget.getD c.memoryBudget }
  match evictExpired neededBytes (c.expiredKeys readings.expiry) c with
  | (c, true) => c
  | (c, false) => evictOver neededBytes c.cache.size c

/-- The running hashes of the prefixes that are long enough, with their lengths. -/
def hashes (minPrefixLen : Int) : Nat → Int → List Token → List (Nat × Int)
  | _, _, [] => []
  | i, running, tok :: rest =>
    let running := hashStep running tok
    let later := hashes minPrefixLen (i + 1) running rest
    if minPrefixLen ≤ (i + 1 : Nat) then (i + 1, running) :: later else later

def isExpired (key : Key) (now : Time) : Bool := (c.ttlPolicy.map (·.isExpired key now)).getD false

/-- One candidate: a cached entry that has not expired and is for these very tokens. -/
def probe (tokenIds : List Token) (tenantId : String) (clock : Nat → Time)
    (candidate : Nat × Int) : Option (Nat × Key × Entry α) :=
  let (length, h) := candidate
  match c.cache.get? (h, tenantId) with
  | none => none
  | some cached =>
    if c.isExpired (h, tenantId) (clock length) then none
    else if cached.tokens.length = length ∧ cached.tokens = tokenIds.take length then
      some (length, (h, tenantId), cached)
    else none

/-- Note a use of an entry: it goes last, and its clock starts again. -/
def touch (key : Key) (entry : Entry α) (now : Time) : PrefixCache α :=
  { c with
    cache := (c.cache.filterKeys fun k => decide (k ≠ key)).set key
      { entry with accessCount := entry.accessCount + 1 }
    ttlPolicy := c.ttlPolicy.map (·.recordAccess key now) }

def missed : PrefixCache α := { c with misses := c.misses + 1 }

/-- `lookup`, with the clock when a length is tried and when the hit is recorded. -/
def lookup (clock : Nat → Time) (accessed : Time) (tokenIds : List Token) (tenantId : String) :
    PrefixCache α × (Nat × Option (KvData α)) :=
  if (tokenIds.length : Int) < c.minPrefixLen then (c.missed, (0, none))
  else if c.bloom.mightContain (sliceTo c.minPrefixLen tokenIds) = false then (c.missed, (0, none))
  else
    match (hashes c.minPrefixLen 0 0 tokenIds).reverse.findSome?
        (c.probe tokenIds tenantId clock) with
    | none => (c.missed, (0, none))
    | some (length, key, cached) =>
      ({ c.touch key cached accessed with hits := c.hits + 1 }, (length, some cached.kvData))

/-- Pop the oldest entries until there is room, and whether `popitem` has raised. -/
def makeRoom : Nat → PrefixCache α → PrefixCache α × Bool
  | 0, c => (c, decide (c.maxEntries c.cache.size ≤ c.cache.size))
  | fuel + 1, c =>
    if c.maxEntries c.cache.size ≤ c.cache.size then
      makeRoom fuel { c with cache := popOldest c.cache }
    else (c, false)

/-- Whether a store is turned away, because of its length or its memory. -/
def refuses (tokenIds : List Token) (kvData : KvData α) : Bool :=
  decide ((tokenIds.length : Int) < c.minPrefixLen)
    || decide (c.memoryBudget < estimateEntryMemory kvData)

def place (readings : Readings) (tokenIds : List Token) (kvData : KvData α) (key : Key) :
    PrefixCache α :=
  { c with
    cache := c.cache.set key ⟨tokenIds, kvData, 1⟩
    totalMemoryBytes := c.totalMemoryBytes + estimateEntryMemory kvData
    bloom := c.bloom.add (sliceTo c.minPrefixLen tokenIds)
    ttlPolicy := c.ttlPolicy.map (·.recordAccess key readings.accessed) }

/-- `store`, and whether it has raised. An entry that is there already gets the new data. -/
def store (readings : Readings) (tokenIds : List Token) (kvData : KvData α) (tenantId : String) :
    PrefixCache α × Bool :=
  if c.refuses tokenIds kvData then (c, false)
  else
    let key := (computeFullHash tokenIds, tenantId)
    match c.cache.get? key with
    | some entry => (c.touch key { entry with kvData := kvData } readings.accessed, false)
    | none =>
      match makeRoom c.cache.size c with
      | (c, true) => (c, true)
      | (c, false) => ((c.place readings tokenIds kvData key).evictUntilFit readings 0, false)

def evict (tokenIds : List Token) (tenantId : String) : PrefixCache α × Bool :=
  let key := (computeFullHash tokenIds, tenantId)
  match c.cache.get? key with
  | none => (c, false)
  | some _ => ({ c with cache := c.cache.filterKeys fun k => decide (k ≠ key) }, true)

def clear : PrefixCache α :=
  { c with
    cache := ∅
    hits := 0
    misses := 0
    ttlPolicy := c.ttlPolicy.map (·.clear)
    bloom := c.bloom.clear }

end PrefixCache

/-- The cache and the stores there have been. What a store brings is marked with its number. -/
structure Stored (α : Type) where
  cache : PrefixCache (α × Nat)
  stores : List (List Token × String × KvData α)

inductive Call (α : Type) where
  | lookup (clock : Nat → Time) (accessed : Time) (tokenIds : List Token) (tenantId : String)
  | store (readings : Readings) (tokenIds : List Token) (kvData : KvData α) (tenantId : String)
  | evict (tokenIds : List Token) (tenantId : String)
  | clear

/-- The data of a store, marked with its number. -/
def Stored.mark (s : Stored α) (kvData : KvData α) : KvData (α × Nat) :=
  ⟨(kvData.payload, s.stores.length), kvData.shape⟩

def unmark (kvData : KvData (α × Nat)) : KvData α := ⟨kvData.payload.1, kvData.shape⟩

def Stored.exec (s : Stored α) : Call α → Stored α
  | .lookup clock accessed tokenIds tenantId =>
    { s with cache := (s.cache.lookup clock accessed tokenIds tenantId).1 }
  | .store readings tokenIds kvData tenantId =>
    ⟨(s.cache.store readings tokenIds (s.mark kvData) tenantId).1,
      s.stores ++ [(tokenIds, tenantId, kvData)]⟩
  | .evict tokenIds tenantId => { s with cache := (s.cache.evict tokenIds tenantId).1 }
  | .clear => { s with cache := s.cache.clear }

def prefixCaching (α : Type) (minPrefixLen : Int) : Machine (Stored α) (Call α) where
  init s := ∃ maxEntries memoryBudget ttlPolicy,
    s = ⟨.create maxEntries minPrefixLen memoryBudget ttlPolicy, []⟩
  enabled _ _ := True
  exec := Stored.exec

end DistLLM.HashPrefix
