import DistLLM.Radix.Reading

/-!
# The prefix cache

A radix tree with a bound on its entries and a memory budget, and the finite map that it stands for.
What a run of the cache answers is what the finite map says.
-/
namespace DistLLM.Radix

open Library Dict

/-- A tensor with its two sizes, or anything else. -/
inductive Item
  | tensor (elementSize numel : Nat)
  | other

/-- A value of a dict: an object, or a tuple of objects. -/
inductive DictValue
  | item (object : Item)
  | tuple (items : List Item)

/-- What the estimate of the memory looks at. -/
inductive Shape
  | dict (values : List DictValue)
  | sequence (items : List Item)
  | other

/-- Cached data, with all else there is to it. -/
structure KvData (α : Type) where
  payload : α
  shape : Shape

def Item.bytes : Item → Nat
  | .tensor elementSize numel => elementSize * numel
  | .other => 0

def DictValue.bytes : DictValue → Nat
  | .item object => object.bytes
  | .tuple items => (items.map Item.bytes).sum

def estimateEntryMemory {α : Type} (kvData : KvData α) : Nat :=
  match kvData.shape with
  | .dict values => (values.map DictValue.bytes).sum
  | .sequence items => (items.map Item.bytes).sum
  | .other => 0

variable {α : Type}

/-! ### The cache -/

structure RadixTreeCache (α : Type) where
  root : RadixNode (KvData α)
  minPrefixLen : Int
  maxEntries : Int
  memoryBudget : Int
  totalMemoryBytes : Int := 0
  hits : Nat := 0
  misses : Nat := 0

variable (cache : RadixTreeCache α)

namespace RadixTreeCache

/-- The constructor, with the reading of the clock. -/
def create (now : Time) (maxEntries minPrefixLen memoryBudgetBytes : Int) : RadixTreeCache α where
  root := .new now
  minPrefixLen
  maxEntries
  memoryBudget := memoryBudgetBytes

def withinLimits : Bool :=
  (decide (cache.maxEntries ≤ 0) || decide ((cache.root.size : Int) ≤ cache.maxEntries))
    && decide (cache.totalMemoryBytes ≤ cache.memoryBudget)

def evictVictims : List (List Token) → RadixTreeCache α → RadixTreeCache α
  | [], cache => cache
  | path :: victims, cache =>
    if cache.withinLimits then cache
    else
      match cache.root.takePath path with
      | none => evictVictims victims cache
      | some (kvData, root) =>
        evictVictims victims
          { cache with
            root
            totalMemoryBytes := max 0 (cache.totalMemoryBytes - estimateEntryMemory kvData) }

def evictUntilFit : RadixTreeCache α :=
  if cache.withinLimits then cache
  else evictVictims (cache.root.collectEvictable.map Prod.snd) cache

def lookup (now : Nat → Time) (tokenIds : List Token) (cache : RadixTreeCache α) :
    RadixTreeCache α × (Nat × Option (KvData α)) :=
  if (tokenIds.length : Int) < cache.minPrefixLen then
    ({ cache with misses := cache.misses + 1 }, (0, none))
  else
    let (root, (matchLen, kvData)) := cache.root.lookup now tokenIds 0 (0, none)
    if 0 < matchLen ∧ kvData.isSome then
      ({ cache with root, hits := cache.hits + 1 }, (matchLen, kvData))
    else ({ cache with root, misses := cache.misses + 1 }, (0, none))

def store (now : Time) (tokenIds : List Token) (kvData : KvData α) (cache : RadixTreeCache α) :
    RadixTreeCache α :=
  if (tokenIds.length : Int) < cache.minPrefixLen then cache
  else
    let entryBytes := estimateEntryMemory kvData
    let replacedBytes := ((cache.root.get tokenIds).map estimateEntryMemory).getD 0
    let total := cache.totalMemoryBytes + (entryBytes - replacedBytes)
    evictUntilFit
      { cache with
        root := (cache.root.insert now kvData tokenIds).1
        totalMemoryBytes := if total < 0 then 0 else total }

def findSharedPrefix (tokenIds : List Token) (cache : RadixTreeCache α) : Nat :=
  cache.root.findSharedPrefix tokenIds

def evict (tokenIds : List Token) (cache : RadixTreeCache α) : RadixTreeCache α × Bool :=
  match cache.root.takePath tokenIds with
  | none => (cache, false)
  | some (removed, root) =>
    ({ cache with
        root
        totalMemoryBytes := max 0 (cache.totalMemoryBytes - estimateEntryMemory removed) }, true)

def clear (cache : RadixTreeCache α) : RadixTreeCache α :=
  { cache with root := cache.root.clear, totalMemoryBytes := 0, hits := 0, misses := 0 }

def adjustMemoryBudget (newBudgetBytes : Int) (cache : RadixTreeCache α) : RadixTreeCache α :=
  evictUntilFit { cache with memoryBudget := newBudgetBytes }

end RadixTreeCache

/-- A call, with what it reads of the clock. -/
inductive Call (α : Type)
  | store (now : Time) (tokenIds : List Token) (kvData : KvData α)
  | lookup (now : Nat → Time) (tokenIds : List Token)
  | evict (tokenIds : List Token)
  | adjustMemoryBudget (newBudgetBytes : Int)
  | clear

namespace RadixTreeCache

def exec : Call α → RadixTreeCache α
  | .store now tokenIds kvData => cache.store now tokenIds kvData
  | .lookup now tokenIds => (cache.lookup now tokenIds).1
  | .evict tokenIds => (cache.evict tokenIds).1
  | .adjustMemoryBudget newBudgetBytes => cache.adjustMemoryBudget newBudgetBytes
  | .clear => cache.clear

end RadixTreeCache

/-- A finite map from token sequences to data, and the budget it is kept under. -/
structure PrefixMap (α : Type) where
  stored : Dict (List Token) (KvData α)
  budget : Int

namespace PrefixMap

def usage (stored : Dict (List Token) (KvData α)) : Nat :=
  (stored.entries.map fun e => estimateEntryMemory e.2).sum

def Fits (maxEntries budget : Int) (stored : Dict (List Token) (KvData α)) : Prop :=
  (maxEntries ≤ 0 ∨ (stored.size : Int) ≤ maxEntries) ∧ (usage stored : Int) ≤ budget

/-- Entries leave one by one, each while the limits are exceeded. -/
inductive Shrinks (maxEntries budget : Int) :
    Dict (List Token) (KvData α) → Dict (List Token) (KvData α) → Prop
  | stop (stored) : Shrinks maxEntries budget stored stored
  | drop {stored shrunk} (key : List Token) : ¬ Fits maxEntries budget stored → key ∈ stored.keys →
      Shrinks maxEntries budget (stored.filterKeys fun k => decide (k ≠ key)) shrunk →
      Shrinks maxEntries budget stored shrunk

inductive Step (minPrefixLen maxEntries : Int) : PrefixMap α → Call α → PrefixMap α → Prop
  | ignore {map now tokenIds kvData} : (tokenIds.length : Int) < minPrefixLen →
      Step minPrefixLen maxEntries map (.store now tokenIds kvData) map
  | store {map now tokenIds kvData stored} : ¬ (tokenIds.length : Int) < minPrefixLen →
      Shrinks maxEntries map.budget (map.stored.set tokenIds kvData) stored →
      Step minPrefixLen maxEntries map (.store now tokenIds kvData) { map with stored }
  | lookup {map now tokenIds} : Step minPrefixLen maxEntries map (.lookup now tokenIds) map
  | evict {map tokenIds} : Step minPrefixLen maxEntries map (.evict tokenIds)
      { map with stored := map.stored.filterKeys fun k => decide (k ≠ tokenIds) }
  | adjust {map newBudgetBytes stored} : Shrinks maxEntries newBudgetBytes map.stored stored →
      Step minPrefixLen maxEntries map (.adjustMemoryBudget newBudgetBytes)
        ⟨stored, newBudgetBytes⟩
  | clear {map} : Step minPrefixLen maxEntries map .clear { map with stored := ∅ }

inductive Run (minPrefixLen maxEntries : Int) : PrefixMap α → List (Call α) → PrefixMap α → Prop
  | done {map} : Run minPrefixLen maxEntries map [] map
  | call {map next last call calls} : Step minPrefixLen maxEntries map call next →
      Run minPrefixLen maxEntries next calls last →
      Run minPrefixLen maxEntries map (call :: calls) last

end PrefixMap

/-- The longest key that is a prefix of the tokens, with its length and its data. -/
def LongestStored (stored : Dict (List Token) (KvData α)) (tokenIds : List Token)
    (answer : Nat × Option (KvData α)) : Prop :=
  (answer = (0, none) ∧ ∀ key ∈ stored.keys, ¬ key <+: tokenIds) ∨
    ∃ key kvData, stored.get? key = some kvData ∧ key <+: tokenIds ∧
      answer = (key.length, some kvData) ∧
      ∀ other ∈ stored.keys, other <+: tokenIds → other.length ≤ key.length

/-- The greatest length of a common prefix with a key; nothing is shared with no key. -/
def GreatestShared (stored : Dict (List Token) (KvData α)) (tokenIds : List Token)
    (shared : Nat) : Prop :=
  (∀ key ∈ stored.keys, commonPrefixLength tokenIds key ≤ shared) ∧
    (shared = 0 ∨ ∃ key ∈ stored.keys, commonPrefixLength tokenIds key = shared)

/-- The cache holds the entries of the finite map: its lookups go by the keys that count, and its
shared prefixes, the counters of its nodes and its total memory by all of them. -/
structure Represents (counts : List Token → Bool) (cache : RadixTreeCache α)
    (stored : Dict (List Token) (KvData α)) : Prop where
  entries : cache.root.entries.Perm stored.entries
  lookup : ∀ now tokenIds,
    LongestStored (stored.filterKeys counts) tokenIds (cache.lookup now tokenIds).2
  shared : ∀ tokenIds, GreatestShared stored tokenIds (cache.findSharedPrefix tokenIds)
  counters : ∀ path node, cache.root.descend path = some node →
    node.size = (stored.keys.filter fun key => path.isPrefixOf key).length
  memory : cache.totalMemoryBytes = PrefixMap.usage stored

end DistLLM.Radix
