import DistLLM.Radix.Cache
import Mathlib.Algebra.BigOperators.Group.List.Basic

/-!
# The prefix cache refines a finite map

Each call does to the tree what it does to the finite map, and what the tree answers is read off the
map.
-/
namespace DistLLM.Radix

open Library Dict PrefixMap

variable {α : Type}

/-! ### The cache and its map -/

/-- The cache has the entries of the map, accounts for their sizes, and holds no short key. -/
structure Mirrors (minPrefixLen maxEntries : Int) (cache : RadixTreeCache α) (map : PrefixMap α) :
    Prop where
  entries : cache.root.entries.Perm map.stored.entries
  formed : cache.root.WellFormed
  memory : cache.totalMemoryBytes = usage map.stored
  budget : cache.memoryBudget = map.budget
  long : ∀ key ∈ map.stored.keys, minPrefixLen ≤ key.length
  minPrefixLen : cache.minPrefixLen = minPrefixLen
  maxEntries : cache.maxEntries = maxEntries

section

variable {minPrefixLen maxEntries : Int} {cache : RadixTreeCache α} {map : PrefixMap α}
  {stored : Dict (List Token) (KvData α)} {key : List Token} {kvData : KvData α}

theorem usage_of_perm {stored' : Dict (List Token) (KvData α)}
    (perm : stored.entries.Perm ((key, kvData) :: stored'.entries)) :
    usage stored = estimateEntryMemory kvData + usage stored' := by
  simpa [usage] using (perm.map fun e => estimateEntryMemory e.2).sum_eq

theorem usage_filterKeys (found : stored.get? key = some kvData) : usage stored
      = estimateEntryMemory kvData + usage (stored.filterKeys fun k => decide (k ≠ key)) :=
  usage_of_perm (stored.entries_perm_filterKeys key kvData found)

theorem mem_keys_filterKeys {p : List Token → Bool} :
    key ∈ (stored.filterKeys p).keys ↔ key ∈ stored.keys ∧ p key = true := by
  simp only [Dict.mem_keys_iff, get?_filterKeys]
  by_cases kept : p key = true <;> simp [kept]

theorem mem_keys_set {k : List Token}
    (member : k ∈ (stored.set key kvData).keys) : k = key ∨ k ∈ stored.keys := by
  rw [Dict.mem_keys_iff, get?_set] at member
  by_cases same : key = k
  · exact Or.inl same.symm
  · simp only [same, if_false] at member
    exact Or.inr ((Dict.mem_keys_iff stored).mpr member)

namespace Mirrors

section

variable (mirrors : Mirrors minPrefixLen maxEntries cache map)

include mirrors

theorem get?_eq (key : List Token) :
    map.stored.get? key = cache.root.get key := by
  apply Option.ext
  intro v
  rw [← Dict.mem_entries_iff, ← mirrors.formed.mem_entries_iff]
  exact mirrors.entries.mem_iff.symm

theorem withinLimits_iff :
    cache.withinLimits = true ↔ Fits maxEntries map.budget map.stored := by
  have size_eq : cache.root.size = map.stored.size := by
    rw [mirrors.formed.counted, mirrors.entries.length_eq, Dict.size]
  simp [RadixTreeCache.withinLimits, Fits, size_eq, mirrors.maxEntries, mirrors.memory,
    mirrors.budget]

theorem get?_of_takePath
    (absent : cache.root.takePath key = none) : map.stored.get? key = none := by
  rw [mirrors.get?_eq]
  by_contra some
  obtain ⟨v, leads⟩ := Option.ne_none_iff_exists'.mp some
  obtain ⟨root, took, -⟩ := (RadixNode.takePath_spec mirrors.formed key).2 v leads
  rw [absent] at took
  cases took

theorem taken {root : RadixNode (KvData α)} (took : cache.root.takePath key = some (kvData, root)) :
    key ∈ map.stored.keys ∧
      Mirrors minPrefixLen maxEntries
        { cache with
          root
          totalMemoryBytes := max 0 (cache.totalMemoryBytes - estimateEntryMemory kvData) }
        { map with stored := map.stored.filterKeys fun k => decide (k ≠ key) } := by
  obtain ⟨absent, present⟩ := RadixNode.takePath_spec mirrors.formed key
  cases leads : cache.root.get key with
  | none =>
    rw [absent leads] at took
    cases took
  | some found =>
    obtain ⟨root', took', perm, formed⟩ := present found leads
    obtain ⟨rfl, rfl⟩ : found = kvData ∧ root' = root := by simpa [took] using took'.symm
    have there := (mirrors.get?_eq key).trans leads
    refine ⟨(Dict.mem_keys_iff _).mpr ⟨_, there⟩, ?_⟩
    have total := usage_filterKeys there
    constructor
    case entries => exact perm.trans (mirrors.entries.filter _)
    case formed => exact formed
    case memory =>
      simp only [mirrors.memory]
      omega
    case budget => exact mirrors.budget
    case long => exact fun k member => mirrors.long k (mem_keys_filterKeys.mp member).1
    case minPrefixLen => exact mirrors.minPrefixLen
    case maxEntries => exact mirrors.maxEntries

end

theorem evictVictims (victims : List (List Token))
    (mirrors : Mirrors minPrefixLen maxEntries cache map) :
    ∃ stored, Shrinks maxEntries map.budget map.stored stored ∧
      Mirrors minPrefixLen maxEntries (cache.evictVictims victims) { map with stored } := by
  induction victims generalizing cache map with
  | nil => exact ⟨_, .stop _, mirrors⟩
  | cons path victims ih =>
    simp only [RadixTreeCache.evictVictims]
    split
    next fits => exact ⟨_, .stop _, mirrors⟩
    next exceeded =>
      split
      next absent => exact ih mirrors
      next kvData root took =>
        obtain ⟨member, mirrors'⟩ := mirrors.taken took
        obtain ⟨stored, shrinks, after⟩ := ih mirrors'
        rw [mirrors.withinLimits_iff] at exceeded
        exact ⟨stored, .drop path exceeded member shrinks, after⟩

variable (mirrors : Mirrors minPrefixLen maxEntries cache map)

include mirrors

theorem evictUntilFit :
    ∃ stored, Shrinks maxEntries map.budget map.stored stored ∧
      Mirrors minPrefixLen maxEntries cache.evictUntilFit { map with stored } := by
  simp only [RadixTreeCache.evictUntilFit]
  split
  · exact ⟨_, .stop _, mirrors⟩
  · exact mirrors.evictVictims _

theorem inserted (now : Time) {tokenIds : List Token} (kvData : KvData α)
    (long : minPrefixLen ≤ tokenIds.length) {total : Int}
    (total_eq : total = cache.totalMemoryBytes + (estimateEntryMemory kvData
      - ((cache.root.get tokenIds).map estimateEntryMemory).getD 0)) :
    Mirrors minPrefixLen maxEntries
      { cache with
        root := (cache.root.insert now kvData tokenIds).1
        totalMemoryBytes := if total < 0 then 0 else total }
      { map with stored := map.stored.set tokenIds kvData } := by
  obtain ⟨perm, -, formed⟩ := RadixNode.insert_spec mirrors.formed now kvData tokenIds
  have written := map.stored.entries_set_perm_filterKeys tokenIds kvData
  -- what the others take, and with the old entry
  have used := usage_of_perm written
  have before : (usage map.stored : Int)
      = ((cache.root.get tokenIds).map estimateEntryMemory).getD 0
        + usage (map.stored.filterKeys fun k => decide (k ≠ tokenIds)) := by
    rw [← mirrors.get?_eq]
    cases found : map.stored.get? tokenIds with
    | none => rw [Dict.filterKeys_of_absent _ found, Option.map_none, Option.getD_none, Nat.cast_zero,
        zero_add]
    | some old => rw [usage_filterKeys found, Option.map_some, Option.getD_some, Nat.cast_add]
  constructor
  case entries => exact perm.trans (((mirrors.entries.filter _).cons _).trans written.symm)
  case formed => exact formed
  case memory =>
    have exact_total : total = usage (map.stored.set tokenIds kvData) := by
      rw [total_eq, mirrors.memory, before, used]
      omega
    simp only [exact_total]
    rw [if_neg (by omega)]
  case budget => exact mirrors.budget
  case long =>
    intro key member
    rcases mem_keys_set member with rfl | old
    · exact long
    · exact mirrors.long key old
  case minPrefixLen => exact mirrors.minPrefixLen
  case maxEntries => exact mirrors.maxEntries

theorem lookedUp (now : Nat → Time) (tokenIds : List Token) :
    Mirrors minPrefixLen maxEntries (cache.lookup now tokenIds).1 map := by
  obtain ⟨kept, formed, -⟩ := RadixNode.lookup_spec mirrors.formed now tokenIds 0 (0, none)
  have entries := mirrors.entries
  simp only [RadixTreeCache.lookup]
  split
  · exact { mirrors with }
  · split
    · exact { mirrors with entries := by rw [kept]; exact entries, formed }
    · exact { mirrors with entries := by rw [kept]; exact entries, formed }

theorem evicted (tokenIds : List Token) :
    Mirrors minPrefixLen maxEntries (cache.evict tokenIds).1
      { map with stored := map.stored.filterKeys fun k => decide (k ≠ tokenIds) } := by
  simp only [RadixTreeCache.evict]
  split
  next absent =>
    rw [Dict.filterKeys_of_absent _ (mirrors.get?_of_takePath absent)]
    exact mirrors
  next removed root took => exact (mirrors.taken took).2

theorem cleared :
    Mirrors minPrefixLen maxEntries cache.clear { map with stored := ∅ } := by
  have empty : cache.root.clear.entries = [] ∧ cache.root.clear.WellFormed := by
    cases cache.root with
    | node children kvData lastAccess size =>
      exact ⟨rfl, .node (by simp) (by simp) (by simp) rfl⟩
  constructor
  case entries => exact .of_eq empty.1
  case formed => exact empty.2
  case memory => rfl
  case budget => exact mirrors.budget
  case long =>
    intro key member
    cases member
  case minPrefixLen => exact mirrors.minPrefixLen
  case maxEntries => exact mirrors.maxEntries

theorem step (call : Call α) :
    ∃ map', Step minPrefixLen maxEntries map call map' ∧
      Mirrors minPrefixLen maxEntries (cache.exec call) map' := by
  cases call with
  | store now tokenIds kvData =>
    by_cases short : (tokenIds.length : Int) < minPrefixLen
    · refine ⟨map, .ignore short, ?_⟩
      simpa [RadixTreeCache.exec, RadixTreeCache.store, mirrors.minPrefixLen, short] using mirrors
    · obtain ⟨stored, shrinks, after⟩ :=
        (mirrors.inserted now kvData (not_lt.mp short) rfl).evictUntilFit
      refine ⟨_, .store short shrinks, ?_⟩
      simpa [RadixTreeCache.exec, RadixTreeCache.store, mirrors.minPrefixLen, short] using after
  | lookup now tokenIds => exact ⟨map, .lookup, mirrors.lookedUp now tokenIds⟩
  | evict tokenIds => exact ⟨_, .evict, mirrors.evicted tokenIds⟩
  | adjustMemoryBudget newBudgetBytes =>
    have adjusted : Mirrors minPrefixLen maxEntries { cache with memoryBudget := newBudgetBytes }
        { map with budget := newBudgetBytes } := { mirrors with budget := rfl }
    obtain ⟨stored, shrinks, after⟩ := adjusted.evictUntilFit
    exact ⟨_, .adjust shrinks, after⟩
  | clear => exact ⟨_, .clear, mirrors.cleared⟩

theorem run (calls : List (Call α)) :
    ∃ map', Run minPrefixLen maxEntries map calls map' ∧
      Mirrors minPrefixLen maxEntries (calls.foldl RadixTreeCache.exec cache) map' := by
  induction calls generalizing cache map with
  | nil => exact ⟨map, .done, mirrors⟩
  | cons call calls ih =>
    obtain ⟨next, step, mirrors'⟩ := mirrors.step call
    obtain ⟨last, run, mirrors''⟩ := ih mirrors'
    exact ⟨last, .call step run, mirrors''⟩

/-! ### What is answered -/

theorem lookup_answer (now : Nat → Time) (tokenIds : List Token) :
    LongestStored (map.stored.filterKeys fun key => decide (key ≠ [])) tokenIds
      (cache.lookup now tokenIds).2 := by
  -- a key that counts is one of the positions that the lookup scans
  have scanned : ∀ key ∈ (map.stored.filterKeys fun key => decide (key ≠ [])).keys,
      key <+: tokenIds → 0 < key.length ∧ key.length ≤ tokenIds.length ∧
        minPrefixLen ≤ key.length ∧ cache.root.get (tokenIds.take key.length) ≠ none := by
    intro key member inside
    obtain ⟨stored, counts⟩ := mem_keys_filterKeys.mp member
    obtain ⟨v, found⟩ := (Dict.mem_keys_iff _).mp stored
    refine ⟨?_, inside.length_le, mirrors.long key stored, ?_⟩
    · exact List.length_pos_iff.mpr (by simpa using counts)
    · rw [← List.prefix_iff_eq_take.mp inside, ← mirrors.get?_eq, found]
      simp
  obtain ⟨-, -, ends⟩ := RadixNode.lookup_spec mirrors.formed now tokenIds 0 (0, none)
  rcases walked : cache.root.lookup now tokenIds 0 (0, none) with ⟨root, matchLen, found⟩
  simp only [RadixTreeCache.lookup, mirrors.minPrefixLen, walked] at ends ⊢
  split
  next short =>
    refine Or.inl ⟨rfl, ?_⟩
    intro key member inside
    obtain ⟨-, within, long, -⟩ := scanned key member inside
    omega
  next enough =>
    rcases ends with ⟨ends, nothing⟩ | ⟨j, v, positive, inside, there, ends, last⟩
    · obtain ⟨rfl, rfl⟩ : matchLen = 0 ∧ found = none := by simpa using ends
      refine Or.inl ⟨rfl, ?_⟩
      intro key member inside
      obtain ⟨positive, within, -, some⟩ := scanned key member inside
      exact some (nothing key.length positive within)
    · obtain ⟨rfl, rfl⟩ : matchLen = j ∧ found = some v := by simpa using ends
      have length_eq : (tokenIds.take matchLen).length = matchLen := by simpa using inside
      refine Or.inr ⟨tokenIds.take matchLen, v, ?_, List.take_prefix _ _, ?_, ?_⟩
      · have nonempty : tokenIds.take matchLen ≠ [] := by
          rw [← List.length_pos_iff, length_eq]
          exact positive
        rw [get?_filterKeys, mirrors.get?_eq]
        simpa [nonempty] using there
      · simp [length_eq, positive]
      · intro other member inside
        obtain ⟨-, within, -, some⟩ := scanned other member inside
        by_contra longer
        exact some (last other.length (by omega) within)

theorem shared_answer (tokenIds : List Token) :
    GreatestShared map.stored tokenIds (cache.findSharedPrefix tokenIds) := by
  obtain ⟨most, empty, attained⟩ := RadixNode.findSharedPrefix_spec mirrors.formed tokenIds
  have keys_perm := mirrors.entries.map Prod.fst
  constructor
  · intro key member
    obtain ⟨e, inside, rfl⟩ := List.mem_map.mp (keys_perm.mem_iff.mpr member)
    exact most e inside
  · by_cases nothing : cache.root.entries = []
    · exact Or.inl (empty nothing)
    · obtain ⟨e, inside, reached⟩ := attained nothing
      exact Or.inr ⟨e.1, keys_perm.mem_iff.mp (List.mem_map_of_mem inside), reached⟩

theorem counter_answer {path : List Token} {node : RadixNode (KvData α)}
    (leads : cache.root.descend path = some node) :
    node.size = (map.stored.keys.filter fun key => path.isPrefixOf key).length := by
  have perm := mirrors.entries.filter fun e => path.isPrefixOf e.1
  rw [RadixNode.size_spec mirrors.formed leads, perm.length_eq, Dict.keys, List.filter_map,
    List.length_map]
  rfl

theorem represents :
    Represents (fun key => decide (key ≠ [])) cache map.stored where
  entries := mirrors.entries
  lookup := mirrors.lookup_answer
  shared := mirrors.shared_answer
  counters _ _ leads := mirrors.counter_answer leads
  memory := mirrors.memory

end Mirrors

theorem mirrors_create (now : Time) (maxEntries minPrefixLen budget : Int) :
    Mirrors minPrefixLen maxEntries
      (RadixTreeCache.create now maxEntries minPrefixLen budget : RadixTreeCache α)
      ⟨∅, budget⟩ where
  entries := by
    exact .refl _
  formed := RadixNode.wellFormed_new now
  memory := rfl
  budget := rfl
  long := by
    intro key member
    cases member
  minPrefixLen := rfl
  maxEntries := rfl

end

/-- **The cache refines a finite map.** After any calls, the cache holds the entries of a map that
the same calls can lead to. Lookups answer with the longest key of the map other than the empty one,
which is there only if keys may be empty. -/
theorem radix_refines_map (now : Time) (maxEntries minPrefixLen budget : Int)
    (calls : List (Call α)) :
    ∃ map : PrefixMap α, Run minPrefixLen maxEntries ⟨∅, budget⟩ calls map ∧
      Represents (fun key => decide (key ≠ []))
        (calls.foldl RadixTreeCache.exec (.create now maxEntries minPrefixLen budget)) map.stored ∧
      (0 < minPrefixLen → [] ∉ map.stored.keys) := by
  obtain ⟨map, run, mirrors⟩ := (mirrors_create now maxEntries minPrefixLen budget).run calls
  refine ⟨map, run, mirrors.represents, ?_⟩
  intro positive member
  have long := mirrors.long [] member
  simp only [List.length_nil] at long
  omega

/-- The empty key, stored where keys may be empty, is not found. -/
theorem empty_key_not_found : ¬ ∀ (now : Time) (maxEntries minPrefixLen budget : Int)
    (calls : List (Call Unit)),
    ∃ map : PrefixMap Unit, Run minPrefixLen maxEntries ⟨∅, budget⟩ calls map ∧
      Represents (fun _ => true)
        (calls.foldl RadixTreeCache.exec (.create now maxEntries minPrefixLen budget))
        map.stored := by
  intro all
  obtain ⟨map, run, represents⟩ := all 0 0 0 100 [.store 0 [] ⟨(), .other⟩]
  have entries := represents.entries
  have answer := represents.lookup (fun _ => 0) [5]
  have held : ([], ⟨(), .other⟩) ∈ map.stored.entries := by
    apply entries.mem_iff.mp
    simp [RadixTreeCache.exec, RadixTreeCache.store, RadixTreeCache.evictUntilFit,
      RadixTreeCache.withinLimits, RadixTreeCache.create, RadixNode.insert, RadixNode.new,
      RadixNode.get, RadixNode.descend, RadixNode.kvData, estimateEntryMemory,
      RadixNode.entries_node]
  have found := (map.stored.mem_entries_iff _ _).mp held
  have misses : (((RadixTreeCache.create 0 0 0 100 : RadixTreeCache Unit).exec
      (.store 0 [] ⟨(), .other⟩)).lookup (fun _ => 0) [5]).2 = (0, none) := by
    simp [RadixTreeCache.exec, RadixTreeCache.store, RadixTreeCache.evictUntilFit,
      RadixTreeCache.withinLimits, RadixTreeCache.create, RadixNode.insert, RadixNode.new,
      RadixNode.get, RadixNode.descend, RadixNode.kvData, estimateEntryMemory,
      RadixTreeCache.lookup, RadixNode.lookup, lookupEntries]
  rcases answer with ⟨-, nothing⟩ | ⟨key, kvData, -, -, hit, -⟩
  · refine nothing [] ?_ List.nil_prefix
    rw [Dict.mem_keys_iff, get?_filterKeys]
    exact ⟨_, by simpa using found⟩
  · have same : (0, none) = (key.length, some kvData) := misses.symm.trans hit
    simp at same

end DistLLM.Radix
