import DistLLM.Radix.Refinement
import Mathlib.Algebra.Order.BigOperators.Group.List
import Mathlib.Data.Finset.Max

/-!
# The limits of the prefix cache

Eviction works through the leaves that hold an entry when it starts. An entry whose key is extended by
another key is no leaf then, so it outlasts the pass, and the limits are met afterwards exactly when
these inner entries alone meet them.
-/
namespace DistLLM.Radix

open Library Dict PrefixMap

/-! ### Leaves -/

section Leaves

variable {V : Type}

def IsLeaf (es : List (List Token × V)) (key : List Token) : Prop :=
  (∃ v, (key, v) ∈ es) ∧ ∀ e ∈ es, key <+: e.1 → e.1 = key

def extended (es : List (List Token × V)) (key : List Token) : Bool :=
  es.any fun other => key.isPrefixOf other.1 && decide (other.1 ≠ key)

/-- The entries whose key is extended by another key. -/
def inner (es : List (List Token × V)) : List (List Token × V) := es.filter fun e => extended es e.1

variable {es : List (List Token × V)}

theorem extended_iff {e : List Token × V} (member : e ∈ es) :
    extended es e.1 = true ↔ ¬ IsLeaf es e.1 := by
  simp only [extended, List.any_eq_true, Bool.and_eq_true, List.isPrefixOf_iff_prefix,
    decide_eq_true_eq, IsLeaf, not_and, not_forall, exists_prop]
  constructor
  · exact fun longer _ => longer
  · exact fun longer => longer ⟨e.2, member⟩

theorem inner_length_le (es : List (List Token × V)) : (inner es).length ≤ es.length - 1 := by
  cases es with
  | nil => simp [inner]
  | cons first rest =>
    generalize whole : first :: rest = es
    have here : first ∈ es := by simp [← whole]
    obtain ⟨key, held, longest⟩ := Finset.exists_max_image (es.map Prod.fst).toFinset List.length
      ⟨first.1, List.mem_toFinset.mpr (List.mem_map_of_mem here)⟩
    obtain ⟨e, member, rfl⟩ := List.mem_map.mp (List.mem_toFinset.mp held)
    have leaf : IsLeaf es e.1 := by
      refine ⟨⟨e.2, member⟩, fun other there extends_ => ?_⟩
      have bound := longest other.1 (List.mem_toFinset.mpr (List.mem_map_of_mem there))
      exact (extends_.eq_of_length_le bound).symm
    have fewer : (inner es).length < es.length :=
      List.length_filter_lt_length_iff_exists.mpr
        ⟨e, member, fun longer => (extended_iff member).mp longer leaf⟩
    omega

theorem isLeaf_perm {es' : List (List Token × V)} (same : es.Perm es') {key : List Token} :
    IsLeaf es key ↔ IsLeaf es' key := by
  simp only [IsLeaf, same.mem_iff]

theorem inner_perm {es' : List (List Token × V)} (same : es.Perm es') :
    (inner es).Perm (inner es') := by
  have agree : ∀ key, extended es key = extended es' key := by
    intro key
    rw [Bool.eq_iff_iff, extended, extended, List.any_eq_true, List.any_eq_true]
    simp only [same.mem_iff]
  simp only [inner, agree]
  exact same.filter _

namespace RadixNode

variable {children : List (Token × RadixNode V)}

theorem mem_evictableIn_iff {base : List Token}
    {found : Time × List Token} : found ∈ evictableIn base children ↔
      ∃ token child, (token, child) ∈ children ∧ found ∈ child.evictable (base ++ [token]) := by
  induction children with
  | nil => simp [evictableIn]
  | cons e rest ih =>
    obtain ⟨token, child⟩ := e
    simp only [evictableIn, List.mem_append, ih, List.mem_cons, Prod.mk.injEq]
    constructor
    · rintro (⟨t, c, member, found⟩ | found)
      · exact ⟨t, c, .inr member, found⟩
      · exact ⟨token, child, .inl ⟨rfl, rfl⟩, found⟩
    · rintro ⟨t, c, ⟨rfl, rfl⟩ | member, found⟩
      · exact .inr found
      · exact .inl ⟨t, c, member, found⟩

theorem isLeaf_cons_iff {kvData : Option V} {lastAccess : Time} {size : Nat}
    (distinct : (children.map Prod.fst).Nodup) {token : Token}
    {key : List Token} : IsLeaf (node children kvData lastAccess size).entries (token :: key) ↔
      ∃ child, lookupEntries token children = some child ∧ IsLeaf child.entries key := by
  constructor
  · rintro ⟨⟨v, member⟩, longest⟩
    obtain ⟨child, found, inside⟩ := (mem_entries_cons distinct).mp member
    refine ⟨child, found, ⟨v, inside⟩, ?_⟩
    rintro ⟨other, w⟩ there extends_
    have below : (token :: other, w) ∈ (node children kvData lastAccess size).entries :=
      (mem_entries_cons distinct).mpr ⟨child, found, there⟩
    have same := longest _ below (List.cons_prefix_cons.mpr ⟨rfl, extends_⟩)
    exact (List.cons.inj same).2
  · rintro ⟨child, found, ⟨v, inside⟩, longest⟩
    refine ⟨⟨v, (mem_entries_cons distinct).mpr ⟨child, found, inside⟩⟩, ?_⟩
    rintro ⟨other, w⟩ there extends_
    cases other with
    | nil => simp at extends_
    | cons t rest =>
      obtain ⟨rfl, longer⟩ := List.cons_prefix_cons.mp extends_
      obtain ⟨child', found', there⟩ := (mem_entries_cons distinct).mp there
      obtain rfl : child = child' := Option.some.inj (found.symm.trans found')
      have same : rest = key := longest _ there longer
      rw [same]

theorem WellFormed.isLeaf_nil_iff {kvData : Option V} {lastAccess : Time} {size : Nat}
    (whole : (RadixNode.node children kvData lastAccess size).WellFormed) :
    IsLeaf (RadixNode.node children kvData lastAccess size).entries [] ↔
      kvData.isSome = true ∧ children.isEmpty = true := by
  constructor
  · rintro ⟨⟨v, member⟩, longest⟩
    have here : kvData = some v := mem_entries_nil.mp member
    refine ⟨by simp [here], ?_⟩
    rw [List.isEmpty_iff]
    by_contra some_child
    obtain ⟨⟨token, child⟩, inside⟩ := List.exists_mem_of_ne_nil _ some_child
    have found := lookupEntries_of_mem token child children whole.distinct inside
    -- a child has an entry below it, whose key is longer
    obtain ⟨⟨rest, w⟩, there⟩ := List.exists_mem_of_ne_nil _ (whole.child found).2
    have below : (token :: rest, w) ∈ (RadixNode.node children kvData lastAccess size).entries :=
      (mem_entries_cons whole.distinct).mpr ⟨child, found, there⟩
    cases longest _ below List.nil_prefix
  · rintro ⟨some_data, none_below⟩
    obtain ⟨v, rfl⟩ := Option.isSome_iff_exists.mp some_data
    obtain rfl := List.isEmpty_iff.mp none_below
    simp [IsLeaf, entries_node]

theorem WellFormed.mem_evictable_iff {n : RadixNode V} (whole : n.WellFormed)
    (base path : List Token) :
    (∃ t, (t, path) ∈ n.evictable base) ↔ ∃ key, path = base ++ key ∧ IsLeaf n.entries key := by
  induction whole generalizing base with
  | @node children kvData lastAccess size distinct formed live counted ih =>
    have whole : (RadixNode.node children kvData lastAccess size).WellFormed :=
      .node distinct formed live counted
    simp only [evictable, List.mem_append, mem_evictableIn_iff]
    constructor
    · rintro ⟨t, here | ⟨token, child, member, below⟩⟩
      · split at here
        next leaf =>
          obtain ⟨rfl, rfl⟩ : t = lastAccess ∧ path = base := by simpa using here
          exact ⟨[], by simp, whole.isLeaf_nil_iff.mpr leaf⟩
        next => cases here
      · obtain ⟨key, rfl, leaf⟩ := (ih token child member (base ++ [token])).mp ⟨t, below⟩
        refine ⟨token :: key, by simp, ?_⟩
        have found := lookupEntries_of_mem token child children distinct member
        exact (isLeaf_cons_iff distinct).mpr ⟨child, found, leaf⟩
    · rintro ⟨key, rfl, leaf⟩
      cases key with
      | nil =>
        have here := whole.isLeaf_nil_iff.mp leaf
        exact ⟨lastAccess, .inl (by simp [here])⟩
      | cons token key =>
        obtain ⟨child, found, leaf⟩ := (isLeaf_cons_iff distinct).mp leaf
        have member := mem_of_lookupEntries token child children found
        obtain ⟨t, below⟩ := (ih token child member (base ++ [token])).mpr ⟨key, by simp, leaf⟩
        exact ⟨t, .inr ⟨token, child, member, below⟩⟩

theorem WellFormed.mem_victims_iff {n : RadixNode V} (whole : n.WellFormed) {path : List Token} :
    path ∈ n.collectEvictable.map Prod.snd ↔ IsLeaf n.entries path := by
  have leaves := whole.mem_evictable_iff [] path
  simp only [List.nil_append, exists_eq_left'] at leaves
  rw [← leaves, collectEvictable, ((List.perm_insertionSort _ _).map Prod.snd).mem_iff]
  simp

end RadixNode

end Leaves

variable {α : Type}

/-! ### The pass over the victims -/

/-- Entries that meet the limits; of none there is nothing to ask. -/
def WithinLimits (maxEntries budget : Int) (es : List (List Token × KvData α)) : Prop :=
  es = [] ∨ (maxEntries ≤ 0 ∨ (es.length : Int) ≤ maxEntries) ∧
    ((es.map fun e => estimateEntryMemory e.2).sum : Int) ≤ budget

variable {es : List (List Token × KvData α)} {budget : Int} {es' : List (List Token × KvData α)}

theorem withinLimits_perm {maxEntries : Int} (same : es.Perm es') :
    WithinLimits maxEntries budget es ↔ WithinLimits maxEntries budget es' := by
  have memory := (same.map fun e => estimateEntryMemory e.2).sum_eq
  rw [WithinLimits, WithinLimits, same.length_eq, memory, ← List.length_eq_zero_iff,
    same.length_eq, List.length_eq_zero_iff]

theorem WithinLimits.sublist {maxEntries : Int} (within : WithinLimits maxEntries budget es)
    (fewer : es'.Sublist es) :
    WithinLimits maxEntries budget es' := by
  rcases within with rfl | ⟨count, memory⟩
  · exact .inl (List.sublist_nil.mp fewer)
  · right
    have shorter := fewer.length_le
    have lighter := (fewer.map fun e => estimateEntryMemory e.2).sum_le_sum fun _ _ => Nat.zero_le _
    constructor
    · exact count.imp_right fun bound => by omega
    · omega

namespace RadixTreeCache

/-- What the limits promise: at most so many entries, at most so much memory, or an empty tree. -/
def LimitsHold (cache : RadixTreeCache α) : Prop :=
  cache.root.entries = [] ∨
    (cache.maxEntries ≤ 0 ∨ (cache.root.entries.length : Int) ≤ cache.maxEntries) ∧
      cache.totalMemoryBytes ≤ cache.memoryBudget

def CountHolds (cache : RadixTreeCache α) : Prop :=
  cache.maxEntries ≤ 0 ∨ (cache.root.entries.length : Int) ≤ cache.maxEntries

end RadixTreeCache

namespace Mirrors

variable {minPrefixLen maxEntries : Int} {cache : RadixTreeCache α} {map : PrefixMap α}

theorem limitsHold_iff (mirrors : Mirrors minPrefixLen maxEntries cache map) :
    cache.LimitsHold ↔ WithinLimits maxEntries map.budget cache.root.entries := by
  have memory : cache.totalMemoryBytes
      = ((cache.root.entries.map fun e => estimateEntryMemory e.2).sum : Nat) := by
    rw [mirrors.memory, (mirrors.entries.map fun e => estimateEntryMemory e.2).sum_eq]
    rfl
  rw [RadixTreeCache.LimitsHold, WithinLimits, memory, mirrors.budget, mirrors.maxEntries]

theorem evictVictims_spec (victims : List (List Token))
    (mirrors : Mirrors minPrefixLen maxEntries cache map) : ∃ kept : List Token → Bool,
      Mirrors minPrefixLen maxEntries (cache.evictVictims victims)
        { map with stored := map.stored.filterKeys kept } ∧
      (∀ key, key ∉ victims → kept key = true) ∧
      ((cache.evictVictims victims).withinLimits = false → ∀ key ∈ victims, kept key = false) := by
  have all : map.stored.filterKeys (fun _ => true) = map.stored := by
    simp [Dict.filterKeys]
  induction victims generalizing cache map with
  | nil =>
    refine ⟨fun _ => true, ?_, fun _ _ => rfl, fun _ key member => by cases member⟩
    rw [all]
    exact mirrors
  | cons path victims ih =>
    -- one victim less, and then what the rest of the loop keeps
    have dropped {rest : RadixTreeCache α} (mirrors : Mirrors minPrefixLen maxEntries rest
        { map with stored := map.stored.filterKeys fun k => decide (k ≠ path) }) :
        ∃ kept : List Token → Bool,
          Mirrors minPrefixLen maxEntries (rest.evictVictims victims)
            { map with stored := map.stored.filterKeys kept } ∧
          (∀ key, key ∉ path :: victims → kept key = true) ∧
          ((rest.evictVictims victims).withinLimits = false →
            ∀ key ∈ path :: victims, kept key = false) := by
      obtain ⟨kept, after, keeps, drops⟩ := ih mirrors (by simp [Dict.filterKeys])
      refine ⟨fun key => decide (key ≠ path) && kept key, ?_, ?_, ?_⟩
      · have both : (map.stored.filterKeys fun k => decide (k ≠ path)).filterKeys kept =
            map.stored.filterKeys fun key => decide (key ≠ path) && kept key := by
          simp [Dict.filterKeys, List.filter_filter, Bool.and_comm]
        rw [← both]
        exact after
      · intro key other
        rw [List.mem_cons, not_or] at other
        simp [other.1, keeps key other.2]
      · intro exceeded key member
        rcases List.mem_cons.mp member with rfl | later
        · simp
        · simp [drops exceeded key later]
    simp only [RadixTreeCache.evictVictims]
    split
    next fits =>
      refine ⟨fun _ => true, ?_, fun _ _ => rfl, fun exceeded => ?_⟩
      · rw [all]
        exact mirrors
      · rw [fits] at exceeded
        cases exceeded
    next =>
      split
      next absent =>
        apply dropped
        rw [Dict.filterKeys_of_absent _ (mirrors.get?_of_takePath absent)]
        exact mirrors
      next kvData root took => exact dropped (mirrors.taken took).2

variable (mirrors : Mirrors minPrefixLen maxEntries cache map)

include mirrors

theorem evictUntilFit_spec :
    ∃ kept : List Token → Bool,
      Mirrors minPrefixLen maxEntries cache.evictUntilFit
        { map with stored := map.stored.filterKeys kept } ∧
      (∀ key, ¬ IsLeaf map.stored.entries key → kept key = true) ∧
      (cache.evictUntilFit.withinLimits = false →
        ∀ key, IsLeaf map.stored.entries key → kept key = false) := by
  simp only [RadixTreeCache.evictUntilFit]
  split
  next fits =>
    refine ⟨fun _ => true, ?_, fun _ _ => rfl, fun exceeded => ?_⟩
    · have all : map.stored.filterKeys (fun _ => true) = map.stored := by
        simp [Dict.filterKeys]
      rw [all]
      exact mirrors
    · rw [fits] at exceeded
      cases exceeded
  next =>
    obtain ⟨kept, after, keeps, drops⟩ :=
      mirrors.evictVictims_spec (cache.root.collectEvictable.map Prod.snd)
    have leaves : ∀ key, key ∈ cache.root.collectEvictable.map Prod.snd ↔
        IsLeaf map.stored.entries key := fun key =>
      mirrors.formed.mem_victims_iff.trans (isLeaf_perm mirrors.entries)
    refine ⟨kept, after, fun key no_leaf => keeps key ?_, fun exceeded key leaf =>
      drops exceeded key ?_⟩
    · rwa [leaves]
    · rwa [leaves]

theorem evictUntilFit_cases :
    ∃ stored, Mirrors minPrefixLen maxEntries cache.evictUntilFit { map with stored } ∧
      (inner map.stored.entries).Sublist stored.entries ∧
      (Fits maxEntries map.budget stored ∨ stored.entries = inner map.stored.entries) := by
  obtain ⟨kept, after, keeps, drops⟩ := mirrors.evictUntilFit_spec
  refine ⟨_, after, ?_, ?_⟩
  · have inner_kept : inner map.stored.entries =
        (inner map.stored.entries).filter fun e => kept e.1 := by
      refine (List.filter_eq_self.mpr fun e member => ?_).symm
      obtain ⟨stored, longer⟩ := List.mem_filter.mp member
      exact keeps e.1 ((extended_iff stored).mp longer)
    rw [inner_kept]
    exact List.filter_sublist.filter _
  · cases fits : cache.evictUntilFit.withinLimits with
    | true => exact .inl (after.withinLimits_iff.mp fits)
    | false =>
      refine .inr (List.filter_congr fun e member => ?_)
      by_cases leaf : IsLeaf map.stored.entries e.1
      · rw [drops fits e.1 leaf, eq_comm, Bool.eq_false_iff]
        exact fun longer => (extended_iff member).mp longer leaf
      · rw [keeps e.1 leaf, (extended_iff member).mpr leaf]

theorem evictUntilFit_limits :
    cache.evictUntilFit.LimitsHold ↔
      WithinLimits maxEntries map.budget (inner cache.root.entries) := by
  obtain ⟨stored, after, stays, outcome⟩ := mirrors.evictUntilFit_cases
  rw [after.limitsHold_iff, withinLimits_perm after.entries,
    withinLimits_perm (inner_perm mirrors.entries)]
  constructor
  · exact fun within => within.sublist stays
  · intro within
    rcases outcome with fits | same
    · exact .inr fits
    · rwa [same]

theorem evictUntilFit_count
    (near : maxEntries ≤ 0 ∨ (cache.root.entries.length : Int) ≤ maxEntries + 1) :
    cache.evictUntilFit.CountHolds := by
  obtain ⟨stored, after, stays, outcome⟩ := mirrors.evictUntilFit_cases
  rw [RadixTreeCache.CountHolds, after.maxEntries, after.entries.length_eq]
  rcases outcome with fits | same
  · exact fits.1
  · have fewer := inner_length_le map.stored.entries
    rw [← mirrors.entries.length_eq] at fewer
    dsimp only
    rw [same]
    omega

theorem step_count (count : cache.CountHolds) (call : Call α) : (cache.exec call).CountHolds := by
  rw [RadixTreeCache.CountHolds, mirrors.maxEntries, mirrors.entries.length_eq] at count
  cases call with
  | store now tokenIds kvData =>
    simp only [RadixTreeCache.exec, RadixTreeCache.store]
    split
    next => rwa [RadixTreeCache.CountHolds, mirrors.maxEntries, mirrors.entries.length_eq]
    next long =>
      rw [mirrors.minPrefixLen] at long
      -- one entry more at most, which the eviction makes room for
      have inserted := mirrors.inserted now kvData (not_lt.mp long) rfl
      refine inserted.evictUntilFit_count (count.imp_right fun bound => ?_)
      have more := (map.stored.entries_set_perm_filterKeys tokenIds kvData).length_eq
      have others : (map.stored.filterKeys fun k => decide (k ≠ tokenIds)).entries.length ≤
          map.stored.entries.length := List.length_filter_le _ _
      rw [inserted.entries.length_eq]
      dsimp only
      rw [List.length_cons] at more
      omega
  | lookup now tokenIds =>
    have looked := mirrors.lookedUp now tokenIds
    rwa [RadixTreeCache.CountHolds, RadixTreeCache.exec, looked.maxEntries,
      looked.entries.length_eq]
  | evict tokenIds =>
    have evicted := mirrors.evicted tokenIds
    have fewer : (map.stored.filterKeys fun k => decide (k ≠ tokenIds)).entries.length ≤
        map.stored.entries.length := List.length_filter_le _ _
    rw [RadixTreeCache.CountHolds, RadixTreeCache.exec, evicted.maxEntries,
      evicted.entries.length_eq]
    dsimp only
    omega
  | adjustMemoryBudget newBudgetBytes =>
    have adjusted : Mirrors minPrefixLen maxEntries { cache with memoryBudget := newBudgetBytes }
        { map with budget := newBudgetBytes } := { mirrors with budget := rfl }
    refine adjusted.evictUntilFit_count (count.imp_right fun bound => ?_)
    rw [adjusted.entries.length_eq]
    exact bound.trans (Int.le_add_one le_rfl)
  | clear =>
    have cleared := mirrors.cleared
    rw [RadixTreeCache.CountHolds, RadixTreeCache.exec, cleared.maxEntries,
      cleared.entries.length_eq, Dict.entries_empty, List.length_nil]
    omega

theorem run_count (count : cache.CountHolds) (calls : List (Call α)) : ∃ map',
      Mirrors minPrefixLen maxEntries (calls.foldl RadixTreeCache.exec cache) map' ∧
      (calls.foldl RadixTreeCache.exec cache).CountHolds := by
  induction calls generalizing cache map with
  | nil => exact ⟨map, mirrors, count⟩
  | cons call calls ih =>
    obtain ⟨next, -, mirrors'⟩ := mirrors.step call
    exact ih mirrors' (mirrors.step_count count call)

end Mirrors

/-- The inner entries take no more memory than there is, or there are none. -/
def InnerFits (budget : Int) (es : List (List Token × KvData α)) : Prop :=
  inner es = [] ∨ (((inner es).map fun e => estimateEntryMemory e.2).sum : Int) ≤ budget

/-- The number of inner entries does not matter where at most one entry is too many. -/
theorem withinLimits_inner_iff {maxEntries : Int}
    (near : maxEntries ≤ 0 ∨ (es.length : Int) ≤ maxEntries + 1) :
    WithinLimits maxEntries budget (inner es) ↔ InnerFits budget es := by
  have fewer := inner_length_le es
  have count : maxEntries ≤ 0 ∨ ((inner es).length : Int) ≤ maxEntries := by omega
  simp only [WithinLimits, InnerFits, count, true_and]

section

variable {minPrefixLen maxEntries : Int} {cache : RadixTreeCache α} {map : PrefixMap α}
  (mirrors : Mirrors minPrefixLen maxEntries cache map) (count : cache.CountHolds)

include mirrors count

theorem Mirrors.store_limits (now : Time) {tokenIds : List Token} (kvData : KvData α)
    (long : ¬ (tokenIds.length : Int) < minPrefixLen) :
    (cache.store now tokenIds kvData).LimitsHold ↔ InnerFits cache.memoryBudget
      ((tokenIds, kvData) :: RadixNode.without tokenIds cache.root.entries) := by
  have stored : ¬ (tokenIds.length : Int) < cache.minPrefixLen := by rwa [mirrors.minPrefixLen]
  have inserted := mirrors.inserted now kvData (not_lt.mp long) rfl
  obtain ⟨perm, -, -⟩ := RadixNode.insert_spec mirrors.formed now kvData tokenIds
  have fewer : (RadixNode.without tokenIds cache.root.entries).length ≤
      cache.root.entries.length := List.length_filter_le _ _
  rw [RadixTreeCache.CountHolds, mirrors.maxEntries] at count
  rw [RadixTreeCache.store, if_neg stored, inserted.evictUntilFit_limits,
    withinLimits_perm (inner_perm perm), withinLimits_inner_iff, mirrors.budget]
  rw [List.length_cons]
  omega

theorem Mirrors.adjust_limits (newBudgetBytes : Int) :
    (cache.adjustMemoryBudget newBudgetBytes).LimitsHold ↔
      InnerFits newBudgetBytes cache.root.entries := by
  have adjusted : Mirrors minPrefixLen maxEntries { cache with memoryBudget := newBudgetBytes }
      { map with budget := newBudgetBytes } := { mirrors with budget := rfl }
  rw [RadixTreeCache.CountHolds, mirrors.maxEntries] at count
  rw [RadixTreeCache.adjustMemoryBudget, adjusted.evictUntilFit_limits, withinLimits_inner_iff]
  exact count.imp_right fun bound => bound.trans (Int.le_add_one le_rfl)

end

/-- **When the limits hold.** In every state of every run: after a store, and after an adjustment of
the budget, the limits hold iff the entries whose key is extended by another key fit into the budget
alone. A store of too few tokens leaves the cache as it is. -/
theorem limits_hold_iff (now : Time) (maxEntries minPrefixLen budget : Int)
    (calls : List (Call α)) :
    let cache := calls.foldl RadixTreeCache.exec (.create now maxEntries minPrefixLen budget)
    (∀ now tokenIds kvData, (cache.store now tokenIds kvData).LimitsHold ↔
      if (tokenIds.length : Int) < minPrefixLen then cache.LimitsHold
      else InnerFits cache.memoryBudget
        ((tokenIds, kvData) :: RadixNode.without tokenIds cache.root.entries)) ∧
      ∀ newBudgetBytes, (cache.adjustMemoryBudget newBudgetBytes).LimitsHold ↔
        InnerFits newBudgetBytes cache.root.entries := by
  intro cache
  have empty : (RadixTreeCache.create now maxEntries minPrefixLen budget :
      RadixTreeCache α).CountHolds := by
    simp only [RadixTreeCache.CountHolds, RadixTreeCache.create, RadixNode.entries_new,
      List.length_nil]
    omega
  obtain ⟨map, mirrors, count⟩ :=
    (mirrors_create now maxEntries minPrefixLen budget).run_count empty calls
  constructor
  · intro now tokenIds kvData
    by_cases short : (tokenIds.length : Int) < minPrefixLen
    · have ignored : (tokenIds.length : Int) < cache.minPrefixLen := by rwa [mirrors.minPrefixLen]
      rw [RadixTreeCache.store, if_pos ignored, if_pos short]
    · rw [if_neg short]
      exact mirrors.store_limits count now kvData short
  · exact mirrors.adjust_limits count

/-- A key and its extension: the entry of the shorter key is no leaf when the pass over the victims
starts, and stays above the budget. -/
theorem nested_exceeds_budget :
    let cache := [Call.store 0 [1] ⟨(), .sequence [.tensor 1 10]⟩, .store 1 [1, 2] ⟨(), .other⟩].foldl
      RadixTreeCache.exec (.create 0 0 1 100)
    ¬ (cache.adjustMemoryBudget 5).LimitsHold := by
  rintro cache (none_left | ⟨-, memory⟩)
  · have left := congrArg List.length none_left
    revert left
    decide +kernel
  · revert memory
    decide +kernel

end DistLLM.Radix
