import DistLLM.HashPrefix.Provenance
import Mathlib.Algebra.BigOperators.Group.List.Basic

/-!
# The memory of the hash prefix cache

`_total_memory_bytes` is counted up by `store` and down by `_evict_until_fit`. The entries that
leave otherwise are still counted, and so is the old size of an entry with new data.
-/
namespace DistLLM.HashPrefix

open Library Radix

variable {α : Type}

def defaultMemoryBudgetBytes : Int := 512 * 1024 * 1024

/-- The check of the memory pressure, given the percentage that is in use if a check is due. The
products are exact here. -/
def underPressure (percent : Option Rat) (memoryBudget : Int) : Option Int :=
  match percent with
  | none => none
  | some percent =>
    if 90 < percent then some (Int.tdiv (memoryBudget * 3) 4)
    else if percent < 70 ∧ memoryBudget < defaultMemoryBudgetBytes then
      some (min (Int.tdiv (memoryBudget * 11) 10) defaultMemoryBudgetBytes)
    else none

namespace PrefixCache

def adjustMemoryBudget (c : PrefixCache α) (newBudgetBytes : Int) : PrefixCache α :=
  { c with memoryBudget := newBudgetBytes }

end PrefixCache

/-- The calls, with what each reads of the clocks and of the memory in use. -/
inductive Op (α : Type)
  | store (accessed expiry : Time) (percent : Option Rat) (tokenIds : List Token)
      (kvData : KvData α) (tenantId : String)
  | lookup (clock : Nat → Time) (accessed : Time) (tokenIds : List Token) (tenantId : String)
  | evict (tokenIds : List Token) (tenantId : String)
  | clear
  | adjustMemoryBudget (newBudgetBytes : Int)

def bytes (entries : List (Key × Entry α)) : Nat :=
  (entries.map fun e => estimateEntryMemory e.2.kvData).sum

namespace PrefixCache

variable (c : PrefixCache α)

def exec : Op α → PrefixCache α
  | .store accessed expiry percent tokenIds kvData tenantId =>
    (c.store ⟨accessed, expiry, underPressure percent c.memoryBudget⟩ tokenIds kvData tenantId).1
  | .lookup clock accessed tokenIds tenantId => (c.lookup clock accessed tokenIds tenantId).1
  | .evict tokenIds tenantId => (c.evict tokenIds tenantId).1
  | .clear => c.clear
  | .adjustMemoryBudget newBudgetBytes => c.adjustMemoryBudget newBudgetBytes

def popped : List (Key × Entry α) :=
  c.cache.entries.take (c.cache.size + 1 - c.maxEntries c.cache.size).toNat

def Accounted : Prop := c.totalMemoryBytes = bytes c.cache.entries

/-- A call that the counter follows, and a store that leaves it within the budget. -/
def Follows : Op α → Prop
  | .store _ _ _ tokenIds kvData tenantId =>
    if c.refuses tokenIds kvData then c.totalMemoryBytes ≤ c.memoryBudget
    else
      match c.cache.get? (computeFullHash tokenIds, tenantId) with
      -- nothing is evicted when an entry is written over
      | some entry => estimateEntryMemory entry.kvData = estimateEntryMemory kvData ∧
          c.totalMemoryBytes ≤ c.memoryBudget
      | none => ∀ e ∈ c.popped, estimateEntryMemory e.2.kvData = 0
  | .evict tokenIds tenantId =>
    ∀ entry, c.cache.get? (computeFullHash tokenIds, tenantId) = some entry →
      estimateEntryMemory entry.kvData = 0
  | .clear => ∀ e ∈ c.cache.entries, estimateEntryMemory e.2.kvData = 0
  | .lookup .. | .adjustMemoryBudget _ => True

/-- What is to hold after a call: of every call the accounting, of a store the budget too. -/
def Sound : Op α → Prop
  | .store .. => c.Accounted ∧ c.totalMemoryBytes ≤ c.memoryBudget
  | _ => c.Accounted

end PrefixCache

variable {entries : List (Key × Entry α)}

theorem bytes_perm {others : List (Key × Entry α)} (perm : entries.Perm others) :
    bytes entries = bytes others := (perm.map _).sum_eq

theorem bytes_eq_zero_iff (entries : List (Key × Entry α)) :
    bytes entries = 0 ↔ ∀ e ∈ entries, estimateEntryMemory e.2.kvData = 0 := by
  induction entries with
  | nil => simp [bytes]
  | cons e entries ih =>
    have split : bytes (e :: entries) = estimateEntryMemory e.2.kvData + bytes entries := rfl
    rw [split, Nat.add_eq_zero_iff, ih, List.forall_mem_cons]

theorem bytes_take_drop (n : Nat) (entries : List (Key × Entry α)) :
    bytes (entries.take n) + bytes (entries.drop n) = bytes entries := by
  rw [bytes, bytes, ← List.sum_append, ← List.map_append, List.take_append_drop, bytes]

variable {entry : Entry α} {key : Key}

theorem bytes_filterKeys (d : Dict Key (Entry α))
    (found : d.get? key = some entry) : bytes d.entries = estimateEntryMemory entry.kvData
      + bytes (d.filterKeys fun k => decide (k ≠ key)).entries := by
  rw [bytes_perm (d.entries_perm_filterKeys key entry found)]
  rfl

theorem bytes_set (d : Dict Key (Entry α)) (key : Key) (entry : Entry α) :
    bytes (d.set key entry).entries = estimateEntryMemory entry.kvData
      + bytes (d.filterKeys fun k => decide (k ≠ key)).entries := by
  rw [bytes_perm (d.entries_set_perm_filterKeys key entry)]
  rfl

theorem entries_popOldest (d : Dict Key (Entry α)) : (popOldest d).entries = d.entries.tail := by
  unfold popOldest
  cases entries : d.entries with
  | nil => exact entries
  | cons first rest =>
    obtain ⟨key, entry⟩ := first
    have distinct := d.distinct
    rw [entries, List.map_cons, List.nodup_cons] at distinct
    show (d.filterKeys fun k => decide (k ≠ key)).entries = rest
    have others : (rest.filter fun e => decide (e.1 ≠ key)) = rest := by
      refine List.filter_eq_self.mpr fun e member => ?_
      have other : e.1 ≠ key := by
        intro same
        have inside := List.mem_map_of_mem (f := Prod.fst) member
        rw [same] at inside
        exact distinct.1 inside
      simp [other]
    simp only [Dict.filterKeys, entries]
    rw [List.filter_cons_of_neg (by simp), others]

namespace PrefixCache

variable {c : PrefixCache α}

/-! ### Eviction -/

/-- The counter is ahead of the size of the entries by so much. -/
def Ahead (c : PrefixCache α) (drift : Nat) : Prop :=
  c.totalMemoryBytes = (bytes c.cache.entries : Nat) + drift

variable {drift : Nat}

theorem ahead_accounted_iff (ahead : c.Ahead drift) : c.Accounted ↔ drift = 0 := by
  unfold Ahead at ahead
  unfold Accounted
  omega

theorem Ahead.dropEntry (ahead : c.Ahead drift)
    (found : c.cache.get? key = some entry) : (c.dropEntry key entry).Ahead drift := by
  have held := bytes_filterKeys c.cache found
  unfold Ahead at *
  simp only [PrefixCache.dropEntry]
  omega

theorem dropEntry_size (found : c.cache.get? key = some entry) :
    (c.dropEntry key entry).cache.size + 1 = c.cache.size := by
  have perm := c.cache.entries_perm_filterKeys key entry found
  exact perm.length_eq.symm

theorem evictExpired_budget (neededBytes : Int) (keys : List Key) :
    ∀ c : PrefixCache α, (evictExpired neededBytes keys c).1.memoryBudget = c.memoryBudget := by
  induction keys with
  | nil => exact fun _ => rfl
  | cons key keys ih =>
    intro c
    unfold evictExpired
    split
    · exact ih c
    · dsimp only
      split
      · rfl
      · exact ih _

theorem evictExpired_ahead (neededBytes : Int) (keys : List Key) :
    ∀ {c : PrefixCache α}, c.Ahead drift → (evictExpired neededBytes keys c).1.Ahead drift ∧
        ((evictExpired neededBytes keys c).2 = true →
          (evictExpired neededBytes keys c).1.totalMemoryBytes + neededBytes
            ≤ (evictExpired neededBytes keys c).1.memoryBudget) := by
  induction keys with
  | nil => exact fun ahead => ⟨ahead, fun early => by cases early⟩
  | cons key keys ih =>
    intro c ahead
    unfold evictExpired
    split
    next => exact ih ahead
    next entry found =>
      dsimp only
      have dropped := ahead.dropEntry found
      split
      next fits => exact ⟨dropped, fun _ => fits⟩
      next => exact ih dropped

theorem leastUsed_mem {e : Key × Entry α} (h : leastUsed entries = some e) : e ∈ entries := by
  induction entries generalizing e with
  | nil => cases h
  | cons first rest ih =>
    unfold leastUsed at h
    split at h
    · cases h
      exact List.mem_cons_self
    next other found =>
      split at h
      · cases h
        exact List.mem_cons_of_mem _ (ih found)
      · cases h
        exact List.mem_cons_self

theorem leastUsed_none (h : leastUsed entries = none) :
    entries = [] := by
  cases entries with
  | nil => rfl
  | cons first rest =>
    unfold leastUsed at h
    split at h
    · cases h
    · split at h
      · cases h
      · cases h

theorem victim_found {e : Key × Entry α} (h : c.victim = some e) : c.cache.get? e.1 = some e.2 := by
  rw [← Dict.mem_entries_iff]
  unfold victim at h
  split at h
  · exact List.mem_of_head? h
  · exact leastUsed_mem h

theorem victim_none (h : c.victim = none) : c.cache.entries = [] := by
  unfold victim at h
  split at h
  · exact List.head?_eq_none_iff.mp h
  · exact leastUsed_none h

theorem evictOver_ahead (neededBytes : Int) (fuel : Nat) :
    ∀ {c : PrefixCache α}, c.Ahead drift → c.cache.size ≤ fuel →
      (evictOver neededBytes fuel c).Ahead drift ∧
        (evictOver neededBytes fuel c).memoryBudget = c.memoryBudget ∧
        ((evictOver neededBytes fuel c).totalMemoryBytes + neededBytes ≤ c.memoryBudget ∨
          (evictOver neededBytes fuel c).cache.entries = []) := by
  induction fuel with
  | zero =>
    intro c ahead few
    exact ⟨ahead, rfl, .inr (List.length_eq_zero_iff.mp (Nat.le_zero.mp few))⟩
  | succ fuel ih =>
    intro c ahead few
    unfold evictOver
    split
    next above =>
      split
      next none => exact ⟨ahead, rfl, .inr (victim_none none)⟩
      next key entry found =>
        have held : c.cache.get? key = some entry := victim_found found
        have size := dropEntry_size held
        exact ih (ahead.dropEntry held) (by omega)
    next within => exact ⟨ahead, rfl, .inl (Int.not_lt.mp within)⟩

theorem evictUntilFit_ahead (readings : Readings) (ahead : c.Ahead drift)
    (budget : 0 ≤ readings.adjustedBudget.getD c.memoryBudget) :
    (c.evictUntilFit readings 0).Ahead drift ∧
      (drift = 0 → (c.evictUntilFit readings 0).totalMemoryBytes
        ≤ (c.evictUntilFit readings 0).memoryBudget) := by
  have adjusted : ({ c with memoryBudget := readings.adjustedBudget.getD c.memoryBudget }
      : PrefixCache α).Ahead drift := ahead
  have expired := evictExpired_ahead 0 (expiredKeys
    { c with memoryBudget := readings.adjustedBudget.getD c.memoryBudget } readings.expiry) adjusted
  have kept := evictExpired_budget 0 (expiredKeys
    { c with memoryBudget := readings.adjustedBudget.getD c.memoryBudget } readings.expiry)
    { c with memoryBudget := readings.adjustedBudget.getD c.memoryBudget }
  unfold evictUntilFit
  dsimp only
  split
  next between early =>
    rw [early] at expired
    exact ⟨expired.1, fun _ => by simpa using expired.2 rfl⟩
  next between late =>
    rw [late] at expired kept
    obtain ⟨after, budget_eq, fits⟩ :=
      evictOver_ahead 0 between.cache.size expired.1 (Nat.le_refl _)
    refine ⟨after, fun none => ?_⟩
    rw [budget_eq]
    rcases fits with fits | empty
    · simpa using fits
    · -- nothing is left, and nothing is counted
      unfold Ahead at after
      rw [empty, none] at after
      rw [after, kept]
      exact budget

theorem makeRoom_entries (fuel : Nat) : ∀ c : PrefixCache α, c.cache.size ≤ fuel →
    ∃ cache, (makeRoom fuel c).1 = { c with cache } ∧
      cache.entries = c.cache.entries.drop (c.cache.size + 1 - c.maxEntries c.cache.size).toNat ∧
      ((makeRoom fuel c).2 = true → cache.entries = []) := by
  induction fuel with
  | zero =>
    intro c few
    have none : c.cache.entries = [] := List.length_eq_zero_iff.mp (Nat.le_zero.mp few)
    exact ⟨c.cache, rfl, by simp [none], fun _ => none⟩
  | succ fuel ih =>
    intro c few
    unfold makeRoom
    split
    next full =>
      -- without a limit there is room for one entry more
      have limited : c.maxEntriesSoft ≠ 0 := by
        intro unlimited
        simp only [maxEntries, unlimited] at full
        omega
      have limit : ∀ size, c.maxEntries size = c.maxEntriesSoft := fun size => if_pos limited
      have size : (popOldest c.cache).size = c.cache.size - 1 := by
        simp [Dict.size, entries_popOldest]
      obtain ⟨cache, result, entries, raised⟩ :=
        ih { c with cache := popOldest c.cache } (by dsimp only; omega)
      refine ⟨cache, result, ?_, raised⟩
      rw [entries]
      dsimp only
      have limit' : maxEntries { c with cache := popOldest c.cache } (popOldest c.cache).size
          = c.maxEntriesSoft := if_pos limited
      rw [limit', limit, entries_popOldest, size, List.drop_tail]
      rw [limit] at full
      by_cases empty : c.cache.size = 0
      · have none : c.cache.entries = [] := List.length_eq_zero_iff.mp empty
        simp [none]
      · congr 1
        omega
    next room =>
      refine ⟨c.cache, rfl, ?_, fun raised => by cases raised⟩
      have none : (c.cache.size + 1 - c.maxEntries c.cache.size).toNat = 0 := by omega
      rw [none, List.drop_zero]

/-! ### One call -/

theorem underPressure_nonneg {percent : Option Rat} {memoryBudget : Int} (h : 0 ≤ memoryBudget) :
    0 ≤ (underPressure percent memoryBudget).getD memoryBudget := by
  unfold underPressure
  split
  · exact h
  · split
    · exact Int.tdiv_nonneg (by omega) (by omega)
    · split
      · have grown : 0 ≤ Int.tdiv (memoryBudget * 11) 10 := Int.tdiv_nonneg (by omega) (by omega)
        have least : 0 ≤ defaultMemoryBudgetBytes := by decide
        exact le_min grown least
      · exact h

theorem bytes_touch {old : Entry α} (found : c.cache.get? key = some old) (entry : Entry α)
    (now : Time) :
    bytes (c.touch key entry now).cache.entries + estimateEntryMemory old.kvData
      = bytes c.cache.entries + estimateEntryMemory entry.kvData := by
  have absent : (c.cache.filterKeys fun k => decide (k ≠ key)).get? key = none := by
    rw [Dict.get?_filterKeys]
    simp
  rw [touch, bytes_set, Dict.filterKeys_of_absent _ absent, bytes_filterKeys c.cache found]
  dsimp only
  omega

section

variable (accounted : c.Accounted)

include accounted

theorem lookup_sound (clock : Nat → Time) (accessed : Time) (tokenIds : List Token)
    (tenantId : String) : (c.exec (.lookup clock accessed tokenIds tenantId)).Accounted := by
  simp only [exec, lookup]
  split
  · exact accounted
  · split
    · exact accounted
    · split
      · exact accounted
      next length key cached hit =>
        obtain ⟨length', h, -, probed, -⟩ := findSome_hashes hit
        have found := ((probe_eq_some_iff _).mp probed).2.2.1
        have same := bytes_touch found cached accessed
        unfold Accounted at *
        show c.totalMemoryBytes = _
        rw [accounted]
        dsimp only
        omega

theorem evict_sound_iff (tokenIds : List Token) (tenantId : String) :
    (c.exec (.evict tokenIds tenantId)).Accounted ↔ c.Follows (.evict tokenIds tenantId) := by
  simp only [exec, evict, Follows]
  cases found : c.cache.get? (computeFullHash tokenIds, tenantId) with
  | none =>
    refine ⟨fun _ entry h => ?_, fun _ => accounted⟩
    cases h
  | some entry =>
    have held := bytes_filterKeys c.cache found
    unfold Accounted at *
    dsimp only
    constructor
    · intro after entry' same
      cases same
      omega
    · intro weightless
      have := weightless entry rfl
      omega

theorem clear_sound_iff : (c.exec (.clear : Op α)).Accounted ↔ c.Follows .clear := by
  have none : bytes (∅ : Dict Key (Entry α)).entries = 0 := rfl
  unfold Accounted at *
  simp only [exec, clear, Follows]
  rw [← bytes_eq_zero_iff, none]
  omega

theorem insert_sound_iff {kvData : KvData α}
    (admitted : (estimateEntryMemory kvData : Int) ≤ c.memoryBudget) {tokenIds : List Token}
    {tenantId : String} (absent : c.cache.get? (computeFullHash tokenIds, tenantId) = none)
    (readings : Readings) (budget : 0 ≤ readings.adjustedBudget.getD c.memoryBudget) :
    ((match makeRoom c.cache.size c with
      | (c, true) => (c, true)
      | (c, false) => ((c.place readings tokenIds kvData
        (computeFullHash tokenIds, tenantId)).evictUntilFit readings 0, false) :
          PrefixCache α × Bool).1.Sound
        (.store readings.accessed readings.expiry none tokenIds kvData tenantId)) ↔
      ∀ e ∈ c.popped, estimateEntryMemory e.2.kvData = 0 := by
  obtain ⟨cache, result, entries, raised⟩ := makeRoom_entries c.cache.size c (Nat.le_refl _)
  rw [← bytes_eq_zero_iff]
  -- the popped entries and those that are left
  have parts : bytes c.popped + bytes cache.entries = bytes c.cache.entries := by
    rw [entries]
    exact bytes_take_drop ..
  have ahead : ({ c with cache } : PrefixCache α).Ahead (bytes c.popped) := by
    unfold Accounted at accounted
    unfold Ahead
    dsimp only
    omega
  split
  next room full =>
    -- everything was popped before the loop raised
    rw [full] at result raised
    subst result
    have empty := raised rfl
    unfold Sound
    dsimp only
    rw [ahead_accounted_iff ahead]
    refine ⟨fun h => h.1, fun none => ⟨none, ?_⟩⟩
    unfold Ahead at ahead
    dsimp only at ahead
    rw [none, empty] at ahead
    have nothing : bytes ([] : List (Key × Entry α)) = 0 := rfl
    omega
  next room free =>
    rw [free] at result
    subst result
    have absent' : cache.get? (computeFullHash tokenIds, tenantId) = none := by
      by_contra present
      obtain ⟨entry, found⟩ := Option.ne_none_iff_exists'.mp present
      rw [← Dict.mem_entries_iff, entries] at found
      have inside := (Dict.mem_entries_iff ..).mp (List.mem_of_mem_drop found)
      rw [absent] at inside
      cases inside
    have placed : (({ c with cache } : PrefixCache α).place readings tokenIds kvData
        (computeFullHash tokenIds, tenantId)).Ahead (bytes c.popped) := by
      unfold Ahead at *
      simp only [place]
      rw [bytes_set, Dict.filterKeys_of_absent _ absent']
      dsimp only at ahead ⊢
      omega
    obtain ⟨after, within⟩ := evictUntilFit_ahead readings placed budget
    unfold Sound
    dsimp only
    rw [ahead_accounted_iff after]
    exact ⟨fun h => h.1, fun none => ⟨none, within none⟩⟩

theorem store_sound_iff (accessed expiry : Time) (percent : Option Rat) (tokenIds : List Token)
    (kvData : KvData α) (tenantId : String) :
    (c.exec (.store accessed expiry percent tokenIds kvData tenantId)).Sound
        (.store accessed expiry percent tokenIds kvData tenantId) ↔
      c.Follows (.store accessed expiry percent tokenIds kvData tenantId) := by
  simp only [exec, store, Follows]
  by_cases refused : c.refuses tokenIds kvData = true
  · rw [if_pos refused, if_pos refused]
    exact ⟨fun h => h.2, fun within => ⟨accounted, within⟩⟩
  · rw [if_neg refused, if_neg refused]
    have admitted : (estimateEntryMemory kvData : Int) ≤ c.memoryBudget := by
      simp only [refuses, Bool.or_eq_true, decide_eq_true_eq, not_or] at refused
      omega
    cases found : c.cache.get? (computeFullHash tokenIds, tenantId) with
    | some entry =>
      have same := bytes_touch found { entry with kvData := kvData } accessed
      unfold Sound Accounted at *
      dsimp only [touch] at *
      constructor
      · rintro ⟨after, within⟩
        exact ⟨by omega, within⟩
      · rintro ⟨equal, within⟩
        exact ⟨by omega, within⟩
    | none =>
      have budget : 0 ≤ (underPressure percent c.memoryBudget).getD c.memoryBudget :=
        underPressure_nonneg (by omega)
      exact insert_sound_iff accounted admitted found _ budget

theorem exec_sound_iff (op : Op α) : (c.exec op).Sound op ↔ c.Follows op := by
  cases op with
  | store accessed expiry percent tokenIds kvData tenantId =>
    exact store_sound_iff accounted accessed expiry percent tokenIds kvData tenantId
  | lookup clock accessed tokenIds tenantId =>
    exact ⟨fun _ => trivial, fun _ => lookup_sound accounted clock accessed tokenIds tenantId⟩
  | evict tokenIds tenantId => exact evict_sound_iff accounted tokenIds tenantId
  | clear => exact clear_sound_iff accounted
  | adjustMemoryBudget newBudgetBytes => exact ⟨fun _ => trivial, fun _ => accounted⟩

end

theorem Sound.accounted {op : Op α} (sound : c.Sound op) : c.Accounted := by
  cases op with
  | store => exact sound.1
  | _ => exact sound

/-- Every call of a run ends with what is to hold after it. -/
def AllSound : PrefixCache α → List (Op α) → Prop
  | _, [] => True
  | c, op :: ops => (c.exec op).Sound op ∧ AllSound (c.exec op) ops

def AllFollow : PrefixCache α → List (Op α) → Prop
  | _, [] => True
  | c, op :: ops => c.Follows op ∧ AllFollow (c.exec op) ops

theorem allSound_iff (accounted : c.Accounted) (ops : List (Op α)) :
    c.AllSound ops ↔ c.AllFollow ops := by
  induction ops generalizing c with
  | nil => exact Iff.rfl
  | cons op ops ih =>
    unfold AllSound AllFollow
    rw [exec_sound_iff accounted]
    refine and_congr_right fun follows => ?_
    exact ih ((exec_sound_iff accounted op).mpr follows).accounted

/-- In a run of a new cache the counter is the size of the entries after every call, and at most
the budget after every store, exactly if it follows every call. -/
theorem run_accounted_iff (maxEntries minPrefixLen memoryBudgetBytes : Int)
    (ttlPolicy : Option TTLPolicy) (ops : List (Op α)) :
    (create maxEntries minPrefixLen memoryBudgetBytes ttlPolicy : PrefixCache α).AllSound ops ↔
      (create maxEntries minPrefixLen memoryBudgetBytes ttlPolicy).AllFollow ops :=
  allSound_iff (c := create maxEntries minPrefixLen memoryBudgetBytes ttlPolicy) rfl ops

def fourFloats : KvData Nat := ⟨0, .sequence [.tensor 4 4]⟩

/-- An entry that is evicted by its tokens stays counted. -/
theorem evict_stays_counted :
    let ops : List (Op Nat) := [.store 0 0 none [1] fourFloats "", .evict [1] ""]
    ¬ (create 0 1 100 none).AllSound ops ∧
      (ops.foldl exec (create 0 1 100 none)).totalMemoryBytes = 16 ∧
      (ops.foldl exec (create 0 1 100 none)).cache.entries.length = 0 := by
  refine ⟨?_, by rfl, by rfl⟩
  rintro ⟨-, accounted, -⟩
  cases accounted

end PrefixCache

end DistLLM.HashPrefix
