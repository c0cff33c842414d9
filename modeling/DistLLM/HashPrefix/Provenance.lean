import DistLLM.HashPrefix.Cache
import Mathlib.Data.List.Range

/-!
# Where cached data comes from

An entry keeps the tokens it was made for when a store finds its key. While every store that finds an
entry is for the tokens of that entry, a lookup returns what was stored for the prefix it names, and
no longer prefix is cached.
-/
namespace DistLLM.HashPrefix

open Library Radix

variable {α : Type}

variable {tokenIds : List Token}

namespace BloomFilter

theorem mem_foldl_insert {β : Type} [DecidableEq β] (g : Nat → β) (l : List Nat) (bits : Finset β)
    (b : β) : b ∈ l.foldl (fun bits i => insert (g i) bits) bits ↔ b ∈ bits ∨ ∃ i ∈ l, g i = b := by
  induction l generalizing bits with
  | nil => simp
  | cons i l ih =>
    simp only [List.foldl_cons, ih, Finset.mem_insert, List.mem_cons, exists_eq_or_imp]
    tauto

theorem mightContain_add (f : BloomFilter) (tokenIds : List Token) :
    (f.add tokenIds).mightContain tokenIds = true := by
  simp only [mightContain, List.all_eq_true, decide_eq_true_eq]
  intro i inside
  exact (mem_foldl_insert _ _ _ _).mpr (Or.inr ⟨i, inside, rfl⟩)

theorem mightContain_add_of {f : BloomFilter} (seen : f.mightContain tokenIds = true)
    (others : List Token) :
    (f.add others).mightContain tokenIds = true := by
  simp only [mightContain, List.all_eq_true, decide_eq_true_eq] at seen ⊢
  intro i inside
  exact (mem_foldl_insert _ _ _ _).mpr (Or.inl (seen i inside))

end BloomFilter

variable {minPrefixLen : Int}

namespace PrefixCache

theorem mem_hashes {i : Nat} {running : Int} {length : Nat}
    {h : Int} : (length, h) ∈ hashes minPrefixLen i running tokenIds ↔
      i < length ∧ length ≤ i + tokenIds.length ∧ minPrefixLen ≤ length ∧
        h = (tokenIds.take (length - i)).foldl hashStep running := by
  induction tokenIds generalizing i running with
  | nil =>
    simp only [hashes, List.not_mem_nil, List.length_nil, false_iff]
    omega
  | cons tok rest ih =>
    -- the prefix that ends here, or one that ends later
    have later : length ≠ i + 1 → (i < length ↔ i + 1 < length) := by omega
    have shift : i + 1 < length → length - i = (length - (i + 1)) + 1 := by omega
    simp only [hashes]
    by_cases here : length = i + 1
    · subst here
      have none : ¬ (i + 1, h) ∈ hashes minPrefixLen (i + 1) (hashStep running tok) rest := by
        rw [ih]
        omega
      split
      next enough =>
        have enough : minPrefixLen ≤ i + 1 := by omega
        simp [none, enough]
      next short =>
        have short : ¬ minPrefixLen ≤ i + 1 := by omega
        simp [none, short]
    · have same : (length, h) ∈ (if minPrefixLen ≤ (i + 1 : Nat) then
          (i + 1, hashStep running tok) :: hashes minPrefixLen (i + 1) (hashStep running tok) rest
          else hashes minPrefixLen (i + 1) (hashStep running tok) rest) ↔
          (length, h) ∈ hashes minPrefixLen (i + 1) (hashStep running tok) rest := by
        split <;> simp [here]
      rw [same, ih, later here, List.length_cons]
      constructor
      · rintro ⟨past, within, enough, rfl⟩
        exact ⟨past, by omega, enough, by rw [shift past]; rfl⟩
      · rintro ⟨past, within, enough, rfl⟩
        exact ⟨past, by omega, enough, by rw [shift past]; rfl⟩

theorem pairwise_hashes (minPrefixLen : Int) (i : Nat) (running : Int) (tokenIds : List Token) :
    (hashes minPrefixLen i running tokenIds).Pairwise fun a b => a.1 < b.1 := by
  induction tokenIds generalizing i running with
  | nil => simp [hashes]
  | cons tok rest ih =>
    simp only [hashes]
    split
    next =>
      refine List.Pairwise.cons ?_ (ih _ _)
      rintro ⟨length, h⟩ member
      exact (mem_hashes.mp member).1
    next => exact ih _ _

/-- The candidate that a lookup stops at: every longer one has failed. -/
theorem findSome_hashes {β : Type} {f : Nat × Int → Option β} {b : β}
    (found : (hashes minPrefixLen 0 0 tokenIds).reverse.findSome? f = some b) :
    ∃ length h, (length, h) ∈ hashes minPrefixLen 0 0 tokenIds ∧ f (length, h) = some b ∧
      ∀ candidate ∈ hashes minPrefixLen 0 0 tokenIds, length < candidate.1 →
        f candidate = none := by
  obtain ⟨longer, ⟨length, h⟩, shorter, parts, hit, misses⟩ :=
    List.findSome?_eq_some_iff.mp found
  have descending : (hashes minPrefixLen 0 0 tokenIds).reverse.Pairwise fun a b => b.1 < a.1 :=
    List.pairwise_reverse.mpr (pairwise_hashes minPrefixLen 0 0 tokenIds)
  have member : ∀ candidate, candidate ∈ hashes minPrefixLen 0 0 tokenIds ↔
      candidate ∈ longer ++ (length, h) :: shorter := by
    intro candidate
    rw [← parts, List.mem_reverse]
  refine ⟨length, h, (member _).mpr (by simp), hit, ?_⟩
  intro candidate inside past
  rw [member] at inside
  rcases List.mem_append.mp inside with before | rest
  · exact misses candidate before
  · -- what comes after is shorter
    rw [parts, List.pairwise_append, List.pairwise_cons] at descending
    rcases List.mem_cons.mp rest with rfl | after
    · omega
    · have := descending.2.1.1 candidate after
      omega

theorem probe_eq_some_iff (c : PrefixCache α) {tenantId : String} {clock : Nat → Time}
    {length n : Nat} {h : Int} {key : Key} {entry : Entry α} :
    c.probe tokenIds tenantId clock (length, h) = some (n, key, entry) ↔
      n = length ∧ key = (h, tenantId) ∧ c.cache.get? key = some entry ∧
        c.isExpired key (clock length) = false ∧ entry.tokens.length = length ∧
        entry.tokens = tokenIds.take length := by
  simp only [probe]
  cases found : c.cache.get? (h, tenantId) with
  | none =>
    simp only [reduceCtorEq, false_iff]
    rintro ⟨rfl, rfl, other, -⟩
    rw [found] at other
    cases other
  | some cached =>
    simp only
    constructor
    · intro hit
      split at hit
      next => cases hit
      next fresh =>
        split at hit
        next tokens =>
          obtain ⟨rfl, rfl, rfl⟩ := by simpa using hit
          exact ⟨rfl, rfl, found, by simpa using fresh, tokens⟩
        next => cases hit
    · rintro ⟨rfl, rfl, other, fresh, tokens⟩
      obtain rfl := Option.some.inj (found.symm.trans other)
      simp only [fresh, Bool.false_eq_true, if_false]
      rw [if_pos tokens]

/-! ### What the operations do to the entries -/

/-- Entries are only taken away, and nothing else that a lookup depends on changes. -/
structure Shrinks (c c' : PrefixCache α) : Prop where
  entries : ∀ key entry, c'.cache.get? key = some entry → c.cache.get? key = some entry
  bloom : c'.bloom = c.bloom
  minPrefixLen : c'.minPrefixLen = c.minPrefixLen

namespace Shrinks

variable {c c' c'' : PrefixCache α}

theorem refl (c : PrefixCache α) : Shrinks c c := ⟨fun _ _ found => found, rfl, rfl⟩

theorem trans (first : Shrinks c c') (second : Shrinks c' c'') : Shrinks c c'' :=
  ⟨fun key entry found => first.entries key entry (second.entries key entry found),
    second.bloom.trans first.bloom, second.minPrefixLen.trans first.minPrefixLen⟩

theorem of_filterKeys {d : Dict Key (Entry α)} {p : Key → Bool} {key : Key} {entry : Entry α}
    (found : (d.filterKeys p).get? key = some entry) : d.get? key = some entry := by
  rw [Dict.get?_filterKeys] at found
  split at found
  next => exact found
  next => cases found

end Shrinks

variable (c : PrefixCache α)

theorem dropEntry_shrinks (key : Key) (entry : Entry α) : Shrinks c (c.dropEntry key entry) :=
  ⟨fun _ _ found => Shrinks.of_filterKeys found, rfl, rfl⟩

theorem evictExpired_shrinks (neededBytes : Int) (keys : List Key) :
    Shrinks c (evictExpired neededBytes keys c).1 := by
  induction keys generalizing c with
  | nil => exact .refl c
  | cons key keys ih =>
    simp only [evictExpired]
    split
    next => exact ih c
    next entry _ =>
      split
      next => exact c.dropEntry_shrinks key entry
      next => exact (c.dropEntry_shrinks key entry).trans (ih _)

theorem evictOver_shrinks (neededBytes : Int) (fuel : Nat) :
    Shrinks c (evictOver neededBytes fuel c) := by
  induction fuel generalizing c with
  | zero => exact .refl c
  | succ fuel ih =>
    simp only [evictOver]
    split
    next =>
      split
      next => exact .refl c
      next key entry _ => exact (c.dropEntry_shrinks key entry).trans (ih _)
    next => exact .refl c

theorem evictUntilFit_shrinks (readings : Readings) (neededBytes : Int) :
    Shrinks c (c.evictUntilFit readings neededBytes) := by
  have budget : Shrinks c
      { c with memoryBudget := readings.adjustedBudget.getD c.memoryBudget } :=
    ⟨fun _ _ found => found, rfl, rfl⟩
  simp only [evictUntilFit]
  generalize { c with memoryBudget := readings.adjustedBudget.getD c.memoryBudget } = c' at budget ⊢
  have taken := evictExpired_shrinks c' neededBytes (c'.expiredKeys readings.expiry)
  split
  next c'' ran =>
    rw [ran] at taken
    exact budget.trans taken
  next c'' ran =>
    rw [ran] at taken
    exact (budget.trans taken).trans (evictOver_shrinks _ _ _)

theorem makeRoom_shrinks (fuel : Nat) : Shrinks c (makeRoom fuel c).1 := by
  induction fuel generalizing c with
  | zero => exact .refl c
  | succ fuel ih =>
    simp only [makeRoom]
    split
    next =>
      have popped : Shrinks c { c with cache := popOldest c.cache } := by
        refine ⟨?_, rfl, rfl⟩
        intro key entry found
        simp only [popOldest] at found
        split at found
        next => exact found
        next => exact Shrinks.of_filterKeys found
      exact popped.trans (ih _)
    next => exact .refl c

theorem lookup_minPrefixLen (clock : Nat → Time) (accessed : Time) (tokenIds : List Token)
    (tenantId : String) :
    (c.lookup clock accessed tokenIds tenantId).1.minPrefixLen = c.minPrefixLen := by
  simp only [lookup]
  repeat' split
  all_goals rfl

theorem store_minPrefixLen (readings : Readings) (tokenIds : List Token) (kvData : KvData α)
    (tenantId : String) :
    (c.store readings tokenIds kvData tenantId).1.minPrefixLen = c.minPrefixLen := by
  have room := (c.makeRoom_shrinks c.cache.size).minPrefixLen
  simp only [store]
  split
  next => rfl
  next =>
    split
    next => rfl
    next =>
      split
      next ran => rwa [ran] at room
      next ran =>
        rw [ran] at room
        exact (evictUntilFit_shrinks _ readings 0).minPrefixLen.trans room

theorem get?_touch (key : Key) (entry : Entry α) (now : Time) (other : Key) :
    (c.touch key entry now).cache.get? other
      = if key = other then some { entry with accessCount := entry.accessCount + 1 }
        else c.cache.get? other := by
  rw [touch, Dict.get?_set, Dict.get?_filterKeys]
  by_cases same : key = other
  · simp [same]
  · simp [same, Ne.symm same]

end PrefixCache

/-! ### Runs -/

/-- Data in the cache that is from a store for exactly these tokens under the tenant, under a key
that has not expired. -/
def Held (s : Stored α) (tokenIds : List Token) (tenantId : String) (now : Time)
    (kvData : KvData (α × Nat)) : Prop :=
  s.stores[kvData.payload.2]? = some (tokenIds, tenantId, unmark kvData) ∧
    ∃ h entry, s.cache.cache.get? (h, tenantId) = some entry ∧ entry.kvData = kvData ∧
      s.cache.isExpired (h, tenantId) now = false

/-- A store that finds an entry, if it is not turned away, is for the tokens of that entry. -/
def keepsTokens (s : Stored α) : Call α → Bool
  | .store _ tokenIds kvData tenantId =>
    s.cache.refuses tokenIds (s.mark kvData) ||
      match s.cache.cache.get? (PrefixCache.computeFullHash tokenIds, tenantId) with
      | none => true
      | some entry => decide (entry.tokens = tokenIds)
  | _ => true

/-- An entry whose data is from a store for its tokens, that stands under their key, and whose
beginning the filter knows. -/
structure Genuine (s : Stored α) (key : Key) (entry : Entry (α × Nat)) : Prop where
  marked : s.stores[entry.kvData.payload.2]?
    = some (entry.tokens, key.2, unmark entry.kvData)
  keyed : key.1 = PrefixCache.computeFullHash entry.tokens
  long : s.cache.minPrefixLen ≤ entry.tokens.length
  seen : s.cache.bloom.mightContain (sliceTo s.cache.minPrefixLen entry.tokens) = true

def AllGenuine (s : Stored α) : Prop :=
  ∀ key entry, s.cache.cache.get? key = some entry → Genuine s key entry

theorem sliceTo_take {least : Int} (positive : 0 ≤ least) {m : Nat}
    (long : least ≤ m) : sliceTo least (tokenIds.take m) = sliceTo least tokenIds := by
  rw [sliceTo, sliceTo, if_pos positive, if_pos positive, List.take_take,
    Nat.min_eq_left (by omega)]

namespace AllGenuine

variable {s : Stored α}

section

variable (genuine : AllGenuine s)

include genuine

theorem shrink {c : PrefixCache (α × Nat)} (shrinks : s.cache.Shrinks c) :
    AllGenuine { s with cache := c } := by
  intro key entry found
  obtain ⟨marked, keyed, long, seen⟩ := genuine key entry (shrinks.entries key entry found)
  exact ⟨marked, keyed, by simpa [shrinks.minPrefixLen] using long,
    by simpa [shrinks.minPrefixLen, shrinks.bloom] using seen⟩

theorem log (call : List Token × String × KvData α) :
    AllGenuine { s with stores := s.stores ++ [call] } := by
  intro key entry found
  obtain ⟨marked, keyed, long, seen⟩ := genuine key entry found
  refine ⟨?_, keyed, long, seen⟩
  obtain ⟨inside, -⟩ := List.getElem?_eq_some_iff.mp marked
  rw [List.getElem?_append_left inside, marked]

theorem touch {key : Key} {entry : Entry (α × Nat)} (own : Genuine s key entry) (now : Time) :
    AllGenuine { s with cache := s.cache.touch key entry now } := by
  intro other last found
  rw [PrefixCache.get?_touch] at found
  split at found
  next same =>
    obtain rfl := Option.some.inj found
    subst same
    exact ⟨own.marked, own.keyed, own.long, own.seen⟩
  next =>
    obtain ⟨marked, keyed, long, seen⟩ := genuine other last found
    exact ⟨marked, keyed, long, seen⟩

theorem lookup (clock : Nat → Time) (accessed : Time) (tokenIds : List Token) (tenantId : String) :
    AllGenuine (s.exec (.lookup clock accessed tokenIds tenantId)) := by
  have same : AllGenuine { s with cache := s.cache.missed } :=
    genuine.shrink ⟨fun _ _ found => found, rfl, rfl⟩
  simp only [Stored.exec, PrefixCache.lookup]
  split
  next => exact same
  next =>
    split
    next => exact same
    next =>
      split
      next => exact same
      next length key cached found =>
        obtain ⟨length', h, -, hit, -⟩ := PrefixCache.findSome_hashes found
        have inside := ((PrefixCache.probe_eq_some_iff _).mp hit).2.2.1
        exact (genuine.touch (genuine key cached inside) accessed).shrink
          ⟨fun _ _ found => found, rfl, rfl⟩

theorem store (readings : Readings) (tokenIds : List Token) (kvData : KvData α) (tenantId : String)
    (keeps : keepsTokens s (.store readings tokenIds kvData tenantId) = true) :
    AllGenuine (s.exec (.store readings tokenIds kvData tenantId)) := by
  have logged := genuine.log (tokenIds, tenantId, kvData)
  simp only [keepsTokens, Bool.or_eq_true] at keeps
  simp only [Stored.exec, PrefixCache.store]
  split
  next => exact logged
  next accepted =>
    have long : s.cache.minPrefixLen ≤ tokenIds.length := by
      simp only [PrefixCache.refuses, Bool.or_eq_true, decide_eq_true_eq, not_or] at accepted
      omega
    split
    next entry found =>
      -- the entry that is there is for these tokens, and gets the new data
      have tokens : entry.tokens = tokenIds := by simpa [accepted, found] using keeps
      have old := genuine _ _ found
      refine logged.touch ⟨?_, ?_, ?_, ?_⟩ readings.accessed
      · simp [tokens, Stored.mark, unmark]
      · simp [tokens]
      · simpa [tokens] using long
      · simpa [tokens] using old.seen
    next =>
      split
      next c ran =>
        have room := s.cache.makeRoom_shrinks s.cache.cache.size
        rw [ran] at room
        exact logged.shrink room
      next c ran =>
        have room := s.cache.makeRoom_shrinks s.cache.cache.size
        rw [ran] at room
        have before := logged.shrink room
        have placed : AllGenuine (α := α) ⟨c.place readings tokenIds (s.mark kvData)
            (PrefixCache.computeFullHash tokenIds, tenantId),
            s.stores ++ [(tokenIds, tenantId, kvData)]⟩ := by
          intro key entry found
          simp only [PrefixCache.place, Dict.get?_set] at found
          split at found
          next same =>
            obtain rfl := Option.some.inj found
            subst same
            have least : c.minPrefixLen = s.cache.minPrefixLen := room.minPrefixLen
            refine ⟨by simp [Stored.mark, unmark], rfl, ?_, ?_⟩
            · simpa [PrefixCache.place, least] using long
            · exact BloomFilter.mightContain_add _ _
          next =>
            obtain ⟨marked, keyed, long, seen⟩ := before key entry found
            exact ⟨marked, keyed, long, BloomFilter.mightContain_add_of seen _⟩
        exact placed.shrink (PrefixCache.evictUntilFit_shrinks _ readings 0)

theorem evict (tokenIds : List Token) (tenantId : String) :
    AllGenuine (s.exec (.evict tokenIds tenantId)) := by
  simp only [Stored.exec, PrefixCache.evict]
  split
  next => exact genuine
  next => exact genuine.shrink ⟨fun _ _ found => PrefixCache.Shrinks.of_filterKeys found, rfl, rfl⟩

end

theorem clear : AllGenuine (s.exec .clear) := by
  intro key entry found
  simp [Stored.exec, PrefixCache.clear] at found

theorem of_reaches
    (run : (prefixCaching α minPrefixLen).Reaches
    (fun s call => keepsTokens s call = true) s) :
    AllGenuine s ∧ s.cache.minPrefixLen = minPrefixLen := by
  apply run.invariant
  · rintro s ⟨maxEntries, memoryBudget, ttlPolicy, rfl⟩
    refine ⟨?_, rfl⟩
    intro key entry found
    simp [PrefixCache.create] at found
  · rintro s call ⟨genuine, least⟩ _ keeps
    cases call with
    | lookup clock accessed tokenIds tenantId =>
      exact ⟨genuine.lookup clock accessed tokenIds tenantId,
        (s.cache.lookup_minPrefixLen ..).trans least⟩
    | store readings tokenIds kvData tenantId =>
      exact ⟨genuine.store readings tokenIds kvData tenantId keeps,
        (s.cache.store_minPrefixLen ..).trans least⟩
    | evict tokenIds tenantId =>
      refine ⟨genuine.evict tokenIds tenantId, ?_⟩
      simp only [prefixCaching, Stored.exec, PrefixCache.evict]
      split <;> exact least
    | clear => exact ⟨clear, least⟩

theorem candidate (genuine : AllGenuine s) {clock : Nat → Time} {tenantId : String} {m : Nat}
    (within : m ≤ tokenIds.length) (positive : 0 < m) {kvData : KvData (α × Nat)}
    (held : Held s (tokenIds.take m) tenantId (clock m) kvData) :
    s.cache.minPrefixLen ≤ m ∧ (0 ≤ s.cache.minPrefixLen →
        s.cache.bloom.mightContain (sliceTo s.cache.minPrefixLen tokenIds) = true) ∧
      ∃ h, (m, h) ∈ PrefixCache.hashes s.cache.minPrefixLen 0 0 tokenIds ∧
        s.cache.probe tokenIds tenantId clock (m, h) ≠ none := by
  obtain ⟨stored, h, entry, found, rfl, fresh⟩ := held
  obtain ⟨marked, keyed, long, seen⟩ := genuine _ _ found
  have tokens : entry.tokens = tokenIds.take m := by
    rw [stored] at marked
    exact (Prod.mk.inj (Option.some.inj marked)).1.symm
  have size : entry.tokens.length = m := by simp [tokens, within]
  rw [size] at long
  refine ⟨long, ?_, h, PrefixCache.mem_hashes.mpr ⟨positive, by omega, long, ?_⟩, ?_⟩
  · intro nonneg
    rw [← sliceTo_take nonneg long, ← tokens]
    exact seen
  · rw [Nat.sub_zero, ← tokens]
    exact keyed
  · have hit : s.cache.probe tokenIds tenantId clock (m, h) = some (m, (h, tenantId), entry) :=
      (s.cache.probe_eq_some_iff).mpr ⟨rfl, rfl, found, fresh, size, tokens⟩
    simp [hit]

end AllGenuine

/-- While every store that finds an entry is for the tokens of that entry, a lookup that answers with
data answers with what a store brought for exactly the prefix it names, under the same tenant; and
no longer prefix is held that has not expired. -/
theorem lookup_held {minPrefixLen : Int} {s : Stored α}
    (run : (prefixCaching α minPrefixLen).Reaches
      (fun s call => keepsTokens s call = true) s)
    (clock : Nat → Time) (accessed : Time) (tokenIds : List Token) (tenantId : String) :
    let answer := (s.cache.lookup clock accessed tokenIds tenantId).2
    (∀ n kvData, answer = (n, some kvData) → 0 < n ∧ n ≤ tokenIds.length ∧
      Held s (tokenIds.take n) tenantId (clock n) kvData) ∧
    (∀ n, answer = (n, none) → n = 0) ∧
    (0 ≤ minPrefixLen → ∀ m ≤ tokenIds.length, ∀ kvData,
      Held s (tokenIds.take m) tenantId (clock m) kvData → m ≤ answer.1) := by
  obtain ⟨genuine, rfl⟩ := AllGenuine.of_reaches run
  -- of a prefix longer than the answer, nothing can be held
  have longest : ∀ n, (∀ m ≤ tokenIds.length, n < m → ∀ kvData,
      ¬ Held s (tokenIds.take m) tenantId (clock m) kvData) → ∀ m ≤ tokenIds.length,
      ∀ kvData, Held s (tokenIds.take m) tenantId (clock m) kvData → m ≤ n := by
    intro n none m within kvData held
    by_contra past
    exact none m within (by omega) kvData held
  simp only [PrefixCache.lookup]
  split
  next short =>
    refine ⟨by simp, by simp +contextual [eq_comm], fun _ => longest 0 ?_⟩
    intro m within positive kvData held
    have := (genuine.candidate within positive held).1
    omega
  next =>
    split
    next unseen =>
      refine ⟨by simp, by simp +contextual [eq_comm], fun nonneg => longest 0 ?_⟩
      intro m within positive kvData held
      have seen := (genuine.candidate within positive held).2.1 nonneg
      rw [unseen] at seen
      cases seen
    next =>
      split
      next missed =>
        refine ⟨by simp, by simp +contextual [eq_comm], fun _ => longest 0 ?_⟩
        intro m within positive kvData held
        obtain ⟨-, -, h, member, hits⟩ := genuine.candidate within positive held
        exact hits (List.findSome?_eq_none_iff.mp missed _ (List.mem_reverse.mpr member))
      next n key cached found =>
        obtain ⟨length, h, member, hit, misses⟩ := PrefixCache.findSome_hashes found
        obtain ⟨rfl, rfl, inside, fresh, size, tokens⟩ :=
          (s.cache.probe_eq_some_iff).mp hit
        obtain ⟨positive, within, -, -⟩ := PrefixCache.mem_hashes.mp member
        refine ⟨?_, by simp, fun _ => longest n ?_⟩
        · intro n' kvData same
          obtain ⟨rfl, rfl⟩ := by simpa using same
          refine ⟨positive, by omega, ?_, h, cached, inside, rfl, fresh⟩
          rw [← tokens]
          exact (genuine _ _ inside).marked
        · intro m within past kvData held
          obtain ⟨-, -, h', member', hits⟩ := genuine.candidate within (by omega) held
          exact hits (misses _ member' past)

def number (n : Nat) : KvData Nat := ⟨n, .other⟩

def fresh : Stored Nat := ⟨.create 0 1 100 none, []⟩

theorem fresh_init : (prefixCaching Nat 1).init fresh := ⟨0, 100, none, rfl⟩

def storesOf (lists : List (List Token)) : List (Call Nat) :=
  lists.mapIdx fun i tokenIds => .store ⟨0, 0, none⟩ tokenIds (number i) ""

/-- Of two stored prefixes of a prompt, the longer one is found. -/
theorem lookup_held_nested :
    Held ((storesOf [[1, 2], [1, 2, 3]]).foldl (prefixCaching Nat 1).exec fresh)
      ([1, 2, 3, 4].take 3) "" 0 ⟨(1, 1), .other⟩ := by
  have run : (prefixCaching Nat 1).Reaches (fun s call => keepsTokens s call = true) _ :=
    .of_follows (.init fresh_init) (storesOf [[1, 2], [1, 2, 3]])
      ⟨trivial, by decide +kernel, trivial, by decide +kernel, trivial⟩
  exact ((lookup_held run (fun _ => 0) 0 [1, 2, 3, 4] "").1 3 ⟨(1, 1), .other⟩ rfl).2.2

/-- A leading zero does not change the hash: the store of `[5]` gives its data to the entry of
`[0, 5]`, and there it is found. -/
theorem lookup_serves_other : ¬ ∀ s, (prefixCaching Nat 1).Reachable s →
    ∀ clock accessed tokenIds tenantId n kvData,
      (s.cache.lookup clock accessed tokenIds tenantId).2 = (n, some kvData) → 0 < n →
      s.stores[kvData.payload.2]? = some (tokenIds.take n, tenantId, unmark kvData) := by
  intro always
  have reached : (prefixCaching Nat 1).Reachable _ :=
    .of_follows (.init fresh_init) (storesOf [[0, 5], [5]])
      ⟨trivial, trivial, trivial, trivial, trivial⟩
  have served := always _ reached (fun _ => 0) 0 [0, 5] "" 2 ⟨(1, 1), .other⟩ rfl (by decide)
  have tokens := congrArg (Option.map Prod.fst) served
  revert tokens
  decide +kernel

end DistLLM.HashPrefix
