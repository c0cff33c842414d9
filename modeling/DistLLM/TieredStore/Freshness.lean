import DistLLM.TieredStore.Accounting

/-!
# Values in the tiers

The pool with the files of its cold tier. A key may have copies in several tiers, of which the
first one is found; that one should be what was put last, and a key that is found should stay. Two
keys may have one file.
-/
namespace DistLLM.TieredStore

open Library TieredMemoryPool

variable {κ φ : Type} [DecidableEq κ] [DecidableEq φ] {entry : TieredEntry}

/-! ### Files -/

/-- `_TENSOR_MAGIC`, "distllm_tensor" with two bytes behind it. -/
def tensorMagic : List UInt8 :=
  [100, 105, 115, 116, 108, 108, 109, 95, 116, 101, 110, 115, 111, 114, 0, 1]

/-- What a file with this data is read as. Bytes that begin like a tensor are parsed as one. -/
def readBack (parse : List UInt8 → Option Data) : Data → Option Data
  | .tensor shape elementSize content => some (.tensor shape elementSize content)
  | .bytes content => if tensorMagic <+: content then parse content else some (.bytes content)
  | .other => none

/-- What is left in a file when it is deleted, or when its write does not succeed, comes with the
answers of the disk. -/
structure FileEnv (κ φ : Type) extends Env κ where
  left : φ → Option Data

/-- `latest` and `lost` are kept for what is said about the pool: the data that was last put under
each key, and whether a `get` took away what it found. -/
structure Store (κ φ : Type) where
  pool : TieredMemoryPool κ := fun _ => {}
  disk : φ → Option Data := fun _ => none
  latest : κ → Option Data := fun _ => none
  lost : Bool := false

namespace TieredMemoryPool

section

variable (p : TieredMemoryPool κ)

def upper (key : κ) : Option TieredEntry :=
  ((p .hot).cache.get? key).or ((p .warm).cache.get? key)

/-- The data of the first copy. A cold one has what its file has. -/
def copy (disk : κ → Option Data) (key : κ) : Option (Option Data) :=
  match p.upper key with
  | some entry => some entry.data
  | none => ((p .cold).cache.get? key).map fun _ => disk key

/-- The pool when idle entries of L1, or those above its mark, have come down. -/
def broughtDown (gone : List (κ × TieredEntry)) : TieredMemoryPool κ :=
  lower .hot .warm (fun _ => true) gone p

end

-- `file` is the path f"{key}.bin" under the directory of the pool; keys that differ in a "./" at
-- their front have the same
variable (cfg : PoolConfig) (parse : List UInt8 → Option Data) (file : κ → φ) (env : FileEnv κ φ)
  (p : TieredMemoryPool κ)

def finds (key : κ) : Option (Option Data) :=
  match p.upper key with
  | some entry => some entry.data
  | none =>
    match (p .cold).cache.get? key, env.load with
    | some _, .loaded data => some (some data)
    | _, _ => none

def written : TierAction κ → List (κ × TieredEntry)
  | .put _ data .warm => leavingL2 cfg env.toEnv p (estimateSize data)
  | .put _ _ _ => []
  | .get key =>
    match p.upper key, (p .cold).cache.get? key, env.load with
    | none, some entry, .loaded _ => leavingL2 cfg env.toEnv p entry.sizeBytes
    | _, _, _ => []
  | .evict =>
    let q := broughtDown p (evictedL1 cfg p)
    tried (saveToNvme cfg env.toEnv)
      (falling (aboveMark cfg .warm) (q .warm).used (q .warm).cache.entries)
  | .demoteIdleEntries =>
    let q := broughtDown p (idleL1 cfg env.toEnv p)
    tried (saveToNvme cfg env.toEnv)
      (idleEntries env.toEnv (cfg.demotionIdleS * 2) (q .warm).cache.entries)

/-- The file of an entry after it was written, or tried to be. -/
def fileOf (e : κ × TieredEntry) : Option Data :=
  if saves cfg env.toEnv e.1 then e.2.data.bind (readBack parse) else env.left (file e.1)

/-- The files once entries are written one after the other: the last one to a file stays. -/
def filesAfter (gone : List (κ × TieredEntry)) (disk : φ → Option Data) (f : φ) : Option Data :=
  match gone.reverse.find? fun e => decide (file e.1 = f) with
  | some e => fileOf cfg parse file env e
  | none => disk f

def clears (sizeBytes : Nat) : Bool := cfg.nvme && exceeds cfg .cold sizeBytes (p .cold).used

/-- The files after `_put_l3`. All of L3 is deleted if there is no room, and the new file is
written. -/
def filesPutL3 (key : κ) (data : Data) (disk : φ → Option Data) (f : φ) : Option Data :=
  if !cfg.nvme then disk f
  else if f = file key then
    if saves cfg env.toEnv key then readBack parse data else env.left f
  else if clears cfg p (estimateSize data) && (p .cold).cache.keys.any fun k => file k = f then
    env.left f
  else disk f

end TieredMemoryPool

namespace Store

variable (cfg : PoolConfig) (parse : List UInt8 → Option Data) (file : κ → φ) (s : Store κ φ)
  (env : FileEnv κ φ)

def filesOf : TierAction κ → φ → Option Data
  | .put key data .cold => filesPutL3 cfg parse file env s.pool key data s.disk
  | act => filesAfter cfg parse file env (written cfg env s.pool act) s.disk

/-- A `put` that returns counts, also if it stores nothing. -/
def latestOf : TierAction κ → κ → Option Data
  | .put key data tier =>
    if (s.pool.put cfg env.toEnv key data tier).isOk then Function.update s.latest key (some data)
    else s.latest
  | _ => s.latest

def exec (act : TierAction κ) : Store κ φ where
  pool := s.pool.exec cfg env.toEnv act
  disk := s.filesOf cfg parse file env act
  latest := s.latestOf cfg env act
  lost := s.lost ||
    match act with
    | .get key => decide ((s.pool.finds env key).isSome = true ∧
        (s.pool.exec cfg env.toEnv act).copy (s.filesOf cfg parse file env act ∘ file) key ≠
          s.pool.finds env key)
    | _ => false

/-- A load gives what the file has, or nothing, or raises. -/
def Answers : TierAction κ → Prop
  | .get key => ∀ data, env.load = .loaded data → s.disk (file key) = some data
  | _ => True

end Store

namespace TieredMemoryPool

variable (cfg : PoolConfig) (parse : List UInt8 → Option Data) (file : κ → φ) (env : FileEnv κ φ)
  (p : TieredMemoryPool κ)

/-- The first copy of the key, if it can be read, is what was put last. -/
def FreshAt (disk latest : κ → Option Data) (key : κ) : Prop :=
  ∀ v d, latest key = some v → p.copy disk key = some (some d) → d = v

/-- Once entries have left L1 there is room for so many bytes. -/
def FitsL1 (sizeBytes : Nat) : Prop :=
  exceeds cfg .hot sizeBytes ((p .hot).used - total (leavingL1 cfg p sizeBytes)) = false

instance (sizeBytes : Nat) : Decidable (FitsL1 cfg p sizeBytes) :=
  inferInstanceAs (Decidable (_ = false))

/-- When the entries have left L2, the key is in L3 alone. -/
def OnlyCold (gone : List (κ × TieredEntry)) (key : κ) : Prop :=
  (p .hot).cache.get? key = none ∧
    (key ∈ gone.map Prod.fst ∧
        (saves cfg env.toEnv key = true ∨ ((p .cold).cache.get? key).isSome = true) ∨
      (p .warm).cache.get? key = none ∧ ((p .cold).cache.get? key).isSome = true)

/-- If one of the entries that leave L2 has the file of the key, and the key is in L3 alone then,
the file, if it can be read, is read as what was put last under the key. -/
def WritesBack (disk : φ → Option Data) (latest : κ → Option Data) (gone : List (κ × TieredEntry))
    (key : κ) : Prop :=
  (∃ e ∈ gone, file e.1 = file key) → OnlyCold cfg env p gone key →
    ∀ v d, latest key = some v → filesAfter cfg parse file env gone disk (file key) = some d → d = v

end TieredMemoryPool

namespace Store

variable (cfg : PoolConfig) (parse : List UInt8 → Option Data) (file : κ → φ) (s : Store κ φ)
  (env : FileEnv κ φ)

/-- Data that L1 refuses finds no copy of other data. -/
def ServesPutL1 (key : κ) (data : Data) : Prop :=
  FitsL1 cfg s.pool (estimateSize data) ∨
    ∀ d, s.pool.copy (s.disk ∘ file) key = some (some d) → d = data

/-- L1 has no copy of other data, and what leaves L2 is written. -/
def ServesPutL2 (key : κ) (data : Data) : Prop :=
  let gone := leavingL2 cfg env.toEnv s.pool (estimateSize data)
  let returns := raises (saveToNvme cfg env.toEnv) gone = false
  (∀ k, (returns → k ≠ key) → WritesBack cfg parse file env s.pool s.disk s.latest gone k) ∧
    (returns → ∀ entry d, (s.pool .hot).cache.get? key = some entry → entry.data = some d →
      d = data)

/-- Neither L1 nor L2 has a copy of other data, and the file is read as what was put last, under
each key that has it and is in L3 alone then. -/
def ServesPutL3 (key : κ) (data : Data) : Prop :=
  (∀ entry v d, s.pool.upper key = some entry →
      s.latestOf cfg env (.put key data .cold) key = some v → entry.data = some d → d = v) ∧
    ∀ k, file k = file key → s.pool.upper k = none →
      k = key ∧ saves cfg env.toEnv key = true ∨ ((s.pool .cold).cache.get? k).isSome = true ∧
        clears cfg s.pool (estimateSize data) = false →
      ∀ v d, s.latestOf cfg env (.put key data .cold) k = some v →
        filesPutL3 cfg parse file env s.pool key data s.disk (file k) = some d → d = v

/-- An entry that goes up to L1 finds room there, or L3 has the same data. Where an entry of L3 goes
up to L2, what leaves L2 is written, and no write raises. -/
def ServesGet (key : κ) : Prop :=
  (s.pool .hot).cache.get? key = none →
    (∀ entry, (s.pool .warm).cache.get? key = some entry →
      cfg.promotionThreshold ≤ (entry.accessed env.now).accessCount →
      FitsL1 cfg s.pool entry.sizeBytes ∨
        ((s.pool .cold).cache.get? key).isSome = true ∧ s.disk (file key) = entry.data) ∧
    ∀ entry data, (s.pool .warm).cache.get? key = none →
      (s.pool .cold).cache.get? key = some entry → env.load = .loaded data →
      raises (saveToNvme cfg env.toEnv) (leavingL2 cfg env.toEnv s.pool entry.sizeBytes) = false ∧
        ∀ k, k ≠ key → WritesBack cfg parse file env s.pool s.disk s.latest
          (leavingL2 cfg env.toEnv s.pool entry.sizeBytes) k

def Serves : TierAction κ → Prop
  | .put key data .hot => s.ServesPutL1 cfg file key data
  | .put key data .warm => s.ServesPutL2 cfg parse file env key data
  | .put key data .cold => s.ServesPutL3 cfg parse file env key data
  | .get key => s.ServesGet cfg parse file env key
  | .evict => ∀ k, WritesBack cfg parse file env (broughtDown s.pool (evictedL1 cfg s.pool)) s.disk
      s.latest (written cfg env s.pool .evict) k
  | .demoteIdleEntries => ∀ k, WritesBack cfg parse file env
      (broughtDown s.pool (idleL1 cfg env.toEnv s.pool)) s.disk s.latest
      (written cfg env s.pool .demoteIdleEntries) k

/-- What was put last is found, or nothing, and no `get` has taken away what it found. -/
structure Sound : Prop where
  fresh : ∀ key, FreshAt s.pool (s.disk ∘ file) s.latest key
  kept : s.lost = false

end Store

/-- Calls one after the other, each with the answers it gets. -/
def storing (κ φ : Type) [DecidableEq κ] [DecidableEq φ] (cfg : PoolConfig)
    (parse : List UInt8 → Option Data) (file : κ → φ) :
    Machine (Store κ φ) (FileEnv κ φ × TierAction κ) where
  init s := s = {}
  enabled s act := s.Answers file act.1 act.2
  exec s act := s.exec cfg parse file act.1 act.2

variable {gone : List (κ × TieredEntry)} {q : TieredMemoryPool κ}

namespace TieredMemoryPool

variable {cfg : PoolConfig} {parse : List UInt8 → Option Data} {file : κ → φ} {env : FileEnv κ φ}
  {p : TieredMemoryPool κ} {disk : κ → Option Data} {files : φ → Option Data} {key k : κ}

section

variable {tier tier' : StorageTier} {keeps : κ → Bool} {gone : List (κ × TieredEntry)}

theorem get?_lowerOne_self (other : tier' ≠ tier) (e : κ × TieredEntry) :
    ((lowerOne tier tier' keeps p e) tier).cache.get? k =
      if k = e.1 then none else (p tier).cache.get? k := by
  rw [lowerOne_self other, Tier.remove, Dict.get?_filterKeys]
  by_cases same : k = e.1
  · simp [same]
  · simp [same]

theorem get?_lowerOne_next (other : tier' ≠ tier) (e : κ × TieredEntry) :
    ((lowerOne tier tier' keeps p e) tier').cache.get? k =
      if k = e.1 ∧ keeps k = true then some (e.2.demoted tier') else (p tier').cache.get? k := by
  unfold lowerOne
  by_cases same : k = e.1
  · subst same
    split
    next keeps => rw [store_self, remove_of_ne other, Tier.store, Dict.get?_set_self]; simp [keeps]
    next goes => rw [remove_of_ne other]; simp [goes]
  · have apart : e.1 ≠ k := fun equal => same equal.symm
    split
    · rw [store_self, remove_of_ne other, Tier.store, Dict.get?_set, if_neg apart]
      simp [same]
    · rw [remove_of_ne other]
      simp [same]

theorem get?_lower_self (p : TieredMemoryPool κ) (keeps : κ → Bool) (other : tier' ≠ tier)
    (gone : List (κ × TieredEntry)) (k : κ) :
    ((lower tier tier' keeps gone p) tier).cache.get? k =
      if k ∈ gone.map Prod.fst then none else (p tier).cache.get? k := by
  induction gone generalizing p with
  | nil => simp [lower]
  | cons e rest ih =>
    rw [lower, List.foldl_cons, ← lower, ih, get?_lowerOne_self other]
    have cases : k ∈ (e :: rest).map Prod.fst ↔ k = e.1 ∨ k ∈ rest.map Prod.fst := List.mem_cons
    by_cases later : k ∈ rest.map Prod.fst
    · rw [if_pos later, if_pos (cases.mpr (.inr later))]
    · rw [if_neg later]
      exact if_congr (by rw [cases, or_iff_left later]) rfl rfl

theorem get?_lower_next (p : TieredMemoryPool κ) (keeps : κ → Bool) (other : tier' ≠ tier)
    (distinct : (gone.map Prod.fst).Nodup) (k : κ) :
    ((lower tier tier' keeps gone p) tier').cache.get? k =
      match gone.find? fun e => decide (e.1 = k) with
      | some e => if keeps k then some (e.2.demoted tier') else (p tier').cache.get? k
      | none => (p tier').cache.get? k := by
  induction gone generalizing p with
  | nil => rfl
  | cons e rest ih =>
    rw [List.map_cons, List.nodup_cons] at distinct
    rw [lower, List.foldl_cons, ← lower, ih _ distinct.2, get?_lowerOne_next other, List.find?_cons]
    by_cases same : k = e.1
    · subst same
      have once : rest.find? (fun e' => decide (e'.1 = e.1)) = none := by
        rw [List.find?_eq_none]
        rintro e' member equal
        exact distinct.1 (of_decide_eq_true equal ▸ List.mem_map_of_mem (f := Prod.fst) member)
      simp [once]
    · have apart : ¬ e.1 = k := fun equal => same equal.symm
      simp [same, apart]

theorem find?_mem {e : κ × TieredEntry}
    (found : gone.find? (fun e => decide (e.1 = k)) = some e) : e ∈ gone ∧ e.1 = k := by
  have equal := List.find?_some found
  exact ⟨List.mem_of_find?_eq_some found, by simpa using equal⟩

theorem not_mem_of_find? (missing : gone.find? (fun e => decide (e.1 = k)) = none) :
    k ∉ gone.map Prod.fst := by
  rw [List.find?_eq_none] at missing
  intro member
  obtain ⟨e, inside, equal⟩ := List.mem_map.mp member
  exact missing e inside (decide_eq_true equal)

theorem lower_of_ne (p : TieredMemoryPool κ) (keeps : κ → Bool) {u : StorageTier} (first : u ≠ tier)
    (second : u ≠ tier') (gone : List (κ × TieredEntry)) :
    (lower tier tier' keeps gone p) u = p u := by
  induction gone generalizing p with
  | nil => rfl
  | cons e rest ih => exact (ih _).trans (lowerOne_of_ne first second)

theorem lower_used (p : TieredMemoryPool κ) (keeps : κ → Bool) (other : tier' ≠ tier)
    (gone : List (κ × TieredEntry)) :
    ((lower tier tier' keeps gone p) tier).used = (p tier).used - total gone := by
  induction gone generalizing p with
  | nil => simp [lower]
  | cons e rest ih =>
    rw [lower, List.foldl_cons, ← lower, ih, lowerOne_self other, Tier.remove_used, total_cons]
    omega

end

theorem upper_eq_none_iff :
    p.upper key = none ↔ (p .hot).cache.get? key = none ∧ (p .warm).cache.get? key = none :=
  Option.or_eq_none_iff

theorem copy_of_upper (found : p.upper key = some entry) : p.copy disk key = some entry.data := by
  rw [copy, found]

theorem copy_of_cold (above : p.upper key = none) :
    p.copy disk key = ((p .cold).cache.get? key).map fun _ => disk key := by
  rw [copy, above]

theorem copy_congr {disk' : κ → Option Data}
    (above : (q.upper k).map TieredEntry.data = (p.upper k).map TieredEntry.data)
    (cold : p.upper k = none → ((q .cold).cache.get? k).map (fun _ => disk' k) =
        ((p .cold).cache.get? k).map fun _ => disk k) : q.copy disk' k = p.copy disk k := by
  cases found : p.upper k with
  | some entry =>
    obtain ⟨entry', found', same⟩ := Option.map_eq_some_iff.mp (above.trans (by rw [found]; rfl))
    rw [copy_of_upper found, copy_of_upper found', same]
  | none =>
    have missing := Option.map_eq_none_iff.mp (above.trans (by rw [found]; rfl))
    rw [copy_of_cold found, copy_of_cold missing, cold found]

theorem copy_lower_hot (part : gone.Sublist (p .hot).cache.entries) :
    (lower .hot .warm (fun _ => true) gone p).copy disk = p.copy disk := by
  have distinct : (gone.map Prod.fst).Nodup := (p .hot).cache.distinct.sublist (part.map Prod.fst)
  funext k
  have left := get?_lower_self p (fun _ => true)
    (show StorageTier.warm ≠ .hot by decide) gone k
  have came := get?_lower_next p (fun _ => true)
    (show StorageTier.warm ≠ .hot by decide) distinct k
  have cold := lower_of_ne p (fun _ => true)
    (show StorageTier.cold ≠ .hot by decide) (show StorageTier.cold ≠ .warm by decide) gone
  refine copy_congr ?_ fun _ => by rw [cold]
  unfold upper
  cases found : gone.find? fun e => decide (e.1 = k) with
  | none =>
    simp only [found] at came
    rw [if_neg (not_mem_of_find? found)] at left
    rw [left, came]
  | some e =>
    obtain ⟨member, rfl⟩ := find?_mem found
    simp only [found, if_true] at came
    rw [if_pos (List.mem_map_of_mem member)] at left
    have held := (Dict.mem_entries_iff _ _ _).mp (part.subset member)
    rw [left, came, held]
    simp [TieredEntry.demoted]

omit [DecidableEq φ] in
/-- A key that is in L3 alone when entries have left L2 has what its file has. -/
theorem copy_lower_warm (disk : κ → Option Data) (part : gone.Sublist (p .warm).cache.entries)
    (only : OnlyCold cfg env p gone k) :
    (lower .warm .cold (saves cfg env.toEnv) gone p).copy disk k = some (disk k) := by
  have distinct : (gone.map Prod.fst).Nodup := (p .warm).cache.distinct.sublist (part.map Prod.fst)
  have left := get?_lower_self p (saves cfg env.toEnv)
    (show StorageTier.cold ≠ .warm by decide) gone k
  have came := get?_lower_next p (saves cfg env.toEnv)
    (show StorageTier.cold ≠ .warm by decide) distinct k
  have hot := lower_of_ne p (saves cfg env.toEnv)
    (show StorageTier.hot ≠ .warm by decide) (show StorageTier.hot ≠ .cold by decide) gone
  obtain ⟨above, where_⟩ := only
  have warm : ((lower .warm .cold (saves cfg env.toEnv) gone p) .warm).cache.get? k = none := by
    rw [left]
    rcases where_ with ⟨leaves, -⟩ | ⟨missing, -⟩
    · exact if_pos leaves
    · simp [missing]
  rw [copy_of_cold (upper_eq_none_iff.mpr ⟨hot ▸ above, warm⟩), came]
  cases found : gone.find? fun e => decide (e.1 = k) with
  | none =>
    obtain ⟨-, there⟩ := where_.resolve_left fun leaves => not_mem_of_find? found leaves.1
    obtain ⟨entry, there⟩ := Option.isSome_iff_exists.mp there
    simp [there]
  | some e =>
    obtain ⟨member, rfl⟩ := find?_mem found
    by_cases saved : saves cfg env.toEnv e.1 = true
    · simp [saved]
    · have there : ((p .cold).cache.get? e.1).isSome = true := by
        rcases where_ with ⟨-, saved' | there⟩ | ⟨-, there⟩
        · exact absurd saved' saved
        · exact there
        · exact there
      obtain ⟨entry, there⟩ := Option.isSome_iff_exists.mp there
      simp [saved, there]

omit [DecidableEq φ] in
/-- Another key has what it had, or nothing. -/
theorem copy_lower_warm_of_not (disk disk' : κ → Option Data)
    (part : gone.Sublist (p .warm).cache.entries) (elsewhere : ¬ OnlyCold cfg env p gone k) :
    (lower .warm .cold (saves cfg env.toEnv) gone p).copy disk' k = none ∨
      (lower .warm .cold (saves cfg env.toEnv) gone p).copy disk' k = p.copy disk k := by
  have distinct : (gone.map Prod.fst).Nodup := (p .warm).cache.distinct.sublist (part.map Prod.fst)
  have left := get?_lower_self p (saves cfg env.toEnv)
    (show StorageTier.cold ≠ .warm by decide) gone k
  have came := get?_lower_next p (saves cfg env.toEnv)
    (show StorageTier.cold ≠ .warm by decide) distinct k
  have hot := lower_of_ne p (saves cfg env.toEnv)
    (show StorageTier.hot ≠ .warm by decide) (show StorageTier.hot ≠ .cold by decide) gone
  cases above : (p .hot).cache.get? k with
  | some entry =>
    right
    refine copy_congr ?_ fun missing => ?_
    · rw [upper, upper, hot, above]
      rfl
    · rw [(upper_eq_none_iff.mp missing).1] at above
      cases above
  | none =>
    simp only [OnlyCold, above, true_and, not_or, not_and, Bool.not_eq_true] at elsewhere
    cases found : gone.find? fun e => decide (e.1 = k) with
    | none =>
      right
      rw [if_neg (not_mem_of_find? found)] at left
      simp only [found] at came
      refine copy_congr ?_ fun missing => ?_
      · rw [upper, upper, hot, left]
      · have warm := (upper_eq_none_iff.mp missing).2
        have cold : (p .cold).cache.get? k = none := by simpa using elsewhere.2 warm
        rw [came, cold]
        rfl
    | some e =>
      obtain ⟨member, rfl⟩ := find?_mem found
      left
      rw [if_pos (List.mem_map_of_mem member)] at left
      have nowhere := elsewhere.1 (List.mem_map_of_mem member)
      have cold : (p .cold).cache.get? e.1 = none := by simpa using nowhere.2
      rw [copy_of_cold (upper_eq_none_iff.mpr ⟨hot ▸ above, left⟩), came, found]
      simp [nowhere.1, cold]

/-! ### Freshness under the moves -/

variable {latest : κ → Option Data}

omit [DecidableEq κ] in
theorem filesAfter_of_unshared [DecidableEq κ] {f : φ} (unshared : ∀ e ∈ gone, file e.1 ≠ f) :
    filesAfter cfg parse file env gone files f = files f := by
  have missing : gone.reverse.find? (fun e => decide (file e.1 = f)) = none := by
    rw [List.find?_eq_none]
    intro e member
    simpa using unshared e (List.mem_reverse.mp member)
  rw [filesAfter, missing]

theorem freshAt_lower_warm (fresh : FreshAt p (files ∘ file) latest k)
    (part : gone.Sublist (p .warm).cache.entries) :
    FreshAt (lower .warm .cold (saves cfg env.toEnv) gone p)
        (filesAfter cfg parse file env gone files ∘ file) latest k ↔
      WritesBack cfg parse file env p files latest gone k := by
  by_cases only : OnlyCold cfg env p gone k
  · unfold FreshAt
    rw [copy_lower_warm _ part only]
    simp only [Function.comp_apply, Option.some.injEq]
    by_cases shared : ∃ e ∈ gone, file e.1 = file k
    · simp only [WritesBack, shared, only, true_implies]
    · -- the file is as before, and so is the place
      refine iff_of_true ?_ fun share => absurd share shared
      have unshared : ∀ e ∈ gone, file e.1 ≠ file k := fun e member same =>
        shared ⟨e, member, same⟩
      have stays : k ∉ gone.map Prod.fst := by
        intro member
        obtain ⟨e, inside, rfl⟩ := List.mem_map.mp member
        exact unshared e inside rfl
      obtain ⟨missing, there⟩ := only.2.resolve_left fun leaves => stays leaves.1
      obtain ⟨entry, there⟩ := Option.isSome_iff_exists.mp there
      intro v d put read
      rw [filesAfter_of_unshared unshared] at read
      refine fresh v d put ?_
      rw [copy_of_cold (upper_eq_none_iff.mpr ⟨only.1, missing⟩), there]
      exact congrArg some read
  · refine iff_of_true ?_ fun _ here => absurd here only
    intro v d put read
    rcases copy_lower_warm_of_not (files ∘ file) (filesAfter cfg parse file env gone files ∘ file)
      part only with gone | same
    · rw [gone] at read
      cases read
    · exact fresh v d put (same ▸ read)

theorem copy_store_hot (q : TieredMemoryPool κ) (disk : κ → Option Data) (key : κ)
    (entry : TieredEntry) (k : κ) :
    (q.store .hot key entry).copy disk k = if k = key then some entry.data else q.copy disk k := by
  by_cases same : k = key
  · subst same
    rw [if_pos rfl]
    apply copy_of_upper
    rw [upper, store_self, Tier.store, Dict.get?_set_self]
    rfl
  · rw [if_neg same]
    refine copy_congr ?_ fun _ => by rw [store_of_ne (by decide)]
    rw [upper, upper, store_self, store_of_ne (by decide), Tier.store, Dict.get?_set,
      if_neg fun equal => same equal.symm]

theorem copy_store_warm (q : TieredMemoryPool κ) (disk : κ → Option Data) (key : κ)
    (entry : TieredEntry) (k : κ) :
    (q.store .warm key entry).copy disk k =
      if k = key then some ((((q .hot).cache.get? key).map TieredEntry.data).getD entry.data)
      else q.copy disk k := by
  by_cases same : k = key
  · subst same
    rw [if_pos rfl]
    cases above : (q .hot).cache.get? k with
    | some entry' =>
      apply copy_of_upper
      rw [upper, store_of_ne (by decide), above]
      rfl
    | none =>
      apply copy_of_upper
      rw [upper, store_of_ne (by decide), above, store_self, Tier.store, Dict.get?_set_self]
      rfl
  · rw [if_neg same]
    refine copy_congr ?_ fun _ => by rw [store_of_ne (by decide)]
    rw [upper, upper, store_self, store_of_ne (by decide), Tier.store, Dict.get?_set,
      if_neg fun equal => same equal.symm]

theorem copy_update (p : TieredMemoryPool κ) (disk : κ → Option Data) {tier : StorageTier}
    {t : Tier κ} {k : κ} (same : (t.cache.get? k).map TieredEntry.data =
      ((p tier).cache.get? k).map TieredEntry.data) :
    TieredMemoryPool.copy (Function.update p tier t) disk k = p.copy disk k := by
  have upper_map (q : TieredMemoryPool κ) : (q.upper k).map TieredEntry.data =
      (((q .hot).cache.get? k).map TieredEntry.data).or
        (((q .warm).cache.get? k).map TieredEntry.data) := by
    rw [upper]
    cases (q .hot).cache.get? k <;> rfl
  have tiers : ∀ u, (((Function.update p tier t) u).cache.get? k).map TieredEntry.data =
      ((p u).cache.get? k).map TieredEntry.data := by
    intro u
    by_cases here : u = tier
    · subst here
      rwa [Function.update_self]
    · rw [Function.update_of_ne here]
  refine copy_congr ?_ fun _ => ?_
  · rw [upper_map, upper_map, tiers, tiers]
  · have cold := congrArg (Option.map fun _ => disk k) (tiers .cold)
    simpa [Option.map_map, Function.comp_def] using cold

theorem copy_access (env : Env κ) {tier : StorageTier}
    (found : (p tier).cache.get? key = some entry) :
    (p.access env tier key entry).copy disk = p.copy disk := by
  funext k
  apply copy_update
  rw [Dict.get?_set]
  split
  next same =>
    rw [← same, found]
    rfl
  next => rfl

theorem copy_moveToEnd (p : TieredMemoryPool κ) (disk : κ → Option Data) (tier : StorageTier)
    (key : κ) : (p.moveToEnd tier key).copy disk = p.copy disk := by
  funext k
  apply copy_update
  rw [Dict.get?_moveToEnd]

theorem copy_without (p : TieredMemoryPool κ) (disk : κ → Option Data) (tier : StorageTier)
    {t : Tier κ} (without : t.cache = (p tier).cache.filterKeys fun k => decide (k ≠ key))
    (other : k ≠ key) :
    TieredMemoryPool.copy (Function.update p tier t) disk k = p.copy disk k := by
  apply copy_update
  rw [without, Dict.get?_filterKeys, if_pos (decide_eq_true other)]

theorem freshAt_congr {disk' latest' : κ → Option Data} (copy : q.copy disk' k = p.copy disk k)
    (same : latest' k = latest k) :
    FreshAt q disk' latest' k ↔ FreshAt p disk latest k := by
  unfold FreshAt
  rw [copy, same]

omit [DecidableEq κ] in
theorem filesAfter_nil [DecidableEq κ] : filesAfter cfg parse file env [] files = files := rfl

theorem fresh_lower_warm (fresh : ∀ k, FreshAt p (files ∘ file) latest k)
    (part : gone.Sublist (p .warm).cache.entries) :
    (∀ k, FreshAt (lower .warm .cold (saves cfg env.toEnv) gone p)
        (filesAfter cfg parse file env gone files ∘ file) latest k) ↔
      ∀ k, WritesBack cfg parse file env p files latest gone k :=
  forall_congr' fun k => freshAt_lower_warm (fresh k) part

theorem freshAt_store_warm (fresh : FreshAt p (files ∘ file) latest k)
    (part : gone.Sublist (p .warm).cache.entries) (other : k ≠ key) (entry : TieredEntry) :
    FreshAt ((lower .warm .cold (saves cfg env.toEnv) gone p).store .warm key entry)
        (filesAfter cfg parse file env gone files ∘ file) latest k ↔
      WritesBack cfg parse file env p files latest gone k := by
  rw [← freshAt_lower_warm fresh part]
  refine freshAt_congr ?_ rfl
  rw [copy_store_warm, if_neg other]

theorem fresh_store_warm (fresh : ∀ k, FreshAt p (files ∘ file) latest k)
    (part : gone.Sublist (p .warm).cache.entries) {data : Data} (new : entry.data = some data) :
    (∀ k, FreshAt ((lower .warm .cold (saves cfg env.toEnv) gone p).store .warm key entry)
        (filesAfter cfg parse file env gone files ∘ file)
        (Function.update latest key (some data)) k) ↔
      (∀ k, k ≠ key → WritesBack cfg parse file env p files latest gone k) ∧
        ∀ entry d, (p .hot).cache.get? key = some entry → entry.data = some d → d = data := by
  have hot := lower_of_ne p (saves cfg env.toEnv) (show StorageTier.hot ≠ .warm by decide)
    (show StorageTier.hot ≠ .cold by decide) gone
  have others : ∀ k, k ≠ key →
      (FreshAt ((lower .warm .cold (saves cfg env.toEnv) gone p).store .warm key entry)
        (filesAfter cfg parse file env gone files ∘ file)
        (Function.update latest key (some data)) k ↔
          WritesBack cfg parse file env p files latest gone k) := by
    intro k other
    rw [← freshAt_store_warm (fresh k) part other entry]
    exact freshAt_congr rfl (Function.update_of_ne other ..)
  have here : FreshAt ((lower .warm .cold (saves cfg env.toEnv) gone p).store .warm key entry)
      (filesAfter cfg parse file env gone files ∘ file)
      (Function.update latest key (some data)) key ↔
        ∀ entry d, (p .hot).cache.get? key = some entry → entry.data = some d → d = data := by
    unfold FreshAt
    rw [copy_store_warm, if_pos rfl, hot, Function.update_self, new]
    cases (p .hot).cache.get? key with
    | none => simp
    | some entry =>
      simp only [Option.map_some, Option.getD_some, Option.some.injEq]
      constructor
      · rintro all _ d rfl read
        exact all data d rfl read
      · rintro all _ d rfl read
        exact all entry d rfl read
  constructor
  · intro after
    exact ⟨fun k other => (others k other).mp (after k), here.mp (after key)⟩
  · rintro ⟨writes, above⟩ k
    by_cases same : k = key
    · exact same ▸ here.mpr above
    · exact (others k same).mpr (writes k same)

theorem putL1_eq (env : Env κ) (key : κ) (data : Option Data) (sizeBytes : Nat) :
    (putL1 cfg env p key data sizeBytes).2 =
      let q := lower .hot .warm (fun _ => true) (leavingL1 cfg p sizeBytes) p
      if exceeds cfg .hot sizeBytes ((p .hot).used - total (leavingL1 cfg p sizeBytes)) then q
      else q.store .hot key (newEntry env .hot data sizeBytes) := by
  unfold putL1
  rw [demoteL1While_eq]
  rw [← leavingL1]
  dsimp only
  rw [lower_used p (fun _ => true) (by decide)]
  split <;> rfl

theorem leavingL1_copy (sizeBytes : Nat) :
    (lower .hot .warm (fun _ => true) (leavingL1 cfg p sizeBytes) p).copy disk = p.copy disk :=
  copy_lower_hot (leavingL1_sublist sizeBytes)

variable (cfg : PoolConfig) (p : TieredMemoryPool κ) (env : Env κ) (key : κ)

theorem putL2_eq (data : Option Data) (sizeBytes : Nat) :
    let gone := leavingL2 cfg env p sizeBytes
    let q := lower .warm .cold (saves cfg env) gone p
    (putL2 cfg env p key data sizeBytes).isOk = !raises (saveToNvme cfg env) gone ∧
      afterCall (putL2 cfg env p key data sizeBytes) =
        if raises (saveToNvme cfg env) gone then q
        else q.store .warm key (newEntry env .warm data sizeBytes) := by
  have after : afterCall (putL2 cfg env p key data sizeBytes) = _ :=
    demoteL2While_bind cfg env (exceeds cfg .warm sizeBytes) (p .warm).cache.entries p
      (fun _ q => (true, q.store .warm key (newEntry env .warm data sizeBytes)))
      (fun q => q.store .warm key (newEntry env .warm data sizeBytes)) fun _ _ => rfl
  refine ⟨?_, after⟩
  obtain ⟨freed, loop⟩ :=
    demoteL2While_eq cfg env (exceeds cfg .warm sizeBytes) (p .warm).cache.entries p
  rw [leavingL2, raises_tried, putL2, loop, foldlM_demoteToL3]
  cases raises (saveToNvme cfg env) _ <;> rfl

theorem putL3_eq (sizeBytes : Nat) :
    let q : TieredMemoryPool κ :=
      if clears cfg p sizeBytes then Function.update p .cold ⟨∅, (p .cold).used⟩ else p
    afterCall (putL3 cfg env p key sizeBytes) =
      if saves cfg env key then q.store .cold key (newEntry env .cold none sizeBytes) else q := by
  unfold putL3 clears saves
  cases nvme : cfg.nvme with
  | false => simp [saveToNvme, nvme, afterCall]
  | true =>
    rw [discardL3While_eq _ _ rfl]
    cases saveToNvme cfg env key <;> rfl

theorem upper_putL3 (sizeBytes : Nat) (k : κ) :
    (afterCall (putL3 cfg env p key sizeBytes)).upper k = p.upper k := by
  have others (tier : StorageTier) (other : tier ≠ .cold) :
      afterCall (putL3 cfg env p key sizeBytes) tier = p tier := by
    rw [putL3_eq]
    split
    · rw [store_of_ne other]
      split
      · exact Function.update_of_ne other ..
      · rfl
    · split
      · exact Function.update_of_ne other ..
      · rfl
  rw [upper, others .hot (by decide), others .warm (by decide), upper]

theorem cold_putL3 (sizeBytes : Nat) (k : κ) :
    (((afterCall (putL3 cfg env p key sizeBytes)) .cold).cache.get? k).isSome = true ↔
      (k = key ∧ saves cfg env key = true) ∨
        (((p .cold).cache.get? k).isSome = true ∧ clears cfg p sizeBytes = false) := by
  rw [putL3_eq]
  cases emptied : clears cfg p sizeBytes <;> by_cases saved : saves cfg env key = true <;>
  · by_cases same : k = key
    · simp [saved, same, Tier.store]
    · have apart : ¬ key = k := fun equal => same equal.symm
      simp [saved, same, apart, Tier.store, Dict.get?_set]

end TieredMemoryPool

namespace Store

variable {cfg : PoolConfig} {parse : List UInt8 → Option Data} {file : κ → φ} {env : FileEnv κ φ}
  {s : Store κ φ}

section

variable (sound : s.Sound file) (key : κ) (data : Data)

include sound key data

omit [DecidableEq φ] in
theorem Sound.putL1_iff :
    (∀ k, FreshAt (s.pool.exec cfg env.toEnv (.put key data .hot)) (s.disk ∘ file)
        (Function.update s.latest key (some data)) k) ↔ s.ServesPutL1 cfg file key data := by
  have after : s.pool.exec cfg env.toEnv (.put key data .hot) = _ :=
    putL1_eq env.toEnv key (some data) (estimateSize data)
  have others : ∀ k, k ≠ key → Function.update s.latest key (some data) k = s.latest k :=
    fun k other => Function.update_of_ne other ..
  rw [after, ServesPutL1, FitsL1]
  cases room : exceeds cfg .hot (estimateSize data)
      ((s.pool .hot).used - total (leavingL1 cfg s.pool (estimateSize data))) with
  | false =>
    refine iff_of_true (fun k => ?_) (.inl rfl)
    rw [if_neg Bool.false_ne_true]
    by_cases same : k = key
    · subst same
      intro v d put found
      rw [copy_store_hot, if_pos rfl] at found
      rw [Function.update_self] at put
      cases put
      cases found
      rfl
    · refine (freshAt_congr ?_ (others k same)).mpr (sound.fresh k)
      rw [copy_store_hot, if_neg same, leavingL1_copy]
  | true =>
    rw [if_pos rfl]
    simp only [Bool.true_eq_false, false_or]
    constructor
    · intro fresh d found
      refine fresh key data d (Function.update_self ..) ?_
      rwa [leavingL1_copy]
    · intro same k
      by_cases here : k = key
      · subst here
        intro v d put found
        rw [Function.update_self] at put
        rw [leavingL1_copy] at found
        cases put
        exact same d found
      · exact (freshAt_congr (by rw [leavingL1_copy]) (others k here)).mpr (sound.fresh k)

theorem Sound.putL2_iff :
    (∀ k, FreshAt (s.pool.exec cfg env.toEnv (.put key data .warm))
        (s.filesOf cfg parse file env (.put key data .warm) ∘ file)
        (s.latestOf cfg env (.put key data .warm)) k) ↔
      s.ServesPutL2 cfg parse file env key data := by
  obtain ⟨returned, after⟩ := putL2_eq cfg s.pool env.toEnv key (some data) (estimateSize data)
  have part : (leavingL2 cfg env.toEnv s.pool (estimateSize data)).Sublist
      (s.pool .warm).cache.entries := leavingL2_sublist env.toEnv _
  have pool : s.pool.exec cfg env.toEnv (.put key data .warm) = _ := after
  have files : s.filesOf cfg parse file env (.put key data .warm) =
      filesAfter cfg parse file env (leavingL2 cfg env.toEnv s.pool (estimateSize data))
        s.disk := rfl
  have latest : s.latestOf cfg env (.put key data .warm) =
      if raises (saveToNvme cfg env.toEnv) (leavingL2 cfg env.toEnv s.pool (estimateSize data)) then
        s.latest
      else Function.update s.latest key (some data) := by
    simp only [latestOf, put, returned]
    cases raises (saveToNvme cfg env.toEnv) _ <;> rfl
  unfold ServesPutL2
  dsimp only
  rw [pool, files, latest]
  generalize leavingL2 cfg env.toEnv s.pool (estimateSize data) = gone at part
  cases raised : raises (saveToNvme cfg env.toEnv) gone with
  | true =>
    rw [if_pos rfl, if_pos rfl, fresh_lower_warm sound.fresh part]
    exact ⟨fun writes => ⟨fun k _ => writes k, nofun⟩, fun serves k => serves.1 k nofun⟩
  | false =>
    have new : (newEntry env.toEnv .warm (some data) (estimateSize data)).data = some data := rfl
    rw [if_neg Bool.false_ne_true, if_neg Bool.false_ne_true, fresh_store_warm sound.fresh part new]
    simp only [true_implies]

theorem Sound.putL3_iff :
    (∀ k, FreshAt (s.pool.exec cfg env.toEnv (.put key data .cold))
        (s.filesOf cfg parse file env (.put key data .cold) ∘ file)
        (s.latestOf cfg env (.put key data .cold)) k) ↔
      s.ServesPutL3 cfg parse file env key data := by
  let after := s.pool.exec cfg env.toEnv (.put key data .cold)
  have above : ∀ k, after.upper k = s.pool.upper k :=
    upper_putL3 cfg s.pool env.toEnv key (estimateSize data)
  have cold : ∀ k, ((after .cold).cache.get? k).isSome = true ↔ _ :=
    cold_putL3 cfg s.pool env.toEnv key (estimateSize data)
  have each : ∀ k, FreshAt after (filesPutL3 cfg parse file env s.pool key data s.disk ∘ file)
      (s.latestOf cfg env (.put key data .cold)) k ↔
        (∀ entry v d, s.pool.upper k = some entry →
          s.latestOf cfg env (.put key data .cold) k = some v → entry.data = some d → d = v) ∧
        (s.pool.upper k = none →
          k = key ∧ saves cfg env.toEnv key = true ∨ ((s.pool .cold).cache.get? k).isSome = true ∧
            clears cfg s.pool (estimateSize data) = false →
          ∀ v d, s.latestOf cfg env (.put key data .cold) k = some v →
            filesPutL3 cfg parse file env s.pool key data s.disk (file k) = some d → d = v) := by
    intro k
    unfold FreshAt
    cases higher : s.pool.upper k with
    | some entry =>
      rw [copy_of_upper ((above k).trans higher)]
      constructor
      · intro fresh
        refine ⟨?_, nofun⟩
        rintro _ v d ⟨⟩ put read
        exact fresh v d put (congrArg some read)
      · intro serves v d put read
        exact serves.1 entry v d rfl put (Option.some.inj read)
    | none =>
      rw [copy_of_cold ((above k).trans higher)]
      have stays := cold k
      constructor
      · intro fresh
        refine ⟨nofun, fun _ there v d put read => fresh v d put ?_⟩
        obtain ⟨entry, found⟩ := Option.isSome_iff_exists.mp (stays.mpr there)
        rw [found, ← read]
        rfl
      · intro serves v d put found
        obtain ⟨entry, found, read⟩ := Option.map_eq_some_iff.mp found
        exact serves.2 rfl (stays.mp (by rw [found]; rfl)) v d put read
  have before : ∀ k, k ≠ key → ∀ v, s.latestOf cfg env (.put key data .cold) k = some v →
      s.latest k = some v := by
    intro k other v put
    rw [latestOf] at put
    split at put
    · rwa [Function.update_of_ne other] at put
    · exact put
  constructor
  · intro fresh
    exact ⟨((each key).mp (fresh key)).1, fun k _ => ((each k).mp (fresh k)).2⟩
  · rintro ⟨copies, files⟩ k
    refine (each k).mpr ⟨?_, ?_⟩
    · by_cases same : k = key
      · rw [same]
        exact copies
      · intro entry v d higher put read
        refine sound.fresh k v d (before k same v put) ?_
        rw [copy_of_upper higher, read]
    · intro missing there
      by_cases shared : file k = file key
      · exact files k shared missing there
      · -- the file of another key is as it was where its entry stays
        have other : k ≠ key := fun same => shared (same ▸ rfl)
        obtain ⟨there, kept⟩ := there.resolve_left fun new => other new.1
        obtain ⟨entry, there⟩ := Option.isSome_iff_exists.mp there
        have same : filesPutL3 cfg parse file env s.pool key data s.disk (file k) =
            s.disk (file k) := by
          simp [filesPutL3, shared, kept]
        intro v d put read
        refine sound.fresh k v d (before k other v put) ?_
        rw [copy_of_cold missing, there, ← read, same]
        rfl

end

/-! ### Getting -/

variable {key : κ}

section Taken

variable {p : TieredMemoryPool κ} {disk : κ → Option Data} {tier : StorageTier}

/-- The pool once an entry that goes up was taken out of its tier. -/
abbrev taken (env : Env κ) (tier : StorageTier) (key : κ) (entry : TieredEntry)
    (p : TieredMemoryPool κ) : TieredMemoryPool κ :=
  (p.access env tier key entry).remove tier key (entry.accessed env.now)

theorem get?_taken (env : Env κ) (k : κ) : ((taken env tier key entry p) tier).cache.get? k =
    if k = key then none else (p tier).cache.get? k := by
  rw [taken, remove_self, Tier.remove, Dict.get?_filterKeys]
  by_cases same : k = key
  · rw [if_neg (by simp [same]), if_pos same]
  · rw [if_pos (decide_eq_true same), if_neg same, TieredMemoryPool.access, Function.update_self,
      Dict.get?_set, if_neg fun equal => same equal.symm]

theorem copy_taken_of_ne (env : Env κ) (found : (p tier).cache.get? key = some entry) {k : κ}
    (other : k ≠ key) : (taken env tier key entry p).copy disk k = p.copy disk k := by
  have without : (taken env tier key entry p).copy disk k =
      (p.access env tier key entry).copy disk k := copy_without _ _ tier rfl other
  rw [without, copy_access env found]

/-- Out of L2 the key has what L3 has. -/
theorem copy_taken_warm (env : Env κ) (hot : (p .hot).cache.get? key = none) :
    (taken env .warm key entry p).copy disk key =
      ((p .cold).cache.get? key).map fun _ => disk key := by
  have above : taken env .warm key entry p .hot = p .hot :=
    taken_of_ne env key entry p (by decide)
  have below : taken env .warm key entry p .cold = p .cold :=
    taken_of_ne env key entry p (by decide)
  have gone : (taken env .warm key entry p .warm).cache.get? key = none := by
    rw [get?_taken, if_pos rfl]
  rw [copy_of_cold (upper_eq_none_iff.mpr ⟨above ▸ hot, gone⟩), below]

/-- Out of L3 it has nothing. -/
theorem copy_taken_cold (env : Env κ) (missing : p.upper key = none) :
    (taken env .cold key entry p).copy disk key = none := by
  obtain ⟨hot, warm⟩ := upper_eq_none_iff.mp missing
  have above : taken env .cold key entry p .hot = p .hot :=
    taken_of_ne env key entry p (by decide)
  have between : taken env .cold key entry p .warm = p .warm :=
    taken_of_ne env key entry p (by decide)
  rw [copy_of_cold (upper_eq_none_iff.mpr ⟨above ▸ hot, between ▸ warm⟩), get?_taken, if_pos rfl]
  rfl

end Taken

omit [DecidableEq φ] in
theorem Sound.promoteToL1_iff (sound : s.Sound file) (hot : (s.pool .hot).cache.get? key = none)
    (found : (s.pool .warm).cache.get? key = some entry) :
    let q := (s.pool.access env.toEnv .warm key entry).promoteToL1 cfg env.toEnv key
      (entry.accessed env.now)
    ((∀ k, FreshAt q (s.disk ∘ file) s.latest k) ∧ q.copy (s.disk ∘ file) key = some entry.data) ↔
      FitsL1 cfg s.pool entry.sizeBytes ∨
        ((s.pool .cold).cache.get? key).isSome = true ∧ s.disk (file key) = entry.data := by
  let r := taken env.toEnv .warm key entry s.pool
  have above : r .hot = s.pool .hot :=
    taken_of_ne env.toEnv key entry s.pool (show StorageTier.hot ≠ .warm by decide)
  have leaving : leavingL1 cfg r entry.sizeBytes = leavingL1 cfg s.pool entry.sizeBytes := by
    rw [leavingL1, above, ← leavingL1]
  have others : ∀ k, k ≠ key → r.copy (s.disk ∘ file) k = s.pool.copy (s.disk ∘ file) k :=
    fun k other => copy_taken_of_ne env.toEnv found other
  have here : r.copy (s.disk ∘ file) key =
      ((s.pool .cold).cache.get? key).map fun _ => s.disk (file key) :=
    copy_taken_warm env.toEnv hot
  have before : s.pool.copy (s.disk ∘ file) key = some entry.data := by
    apply copy_of_upper
    rw [upper, hot, found]
    rfl
  have after : (s.pool.access env.toEnv .warm key entry).promoteToL1 cfg env.toEnv key
      (entry.accessed env.now) = _ := putL1_eq env.toEnv key entry.data entry.sizeBytes
  change _ = if exceeds cfg .hot entry.sizeBytes
    ((r .hot).used - total (leavingL1 cfg r entry.sizeBytes)) = true then _ else _ at after
  rw [leaving, above] at after
  have lowered : (lower .hot .warm (fun _ => true) (leavingL1 cfg s.pool entry.sizeBytes) r).copy
      (s.disk ∘ file) = r.copy (s.disk ∘ file) := leaving ▸ leavingL1_copy entry.sizeBytes
  dsimp only
  rw [after, FitsL1]
  cases room : exceeds cfg .hot entry.sizeBytes
      ((s.pool .hot).used - total (leavingL1 cfg s.pool entry.sizeBytes)) with
  | false =>
    have stored := copy_store_hot
      (lower .hot .warm (fun _ => true) (leavingL1 cfg s.pool entry.sizeBytes) r) (s.disk ∘ file)
      key (newEntry env.toEnv .hot entry.data entry.sizeBytes)
    refine iff_of_true ⟨fun k => ?_, ?_⟩ (.inl rfl)
    · refine (freshAt_congr ?_ rfl).mpr (sound.fresh k)
      by_cases same : k = key
      · rw [same, before]
        exact (stored key).trans (if_pos rfl)
      · rw [← others k same, ← lowered]
        exact (stored k).trans (if_neg same)
    · exact (stored key).trans (if_pos rfl)
  | true =>
    rw [if_pos rfl, lowered, here]
    simp only [Bool.true_eq_false, false_or]
    constructor
    · rintro ⟨-, kept⟩
      obtain ⟨cold, there, same⟩ := Option.map_eq_some_iff.mp kept
      exact ⟨by rw [there]; rfl, same⟩
    · rintro ⟨there, same⟩
      obtain ⟨cold, there⟩ := Option.isSome_iff_exists.mp there
      have kept : ((s.pool .cold).cache.get? key).map (fun _ => s.disk (file key)) =
          some entry.data := by
        rw [there, ← same]
        rfl
      refine ⟨fun k => (freshAt_congr ?_ rfl).mpr (sound.fresh k), kept⟩
      rw [lowered]
      by_cases at_key : k = key
      · rw [at_key, here, kept, before]
      · exact others k at_key

section FromL3

variable (sound : s.Sound file) (missing : s.pool.upper key = none)
  (found : (s.pool .cold).cache.get? key = some entry)

include sound missing found

omit [DecidableEq φ] in
theorem Sound.fresh_taken (k : κ) :
    FreshAt (taken env.toEnv .cold key entry s.pool) (s.disk ∘ file) s.latest k := by
  by_cases same : k = key
  · intro v d _ read
    rw [same, copy_taken_cold env.toEnv missing] at read
    cases read
  · exact (freshAt_congr (copy_taken_of_ne env.toEnv found same) rfl).mpr (sound.fresh k)

omit [DecidableEq φ] in
/-- What the file of a key of L3 has is what was put last. -/
theorem Sound.latest_of_cold {data v : Data} (answers : s.disk (file key) = some data)
    (put : s.latest key = some v) : v = data := by
  refine (sound.fresh key v data put ?_).symm
  rw [copy_of_cold missing, found, ← answers]
  rfl

omit sound missing found in
theorem writesBack_taken {k : κ} (other : k ≠ key) (gone : List (κ × TieredEntry)) :
    WritesBack cfg parse file env (taken env.toEnv .cold key entry s.pool) s.disk s.latest gone k ↔
      WritesBack cfg parse file env s.pool s.disk s.latest gone k := by
  have hot : taken env.toEnv .cold key entry s.pool .hot = s.pool .hot :=
    taken_of_ne env.toEnv key entry s.pool (by decide)
  have warm : taken env.toEnv .cold key entry s.pool .warm = s.pool .warm :=
    taken_of_ne env.toEnv key entry s.pool (by decide)
  rw [WritesBack, OnlyCold, hot, warm, get?_taken, if_neg other, WritesBack, OnlyCold]

theorem Sound.promoteToL2_iff {data : Data} (answers : s.disk (file key) = some data) :
    let q := afterCall ((s.pool.access env.toEnv .cold key entry).promoteToL2 cfg env.toEnv key
      (entry.accessed env.now) data)
    let gone := leavingL2 cfg env.toEnv s.pool entry.sizeBytes
    ((∀ k, FreshAt q (filesAfter cfg parse file env gone s.disk ∘ file) s.latest k) ∧
        q.copy (filesAfter cfg parse file env gone s.disk ∘ file) key = some (some data)) ↔
      raises (saveToNvme cfg env.toEnv) gone = false ∧
        ∀ k, k ≠ key → WritesBack cfg parse file env s.pool s.disk s.latest gone k := by
  let r := taken env.toEnv .cold key entry s.pool
  have hot : r .hot = s.pool .hot :=
    taken_of_ne env.toEnv key entry s.pool (show StorageTier.hot ≠ .cold by decide)
  have warm : r .warm = s.pool .warm :=
    taken_of_ne env.toEnv key entry s.pool (show StorageTier.warm ≠ .cold by decide)
  have leaving : leavingL2 cfg env.toEnv r entry.sizeBytes =
      leavingL2 cfg env.toEnv s.pool entry.sizeBytes := by
    rw [leavingL2, warm, ← leavingL2]
  have part : (leavingL2 cfg env.toEnv s.pool entry.sizeBytes).Sublist (r .warm).cache.entries :=
    warm ▸ leavingL2_sublist env.toEnv _
  have away : key ∉ (leavingL2 cfg env.toEnv s.pool entry.sizeBytes).map Prod.fst :=
    absent_of_not_mem part (warm ▸ (upper_eq_none_iff.mp missing).2)
  have fresh : ∀ k, FreshAt r (s.disk ∘ file) s.latest k := sound.fresh_taken missing found
  obtain ⟨-, after⟩ := putL2_eq cfg r env.toEnv key (some data) entry.sizeBytes
  have after : afterCall ((s.pool.access env.toEnv .cold key entry).promoteToL2 cfg env.toEnv key
      (entry.accessed env.now) data) = _ := after
  rw [leaving] at after
  dsimp only
  rw [after]
  generalize leavingL2 cfg env.toEnv s.pool entry.sizeBytes = gone at *
  cases raised : raises (saveToNvme cfg env.toEnv) gone with
  | true =>
    -- the entry has left L3 and does not get into L2
    rw [if_pos rfl]
    refine iff_of_false (fun kept => ?_) fun all => by cases all.1
    have elsewhere : ¬ OnlyCold cfg env r gone key := by
      rintro ⟨-, ⟨leaves, -⟩ | ⟨-, there⟩⟩
      · exact away leaves
      · rw [get?_taken, if_pos rfl] at there
        cases there
    have lost := copy_lower_warm_of_not (s.disk ∘ file)
      (filesAfter cfg parse file env gone s.disk ∘ file) part elsewhere
    rw [copy_taken_cold env.toEnv missing, or_self, kept.2] at lost
    cases lost
  | false =>
    rw [if_neg Bool.false_ne_true]
    have above := lower_of_ne r (saves cfg env.toEnv) (show StorageTier.hot ≠ .warm by decide)
      (show StorageTier.hot ≠ .cold by decide) gone
    have here : ((lower .warm .cold (saves cfg env.toEnv) gone r).store .warm key
        (newEntry env.toEnv .warm (some data) entry.sizeBytes)).copy
          (filesAfter cfg parse file env gone s.disk ∘ file) key = some (some data) := by
      rw [copy_store_warm, if_pos rfl, above, hot, (upper_eq_none_iff.mp missing).1]
      rfl
    constructor
    · rintro ⟨after, -⟩
      refine ⟨rfl, fun k other => ?_⟩
      have writes : WritesBack cfg parse file env r s.disk s.latest gone k :=
        (freshAt_store_warm (fresh k) part other _).mp (after k)
      exact (writesBack_taken other gone).mp writes
    · rintro ⟨-, all⟩
      refine ⟨fun k => ?_, here⟩
      by_cases same : k = key
      · intro v d put read
        rw [same] at put read
        rw [here] at read
        rw [sound.latest_of_cold missing found answers put]
        exact (Option.some.inj (Option.some.inj read)).symm
      · exact (freshAt_store_warm (fresh k) part same _).mpr
          ((writesBack_taken same gone).mpr (all k same))

end FromL3

/-- After a `get` each key is fresh, and what it found is found still. -/
def KeepsGet (cfg : PoolConfig) (parse : List UInt8 → Option Data) (file : κ → φ) (s : Store κ φ)
    (env : FileEnv κ φ) (key : κ) : Prop :=
  let q := s.pool.exec cfg env.toEnv (.get key)
  let disk := s.filesOf cfg parse file env (.get key) ∘ file
  (∀ k, FreshAt q disk s.latest k) ∧
    ((s.pool.finds env key).isSome = true → q.copy disk key = s.pool.finds env key)

section KeepsGet

variable (sound : s.Sound file)

include sound

/-- A `get` that writes nothing, and at most takes keys away. -/
theorem Sound.keepsGet_of_unwritten {q : TieredMemoryPool κ}
    (after : s.pool.exec cfg env.toEnv (.get key) = q)
    (nothing : written cfg env s.pool (.get key) = [])
    (copies : ∀ k, q.copy (s.disk ∘ file) k = s.pool.copy (s.disk ∘ file) k ∨
      q.copy (s.disk ∘ file) k = none)
    (keeps : (s.pool.finds env key).isSome = true →
      q.copy (s.disk ∘ file) key = s.pool.finds env key) :
    KeepsGet cfg parse file s env key := by
  have files : s.filesOf cfg parse file env (.get key) =
      filesAfter cfg parse file env (written cfg env s.pool (.get key)) s.disk := rfl
  unfold KeepsGet
  rw [files, nothing, filesAfter_nil, after]
  refine ⟨fun k => ?_, keeps⟩
  rcases copies k with same | gone
  · exact (freshAt_congr same rfl).mpr (sound.fresh k)
  · intro v d _ read
    rw [gone] at read
    cases read

/-- A `get` that leaves the entry in its tier. -/
theorem Sound.keepsGet_of_access {tier : StorageTier}
    (there : (s.pool tier).cache.get? key = some entry) (first : s.pool.upper key = some entry)
    (after : s.pool.exec cfg env.toEnv (.get key) =
      (s.pool.access env.toEnv tier key entry).moveToEnd tier key) :
    KeepsGet cfg parse file s env key := by
  have same : ∀ k, ((s.pool.access env.toEnv tier key entry).moveToEnd tier key).copy
      (s.disk ∘ file) k = s.pool.copy (s.disk ∘ file) k := by
    intro k
    rw [copy_moveToEnd, copy_access env.toEnv there]
  refine sound.keepsGet_of_unwritten after (by simp [written, first]) (fun k => .inl (same k)) ?_
  intro _
  rw [same, copy_of_upper first, TieredMemoryPool.finds, first]

theorem Sound.keepsGet_warm_iff (hot : (s.pool .hot).cache.get? key = none)
    (warm : (s.pool .warm).cache.get? key = some entry) : KeepsGet cfg parse file s env key ↔
      (cfg.promotionThreshold ≤ (entry.accessed env.now).accessCount →
        FitsL1 cfg s.pool entry.sizeBytes ∨
          ((s.pool .cold).cache.get? key).isSome = true ∧ s.disk (file key) = entry.data) := by
  have first : s.pool.upper key = some entry := by rw [upper, hot, warm]; rfl
  by_cases often : cfg.promotionThreshold ≤ (entry.accessed env.now).accessCount
  · have after : s.pool.exec cfg env.toEnv (.get key) =
        (s.pool.access env.toEnv .warm key entry).promoteToL1 cfg env.toEnv key
          (entry.accessed env.now) := by
      simp only [TieredMemoryPool.exec, TieredMemoryPool.get, hot, warm, if_pos often, afterCall]
    have files : s.filesOf cfg parse file env (.get key) =
        filesAfter cfg parse file env (written cfg env s.pool (.get key)) s.disk := rfl
    have nothing : written cfg env s.pool (.get key) = [] := by simp [written, first]
    have finds : s.pool.finds env key = some entry.data := by
      rw [TieredMemoryPool.finds, first]
    unfold KeepsGet
    rw [files, nothing, filesAfter_nil, finds, after]
    simp only [Option.isSome_some, true_implies, often]
    exact sound.promoteToL1_iff hot warm
  · refine iff_of_true (sound.keepsGet_of_access warm first ?_) fun promoted =>
      absurd promoted often
    simp only [TieredMemoryPool.exec, TieredMemoryPool.get, hot, warm, if_neg often, afterCall]

/-- Of an entry of L3 without a file only the entry goes. -/
theorem Sound.keepsGet_of_unloaded (first : s.pool.upper key = none)
    (cold : (s.pool .cold).cache.get? key = some entry)
    (unloaded : ∀ data, env.load ≠ .loaded data) : KeepsGet cfg parse file s env key := by
  obtain ⟨hot, warm⟩ := upper_eq_none_iff.mp first
  have finds : s.pool.finds env key = none := by
    cases load : env.load with
    | loaded data => exact absurd load (unloaded data)
    | missing | raised => simp [TieredMemoryPool.finds, first, cold, load]
  have nothing : written cfg env s.pool (.get key) = [] := by
    cases load : env.load with
    | loaded data => exact absurd load (unloaded data)
    | missing | raised => simp [written, first, cold, load]
  let q := s.pool.access env.toEnv .cold key entry
  cases load : env.load with
  | loaded data => exact absurd load (unloaded data)
  | missing =>
    have after : s.pool.exec cfg env.toEnv (.get key) = Function.update q .cold
        { (q .cold) with cache := (q .cold).cache.filterKeys fun k => decide (k ≠ key) } := by
      simp only [TieredMemoryPool.exec, TieredMemoryPool.get, hot, warm, cold, getL3, load,
        afterCall, q]
    refine sound.keepsGet_of_unwritten after nothing (fun k => ?_) (by simp [finds])
    by_cases same : k = key
    · right
      rw [same, copy_of_cold, Function.update_self, Dict.get?_filterKeys, if_neg (by simp)]
      · rfl
      · refine upper_eq_none_iff.mpr ⟨?_, ?_⟩
        · simpa [q, TieredMemoryPool.access] using hot
        · simpa [q, TieredMemoryPool.access] using warm
    · left
      rw [copy_without _ _ .cold rfl same, copy_access env.toEnv cold]
  | raised =>
    have after : s.pool.exec cfg env.toEnv (.get key) = q := by
      simp only [TieredMemoryPool.exec, TieredMemoryPool.get, hot, warm, cold, getL3, load,
        afterCall, q]
    refine sound.keepsGet_of_unwritten after nothing (fun k => .inl ?_) (by simp [finds])
    rw [copy_access env.toEnv cold]

theorem Sound.keepsGet_cold_iff (answers : s.Answers file env (.get key))
    (first : s.pool.upper key = none) (cold : (s.pool .cold).cache.get? key = some entry) :
    KeepsGet cfg parse file s env key ↔ ∀ data, env.load = .loaded data →
      raises (saveToNvme cfg env.toEnv) (leavingL2 cfg env.toEnv s.pool entry.sizeBytes) = false ∧
        ∀ k, k ≠ key → WritesBack cfg parse file env s.pool s.disk s.latest
          (leavingL2 cfg env.toEnv s.pool entry.sizeBytes) k := by
  obtain ⟨hot, warm⟩ := upper_eq_none_iff.mp first
  by_cases unloaded : ∀ data, env.load ≠ .loaded data
  · exact iff_of_true (sound.keepsGet_of_unloaded first cold unloaded) fun data load =>
      absurd load (unloaded data)
  push Not at unloaded
  obtain ⟨data, load⟩ := unloaded
  have after : s.pool.exec cfg env.toEnv (.get key) =
      afterCall ((s.pool.access env.toEnv .cold key entry).promoteToL2 cfg env.toEnv key
        (entry.accessed env.now) data) := by
    simp only [TieredMemoryPool.exec, TieredMemoryPool.get, hot, warm, cold, getL3, load]
    cases (s.pool.access env.toEnv .cold key entry).promoteToL2 cfg env.toEnv key
      (entry.accessed env.now) data <;> rfl
  have files : s.filesOf cfg parse file env (.get key) =
      filesAfter cfg parse file env (written cfg env s.pool (.get key)) s.disk := rfl
  have wrote : written cfg env s.pool (.get key) =
      leavingL2 cfg env.toEnv s.pool entry.sizeBytes := by
    simp [written, first, cold, load]
  have finds : s.pool.finds env key = some (some data) := by
    simp only [TieredMemoryPool.finds, first, cold, load]
  unfold KeepsGet
  rw [files, wrote, finds, after]
  simp only [Option.isSome_some, true_implies]
  refine (sound.promoteToL2_iff first cold (answers data load)).trans ⟨?_, fun all => ?_⟩
  · intro kept _ _
    exact kept
  · exact all data load

theorem Sound.get_iff (answers : s.Answers file env (.get key)) :
    KeepsGet cfg parse file s env key ↔ s.ServesGet cfg parse file env key := by
  unfold ServesGet
  cases hot : (s.pool .hot).cache.get? key with
  | some entry =>
    have first : s.pool.upper key = some entry := by rw [upper, hot]; rfl
    refine iff_of_true (sound.keepsGet_of_access hot first ?_) fun missing => by cases missing
    simp only [TieredMemoryPool.exec, TieredMemoryPool.get, hot, afterCall]
  | none =>
    simp only [true_implies]
    cases warm : (s.pool .warm).cache.get? key with
    | some entry =>
      rw [sound.keepsGet_warm_iff hot warm]
      simp only [reduceCtorEq, false_implies, implies_true, and_true, Option.some.injEq,
        forall_eq']
    | none =>
      have first : s.pool.upper key = none := upper_eq_none_iff.mpr ⟨hot, warm⟩
      simp only [reduceCtorEq, false_implies, implies_true, true_and, true_implies]
      cases cold : (s.pool .cold).cache.get? key with
      | none =>
        have finds : s.pool.finds env key = none := by simp [TieredMemoryPool.finds, first, cold]
        refine iff_of_true (sound.keepsGet_of_unwritten ?_ ?_ (fun _ => .inl rfl) (by simp [finds]))
          fun _ _ found => by cases found
        · simp only [TieredMemoryPool.exec, TieredMemoryPool.get, hot, warm, cold, afterCall]
        · simp [written, first, cold]
      | some entry =>
        rw [sound.keepsGet_cold_iff answers first cold]
        simp only [Option.some.injEq]
        constructor
        · rintro kept _ data rfl load
          exact kept data load
        · intro all data load
          exact all entry data rfl load

end KeepsGet

/-! ### Eviction and maintenance -/

omit [DecidableEq φ] in
theorem evict_eq (cfg : PoolConfig) (env : FileEnv κ φ) (p : TieredMemoryPool κ) :
    p.exec cfg env.toEnv .evict = lower .warm .cold (saves cfg env.toEnv)
      (written cfg env p .evict) (broughtDown p (evictedL1 cfg p)) := by
  have loop := demoteL1While_eq (aboveMark cfg .hot) (p .hot).cache.entries p
  have after := demoteL2While_bind cfg env.toEnv (aboveMark cfg .warm)
    ((demoteL1While (aboveMark cfg .hot) (p .hot).cache.entries p).2 .warm).cache.entries
    (demoteL1While (aboveMark cfg .hot) (p .hot).cache.entries p).2
    (fun freed q => ((demoteL1While (aboveMark cfg .hot) (p .hot).cache.entries p).1 + freed, q))
    id fun _ _ => rfl
  dsimp only [id] at after
  rw [ite_self, loop] at after
  unfold TieredMemoryPool.exec TieredMemoryPool.evict
  dsimp only
  rw [loop]
  exact after

omit [DecidableEq φ] in
theorem demoteIdleEntries_eq (cfg : PoolConfig) (env : FileEnv κ φ) (p : TieredMemoryPool κ) :
    p.exec cfg env.toEnv .demoteIdleEntries = lower .warm .cold (saves cfg env.toEnv)
      (written cfg env p .demoteIdleEntries) (broughtDown p (idleL1 cfg env.toEnv p)) := by
  have loop : (idleL1 cfg env.toEnv p).foldl (fun q e => demoteToL2 (q.remove .hot e.1 e.2) e.1 e.2)
      p = broughtDown p (idleL1 cfg env.toEnv p) := rfl
  unfold TieredMemoryPool.exec TieredMemoryPool.demoteIdleEntries
  dsimp only
  rw [← idleL1, loop, foldlM_demoteToL3]
  split <;> rfl

theorem Sound.demotion_iff (sound : s.Sound file) {gone gone' : List (κ × TieredEntry)}
    (part : gone.Sublist (s.pool .hot).cache.entries)
    (part' : gone'.Sublist ((broughtDown s.pool gone) .warm).cache.entries) :
    (∀ k, FreshAt (lower .warm .cold (saves cfg env.toEnv) gone' (broughtDown s.pool gone))
        (filesAfter cfg parse file env gone' s.disk ∘ file) s.latest k) ↔
      ∀ k, WritesBack cfg parse file env (broughtDown s.pool gone) s.disk s.latest gone' k := by
  refine fresh_lower_warm (fun k => ?_) part'
  exact (freshAt_congr (by rw [broughtDown, copy_lower_hot part]) rfl).mpr (sound.fresh k)

/-- By call, from the lemmas above; the run lemma is by this. -/
theorem Sound.exec_iff (sound : s.Sound file) {act : TierAction κ}
    (answers : s.Answers file env act) :
    (s.exec cfg parse file env act).Sound file ↔ s.Serves cfg parse file env act := by
  have sound_iff : (s.exec cfg parse file env act).Sound file ↔
      (∀ k, FreshAt (s.pool.exec cfg env.toEnv act) (s.filesOf cfg parse file env act ∘ file)
        (s.latestOf cfg env act) k) ∧ (s.exec cfg parse file env act).lost = false :=
    ⟨fun after => ⟨after.fresh, after.kept⟩, fun after => ⟨after.1, after.2⟩⟩
  have kept : s.lost = false := sound.kept
  rw [sound_iff]
  cases act with
  | get key =>
    rw [← show KeepsGet cfg parse file s env key ↔ s.Serves cfg parse file env (.get key) from
      sound.get_iff answers]
    refine and_congr_right fun _ => ?_
    simp [exec, kept]
  | put key data tier =>
    rw [and_iff_left (by simp [exec, kept])]
    cases tier with
    | hot => exact sound.putL1_iff key data
    | warm => exact sound.putL2_iff key data
    | cold => exact sound.putL3_iff key data
  | evict =>
    rw [and_iff_left (by simp [exec, kept]), evict_eq]
    have part : (evictedL1 cfg s.pool).Sublist (s.pool .hot).cache.entries :=
      (falling_isPrefix _ _ _).sublist
    exact sound.demotion_iff part ((tried_isPrefix _ _).trans (falling_isPrefix _ _ _)).sublist
  | demoteIdleEntries =>
    rw [and_iff_left (by simp [exec, kept]), demoteIdleEntries_eq]
    have part : (idleL1 cfg env.toEnv s.pool).Sublist (s.pool .hot).cache.entries :=
      (List.take_sublist _ _).trans List.filter_sublist
    exact sound.demotion_iff part
      ((tried_isPrefix _ _).sublist.trans ((List.take_sublist _ _).trans List.filter_sublist))

omit [DecidableEq φ] in
theorem Sound.get_fresh (sound : s.Sound file) (answers : s.Answers file env (.get key))
    {v d : Data} (put : s.latest key = some v)
    (returned : s.pool.get cfg env.toEnv key = .ok (some d, q)) : d = v := by
  refine sound.fresh key v d put ?_
  unfold TieredMemoryPool.get at returned
  cases hot : (s.pool .hot).cache.get? key with
  | some entry =>
    simp only [hot, Except.ok.injEq, Prod.mk.injEq] at returned
    rw [copy_of_upper (by rw [upper, hot]; rfl), returned.1]
  | none =>
    cases warm : (s.pool .warm).cache.get? key with
    | some entry =>
      rw [copy_of_upper (by rw [upper, hot, warm]; rfl)]
      simp only [hot, warm] at returned
      split at returned <;>
      · simp only [Except.ok.injEq, Prod.mk.injEq] at returned
        rw [returned.1]
    | none =>
      cases cold : (s.pool .cold).cache.get? key with
      | none => simp [hot, warm, cold] at returned
      | some entry =>
        rw [copy_of_cold (upper_eq_none_iff.mpr ⟨hot, warm⟩), cold]
        simp only [hot, warm, cold, getL3] at returned
        cases load : env.load with
        | missing | raised => simp [load] at returned
        | loaded data =>
          -- the data come from the file
          rw [load] at returned
          dsimp only at returned
          cases promoted : (s.pool.access env.toEnv .cold key entry).promoteToL2 cfg env.toEnv key
              (entry.accessed env.now) data with
          | error p =>
            rw [promoted] at returned
            cases returned
          | ok r =>
            rw [promoted] at returned
            cases returned
            exact congrArg some (answers d load)

end Store

/-- **Fresh values.** In every run whose calls meet the condition, a `get` returns the data that was
last put under the key, or nothing, and one that finds an entry leaves it in some tier. The
condition is exact: from there a call keeps this so if and only if it meets it. -/
theorem latest_served {cfg : PoolConfig} {parse : List UInt8 → Option Data} {file : κ → φ}
    {s : Store κ φ} (reached : (storing κ φ cfg parse file).Reaches
      (fun s act => s.Serves cfg parse file act.1 act.2) s) :
    s.Sound file ∧ (∀ env key v d q, s.Answers file env (.get key) → s.latest key = some v →
        s.pool.get cfg env.toEnv key = .ok (some d, q) → d = v) ∧
      ∀ env act, s.Answers file env act →
        ((s.exec cfg parse file env act).Sound file ↔ s.Serves cfg parse file env act) := by
  have sound : s.Sound file := by
    apply Machine.Reaches.invariant (I := Store.Sound file) _ _ reached
    · rintro s rfl
      exact ⟨fun _ _ _ => nofun, rfl⟩
    · intro s act sound answers serves
      exact (sound.exec_iff answers).mpr serves
  exact ⟨sound, fun env key v d q answers put returned => sound.get_fresh answers put returned,
    fun env act answers => sound.exec_iff answers⟩

def steadyFiles : FileEnv String (List Char) := { steady with left := fun _ => none }

/-- The file of a key: pathlib drops a "./" at its front. -/
def binFile (key : String) : List Char :=
  match key.toList with
  | '.' :: '/' :: name => name
  | name => name

abbrev smallStore :
    Machine (Store String (List Char)) (FileEnv String (List Char) × TierAction String) :=
  storing String (List Char) smallTiers (fun _ => none) binFile

def sentDown : List (FileEnv String (List Char) × TierAction String) :=
  [(steadyFiles, .put "a" (.bytes [1, 2]) .hot), (steadyFiles, .put "b" (.bytes [3, 4, 5]) .hot),
    (steadyFiles, .get "a")]

theorem latest_served_sentDown :
    (sentDown.foldl smallStore.exec {}).latest "a" = some (.bytes [1, 2]) ∧
      (sentDown.foldl smallStore.exec {}).Sound binFile := by
  have follows : smallStore.Follows
      (fun s act => s.Serves smallTiers (fun _ => none) binFile act.1 act.2) {} sentDown := by
    refine ⟨trivial, .inl (by decide), trivial, .inl (by decide), nofun, fun _ => ⟨?_, ?_⟩, trivial⟩
    · rintro entry ⟨⟩ often
      exact absurd often (by decide)
    · rintro entry data ⟨⟩
  exact ⟨by decide, (latest_served (.of_follows (.init rfl) _ follows)).1⟩

def overwrittenBelow : List (FileEnv String (List Char) × TierAction String) :=
  [(steadyFiles, .put "a" (.bytes [1]) .hot), (steadyFiles, .put "a" (.bytes [2]) .warm)]

/-- An entry that is too large for L1 is read until it goes up. -/
def readTooOften : List (FileEnv String (List Char) × TierAction String) :=
  [(steadyFiles, .put "a" (.bytes [1, 2, 3, 4, 5]) .warm), (steadyFiles, .get "a"),
    (steadyFiles, .get "a"), (steadyFiles, .get "a")]

/-- Two keys of one file. -/
def sameFile : List (FileEnv String (List Char) × TierAction String) :=
  [(steadyFiles, .put "a" (.bytes [1]) .cold), (steadyFiles, .put "./a" (.bytes [2]) .cold)]

/-- The old data are found above the new ones, a `get` drops the entry that it returns, and a key
has the data of another one. -/
theorem stale_or_lost : (smallStore.Reachable (overwrittenBelow.foldl smallStore.exec {}) ∧
      ¬ (overwrittenBelow.foldl smallStore.exec {}).Sound binFile) ∧
    (smallStore.Reachable (readTooOften.foldl smallStore.exec {}) ∧
      ¬ (readTooOften.foldl smallStore.exec {}).Sound binFile) ∧
    smallStore.Reachable (sameFile.foldl smallStore.exec {}) ∧
      ¬ (sameFile.foldl smallStore.exec {}).Sound binFile := by
  refine ⟨⟨.of_follows (.init rfl) _ ?_, fun sound => ?_⟩,
    ⟨.of_follows (.init rfl) _ ?_, fun sound => ?_⟩, .of_follows (.init rfl) _ ?_, fun sound => ?_⟩
  · exact ⟨trivial, trivial, trivial, trivial, trivial⟩
  · have same := sound.fresh "a" (.bytes [2]) (.bytes [1]) (by decide) (by decide)
    cases same
  · exact ⟨trivial, trivial, nofun, trivial, nofun, trivial, nofun, trivial, trivial⟩
  · have kept := sound.kept
    revert kept
    decide
  · exact ⟨trivial, trivial, trivial, trivial, trivial⟩
  · have same := sound.fresh "a" (.bytes [1]) (.bytes [2]) (by decide) (by decide)
    cases same

end DistLLM.TieredStore
