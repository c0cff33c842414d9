import DistLLM.TieredStore.Pool

/-!
# Entries that move down

What the loops of the pool do, as one function: a list of entries leaves a tier and those that
are kept go to the next one. A pool that is booked stays so.
-/
namespace DistLLM.TieredStore

open Library

variable {κ : Type}

def total (entries : List (κ × TieredEntry)) : Int := (entries.map fun e => (e.2.sizeBytes : Int)).sum

@[simp] theorem total_nil : total ([] : List (κ × TieredEntry)) = 0 := rfl

@[simp] theorem total_cons (e : κ × TieredEntry) (rest : List (κ × TieredEntry)) :
    total (e :: rest) = e.2.sizeBytes + total rest := by
  simp [total]

@[simp] theorem total_append (es es' : List (κ × TieredEntry)) :
    total (es ++ es') = total es + total es' := by
  simp [total]

theorem total_nonneg (es : List (κ × TieredEntry)) : 0 ≤ total es := by
  induction es with
  | nil => exact le_refl _
  | cons e rest ih =>
    rw [total_cons]
    omega

theorem total_perm {es es' : List (κ × TieredEntry)} (perm : es.Perm es') :
    total es = total es' := (perm.map _).sum_eq

def relabel (tier : StorageTier) (es : List (κ × TieredEntry)) : List (κ × TieredEntry) :=
  es.map fun e => (e.1, e.2.demoted tier)

@[simp] theorem total_relabel (tier : StorageTier) (es : List (κ × TieredEntry)) :
    total (relabel tier es) = total es := by
  simp [total, relabel, TieredEntry.demoted, Function.comp_def]

/-- The first entries, as long as what is left counts as too much. -/
def falling (above : Int → Bool) : Int → List (κ × TieredEntry) → List (κ × TieredEntry)
  | _, [] => []
  | used, e :: rest => if above used then e :: falling above (used - e.2.sizeBytes) rest else []

/-- The entries up to the first one whose write raises, and that one. -/
def tried (save : κ → SaveResult) : List (κ × TieredEntry) → List (κ × TieredEntry)
  | [] => []
  | e :: rest => if save e.1 = .raised then [e] else e :: tried save rest

def raises (save : κ → SaveResult) (es : List (κ × TieredEntry)) : Bool :=
  es.any fun e => decide (save e.1 = .raised)

def kept (save : κ → SaveResult) (es : List (κ × TieredEntry)) : List (κ × TieredEntry) :=
  es.filter fun e => decide (save e.1 = .saved)

theorem falling_isPrefix (above : Int → Bool) (used : Int) (es : List (κ × TieredEntry)) :
    falling above used es <+: es := by
  induction es generalizing used with
  | nil => exact List.prefix_rfl
  | cons e rest ih =>
    unfold falling
    split
    · exact (List.prefix_cons_inj e).mpr (ih _)
    · exact List.nil_prefix

theorem tried_isPrefix (save : κ → SaveResult) (es : List (κ × TieredEntry)) :
    tried save es <+: es := by
  induction es with
  | nil => exact List.prefix_rfl
  | cons e rest ih =>
    unfold tried
    split
    · exact (List.prefix_cons_inj e).mpr List.nil_prefix
    · exact (List.prefix_cons_inj e).mpr ih

theorem tried_eq_self {save : κ → SaveResult} {es : List (κ × TieredEntry)}
    (quiet : raises save es = false) : tried save es = es := by
  induction es with
  | nil => rfl
  | cons e rest ih =>
    simp only [raises, List.any_cons, Bool.or_eq_false_iff, decide_eq_false_iff_not] at quiet
    rw [tried, if_neg quiet.1, ih quiet.2]

theorem raises_tried (save : κ → SaveResult) (es : List (κ × TieredEntry)) :
    raises save (tried save es) = raises save es := by
  induction es with
  | nil => rfl
  | cons e rest ih =>
    by_cases raised : save e.1 = .raised
    · simp [tried, raises, raised]
    · rw [tried, if_neg raised]
      simp only [raises, List.any_cons] at ih ⊢
      rw [ih]

theorem falling_rest (above : Int → Bool) (used : Int) (es : List (κ × TieredEntry)) :
    above (used - total (falling above used es)) = false ∨ falling above used es = es := by
  induction es generalizing used with
  | nil => exact .inr rfl
  | cons e rest ih =>
    unfold falling
    split
    · rcases ih (used - e.2.sizeBytes) with fits | all
      · left
        rw [total_cons, ← sub_sub]
        exact fits
      · right
        rw [all]
    next fits =>
      left
      simpa using fits

/-! ### Booked pools -/

variable [DecidableEq κ]

namespace TieredMemoryPool

variable {p : TieredMemoryPool κ}

/-- A key is in one tier at most, and each tier counts the bytes of its entries. -/
structure Booked (p : TieredMemoryPool κ) : Prop where
  apart : ∀ tier tier' key, ((p tier).cache.get? key).isSome = true →
    ((p tier').cache.get? key).isSome = true → tier = tier'
  exact : ∀ tier, (p tier).used = total (p tier).cache.entries

variable {tier : StorageTier} {entry : TieredEntry} {key : κ}

theorem Booked.absent (booked : p.Booked) {tier' : StorageTier}
    (found : (p tier).cache.get? key = some entry) (other : tier' ≠ tier) :
    (p tier').cache.get? key = none := by
  by_contra present
  exact other (booked.apart tier' tier key (Option.isSome_iff_ne_none.mpr present) (by simp [found]))

theorem Booked.update (booked : p.Booked) {t : Tier κ}
    (inside : ∀ k, (t.cache.get? k).isSome = true → ((p tier).cache.get? k).isSome = true)
    (exact : t.used = total t.cache.entries) :
    TieredMemoryPool.Booked (Function.update p tier t) := by
  have before : ∀ tier' k, (((Function.update p tier t) tier').cache.get? k).isSome = true →
      ((p tier').cache.get? k).isSome = true := by
    intro tier' k present
    by_cases same : tier' = tier
    · subst same
      rw [Function.update_self] at present
      exact inside k present
    · rwa [Function.update_of_ne same] at present
  constructor
  · intro tier₁ tier₂ k here there
    exact booked.apart tier₁ tier₂ k (before _ _ here) (before _ _ there)
  · intro tier'
    by_cases same : tier' = tier
    · subst same
      rwa [Function.update_self]
    · rw [Function.update_of_ne same]
      exact booked.exact tier'

theorem Booked.used_eq (booked : p.Booked)
    (found : (p tier).cache.get? key = some entry) : (p tier).used = entry.sizeBytes +
      total ((p tier).cache.filterKeys fun k => decide (k ≠ key)).entries := by
  rw [booked.exact tier, total_perm ((p tier).cache.entries_perm_filterKeys key entry found),
    total_cons]

theorem Booked.remove (booked : p.Booked)
    (found : (p tier).cache.get? key = some entry) : (p.remove tier key entry).Booked := by
  apply booked.update
  · intro k present
    rw [Tier.remove, Dict.get?_filterKeys] at present
    split at present
    · exact present
    · cases present
  · rw [Tier.remove_used, booked.used_eq found]
    exact add_sub_cancel_left _ _

theorem total_store (t : Tier κ) (key : κ) (entry : TieredEntry) :
    total (t.store key entry).cache.entries =
      entry.sizeBytes + total (t.cache.filterKeys fun k => decide (k ≠ key)).entries := by
  rw [Tier.store, total_perm (t.cache.entries_set_perm_filterKeys key entry), total_cons]

theorem present_store {tier' : StorageTier} {k : κ}
    (alone : ∀ tier', tier' ≠ tier → (p tier').cache.get? key = none)
    (present : (((p.store tier key entry) tier').cache.get? k).isSome = true) :
    (k = key ∧ tier' = tier) ∨ (k ≠ key ∧ ((p tier').cache.get? k).isSome = true) := by
  by_cases same : tier' = tier
  · subst same
    rw [store_self, Tier.store, Dict.get?_set] at present
    by_cases asked : key = k
    · exact .inl ⟨asked.symm, rfl⟩
    · rw [if_neg asked] at present
      exact .inr ⟨Ne.symm asked, present⟩
  · rw [store_of_ne same] at present
    refine .inr ⟨?_, present⟩
    rintro rfl
    simp [alone tier' same] at present

theorem Booked.store_iff (booked : p.Booked) (tier : StorageTier) (key : κ) (entry : TieredEntry) :
    (p.store tier key entry).Booked ↔ (∀ tier', tier' ≠ tier → (p tier').cache.get? key = none) ∧
        ∀ old, (p tier).cache.get? key = some old → old.sizeBytes = 0 := by
  constructor
  · intro after
    constructor
    · intro tier' other
      by_contra present
      apply other
      apply after.apart tier' tier key
      · rw [store_of_ne other]
        exact Option.isSome_iff_ne_none.mpr present
      · rw [store_self, Tier.store, Dict.get?_set_self]
        rfl
    · -- the bytes of what is replaced stay in the count
      intro old found
      have count := after.exact tier
      rw [store_self, total_store, Tier.store_used, booked.used_eq found] at count
      omega
  · rintro ⟨alone, light⟩
    constructor
    · intro tier₁ tier₂ k here there
      rcases present_store alone here with ⟨rfl, rfl⟩ | ⟨other, before⟩
      · rcases present_store alone there with ⟨-, rfl⟩ | ⟨other, -⟩
        · rfl
        · exact absurd rfl other
      · rcases present_store alone there with ⟨same, -⟩ | ⟨-, before'⟩
        · exact absurd same other
        · exact booked.apart tier₁ tier₂ k before before'
    · intro tier'
      by_cases same : tier' = tier
      · subst same
        rw [store_self, total_store, Tier.store_used]
        cases found : (p tier').cache.get? key with
        | none =>
          rw [Dict.filterKeys_of_absent _ found, booked.exact tier']
          exact add_comm _ _
        | some old =>
          have count := booked.used_eq found
          rw [light old found] at count
          omega
      · rw [store_of_ne same]
        exact booked.exact tier'

/-! ### Lowering -/

/-- The entry leaves its tier, and goes to another one if it is kept. -/
def lowerOne (tier tier' : StorageTier) (keeps : κ → Bool) (q : TieredMemoryPool κ)
    (e : κ × TieredEntry) : TieredMemoryPool κ :=
  if keeps e.1 then (q.remove tier e.1 e.2).store tier' e.1 (e.2.demoted tier')
  else q.remove tier e.1 e.2

def lower (tier tier' : StorageTier) (keeps : κ → Bool) (gone : List (κ × TieredEntry))
    (p : TieredMemoryPool κ) : TieredMemoryPool κ :=
  gone.foldl (lowerOne tier tier' keeps) p

section

variable {tier tier' : StorageTier} {keeps : κ → Bool} {e : κ × TieredEntry}

theorem lowerOne_self (other : tier' ≠ tier) :
    (lowerOne tier tier' keeps p e) tier = (p tier).remove e.1 e.2 := by
  unfold lowerOne
  split
  · rw [store_of_ne other.symm, remove_self]
  · exact remove_self

theorem lowerOne_of_ne {u : StorageTier} (first : u ≠ tier) (second : u ≠ tier') :
    (lowerOne tier tier' keeps p e) u = p u := by
  unfold lowerOne
  split
  · rw [store_of_ne second, remove_of_ne first]
  · exact remove_of_ne first

theorem lowerOne_next (other : tier' ≠ tier) (absent : (p tier').cache.get? e.1 = none) :
    ((lowerOne tier tier' keeps p e) tier').cache.entries =
      (p tier').cache.entries ++ relabel tier' ([e].filter fun e => keeps e.1) := by
  unfold lowerOne
  cases kept : keeps e.1 with
  | true =>
    rw [if_pos rfl, store_self, remove_of_ne other, Tier.store,
      Dict.entries_set_of_absent _ _ _ absent]
    simp [relabel, kept]
  | false =>
    rw [if_neg Bool.false_ne_true, remove_of_ne other]
    simp [relabel, kept]

theorem Booked.lowerOne (booked : p.Booked) (other : tier' ≠ tier)
    (found : (p tier).cache.get? e.1 = some e.2) :
    (TieredMemoryPool.lowerOne tier tier' keeps p e).Booked := by
  unfold TieredMemoryPool.lowerOne
  split
  · refine ((booked.remove found).store_iff tier' e.1 _).mpr ⟨fun u away => ?_, ?_⟩
    · by_cases same : u = tier
      · subst same
        rw [remove_self, Tier.remove, Dict.get?_filterKeys, if_neg (by simp)]
      · rw [remove_of_ne same]
        exact booked.absent found same
    · rw [remove_of_ne other, booked.absent found other]
      nofun
  · exact booked.remove found

/-- What a list of entries leaves behind where it was, and adds where it goes. -/
structure Lowered (tier tier' : StorageTier) (keeps : κ → Bool) (gone : List (κ × TieredEntry))
    (p q : TieredMemoryPool κ) : Prop where
  booked : q.Booked
  left : (q tier).cache.entries =
    (p tier).cache.entries.filter fun e => decide (e.1 ∉ gone.map Prod.fst)
  left_used : (q tier).used = (p tier).used - total gone
  came : (q tier').cache.entries =
    (p tier').cache.entries ++ relabel tier' (gone.filter fun e => keeps e.1)
  others : ∀ u, u ≠ tier → u ≠ tier' → q u = p u

theorem lowered_lower (gone : List (κ × TieredEntry)) (booked : p.Booked) (other : tier' ≠ tier)
    (distinct : (gone.map Prod.fst).Nodup) (held : ∀ e ∈ gone, (p tier).cache.get? e.1 = some e.2) :
    Lowered tier tier' keeps gone p (lower tier tier' keeps gone p) := by
  induction gone generalizing p with
  | nil =>
    refine ⟨booked, ?_, ?_, ?_, fun u _ _ => rfl⟩ <;> simp [lower, relabel]
  | cons e rest ih =>
    have found := held e List.mem_cons_self
    simp only [List.map_cons, List.nodup_cons] at distinct
    have later : ∀ e' ∈ rest, ((TieredMemoryPool.lowerOne tier tier' keeps p e) tier).cache.get? e'.1 =
        some e'.2 := by
      intro e' member
      have apart : e'.1 ≠ e.1 := fun same =>
        distinct.1 (same ▸ List.mem_map_of_mem (f := Prod.fst) member)
      rw [lowerOne_self other, Tier.remove, Dict.get?_filterKeys, if_pos (by simpa using apart)]
      exact held e' (List.mem_cons_of_mem _ member)
    obtain ⟨booked', left, left_used, came, others⟩ :=
      ih (booked.lowerOne other found) distinct.2 later
    refine ⟨booked', left.trans ?_, left_used.trans ?_, came.trans ?_, fun u first second => ?_⟩
    · rw [lowerOne_self other, Tier.remove, Dict.filterKeys, List.filter_filter]
      apply List.filter_congr
      intro e' _
      simp only [List.map_cons, List.mem_cons, not_or, Bool.decide_and]
      exact Bool.and_comm _ _
    · rw [lowerOne_self other, Tier.remove_used, total_cons]
      omega
    · rw [lowerOne_next other (booked.absent found other), List.append_assoc]
      simp only [relabel, ← List.map_append, ← List.filter_append, List.singleton_append]
    · exact (others u first second).trans (lowerOne_of_ne first second)

theorem lowered_of_sublist {gone : List (κ × TieredEntry)} (booked : p.Booked)
    (other : tier' ≠ tier) (part : gone.Sublist (p tier).cache.entries) :
    Lowered tier tier' keeps gone p (lower tier tier' keeps gone p) := by
  apply lowered_lower gone booked other
  · exact (p tier).cache.distinct.sublist (part.map Prod.fst)
  · intro e member
    exact (Dict.mem_entries_iff _ _ _).mp (part.subset member)

namespace Lowered

variable {gone : List (κ × TieredEntry)} {q : TieredMemoryPool κ}
  (lowered : Lowered tier tier' keeps gone p q)

include lowered

theorem came_used (booked : p.Booked) :
    (q tier').used = (p tier').used + total (gone.filter fun e => keeps e.1) := by
  rw [lowered.booked.exact, lowered.came, total_append, total_relabel, booked.exact]

theorem get?_left (key : κ) :
    (q tier).cache.get? key =
      if key ∈ gone.map Prod.fst then none else (p tier).cache.get? key := by
  apply Option.ext
  intro entry
  rw [← Dict.mem_entries_iff, lowered.left, List.mem_filter, decide_eq_true_eq]
  split
  next away => simp [away]
  next stays => simp [stays, Dict.mem_entries_iff]

theorem get?_came (key : κ) :
    (q tier').cache.get? key = none ↔ (p tier').cache.get? key = none ∧
      key ∉ (gone.filter fun e => keeps e.1).map Prod.fst := by
  have keys : (q tier').cache.keys =
      (p tier').cache.keys ++ (gone.filter fun e => keeps e.1).map Prod.fst := by
    simp [Dict.keys, lowered.came, relabel, Function.comp_def]
  have present : ∀ d : Dict κ TieredEntry, d.get? key = none ↔ key ∉ d.keys := fun d => by
    rw [Dict.mem_keys_iff, ← Option.isSome_iff_exists, Option.not_isSome_iff_eq_none]
  rw [present, present, keys, List.mem_append, not_or]

end Lowered

end

variable {cfg : PoolConfig} {env : Env κ}

theorem demoteL1While_eq (above : Int → Bool) (es : List (κ × TieredEntry))
    (p : TieredMemoryPool κ) : (demoteL1While above es p).2 =
      lower .hot .warm (fun _ => true) (falling above (p .hot).used es) p := by
  induction es generalizing p with
  | nil => rfl
  | cons e rest ih =>
    unfold demoteL1While falling
    split
    · rw [ih]
      have used : ((demoteToL2 (p.remove .hot e.1 e.2) e.1 e.2) .hot).used =
          (p .hot).used - e.2.sizeBytes := by
        rw [demoteToL2, store_of_ne (by decide), remove_self, Tier.remove_used]
      rw [used]
      rfl
    · rfl

def saves (cfg : PoolConfig) (env : Env κ) (key : κ) : Bool :=
  decide (saveToNvme cfg env key = .saved)

theorem foldlM_demoteToL3 (gone : List (κ × TieredEntry)) (p : TieredMemoryPool κ) :
    gone.foldlM (fun q e => demoteToL3 cfg env (q.remove .warm e.1 e.2) e.1 e.2) p =
      if raises (saveToNvme cfg env) gone then
        .error (lower .warm .cold (saves cfg env) (tried (saveToNvme cfg env) gone) p)
      else .ok (lower .warm .cold (saves cfg env) (tried (saveToNvme cfg env) gone) p) := by
  induction gone generalizing p with
  | nil => rfl
  | cons e rest ih =>
    rw [List.foldlM_cons]
    unfold demoteToL3 raises tried
    cases result : saveToNvme cfg env e.1 with
    | saved =>
      have one : lowerOne .warm .cold (saves cfg env) p e =
          (p.remove .warm e.1 e.2).store .cold e.1 (e.2.demoted .cold) := by
        simp [lowerOne, saves, result]
      simp only [bind, Except.bind, List.any_cons, result, reduceCtorEq, decide_false,
        Bool.false_or, if_false, lower, List.foldl_cons, one]
      exact ih _
    | failed =>
      have one : lowerOne .warm .cold (saves cfg env) p e = p.remove .warm e.1 e.2 := by
        simp [lowerOne, saves, result]
      simp only [bind, Except.bind, List.any_cons, result, reduceCtorEq, decide_false,
        Bool.false_or, if_false, lower, List.foldl_cons, one]
      exact ih _
    | raised => simp [bind, Except.bind, result, lower, lowerOne, saves]

/-- The demotion out of L2 ends where a write raises, or where enough bytes are free. -/
theorem demoteL2While_eq (cfg : PoolConfig) (env : Env κ) (above : Int → Bool)
    (es : List (κ × TieredEntry)) (p : TieredMemoryPool κ) :
    ∃ freed, demoteL2While cfg env above es p = ((falling above (p .warm).used es).foldlM
        (fun q e => demoteToL3 cfg env (q.remove .warm e.1 e.2) e.1 e.2) p).map
        fun q => (freed, q) := by
  induction es generalizing p with
  | nil => exact ⟨0, rfl⟩
  | cons e rest ih =>
    unfold demoteL2While falling
    split
    next goes =>
      rw [List.foldlM_cons]
      have used : ∀ q, demoteToL3 cfg env (p.remove .warm e.1 e.2) e.1 e.2 = .ok q →
          (q .warm).used = (p .warm).used - e.2.sizeBytes := by
        intro q returned
        unfold demoteToL3 at returned
        split at returned
        · cases returned
          rw [store_of_ne (by decide), remove_self, Tier.remove_used]
        · cases returned
          rw [remove_self, Tier.remove_used]
        · cases returned
      cases demoted : demoteToL3 cfg env (p.remove .warm e.1 e.2) e.1 e.2 with
      | error q => exact ⟨0, rfl⟩
      | ok q =>
        obtain ⟨freed, later⟩ := ih q
        refine ⟨e.2.sizeBytes + freed, ?_⟩
        rw [← used q demoted]
        simp only [bind, Except.bind, later]
        cases (falling above (q .warm).used rest).foldlM
          (fun q e => demoteToL3 cfg env (q.remove .warm e.1 e.2) e.1 e.2) q <;> rfl
    · exact ⟨0, rfl⟩

theorem demoteL2While_bind (cfg : PoolConfig) (env : Env κ) {α : Type} (above : Int → Bool)
    (es : List (κ × TieredEntry)) (p : TieredMemoryPool κ)
    (next : Nat → TieredMemoryPool κ → α × TieredMemoryPool κ)
    (after : TieredMemoryPool κ → TieredMemoryPool κ) (after_eq : ∀ n q, (next n q).2 = after q) :
    let gone := tried (saveToNvme cfg env) (falling above (p .warm).used es)
    afterCall (demoteL2While cfg env above es p >>= fun r => .ok (next r.1 r.2)) =
      if raises (saveToNvme cfg env) gone then lower .warm .cold (saves cfg env) gone p
      else after (lower .warm .cold (saves cfg env) gone p) := by
  obtain ⟨freed, loop⟩ := demoteL2While_eq cfg env above es p
  dsimp only
  rw [loop, foldlM_demoteToL3, raises_tried]
  split
  · rfl
  · exact after_eq freed _

end TieredMemoryPool

end DistLLM.TieredStore
