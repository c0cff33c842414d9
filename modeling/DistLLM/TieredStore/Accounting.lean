import DistLLM.TieredStore.Moves

/-!
# Accounting for the tiers

Which calls keep every key in one tier, every counter exact and every tier within its capacity.
-/
namespace DistLLM.TieredStore

open Library TieredMemoryPool

variable {κ : Type} [DecidableEq κ]

namespace TieredMemoryPool

variable (cfg : PoolConfig) (env : Env κ) (p : TieredMemoryPool κ)

structure Accounted : Prop where
  booked : p.Booked
  within : ∀ tier, (p tier).used ≤ cfg.capacity tier

def leavingL1 (sizeBytes : Nat) : List (κ × TieredEntry) :=
  falling (exceeds cfg .hot sizeBytes) (p .hot).used (p .hot).cache.entries

/-- The entries of L2 that make room for so many bytes, up to one whose write raises. -/
def leavingL2 (sizeBytes : Nat) : List (κ × TieredEntry) :=
  tried (saveToNvme cfg env)
    (falling (exceeds cfg .warm sizeBytes) (p .warm).used (p .warm).cache.entries)

/-- Only this tier has the key, if any, and then without bytes. -/
def Unclaimed (tier : StorageTier) (key : κ) : Prop :=
  (∀ tier', tier' ≠ tier → (p tier').cache.get? key = none) ∧
    ∀ old, (p tier).cache.get? key = some old → old.sizeBytes = 0

/-- L2 has room for what leaves L1, and if the new entry fits into L1 its key is unclaimed. -/
def KeepsPutL1 (key : κ) (sizeBytes : Nat) : Prop :=
  (p .warm).used + total (leavingL1 cfg p sizeBytes) ≤ cfg.capacity .warm ∧
    (sizeBytes ≤ cfg.capacity .hot →
      Unclaimed p .hot key ∧ key ∉ (leavingL1 cfg p sizeBytes).map Prod.fst)

/-- L3 has room for what is saved from L2, and unless a write raises the new entry fits into L2
and its key is unclaimed, or is the key of an entry that is dropped. -/
def KeepsPutL2 (key : κ) (sizeBytes : Nat) : Prop :=
  let gone := leavingL2 cfg env p sizeBytes
  (p .cold).used + total (kept (saveToNvme cfg env) gone) ≤ cfg.capacity .cold ∧
    (raises (saveToNvme cfg env) gone = false →
      sizeBytes ≤ cfg.capacity .warm ∧
        (∀ tier, tier ≠ .warm → (p tier).cache.get? key = none) ∧
        key ∉ (kept (saveToNvme cfg env) gone).map Prod.fst ∧
        ∀ old, (p .warm).cache.get? key = some old →
          key ∈ gone.map Prod.fst ∨ old.sizeBytes = 0)

/-- L3 has room for the new entry, and if it is saved its key is unclaimed. Without room only
entries without bytes may be thrown away, and nothing may be saved. -/
def KeepsPutL3 (key : κ) (sizeBytes : Nat) : Prop :=
  cfg.nvme = false ∨
    exceeds cfg .cold sizeBytes (p .cold).used = false ∧
        (saveToNvme cfg env key = .saved → Unclaimed p .cold key) ∨
      (p .cold).used = 0 ∧ saveToNvme cfg env key ≠ .saved

/-- An entry that goes up leaves room for what goes down. An entry of L3 can be loaded, or has no
bytes. -/
def KeepsGet (key : κ) : Prop :=
  (p .hot).cache.get? key = none →
    (∀ entry, (p .warm).cache.get? key = some entry →
      cfg.promotionThreshold ≤ (entry.accessed env.now).accessCount →
      (p .warm).used - entry.sizeBytes + total (leavingL1 cfg p entry.sizeBytes) ≤
        cfg.capacity .warm) ∧
    ∀ entry, (p .warm).cache.get? key = none → (p .cold).cache.get? key = some entry →
      match env.load with
      | .loaded _ =>
        let gone := leavingL2 cfg env p entry.sizeBytes
        (p .cold).used - entry.sizeBytes + total (kept (saveToNvme cfg env) gone) ≤
            cfg.capacity .cold ∧
          (raises (saveToNvme cfg env) gone = false → entry.sizeBytes ≤ cfg.capacity .warm)
      | .missing => entry.sizeBytes = 0
      | .raised => True

/-- The entries that move down, first from L1, then from L2 with what came from L1. L3 has room for
those that are saved, and L2 for what stays there. -/
def KeepsDemotion (gone : List (κ × TieredEntry)) (gone' : List (κ × TieredEntry)) : Prop :=
  (p .warm).used + total gone - total gone' ≤ cfg.capacity .warm ∧
    (p .cold).used + total (kept (saveToNvme cfg env) gone') ≤ cfg.capacity .cold

def evictedL1 : List (κ × TieredEntry) :=
  falling (aboveMark cfg .hot) (p .hot).used (p .hot).cache.entries

/-- The entries above the mark of L2, once those of L1 are there, up to one whose write raises. -/
def evictedL2 : List (κ × TieredEntry) :=
  tried (saveToNvme cfg env)
    (falling (aboveMark cfg .warm) ((p .warm).used + total (evictedL1 cfg p))
      ((p .warm).cache.entries ++ relabel .warm (evictedL1 cfg p)))

def idleL1 : List (κ × TieredEntry) := idleEntries env cfg.demotionIdleS (p .hot).cache.entries

def idleL2 : List (κ × TieredEntry) :=
  tried (saveToNvme cfg env) (idleEntries env (cfg.demotionIdleS * 2)
    ((p .warm).cache.entries ++ relabel .warm (idleL1 cfg env p)))

/-- The condition of a call, on the pool before it and the answers of the disk. -/
def Keeps : TierAction κ → Prop
  | .put key data .hot => KeepsPutL1 cfg p key (estimateSize data)
  | .put key data .warm => KeepsPutL2 cfg env p key (estimateSize data)
  | .put key data .cold => KeepsPutL3 cfg env p key (estimateSize data)
  | .get key => KeepsGet cfg env p key
  | .evict => KeepsDemotion cfg env p (evictedL1 cfg p) (evictedL2 cfg env p)
  | .demoteIdleEntries => KeepsDemotion cfg env p (idleL1 cfg env p) (idleL2 cfg env p)

/-! ### Putting -/

variable {cfg env p}

variable {key : κ}

theorem absent_of_not_mem {d : Dict κ TieredEntry} {part : List (κ × TieredEntry)}
    (inside : part.Sublist d.entries) (absent : d.get? key = none) :
    key ∉ part.map Prod.fst := by
  intro member
  obtain ⟨e, here, rfl⟩ := List.mem_map.mp member
  rw [(Dict.mem_entries_iff d e.1 e.2).mp (inside.subset here)] at absent
  cases absent

omit [DecidableEq κ] in
theorem leavingL1_sublist (sizeBytes : Nat) :
    (leavingL1 cfg p sizeBytes).Sublist (p .hot).cache.entries :=
  (falling_isPrefix _ _ _).sublist

omit [DecidableEq κ] in
theorem leavingL2_sublist (env : Env κ) (sizeBytes : Nat) :
    (leavingL2 cfg env p sizeBytes).Sublist (p .warm).cache.entries :=
  ((tried_isPrefix _ _).trans (falling_isPrefix _ _ _)).sublist

theorem exceeds_after (cfg : PoolConfig) (booked : p.Booked) (tier : StorageTier) (sizeBytes : Nat) :
    exceeds cfg tier sizeBytes ((p tier).used -
        total (falling (exceeds cfg tier sizeBytes) (p tier).used (p tier).cache.entries)) =
      decide (cfg.capacity tier < sizeBytes) := by
  have whole := falling_isPrefix (exceeds cfg tier sizeBytes) (p tier).used (p tier).cache.entries
  have room := falling_rest (exceeds cfg tier sizeBytes) (p tier).used (p tier).cache.entries
  rw [booked.exact] at *
  generalize falling _ _ (p tier).cache.entries = gone at *
  obtain ⟨rest, whole⟩ := whole
  have nonneg : 0 ≤ total (p tier).cache.entries - total gone := by
    rw [← whole, total_append, add_sub_cancel_left]
    exact total_nonneg rest
  unfold exceeds at room ⊢
  rw [decide_eq_decide]
  rcases room with fits | all
  · simp only [decide_eq_false_iff_not, not_lt] at fits
    omega
  · rw [all]
    omega

section

variable {tier tier' : StorageTier} {keeps : κ → Bool} {gone : List (κ × TieredEntry)}
  {q : TieredMemoryPool κ}

/-- What moves down keeps the accounts if and only if the next tier has room for it. -/
theorem Lowered.accounted_iff (lowered : Lowered tier tier' keeps gone p q) (booked : p.Booked) :
    q.Accounted cfg ↔ (p tier).used - total gone ≤ cfg.capacity tier ∧
      (p tier').used + total (gone.filter fun e => keeps e.1) ≤ cfg.capacity tier' ∧
      ∀ u, u ≠ tier → u ≠ tier' → (p u).used ≤ cfg.capacity u := by
  rw [← lowered.left_used, ← lowered.came_used booked]
  constructor
  · rintro ⟨-, within⟩
    refine ⟨within tier, within tier', fun u first second => ?_⟩
    exact lowered.others u first second ▸ within u
  · rintro ⟨first, second, third⟩
    refine ⟨lowered.booked, fun u => ?_⟩
    by_cases here : u = tier
    · exact here ▸ first
    · by_cases there : u = tier'
      · exact there ▸ second
      · exact lowered.others u here there ▸ third u here there

/-- The same with a new entry in the upper tier, which `put` and promotion both come to. -/
theorem Lowered.store_accounted_iff (lowered : Lowered tier tier' keeps gone p q)
    (accounted : p.Accounted cfg) (other : tier' ≠ tier) (key : κ) (entry : TieredEntry) :
    (q.store tier key entry).Accounted cfg ↔
      (p tier').used + total (gone.filter fun e => keeps e.1) ≤ cfg.capacity tier' ∧
        (p tier).used - total gone + entry.sizeBytes ≤ cfg.capacity tier ∧
        (∀ u, u ≠ tier → (p u).cache.get? key = none) ∧
        key ∉ (gone.filter fun e => keeps e.1).map Prod.fst ∧
        ∀ old, (p tier).cache.get? key = some old →
          key ∈ gone.map Prod.fst ∨ old.sizeBytes = 0 := by
  have alone_iff : (∀ u, u ≠ tier → (q u).cache.get? key = none) ↔
      (∀ u, u ≠ tier → (p u).cache.get? key = none) ∧
        key ∉ (gone.filter fun e => keeps e.1).map Prod.fst := by
    constructor
    · intro alone
      obtain ⟨before, stays⟩ := (lowered.get?_came key).mp (alone tier' other)
      refine ⟨fun u away => ?_, stays⟩
      by_cases there : u = tier'
      · exact there ▸ before
      · exact lowered.others u away there ▸ alone u away
    · rintro ⟨alone, stays⟩ u away
      by_cases there : u = tier'
      · subst there
        exact (lowered.get?_came key).mpr ⟨alone u away, stays⟩
      · rw [lowered.others u away there]
        exact alone u away
  have light_iff : (∀ old, (q tier).cache.get? key = some old → old.sizeBytes = 0) ↔
      ∀ old, (p tier).cache.get? key = some old →
        key ∈ gone.map Prod.fst ∨ old.sizeBytes = 0 := by
    simp only [lowered.get?_left]
    split
    next away => exact iff_of_true nofun fun _ _ => .inl away
    next stays => simp only [stays, false_or]
  have booked_iff := lowered.booked.store_iff tier key entry
  rw [alone_iff, light_iff] at booked_iff
  have here : ((q.store tier key entry) tier).used =
      (p tier).used - total gone + entry.sizeBytes := by
    rw [store_self, Tier.store_used, lowered.left_used]
  have there : ((q.store tier key entry) tier').used =
      (p tier').used + total (gone.filter fun e => keeps e.1) := by
    rw [store_of_ne other, lowered.came_used accounted.booked]
  constructor
  · rintro ⟨booked, within⟩
    obtain ⟨⟨alone, stays⟩, light⟩ := booked_iff.mp booked
    exact ⟨there ▸ within tier', here ▸ within tier, alone, stays, light⟩
  · rintro ⟨second, first, alone, stays, light⟩
    refine ⟨booked_iff.mpr ⟨⟨alone, stays⟩, light⟩, fun u => ?_⟩
    by_cases at_tier : u = tier
    · subst at_tier
      rwa [here]
    · by_cases at_next : u = tier'
      · subst at_next
        rwa [there]
      · rw [store_of_ne at_tier, lowered.others u at_tier at_next]
        exact accounted.within u

end

/-- The step lemmas: each call keeps the accounts exactly if it meets its own condition. -/
theorem Accounted.putL1_iff (accounted : p.Accounted cfg) (key : κ) (data : Option Data)
    (sizeBytes : Nat) :
    (putL1 cfg env p key data sizeBytes).2.Accounted cfg ↔ KeepsPutL1 cfg p key sizeBytes := by
  have lowered : Lowered .hot .warm (fun _ => true) (leavingL1 cfg p sizeBytes) p _ :=
    lowered_of_sublist accounted.booked (by decide) (leavingL1_sublist sizeBytes)
  have room := exceeds_after cfg accounted.booked .hot sizeBytes
  have hot := accounted.within .hot
  have gone_nonneg := total_nonneg (leavingL1 cfg p sizeBytes)
  unfold putL1 KeepsPutL1
  rw [demoteL1While_eq]
  rw [← leavingL1] at room ⊢
  dsimp only
  rw [lowered.left_used, room]
  by_cases large : cfg.capacity .hot < sizeBytes
  · -- the new entry is refused
    rw [if_pos (decide_eq_true large), lowered.accounted_iff accounted.booked,
      List.filter_true]
    constructor
    · rintro ⟨-, warm, -⟩
      exact ⟨warm, fun fits => absurd large (not_lt_of_ge fits)⟩
    · rintro ⟨warm, -⟩
      exact ⟨by omega, warm, fun u _ _ => accounted.within u⟩
  · have fits := room.trans (decide_eq_false large)
    simp only [exceeds, decide_eq_false_iff_not, not_lt] at fits
    rw [if_neg (by simpa using large), lowered.store_accounted_iff accounted (by decide),
      List.filter_true]
    constructor
    · rintro ⟨warm, -, alone, stays, light⟩
      exact ⟨warm, fun _ => ⟨⟨alone, fun old found => (light old found).resolve_left stays⟩, stays⟩⟩
    · rintro ⟨warm, unclaimed⟩
      obtain ⟨⟨alone, light⟩, stays⟩ := unclaimed (not_lt.mp large)
      exact ⟨warm, fits, alone, stays, fun old found => .inr (light old found)⟩

theorem Accounted.putL2_iff (accounted : p.Accounted cfg) (key : κ) (data : Option Data)
    (sizeBytes : Nat) : (afterCall (putL2 cfg env p key data sizeBytes)).Accounted cfg ↔
      KeepsPutL2 cfg env p key sizeBytes := by
  have lowered : Lowered .warm .cold (saves cfg env) (leavingL2 cfg env p sizeBytes) p _ :=
    lowered_of_sublist accounted.booked (by decide) (leavingL2_sublist env sizeBytes)
  have room := exceeds_after cfg accounted.booked .warm sizeBytes
  have warm := accounted.within .warm
  have gone_nonneg := total_nonneg (leavingL2 cfg env p sizeBytes)
  have after : afterCall (putL2 cfg env p key data sizeBytes) = _ :=
    demoteL2While_bind cfg env (exceeds cfg .warm sizeBytes) (p .warm).cache.entries p
      (fun _ q => (true, q.store .warm key (newEntry env .warm data sizeBytes)))
      (fun q => q.store .warm key (newEntry env .warm data sizeBytes)) fun _ _ => rfl
  rw [after, ← leavingL2]
  unfold KeepsPutL2
  dsimp only
  cases raised : raises (saveToNvme cfg env) (leavingL2 cfg env p sizeBytes) with
  | true =>
    rw [if_pos rfl, lowered.accounted_iff accounted.booked]
    constructor
    · rintro ⟨-, cold, -⟩
      exact ⟨cold, nofun⟩
    · rintro ⟨cold, -⟩
      exact ⟨by omega, cold, fun u _ _ => accounted.within u⟩
  | false =>
    -- all that has to leave has left
    rw [leavingL2, raises_tried] at raised
    rw [← tried_eq_self raised, ← leavingL2] at room
    have fits : (p .warm).used - total (leavingL2 cfg env p sizeBytes) + sizeBytes ≤
        cfg.capacity .warm ↔ sizeBytes ≤ cfg.capacity .warm := by
      simpa [exceeds, -decide_eq_decide, decide_eq_decide] using not_congr (decide_eq_decide.mp room)
    rw [if_neg Bool.false_ne_true, lowered.store_accounted_iff accounted (by decide)]
    exact ⟨fun ⟨cold, warm, rest⟩ => ⟨cold, fun _ => ⟨fits.mp warm, rest⟩⟩,
      fun ⟨cold, rest⟩ => ⟨cold, fits.mpr (rest rfl).1, (rest rfl).2⟩⟩

theorem discardL3While_eq (above : Int → Bool) (es : List (κ × TieredEntry))
    (entries : (p .cold).cache.entries = es) :
    discardL3While above es p =
      if above (p .cold).used then Function.update p .cold ⟨∅, (p .cold).used⟩ else p := by
  induction es generalizing p with
  | nil =>
    have empty : (p .cold).cache = ∅ := by
      apply Dict.eq_empty_of_size
      rw [Dict.size, entries]
      rfl
    rw [← empty, Function.update_eq_self, ite_self]
    rfl
  | cons e rest ih =>
    unfold discardL3While
    split
    · have keys := (p .cold).cache.distinct
      rw [entries, List.map_cons, List.nodup_cons] at keys
      have others : (p .cold).cache.entries.filter (fun e' => decide (e'.1 ≠ e.1)) = rest := by
        rw [entries, List.filter_cons_of_neg (by simp), List.filter_eq_self]
        intro e' member
        apply decide_eq_true
        rintro same
        exact keys.1 (same ▸ List.mem_map_of_mem (f := Prod.fst) member)
      rw [ih (by rwa [Function.update_self]), Function.update_self, Function.update_idem]
      rw [if_pos ‹_›]
    · rfl

theorem Accounted.putL3_iff (accounted : p.Accounted cfg) (key : κ) (sizeBytes : Nat) :
    (afterCall (putL3 cfg env p key sizeBytes)).Accounted cfg ↔
      KeepsPutL3 cfg env p key sizeBytes := by
  unfold putL3 KeepsPutL3
  cases nvme : cfg.nvme with
  | false => exact iff_of_true accounted (.inl rfl)
  | true =>
    rw [if_neg (by simp), discardL3While_eq _ _ rfl]
    cases above : exceeds cfg .cold sizeBytes (p .cold).used with
    | false =>
      simp only [Bool.false_eq_true, if_false, reduceCtorEq, false_or, true_and]
      have room : (p .cold).used + sizeBytes ≤ cfg.capacity .cold := by
        simpa [exceeds] using above
      cases result : saveToNvme cfg env key with
      | failed | raised => exact iff_of_true accounted (.inl nofun)
      | saved =>
        have booked_iff := accounted.booked.store_iff .cold key (newEntry env .cold none sizeBytes)
        simp only [forall_const, ne_eq, not_true_eq_false, and_false, or_false]
        refine ⟨fun after => booked_iff.mp after.booked, fun unclaimed => ?_⟩
        refine ⟨booked_iff.mpr unclaimed, fun tier => ?_⟩
        by_cases here : tier = .cold
        · subst here
          simpa [afterCall, newEntry] using room
        · dsimp only [afterCall]
          rw [store_of_ne here]
          exact accounted.within tier
    | true =>
      have full : cfg.capacity .cold < (p .cold).used + sizeBytes := of_decide_eq_true above
      have emptied_iff : TieredMemoryPool.Accounted cfg (Function.update p .cold ⟨∅, (p .cold).used⟩) ↔
          (p .cold).used = 0 := by
        constructor
        · intro after
          simpa using after.booked.exact .cold
        · intro none_used
          refine ⟨accounted.booked.update nofun none_used, fun tier => ?_⟩
          by_cases here : tier = .cold
          · subst here
            exact accounted.within .cold
          · rw [Function.update_of_ne here]
            exact accounted.within tier
      cases result : saveToNvme cfg env key with
      | failed | raised => simpa [afterCall] using emptied_iff
      | saved =>
        refine iff_of_false (fun after => ?_) (by simp)
        have := after.within .cold
        simp [afterCall, newEntry] at this
        omega

/-! ### Getting -/

theorem Accounted.recache (accounted : p.Accounted cfg) (tier : StorageTier)
    {cache : Dict κ TieredEntry}
    (keys : ∀ k, (cache.get? k).isSome = true → ((p tier).cache.get? k).isSome = true)
    (bytes : total cache.entries = total (p tier).cache.entries) :
    TieredMemoryPool.Accounted cfg (Function.update p tier ⟨cache, (p tier).used⟩) := by
  refine ⟨accounted.booked.update keys ?_, fun tier' => ?_⟩
  · rw [bytes]
    exact accounted.booked.exact tier
  · by_cases here : tier' = tier
    · subst here
      rw [Function.update_self]
      exact accounted.within tier'
    · rw [Function.update_of_ne here]
      exact accounted.within tier'

variable {tier : StorageTier} {entry : TieredEntry}

section

variable (accounted : p.Accounted cfg)

include accounted

theorem Accounted.access (env : Env κ) (found : (p tier).cache.get? key = some entry) :
    (p.access env tier key entry).Accounted cfg := by
  apply accounted.recache
  · intro k present
    rw [Dict.get?_set] at present
    split at present
    next same => simp [← same, found]
    next => exact present
  · rw [total_perm ((p tier).cache.entries_set_perm_filterKeys key _),
      total_perm ((p tier).cache.entries_perm_filterKeys key entry found), total_cons, total_cons]
    rfl

theorem Accounted.moveToEnd (tier : StorageTier) (key : κ) :
    (p.moveToEnd tier key).Accounted cfg := by
  apply accounted.recache
  · intro k present
    rwa [Dict.get?_moveToEnd] at present
  · exact total_perm ((p tier).cache.entries_moveToEnd_perm key)

theorem Accounted.remove (found : (p tier).cache.get? key = some entry) :
    (p.remove tier key entry).Accounted cfg := by
  refine ⟨accounted.booked.remove found, fun tier' => ?_⟩
  by_cases here : tier' = tier
  · subst here
    have := accounted.within tier'
    rw [remove_self, Tier.remove_used]
    omega
  · rw [remove_of_ne here]
    exact accounted.within tier'

theorem Accounted.nowhere (env : Env κ) (found : (p tier).cache.get? key = some entry)
    (tier' : StorageTier) :
    (((p.access env tier key entry).remove tier key (entry.accessed env.now)) tier').cache.get? key
      = none := by
  by_cases here : tier' = tier
  · subst here
    rw [remove_self, Tier.remove, Dict.get?_filterKeys, if_neg (by simp)]
  · rw [remove_of_ne here, TieredMemoryPool.access, Function.update_of_ne here]
    exact accounted.booked.absent found here

end

section

variable {key : κ} {entry : TieredEntry}

theorem access_found (env : Env κ) (key : κ) (entry : TieredEntry) (p : TieredMemoryPool κ)
    (tier : StorageTier) :
    ((p.access env tier key entry) tier).cache.get? key = some (entry.accessed env.now) := by
  rw [TieredMemoryPool.access, Function.update_self, Dict.get?_set_self]

theorem taken_used (env : Env κ) (key : κ) (entry : TieredEntry) (p : TieredMemoryPool κ)
    (tier : StorageTier) :
    (((p.access env tier key entry).remove tier key (entry.accessed env.now)) tier).used =
      (p tier).used - entry.sizeBytes := by
  rw [remove_self, Tier.remove_used, TieredMemoryPool.access, Function.update_self]
  rfl

theorem taken_of_ne (env : Env κ) (key : κ) (entry : TieredEntry) (p : TieredMemoryPool κ)
    {tier' : StorageTier} (other : tier' ≠ tier) :
    ((p.access env tier key entry).remove tier key (entry.accessed env.now)) tier' = p tier' := by
  rw [remove_of_ne other, TieredMemoryPool.access, Function.update_of_ne other]

theorem Accounted.promoteToL1_iff (accounted : p.Accounted cfg)
    (found : (p .warm).cache.get? key = some entry) :
    ((p.access env .warm key entry).promoteToL1 cfg env key (entry.accessed env.now)).Accounted
        cfg ↔ (p .warm).used - entry.sizeBytes + total (leavingL1 cfg p entry.sizeBytes) ≤
        cfg.capacity .warm := by
  have nowhere := accounted.nowhere env found
  have taken := (accounted.access env found).remove (access_found env key entry p .warm)
  have hot := taken_of_ne env key entry p
    (show StorageTier.hot ≠ .warm by decide)
  have used := taken_used env key entry p .warm
  rw [TieredMemoryPool.promoteToL1, taken.putL1_iff]
  have leaving : leavingL1 cfg
      ((p.access env .warm key entry).remove .warm key (entry.accessed env.now)) entry.sizeBytes =
        leavingL1 cfg p entry.sizeBytes := by
    rw [leavingL1, hot, ← leavingL1]
  constructor
  · rintro ⟨room, -⟩
    exact leaving ▸ room
  · intro room
    refine ⟨?_, fun _ => ⟨⟨fun tier _ => nowhere tier, ?_⟩, ?_⟩⟩
    · rw [used]
      exact leaving.symm ▸ room
    · rw [nowhere .hot]
      nofun
    · exact absent_of_not_mem (leavingL1_sublist _) (nowhere .hot)

variable (accounted : p.Accounted cfg) (found : (p .cold).cache.get? key = some entry)

include accounted found

theorem Accounted.promoteToL2_iff (data : Data) :
    (afterCall ((p.access env .cold key entry).promoteToL2 cfg env key (entry.accessed env.now)
        data)).Accounted cfg ↔ (p .cold).used - entry.sizeBytes +
          total (kept (saveToNvme cfg env) (leavingL2 cfg env p entry.sizeBytes)) ≤
            cfg.capacity .cold ∧
        (raises (saveToNvme cfg env) (leavingL2 cfg env p entry.sizeBytes) = false →
          entry.sizeBytes ≤ cfg.capacity .warm) := by
  have nowhere := accounted.nowhere env found
  have taken := (accounted.access env found).remove (access_found env key entry p .cold)
  have absent := absent_of_not_mem
    (show (leavingL2 cfg env _ entry.sizeBytes).Sublist _ from leavingL2_sublist env _)
    (nowhere .warm)
  rw [TieredMemoryPool.promoteToL2, taken.putL2_iff]
  constructor
  · rintro ⟨room, rest⟩
    exact ⟨room, fun quiet => (rest quiet).1⟩
  · rintro ⟨room, fits⟩
    refine ⟨room, fun quiet => ⟨fits quiet, fun tier _ => nowhere tier, ?_, ?_⟩⟩
    · intro member
      exact absent ((List.filter_sublist.map Prod.fst).subset member)
    · rw [nowhere .warm]
      nofun

theorem Accounted.forget_iff :
    TieredMemoryPool.Accounted cfg (Function.update p .cold
        { (p .cold) with cache := (p .cold).cache.filterKeys fun k => decide (k ≠ key) }) ↔
      entry.sizeBytes = 0 := by
  have bytes := total_perm ((p .cold).cache.entries_perm_filterKeys key entry found)
  rw [total_cons, ← accounted.booked.exact .cold] at bytes
  dsimp only at bytes
  constructor
  · intro after
    have exact := after.booked.exact .cold
    rw [Function.update_self] at exact
    dsimp only at exact
    omega
  · intro light
    apply accounted.recache
    · intro k present
      rw [Dict.get?_filterKeys] at present
      split at present
      · exact present
      · cases present
    · rw [← accounted.booked.exact .cold]
      omega

end

section

variable (accounted : p.Accounted cfg)

include accounted

/-- By the tier that has the key: a hit moves an entry up, and others down to make room. -/
theorem Accounted.get_iff (key : κ) :
    (afterCall (p.get cfg env key)).Accounted cfg ↔ KeepsGet cfg env p key := by
  unfold TieredMemoryPool.get KeepsGet
  cases hot : (p .hot).cache.get? key with
  | some entry => exact iff_of_true ((accounted.access env hot).moveToEnd .hot key) nofun
  | none =>
    cases warm : (p .warm).cache.get? key with
    | some entry =>
      dsimp only
      split
      next often =>
        refine (accounted.promoteToL1_iff warm).trans ⟨fun room _ => ⟨?_, nofun⟩, fun keeps => ?_⟩
        · rintro entry' ⟨⟩ -
          exact room
        · exact (keeps rfl).1 entry rfl often
      next seldom =>
        refine iff_of_true ((accounted.access env warm).moveToEnd .warm key) fun _ => ⟨?_, nofun⟩
        rintro entry' ⟨⟩ often
        exact absurd often seldom
    | none =>
      cases cold : (p .cold).cache.get? key with
      | none => exact iff_of_true accounted fun _ => ⟨nofun, nofun⟩
      | some entry =>
        have found := access_found env key entry p .cold
        simp only [forall_const, reduceCtorEq, false_implies, implies_true, true_and,
          Option.some.injEq, forall_eq']
        unfold getL3
        cases env.load with
        | loaded data =>
          dsimp only
          rw [← accounted.promoteToL2_iff cold data]
          cases (p.access env .cold key entry).promoteToL2 cfg env key (entry.accessed env.now)
            data <;> rfl
        | missing => exact ((accounted.access env cold).forget_iff found : _)
        | raised => exact iff_of_true (accounted.access env cold) trivial

/-! ### Eviction and maintenance -/

/-- Both demotions at once, for `evict` and for idle entries. -/
theorem Accounted.demotion_iff {gone gone' : List (κ × TieredEntry)}
    (part : gone.Sublist (p .hot).cache.entries)
    (part' : gone'.Sublist
      ((lower .hot .warm (fun _ => true) gone p) .warm).cache.entries) :
    (lower .warm .cold (saves cfg env) gone'
        (lower .hot .warm (fun _ => true) gone p)).Accounted cfg ↔
      KeepsDemotion cfg env p gone gone' := by
  have first : Lowered .hot .warm (fun _ => true) gone p _ :=
    lowered_of_sublist accounted.booked (by decide) part
  have second : Lowered .warm .cold (saves cfg env) gone' _ _ :=
    lowered_of_sublist first.booked (by decide) part'
  have came := first.came_used accounted.booked
  have cold := first.others .cold (by decide) (by decide)
  have hot := accounted.within .hot
  have gone_nonneg := total_nonneg gone
  rw [List.filter_true] at came
  rw [second.accounted_iff first.booked, came, cold]
  constructor
  · rintro ⟨warm, saved, -⟩
    exact ⟨warm, saved⟩
  · rintro ⟨warm, saved⟩
    refine ⟨warm, saved, ?_⟩
    rintro (_ | _ | _) notWarm notCold
    · rw [first.left_used]
      omega
    · exact absurd rfl notWarm
    · exact absurd rfl notCold

theorem Accounted.evict_iff :
    (afterCall (p.evict cfg env)).Accounted cfg ↔
      KeepsDemotion cfg env p (evictedL1 cfg p) (evictedL2 cfg env p) := by
  have part : (evictedL1 cfg p).Sublist (p .hot).cache.entries := (falling_isPrefix _ _ _).sublist
  have first : Lowered .hot .warm (fun _ => true) (evictedL1 cfg p) p _ :=
    lowered_of_sublist accounted.booked (by decide) part
  have came := first.came
  have used := first.came_used accounted.booked
  have loop := demoteL1While_eq (aboveMark cfg .hot) (p .hot).cache.entries p
  rw [List.filter_true] at came used
  rw [← evictedL1] at loop
  rw [← accounted.demotion_iff part]
  · unfold TieredMemoryPool.evict
    have after := demoteL2While_bind cfg env (aboveMark cfg .warm)
      ((demoteL1While (aboveMark cfg .hot) (p .hot).cache.entries p).2 .warm).cache.entries
      (demoteL1While (aboveMark cfg .hot) (p .hot).cache.entries p).2
      (fun freed q => ((demoteL1While (aboveMark cfg .hot) (p .hot).cache.entries p).1 + freed, q))
      id fun _ _ => rfl
    dsimp only [id] at after ⊢
    rw [after, ite_self, loop, came, used]
    rfl
  · rw [came]
    exact ((tried_isPrefix _ _).trans (falling_isPrefix _ _ _)).sublist

theorem Accounted.demoteIdleEntries_iff :
    (afterCall (p.demoteIdleEntries cfg env)).Accounted cfg ↔
      KeepsDemotion cfg env p (idleL1 cfg env p) (idleL2 cfg env p) := by
  have part : (idleL1 cfg env p).Sublist (p .hot).cache.entries :=
    (List.take_sublist _ _).trans List.filter_sublist
  have first : Lowered .hot .warm (fun _ => true) (idleL1 cfg env p) p _ :=
    lowered_of_sublist accounted.booked (by decide) part
  have came := first.came
  rw [List.filter_true] at came
  rw [← accounted.demotion_iff part]
  · have loop : (idleL1 cfg env p).foldl (fun q e => demoteToL2 (q.remove .hot e.1 e.2) e.1 e.2) p =
        lower .hot .warm (fun _ => true) (idleL1 cfg env p) p := rfl
    unfold TieredMemoryPool.demoteIdleEntries
    dsimp only
    rw [← idleL1, loop, foldlM_demoteToL3, came, ← idleL2]
    split <;> rfl
  · rw [came]
    exact (tried_isPrefix _ _).sublist.trans ((List.take_sublist _ _).trans List.filter_sublist)

/-- One case per call; the run lemma is by this. -/
theorem Accounted.exec_iff (env : Env κ) (act : TierAction κ) :
    (p.exec cfg env act).Accounted cfg ↔ Keeps cfg env p act := by
  cases act with
  | put key data tier =>
    cases tier with
    | hot => exact accounted.putL1_iff key (some data) (estimateSize data)
    | warm => exact accounted.putL2_iff key (some data) (estimateSize data)
    | cold => exact accounted.putL3_iff key (estimateSize data)
  | get key => exact accounted.get_iff key
  | evict => exact accounted.evict_iff
  | demoteIdleEntries => exact accounted.demoteIdleEntries_iff

end

/-- **Tiered store.** In every run whose calls find room in the next tier for what moves down, and
no entry of their key, every key is in one tier at most, every tier counts the bytes of its
entries and none exceeds its capacity. The condition is exact: from there a call keeps this so if
and only if it meets it. -/
theorem tiers_accounted {p : TieredMemoryPool κ}
    (reached : (tiering κ cfg).Reaches (fun p act => Keeps cfg act.1 p act.2) p) :
    p.Accounted cfg ∧ ∀ env act, (p.exec cfg env act).Accounted cfg ↔ Keeps cfg env p act := by
  have accounted : p.Accounted cfg := by
    apply Machine.Reaches.invariant _ _ reached
    · rintro p rfl
      exact ⟨⟨fun _ _ _ => nofun, fun _ => rfl⟩, fun _ => Int.natCast_nonneg _⟩
    · intro p act accounted _ keeps
      exact (accounted.exec_iff act.1 act.2).mpr keeps
  exact ⟨accounted, accounted.exec_iff⟩

end TieredMemoryPool

def smallTiers : PoolConfig where
  gpuCapacity := 4
  cpuCapacity := 4
  nvmeCapacity := 4
  nvme := true
  promotionThreshold := 3
  demotionIdleS := 60
  mark capacity := capacity * 4 / 5
  mark_le capacity := by omega

def steady : Env String := ⟨0, fun _ => .saved, .missing⟩

/-- A second entry sends the first one down. -/
theorem tiers_accounted_demoted :
    Accounted smallTiers ([(steady, TierAction.put "a" (.bytes [1, 2]) .hot),
      (steady, .put "b" (.bytes [3, 4, 5]) .hot), (steady, .evict)].foldl
        (tiering String smallTiers).exec fun _ => {}) := by
  refine (tiers_accounted (.of_follows (.init rfl) _ ?_)).1
  refine ⟨trivial, ⟨by decide, fun _ => ⟨⟨?_, nofun⟩, by decide⟩⟩, trivial,
    ⟨by decide, fun _ => ⟨⟨?_, nofun⟩, by decide⟩⟩, trivial, ⟨by decide, by decide⟩, trivial⟩
  · rintro (_ | _ | _) _ <;> rfl
  · rintro (_ | _ | _) _ <;> rfl

/-- A key that is put twice is counted twice. -/
theorem overwritten_counted_twice :
    ¬ ∀ p, (tiering String smallTiers).Reachable p → Accounted smallTiers p := by
  intro all
  have reached : (tiering String smallTiers).Reachable _ :=
    .of_follows (.init rfl) [(steady, .put "a" (.bytes [1]) .hot),
      (steady, .put "a" (.bytes [1]) .hot)] ⟨trivial, trivial, trivial, trivial, trivial⟩
  have count := (all _ reached).booked.exact .hot
  revert count
  decide

end DistLLM.TieredStore
