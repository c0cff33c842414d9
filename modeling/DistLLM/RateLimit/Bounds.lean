import DistLLM.RateLimit.Strategies
import Mathlib.Data.Rat.Floor

/-!
# What the rate limits bound

`TokenBucket` and `SlidingWindow` over runs of calls: how many requests of a key are allowed in an
interval, and what the calls that only look at a key change.
-/
namespace DistLLM.RateLimit

open Library

/-! ### Calls -/

/-- What a call reads of its clock, one reading after the other. -/
structure Readings where
  first : Time
  second : Time
  third : Time
  first_le : first ≤ second
  second_le : second ≤ third

inductive Call where
  | isAllowed (now : Readings) (key : String)
  | remaining (now : Readings) (key : String)
  | retryAfter (now : Readings) (key : String)
  | reset (key : String)
  | resetAll

variable {calls : List Call} {accepted : List Time} {call : Call} (key : String)

namespace Call

def readings : Call → Option Readings
  | .isAllowed now _ | .remaining now _ | .retryAfter now _ => some now
  | .reset _ | .resetAll => none

/-- When the call has ended, if it has begun now. -/
def finish (call : Call) (now : Time) : Time := (call.readings.map (·.third)).getD now

def peeks : Call → Bool
  | .remaining .. | .retryAfter .. => true
  | _ => false

def resets : Call → Bool
  | .reset k => decide (k = key)
  | .resetAll => true
  | _ => false

end Call

def Ordered : Time → List Call → Prop
  | _, [] => True
  | now, call :: calls =>
    (∀ readings ∈ call.readings, now ≤ readings.first) ∧ Ordered (call.finish now) calls

/-- What `is_allowed` has decided, and at which reading. -/
structure Verdict where
  key : String
  time : Time
  allowed : Bool
deriving DecidableEq

section Runs

variable {σ : Type} (exec : σ → Call → Option Verdict × σ)

def verdicts : σ → List Call → List Verdict
  | _, [] => []
  | s, call :: calls => (exec s call).1.toList ++ verdicts (exec s call).2 calls

def afterCalls (s : σ) (calls : List Call) : σ := calls.foldl (fun s call => (exec s call).2) s

end Runs

/-- The requests for a key that were allowed at a time of this kind. -/
def allowedAt (p : Time → Bool) (vs : List Verdict) : Nat :=
  vs.countP fun v => decide (v.key = key) && v.allowed && p v.time

def truncated (q : ℚ) : Int := Int.tdiv q.num q.den

namespace TokenBucketEntry

def peek (e : TokenBucketEntry) (now : Time) : Int × TokenBucketEntry :=
  (truncated (e.refill now).tokens, e.refill now)

def waitSeconds (e : TokenBucketEntry) (now : Time) : ℚ × TokenBucketEntry :=
  let e := e.refill now
  if e.tokens ≥ 1 then (0, e)
  else (if e.ratePerSecond > 0 then (1 - e.tokens) / e.ratePerSecond else 0, e)

end TokenBucketEntry

variable (now : Readings)

namespace TokenBucket

variable (b : TokenBucket)

/-- An operation on the entry of a key. A new entry is refilled from its own reading on. -/
def withEntry {β : Type} (now : Readings) (key : String)
    (f : TokenBucketEntry → Time → β × TokenBucketEntry) : β × TokenBucket :=
  let (result, entry) := f (b.entry now.first key) now.second
  (result, { b with buckets := b.buckets.set key entry })

def allow (now : Readings) (key : String) : Bool × TokenBucket :=
  b.withEntry now key fun e t => e.consume t

def remaining (now : Readings) (key : String) : Int × TokenBucket :=
  b.withEntry now key TokenBucketEntry.peek

def retryAfter (now : Readings) (key : String) : ℚ × TokenBucket :=
  b.withEntry now key TokenBucketEntry.waitSeconds

def reset (key : String) : TokenBucket :=
  { b with buckets := b.buckets.filterKeys fun k => decide (k ≠ key) }

def resetAll : TokenBucket := { b with buckets := ∅ }

def exec : Call → Option Verdict × TokenBucket
  | .isAllowed now key => ((some ⟨key, now.second, (b.allow now key).1⟩), (b.allow now key).2)
  | .remaining now key => (none, (b.remaining now key).2)
  | .retryAfter now key => (none, (b.retryAfter now key).2)
  | .reset key => (none, b.reset key)
  | .resetAll => (none, b.resetAll)

end TokenBucket

variable {windows : Dict String (List Time)}

namespace SlidingWindow

theorem tracked_reset {accessOrder : List String} (tracked : Tracked windows accessOrder)
    (key : String) :
    Tracked (windows.filterKeys fun k => decide (k ≠ key))
      (accessOrder.filter fun k => decide (k ≠ key)) := by
  refine ⟨tracked.distinct.filter _, fun other => ?_⟩
  rw [Dict.get?_filterKeys]
  by_cases same : other = key
  · simp [same]
  · simpa [same] using tracked.listed other

variable (w : SlidingWindow)

theorem tracked_empty : Tracked ∅ [] := ⟨List.nodup_nil, by simp⟩

/-- `is_allowed`, with a reading of the clock for each pruning and for the timestamp. -/
def allow (now : Readings) (key : String) : Bool × SlidingWindow :=
  let before := pruned w.config now.first key w.windows w.accessOrder
  let tracked := pruned_tracked w.config now.first (Tracked.but w.tracked key)
  let window := before.1.getD key []
  if w.config.maxRequests ≤ window.length then (false, ⟨w.config, before.1, before.2, tracked⟩)
  else
    let windows := before.1.set key (window ++ [now.second])
    let after := pruned w.config now.third key windows before.2
    (true, ⟨w.config, after.1, after.2,
      pruned_tracked w.config now.third (appended_tracked key tracked _)⟩)

theorem prune_tracked (now : Time) (key : String) :
    Tracked (pruned w.config now key w.windows w.accessOrder).1
      (pruned w.config now key w.windows w.accessOrder).2 :=
  pruned_tracked w.config now (Tracked.but w.tracked key)

def prune (now : Time) (key : String) : SlidingWindow :=
  ⟨w.config, (pruned w.config now key w.windows w.accessOrder).1,
    (pruned w.config now key w.windows w.accessOrder).2, w.prune_tracked now key⟩

def remaining (now : Readings) (key : String) : Int × SlidingWindow :=
  let w := w.prune now.first key
  (max 0 (w.config.maxRequests - (w.windows.getD key []).length), w)

def retryAfter (now : Readings) (key : String) : ℚ × SlidingWindow :=
  let w := w.prune now.first key
  match w.windows.getD key [] with
  | [] => (0, w)
  | oldest :: rest =>
    if ((oldest :: rest).length : Int) < w.config.maxRequests then (0, w)
    else (max 1 (w.config.windowSeconds - (now.second - rest.foldl min oldest)), w)

def reset (key : String) : SlidingWindow :=
  ⟨w.config, w.windows.filterKeys fun k => decide (k ≠ key),
    w.accessOrder.filter fun k => decide (k ≠ key), tracked_reset w.tracked key⟩

def resetAll : SlidingWindow := ⟨w.config, ∅, [], tracked_empty⟩

def exec : Call → Option Verdict × SlidingWindow
  | .isAllowed now key => (some ⟨key, now.second, (w.allow now key).1⟩, (w.allow now key).2)
  | .remaining now key => (none, (w.remaining now key).2)
  | .retryAfter now key => (none, (w.retryAfter now key).2)
  | .reset key => (none, w.reset key)
  | .resetAll => (none, w.resetAll)

end SlidingWindow

/-! ### The level of a bucket -/

structure TokenBucketEntry.Valid (config : RateLimitConfig) (now : Time) (e : TokenBucketEntry) :
    Prop where
  nonneg : 0 ≤ e.tokens
  le_burst : e.tokens ≤ config.burstSize
  max_eq : e.maxTokens = config.burstSize
  rate_eq : e.ratePerSecond = config.requestsPerSecond
  past : e.lastRefill ≤ now

namespace TokenBucketEntry

variable {config : RateLimitConfig} {now later : Time} {e : TokenBucketEntry}
  (valid : e.Valid config now) (ordered : now ≤ later)

include valid ordered

theorem Valid.refill_tokens : (e.refill later).tokens = min (config.burstSize : ℚ)
      (e.tokens + (later - e.lastRefill) * config.requestsPerSecond) := by
  have past := valid.past
  by_cases elapsed : later - e.lastRefill > 0
  · simp only [refill_exact, elapsed, if_true, valid.max_eq, valid.rate_eq]
  · have still : later - e.lastRefill = 0 := by linarith
    have none : e.refill later = e := by simp [refill_exact, elapsed]
    rw [none, still, zero_mul, add_zero, min_eq_right valid.le_burst]

theorem Valid.refill : (e.refill later).Valid config later := by
  have tokens := valid.refill_tokens ordered
  have gained : 0 ≤ (later - e.lastRefill) * config.requestsPerSecond :=
    mul_nonneg (by linarith [valid.past]) config.rate_pos.le
  have burst : (1 : ℚ) ≤ config.burstSize := by exact_mod_cast config.one_le_burst
  refine ⟨?_, ?_, ?_, ?_, ?_⟩
  · rw [tokens]
    exact le_min (by linarith) (by linarith [valid.nonneg])
  · rw [tokens]
    exact min_le_left ..
  · rw [← valid.max_eq]
    simp only [TokenBucketEntry.refill]
    split <;> rfl
  · rw [← valid.rate_eq]
    simp only [TokenBucketEntry.refill]
    split <;> rfl
  · simp only [TokenBucketEntry.refill]
    split
    · exact le_rfl
    · exact valid.past.trans ordered

theorem Valid.mono : e.Valid config later :=
  { valid with past := valid.past.trans ordered }

theorem Valid.consume : (e.consume later).2.Valid config later := by
  have refilled := valid.refill ordered
  simp only [TokenBucketEntry.consume, Rounding.exact_apply]
  split
  next enough =>
    exact ⟨by linarith, by linarith [refilled.le_burst], refilled.max_eq, refilled.rate_eq,
      refilled.past⟩
  next => exact refilled

end TokenBucketEntry

namespace TokenBucket

variable {b b' : TokenBucket} {config : RateLimitConfig} {now later : Time} {readings : Readings}
  {key other : String}

structure Valid (config : RateLimitConfig) (now : Time) (b : TokenBucket) : Prop where
  config_eq : b.config = config
  entries : ∀ key e, b.buckets.get? key = some e → e.Valid config now

theorem Valid.mono (valid : b.Valid config now) (ordered : now ≤ later) : b.Valid config later :=
  ⟨valid.config_eq, fun key e found => (valid.entries key e found).mono ordered⟩

theorem created_valid : (⟨config, ∅⟩ : TokenBucket).Valid config now :=
  ⟨rfl, fun key e found => by cases found⟩

theorem Valid.entry (valid : b.Valid config now) (ordered : now ≤ later) (key : String) :
    (b.entry later key).Valid config later := by
  unfold TokenBucket.entry
  cases found : b.buckets.get? key with
  | some e => exact (valid.entries key e found).mono ordered
  | none =>
    have burst : (1 : ℚ) ≤ config.burstSize := by exact_mod_cast config.one_le_burst
    have same := valid.config_eq
    refine ⟨?_, ?_, ?_, ?_, le_rfl⟩ <;>
      simp only [Option.getD_none, newEntry, same, Rounding.exact_apply]
    · linarith
    · exact le_rfl

def level (b : TokenBucket) (key : String) (t : Time) : ℚ := ((b.entry t key).refill t).tokens

section

variable (valid : b.Valid config now)

include valid

theorem Valid.level_nonneg (ordered : now ≤ later) :
    0 ≤ b.level key later := ((valid.entry ordered key).refill le_rfl).nonneg

theorem Valid.level_le (ordered : now ≤ later) :
    b.level key later ≤ config.burstSize := ((valid.entry ordered key).refill le_rfl).le_burst

theorem Valid.level_made {made : Time} (second : made ≤ later) :
    ((b.entry made key).refill later).tokens = b.level key later := by
  unfold level TokenBucket.entry
  cases found : b.buckets.get? key with
  | some e => rfl
  | none =>
    have gained : 0 ≤ (later - made) * config.requestsPerSecond :=
      mul_nonneg (by linarith) config.rate_pos.le
    have same := valid.config_eq
    simp only [Option.getD_none, TokenBucketEntry.refill_exact, newEntry, same]
    split <;> simp [gained]

theorem Valid.level_later {between : Time} (first : now ≤ between)
    (second : between ≤ later) : b.level key later = min (config.burstSize : ℚ) (b.level key between
        + (later - between) * config.requestsPerSecond) := by
  have entry := valid.entry first key
  have made : ((b.entry between key).refill later).tokens = b.level key later :=
    valid.level_made second
  have refilled := entry.refill le_rfl
  rw [← made, ← TokenBucketEntry.refill_refill _ second, refilled.refill_tokens second]
  have still : ((b.entry between key).refill between).lastRefill = between :=
    le_antisymm refilled.past (TokenBucketEntry.le_lastRefill ..)
  rw [still]
  rfl

end

/-! ### What a call does to the levels -/

section Calls

variable {β : Type} {f : TokenBucketEntry → Time → β × TokenBucketEntry}

theorem entry_withEntry (t : Time) : (b.withEntry readings key f).2.entry t other
    = if other = key then (f (b.entry readings.first key) readings.second).2
      else b.entry t other := by
  simp only [withEntry, TokenBucket.entry, Dict.get?_set, newEntry]
  by_cases same : other = key
  · simp [same]
  · simp [same, Ne.symm same]

variable (valid : b.Valid config now)

include valid

theorem Valid.withEntry
    (made : (f (b.entry readings.first key) readings.second).2.Valid config later)
    (ordered : now ≤ later) : (b.withEntry readings key f).2.Valid config later := by
  refine ⟨valid.config_eq, fun other e found => ?_⟩
  simp only [TokenBucket.withEntry, Dict.get?_set] at found
  split at found
  · cases found
    exact made
  · exact (valid.entries other e found).mono ordered

theorem Valid.level_peek (looks : ∀ e t, (f e t).2 = e.refill t) {t : Time}
    (ordered : readings.second ≤ t) :
    (b.withEntry readings key f).2.level other t = b.level other t := by
  unfold level
  rw [entry_withEntry]
  split
  next same =>
    subst same
    rw [looks, TokenBucketEntry.refill_refill _ ordered]
    exact valid.level_made (readings.first_le.trans ordered)
  next => rfl

theorem Valid.allow_fst :
    (b.allow readings key).1 = decide (1 ≤ b.level key readings.second) := by
  have made : ((b.entry readings.first key).refill readings.second).tokens
      = b.level key readings.second := valid.level_made readings.first_le
  rw [← made]
  simp only [allow, TokenBucket.withEntry, TokenBucketEntry.consume]
  split
  next enough => exact (decide_eq_true enough).symm
  next short => exact (decide_eq_false short).symm

theorem Valid.level_allow (first : now ≤ readings.first) {t : Time}
    (ordered : readings.second ≤ t) : (b.allow readings key).2.level other t
      = if other = key ∧ 1 ≤ b.level key readings.second then
          min (config.burstSize : ℚ) (b.level key readings.second - 1
            + (t - readings.second) * config.requestsPerSecond)
        else b.level other t := by
  have made : ((b.entry readings.first key).refill readings.second).tokens
      = b.level key readings.second := valid.level_made readings.first_le
  have entry := valid.entry first key
  have refilled := entry.refill readings.first_le
  have still : ((b.entry readings.first key).refill readings.second).lastRefill
      = readings.second := le_antisymm refilled.past (TokenBucketEntry.le_lastRefill ..)
  rw [level, allow, entry_withEntry]
  by_cases same : other = key
  · subst same
    rw [if_pos rfl]
    by_cases enough : 1 ≤ b.level other readings.second
    · have spent := entry.consume readings.first_le
      rw [if_pos ⟨rfl, enough⟩, spent.refill_tokens ordered]
      rw [← made] at enough ⊢
      simp only [TokenBucketEntry.consume, enough, if_true, still, Rounding.exact_apply]
    · rw [if_neg (fun both => enough both.2)]
      rw [← made] at enough
      simp only [TokenBucketEntry.consume, enough, if_false]
      rw [TokenBucketEntry.refill_refill _ ordered]
      exact valid.level_made (readings.first_le.trans ordered)
  · rw [if_neg same, if_neg (fun both => same both.1)]
    rfl

end Calls

theorem entry_reset (t : Time) : (b.reset key).entry t other
    = if other = key then b.newEntry t else b.entry t other := by
  simp only [reset, TokenBucket.entry, Dict.get?_filterKeys, newEntry]
  by_cases same : other = key
  · simp [same]
  · simp [same]

theorem peeks_look : (∀ e t, (TokenBucketEntry.peek e t).2 = e.refill t) ∧
    ∀ e t, (TokenBucketEntry.waitSeconds e t).2 = e.refill t := by
  refine ⟨fun _ _ => rfl, fun e t => ?_⟩
  simp only [TokenBucketEntry.waitSeconds]
  split <;> rfl

theorem Valid.exec (valid : b.Valid config now) (call : Call)
    (ordered : ∀ readings ∈ call.readings, now ≤ readings.first) :
    (b.exec call).2.Valid config (call.finish now) := by
  have through (readings : Readings) (first : now ≤ readings.first) : now ≤ readings.third :=
    first.trans (readings.first_le.trans readings.second_le)
  cases call with
  | isAllowed readings key =>
    have first := ordered readings rfl
    have spent := (valid.entry first key).consume readings.first_le
    show (b.withEntry readings key fun e t => e.consume t).2.Valid config readings.third
    exact valid.withEntry (spent.mono readings.second_le) (through readings first)
  | remaining readings key =>
    have first := ordered readings rfl
    have refilled := (valid.entry first key).refill readings.first_le
    show (b.withEntry readings key TokenBucketEntry.peek).2.Valid config readings.third
    exact valid.withEntry (refilled.mono readings.second_le) (through readings first)
  | retryAfter readings key =>
    have first := ordered readings rfl
    have refilled := (valid.entry first key).refill readings.first_le
    show (b.withEntry readings key TokenBucketEntry.waitSeconds).2.Valid config readings.third
    refine valid.withEntry ?_ (through readings first)
    rw [peeks_look.2]
    exact refilled.mono readings.second_le
  | reset key =>
    refine ⟨valid.config_eq, fun other e found => ?_⟩
    simp only [TokenBucket.exec, TokenBucket.reset, Dict.get?_filterKeys] at found
    split at found
    · exact valid.entries other e found
    · cases found
  | resetAll => exact ⟨valid.config_eq, fun key e found => by cases found⟩

end TokenBucket

theorem Call.le_finish {now : Time}
    (ordered : ∀ readings ∈ call.readings, now ≤ readings.first) : now ≤ call.finish now := by
  unfold Call.finish
  cases read : call.readings with
  | none => exact le_rfl
  | some readings =>
    exact (ordered readings read).trans (readings.first_le.trans readings.second_le)

theorem Ordered.append {now : Time} {calls others : List Call}
    (ordered : Ordered now (calls ++ others)) :
    Ordered now calls ∧ Ordered (calls.foldl (fun now call => call.finish now) now) others := by
  induction calls generalizing now with
  | nil => exact ⟨trivial, ordered⟩
  | cons call calls ih =>
    obtain ⟨first, rest⟩ := ordered
    exact ⟨⟨first, (ih rest).1⟩, (ih rest).2⟩

/-! ### The bound of a bucket -/

variable (w : SlidingWindow) {finish t : Time} {other : String}

namespace TokenBucket

variable {b : TokenBucket} {config : RateLimitConfig} {now : Time} {key : String}

/-- What a bucket can allow from a time to an end: its level, and what it gains meanwhile. -/
def supply (b : TokenBucket) (key : String) (finish t : Time) : ℚ :=
  if t ≤ finish then b.level key t + (finish - t) * b.config.requestsPerSecond else 0

theorem Valid.supply_nonneg (valid : b.Valid config now) (ordered : now ≤ t) :
    0 ≤ b.supply key finish t := by
  unfold supply
  split
  next inside =>
    have gained : 0 ≤ (finish - t) * b.config.requestsPerSecond :=
      mul_nonneg (by linarith) b.config.rate_pos.le
    have level : 0 ≤ b.level key t := valid.level_nonneg ordered
    linarith
  next => exact le_rfl

theorem Valid.supply_anti (valid : b.Valid config now) {finish t later : Time} (first : now ≤ t)
    (second : t ≤ later) : b.supply key finish later ≤ b.supply key finish t := by
  by_cases inside : later ≤ finish
  · have level : b.level key later = _ := valid.level_later first second
    have capped : b.level key later
        ≤ b.level key t + (later - t) * config.requestsPerSecond := by
      rw [level]
      exact min_le_right ..
    simp only [supply, inside, second.trans inside, if_true, valid.config_eq]
    linarith
  · rw [supply, if_neg inside]
    exact valid.supply_nonneg first

variable {b' : TokenBucket}

theorem supply_le {b : TokenBucket} (same : b'.config = b.config)
    (less : b'.level key t ≤ b.level key t) : b'.supply key finish t ≤ b.supply key finish t := by
  unfold supply
  rw [same]
  split
  · linarith
  · exact le_rfl

section

variable {readings : Readings} (valid : b.Valid config now) (first : now ≤ readings.first)

include valid first

theorem Valid.level_allow_le {t : Time} (ordered : readings.second ≤ t) :
    (b.allow readings other).2.level key t ≤ b.level key t := by
  rw [valid.level_allow first ordered]
  split
  next both =>
    rw [valid.level_later (first.trans readings.first_le) ordered, both.1]
    exact min_le_min_left _ (by linarith)
  next => exact le_rfl

theorem Valid.supply_allow (allowed : (b.allow readings key).1 = true)
    (ordered : readings.second ≤ t) (inside : readings.second ≤ finish) :
    1 + (b.allow readings key).2.supply key finish t ≤ b.supply key finish readings.second := by
  have enough : 1 ≤ b.level key readings.second := by simpa [valid.allow_fst] using allowed
  have level : (b.allow readings key).2.level key t = _ := valid.level_allow first ordered
  rw [if_pos ⟨rfl, enough⟩] at level
  have capped : (b.allow readings key).2.level key t
      ≤ b.level key readings.second - 1 + (t - readings.second) * config.requestsPerSecond := by
    rw [level]
    exact min_le_right ..
  have same : (b.allow readings key).2.config = config := valid.config_eq
  have gained : 0 ≤ (finish - readings.second) * config.requestsPerSecond :=
    mul_nonneg (by linarith) config.rate_pos.le
  simp only [supply, same, valid.config_eq, inside, if_true]
  split
  · linarith
  · linarith

end

theorem Valid.supply_exec (valid : b.Valid config now)
    (first : ∀ readings ∈ call.readings, now ≤ readings.first) (kept : call.resets key = false)
    (ordered : call.finish now ≤ t) :
    (b.exec call).2.supply key finish t ≤ b.supply key finish t := by
  have config_eq : (b.exec call).2.config = b.config := by cases call <;> rfl
  refine supply_le config_eq ?_
  cases call with
  | isAllowed readings other =>
    exact valid.level_allow_le (first readings rfl) (readings.second_le.trans ordered)
  | remaining readings other =>
    exact (valid.level_peek peeks_look.1 (readings.second_le.trans ordered)).le
  | retryAfter readings other =>
    exact (valid.level_peek peeks_look.2 (readings.second_le.trans ordered)).le
  | reset other =>
    have apart : key ≠ other := by
      rintro rfl
      simp [Call.resets] at kept
    rw [level, TokenBucket.exec, entry_reset, if_neg apart]
    exact le_rfl
  | resetAll => cases kept

variable {start : Time}

theorem Valid.allowedAt_exec (valid : b.Valid config now)
    (first : ∀ readings ∈ call.readings, now ≤ readings.first) (kept : call.resets key = false)
    {finish : Time} :
    (allowedAt key (fun t => decide (start ≤ t ∧ t ≤ finish)) (b.exec call).1.toList : ℚ)
        + (b.exec call).2.supply key finish (max start (call.finish now))
      ≤ b.supply key finish (max start now) := by
  have onward := Call.le_finish first
  have rest : (b.exec call).2.supply key finish (max start (call.finish now))
      ≤ b.supply key finish (max start now) :=
    (valid.supply_exec first kept (le_max_right start (call.finish now))).trans
      (valid.supply_anti (le_max_right start now) (max_le_max_left start onward))
  -- only a request for the key that is allowed in the interval counts, and it takes a token
  by_cases counted : ∃ readings, call = .isAllowed readings key ∧
      (b.allow readings key).1 = true ∧ start ≤ readings.second ∧ readings.second ≤ finish
  · obtain ⟨readings, rfl, allowed, after, inside⟩ := counted
    have one : allowedAt key (fun t => decide (start ≤ t ∧ t ≤ finish))
        (b.exec (.isAllowed readings key)).1.toList = 1 := by
      simp [allowedAt, TokenBucket.exec, allowed, after, inside]
    have begun := first readings rfl
    have paid : 1 + (b.allow readings key).2.supply key finish (max start readings.third)
        ≤ b.supply key finish readings.second :=
      valid.supply_allow begun allowed (readings.second_le.trans (le_max_right ..)) inside
    have earlier : b.supply key finish readings.second ≤ b.supply key finish (max start now) :=
      valid.supply_anti (le_max_right start now) (max_le after (begun.trans readings.first_le))
    rw [one]
    push_cast
    exact paid.trans earlier
  · have none : allowedAt key (fun t => decide (start ≤ t ∧ t ≤ finish))
        (b.exec call).1.toList = 0 := by
      rw [allowedAt, List.countP_eq_zero]
      intro v member
      cases call with
      | isAllowed readings other =>
        obtain rfl : v = ⟨other, readings.second, (b.allow readings other).1⟩ := by
          simpa [TokenBucket.exec] using member
        intro all
        simp only [Bool.and_eq_true, decide_eq_true_eq] at all
        obtain ⟨⟨rfl, allowed⟩, inside⟩ := all
        exact counted ⟨readings, rfl, allowed, inside⟩
      | _ => cases member
    rw [none]
    push_cast
    linarith

theorem Valid.allowedAt_le {finish : Time} (valid : b.Valid config now)
    (ordered : Ordered now calls) (kept : ∀ call ∈ calls, call.resets key = false) :
    (allowedAt key (fun t => decide (start ≤ t ∧ t ≤ finish))
      (verdicts TokenBucket.exec b calls) : ℚ) ≤ b.supply key finish (max start now) := by
  induction calls generalizing b now with
  | nil => exact valid.supply_nonneg (le_max_right start now)
  | cons call calls ih =>
    obtain ⟨first, rest⟩ := ordered
    have one : (allowedAt key (fun t => decide (start ≤ t ∧ t ≤ finish))
        (b.exec call).1.toList : ℚ) + _ ≤ _ :=
      valid.allowedAt_exec first (kept call List.mem_cons_self)
    have later := ih (valid.exec call first) rest fun other member =>
      kept other (List.mem_cons_of_mem _ member)
    rw [verdicts, allowedAt, List.countP_append]
    push_cast
    rw [allowedAt] at one later
    linarith

theorem Valid.after (valid : b.Valid config now)
    (ordered : Ordered now calls) : (afterCalls TokenBucket.exec b calls).Valid config
      (calls.foldl (fun now call => call.finish now) now) := by
  induction calls generalizing b now with
  | nil => exact valid
  | cons call calls ih => exact ih (valid.exec call ordered.1) ordered.2

/-- In any part of a run that does not reset a key, an interval has no more requests for it than the
burst and what the rate gives in its length. -/
theorem allowed_le_burst {before during : List Call} (ordered : Ordered now (before ++ during))
    (kept : ∀ call ∈ during, call.resets key = false) {length : Time} (some_ : 0 ≤ length) :
    (allowedAt key (fun t => decide (start ≤ t ∧ t ≤ start + length)) (verdicts TokenBucket.exec
        (afterCalls TokenBucket.exec ⟨config, ∅⟩ before) during) : ℚ)
      ≤ config.burstSize + config.requestsPerSecond * length := by
  obtain ⟨first, rest⟩ := ordered.append
  have valid : (afterCalls TokenBucket.exec ⟨config, ∅⟩ before).Valid config _ :=
    created_valid.after first
  refine (valid.allowedAt_le rest kept).trans ?_
  generalize before.foldl (fun now call => call.finish now) now = from_ at *
  rw [supply, valid.config_eq]
  have rate := config.rate_pos
  have level : TokenBucket.level _ key (max start from_) ≤ _ :=
    valid.level_le (le_max_right start from_)
  split
  next inside =>
    have gained : (start + length - max start from_) * config.requestsPerSecond
        ≤ length * config.requestsPerSecond :=
      mul_le_mul_of_nonneg_right (by linarith [le_max_left start from_]) rate.le
    linarith
  next =>
    have burst : (1 : ℚ) ≤ config.burstSize := by exact_mod_cast config.one_le_burst
    have gained : 0 ≤ config.requestsPerSecond * length := mul_nonneg rate.le some_
    linarith

/-- No call can tell the buckets apart from now on. -/
def SameLevels (now : Time) (b b' : TokenBucket) : Prop :=
  ∀ key t, now ≤ t → b.level key t = b'.level key t

theorem level_reset {t : Time} : (b.reset key).level other t
    = if other = key then (b.config.burstSize : ℚ) else b.level other t := by
  rw [level, entry_reset]
  split
  next => simp [newEntry, TokenBucketEntry.refill]
  next => rfl

variable (same : SameLevels now b b') (valid : b.Valid config now)

include same valid

theorem SameLevels.exec (valid' : b'.Valid config now) {call : Call}
    (first : ∀ readings ∈ call.readings, now ≤ readings.first) :
    (b.exec call).1 = (b'.exec call).1 ∧
      SameLevels (call.finish now) (b.exec call).2 (b'.exec call).2 := by
  cases call with
  | isAllowed readings other =>
    have begun := first readings rfl
    have there := same other readings.second (begun.trans readings.first_le)
    -- the verdict is read off the level, and so is what the request takes
    refine ⟨?_, fun key t ordered => ?_⟩
    · simp only [TokenBucket.exec, valid.allow_fst, valid'.allow_fst, there]
    · have after := readings.second_le.trans ordered
      show (b.allow readings other).2.level key t = (b'.allow readings other).2.level key t
      rw [valid.level_allow begun after, valid'.level_allow begun after, there,
        same key t ((begun.trans readings.first_le).trans after)]
  | remaining readings other =>
    refine ⟨rfl, fun key t ordered => ?_⟩
    have after := readings.second_le.trans ordered
    exact (valid.level_peek peeks_look.1 after).trans ((same key t
      (((first readings rfl).trans readings.first_le).trans after)).trans
      (valid'.level_peek peeks_look.1 after).symm)
  | retryAfter readings other =>
    refine ⟨rfl, fun key t ordered => ?_⟩
    have after := readings.second_le.trans ordered
    exact (valid.level_peek peeks_look.2 after).trans ((same key t
      (((first readings rfl).trans readings.first_le).trans after)).trans
      (valid'.level_peek peeks_look.2 after).symm)
  | reset other =>
    refine ⟨rfl, fun key t ordered => ?_⟩
    simp only [TokenBucket.exec, level_reset, valid.config_eq, valid'.config_eq,
      same key t ordered]
  | resetAll =>
    refine ⟨rfl, fun key t ordered => ?_⟩
    simp only [TokenBucket.exec]
    simp only [resetAll, valid.config_eq, valid'.config_eq]

theorem SameLevels.peek (first : ∀ readings ∈ call.readings, now ≤ readings.first)
    (peeks : call.peeks = true) :
    (b.exec call).1 = none ∧ SameLevels (call.finish now) (b.exec call).2 b' := by
  have onward := Call.le_finish first
  cases call with
  | remaining readings other =>
    refine ⟨rfl, fun key t ordered => ?_⟩
    exact (valid.level_peek peeks_look.1 (readings.second_le.trans ordered)).trans
      (same key t (onward.trans ordered))
  | retryAfter readings other =>
    refine ⟨rfl, fun key t ordered => ?_⟩
    exact (valid.level_peek peeks_look.2 (readings.second_le.trans ordered)).trans
      (same key t (onward.trans ordered))
  | _ => cases peeks

theorem SameLevels.verdicts {calls : List Call} (valid' : b'.Valid config now)
    (ordered : Ordered now calls) :
    verdicts TokenBucket.exec b calls
      = verdicts TokenBucket.exec b' (calls.filter fun call => !call.peeks) := by
  induction calls generalizing b b' now with
  | nil => rfl
  | cons call calls ih =>
    obtain ⟨first, rest⟩ := ordered
    have onward := Call.le_finish first
    by_cases peeks : call.peeks = true
    · obtain ⟨silent, same'⟩ := same.peek valid first peeks
      rw [List.filter_cons_of_neg (by simp [peeks])]
      simp only [RateLimit.verdicts, silent, Option.toList_none, List.nil_append]
      exact ih same' (valid.exec call first) (valid'.mono onward) rest
    · obtain ⟨verdict, same'⟩ := same.exec valid valid' first
      rw [List.filter_cons_of_pos (by simpa using peeks)]
      simp only [RateLimit.verdicts, verdict]
      rw [ih same' (valid.exec call first) (valid'.exec call first) rest]

end TokenBucket

/-! ### The window of a key -/

namespace SlidingWindow

def dropped (maxKeys : Nat) : List String → Dict String (List Time) → List String
  | [], _ => []
  | key :: rest, windows =>
    if maxKeys < windows.size then
      key :: dropped maxKeys rest (windows.filterKeys fun k => decide (k ≠ key))
    else []

def prunedDrops (config : RateLimitConfig) (now : Time) (key : String)
    (windows : Dict String (List Time)) (accessOrder : List String) : List String :=
  match windows.get? key with
  | none => []
  | some timestamps =>
    match live config now timestamps with
    | [] => []
    | t :: rest =>
      dropped config.maxKeys ((accessOrder.filter fun k => decide (k ≠ key)) ++ [key])
        (windows.set key (t :: rest))

def evicted (w : SlidingWindow) : Call → List String
  | .isAllowed now key =>
    let before := pruned w.config now.first key w.windows w.accessOrder
    let window := before.1.getD key []
    prunedDrops w.config now.first key w.windows w.accessOrder
      ++ if w.config.maxRequests ≤ window.length then []
        else prunedDrops w.config now.third key (before.1.set key (window ++ [now.second])) before.2
  | .remaining now key | .retryAfter now key =>
    prunedDrops w.config now.first key w.windows w.accessOrder
  | .reset _ | .resetAll => []

def Spared (key : String) : SlidingWindow → List Call → Prop
  | _, [] => True
  | w, call :: calls => key ∉ w.evicted call ∧ Spared key (w.exec call).2 calls

/-- What is decided for a key and what is left in its window, when it is not evicted. -/
def keyExec (config : RateLimitConfig) (key : String) (window : List Time) :
    Call → Option Verdict × List Time
  | .isAllowed now k =>
    if k = key then
      let window := live config now.first window
      if config.maxRequests ≤ window.length then (some ⟨key, now.second, false⟩, window)
      else (some ⟨key, now.second, true⟩, live config now.third (window ++ [now.second]))
    else (none, window)
  | .remaining now k | .retryAfter now k =>
    (none, if k = key then live config now.first window else window)
  | .reset k => (none, if k = key then [] else window)
  | .resetAll => (none, [])

theorem get?_evictOldest (maxKeys : Nat) (key : String) (order : List String)
    (windows : Dict String (List Time)) : (evictOldest maxKeys order windows).1.get? key
      = if key ∈ dropped maxKeys order windows then none else windows.get? key := by
  induction order generalizing windows with
  | nil => simp [evictOldest, dropped]
  | cons first rest ih =>
    simp only [evictOldest, dropped]
    split
    next =>
      rw [ih, Dict.get?_filterKeys]
      by_cases same : key = first
      · simp [same]
      · simp [same]
    next => simp

theorem getD_pruned_spared {config : RateLimitConfig} {now : Time} {key : String}
    {accessOrder : List String} (spared : other ∉ prunedDrops config now key windows accessOrder) :
    (pruned config now key windows accessOrder).1.getD other []
      = if other = key then live config now (windows.getD key [])
        else windows.getD other [] := by
  simp only [pruned, prunedDrops] at *
  cases found : windows.get? key with
  | none =>
    by_cases same : other = key
    · simp [same, Dict.getD, found, live]
    · simp [same]
  | some timestamps =>
    simp only [found] at spared
    cases alive : live config now timestamps with
    | nil =>
      by_cases same : other = key
      · simp [same, Dict.getD, Dict.get?_filterKeys, found, alive]
      · simp [same, Dict.getD, Dict.get?_filterKeys, alive]
    | cons t rest =>
      simp only [alive] at spared
      simp only [Dict.getD, get?_evictOldest, if_neg spared, Dict.get?_set, found,
        Option.getD_some, alive]
      by_cases same : other = key
      · simp [same]
      · simp [same, Ne.symm same]

theorem retryAfter_snd (key : String) : (w.retryAfter now key).2 = w.prune now.first key := by
  simp only [retryAfter]
  split
  · rfl
  · split <;> rfl

theorem exec_spared {w : SlidingWindow} {key : String} (spared : key ∉ w.evicted call) :
    ((w.exec call).1.filter fun v => decide (v.key = key))
        = (keyExec w.config key (w.windows.getD key []) call).1 ∧
      (w.exec call).2.windows.getD key []
        = (keyExec w.config key (w.windows.getD key []) call).2 := by
  cases call with
  | isAllowed now other =>
    simp only [evicted, List.mem_append, not_or] at spared
    -- the key is spared by the pruning before the check and by the one behind it
    obtain ⟨first, second⟩ := spared
    have before := getD_pruned_spared first
    by_cases same : other = key
    · subst same
      rw [if_pos rfl] at before
      rw [before] at second
      simp only [exec, allow, keyExec, before, if_true]
      split
      next full => exact ⟨by simp, before⟩
      next room =>
        rw [if_neg room] at second
        have after := getD_pruned_spared second
        rw [if_pos rfl, Dict.getD_set, if_pos rfl] at after
        exact ⟨by simp, after⟩
    · have apart : key ≠ other := Ne.symm same
      rw [if_neg apart] at before
      simp only [exec, allow, keyExec, if_neg same]
      split
      next full => exact ⟨by simp [same], before⟩
      next room =>
        rw [if_neg room] at second
        have after := getD_pruned_spared second
        rw [if_neg apart, Dict.getD_set, if_neg same, before] at after
        exact ⟨by simp [same], after⟩
  | remaining now other =>
    refine ⟨rfl, (getD_pruned_spared spared).trans ?_⟩
    by_cases same : other = key
    · simp [keyExec, same]
    · simp [keyExec, same, Ne.symm same]
  | retryAfter now other =>
    refine ⟨rfl, ?_⟩
    simp only [exec, retryAfter_snd]
    refine (getD_pruned_spared spared).trans ?_
    by_cases same : other = key
    · simp [keyExec, same]
    · simp [keyExec, same, Ne.symm same]
  | reset other =>
    refine ⟨rfl, ?_⟩
    by_cases same : other = key
    · simp [exec, reset, keyExec, Dict.getD, Dict.get?_filterKeys, same]
    · simp [exec, reset, keyExec, Dict.getD, Dict.get?_filterKeys, same, Ne.symm same]
  | resetAll => exact ⟨rfl, rfl⟩

theorem config_exec (call : Call) : (w.exec call).2.config = w.config := by
  cases call with
  | isAllowed now key =>
    simp only [exec, allow]
    split <;> rfl
  | retryAfter now key =>
    simp only [exec, retryAfter_snd]
    rfl
  | _ => rfl

theorem verdicts_spared {key : String} {w : SlidingWindow} (spared : Spared key w calls) :
    ((verdicts exec w calls).filter fun v => decide (v.key = key))
      = verdicts (keyExec w.config key) (w.windows.getD key []) calls := by
  induction calls generalizing w with
  | nil => rfl
  | cons call calls ih =>
    obtain ⟨here, rest⟩ := spared
    obtain ⟨verdict, window⟩ := exec_spared here
    simp only [verdicts, List.filter_append]
    rw [ih rest, config_exec, window, ← verdict]
    congr 1
    cases (w.exec call).1 with
    | none => rfl
    | some v => by_cases same : v.key = key <;> simp [Option.filter, same]

section Windows

variable {config : RateLimitConfig} {key : String} {now later : Time} {window window' : List Time}

section

variable (same : live config now window = live config now window')

include same

theorem live_same
    (ordered : now ≤ later) : live config later window = live config later window' := by
  rw [← live_live config ordered, same, live_live config ordered]

theorem keyExec_same (first : ∀ readings ∈ call.readings, now ≤ readings.first) :
    (keyExec config key window call).1 = (keyExec config key window' call).1 ∧
      live config (call.finish now) (keyExec config key window call).2
        = live config (call.finish now) (keyExec config key window' call).2 := by
  have onward := live_same same (Call.le_finish first)
  cases call with
  | isAllowed readings other =>
    have begun := live_same same (first readings rfl)
    by_cases here : other = key
    · simp [keyExec, here, begun]
    · exact ⟨by simp [keyExec, here], by simpa [keyExec, here] using onward⟩
  | remaining readings other =>
    have begun := live_same same (first readings rfl)
    by_cases here : other = key
    · simp [keyExec, here, begun]
    · exact ⟨rfl, by simpa [keyExec, here] using onward⟩
  | retryAfter readings other =>
    have begun := live_same same (first readings rfl)
    by_cases here : other = key
    · simp [keyExec, here, begun]
    · exact ⟨rfl, by simpa [keyExec, here] using onward⟩
  | reset other =>
    by_cases here : other = key
    · simp [keyExec, here]
    · exact ⟨rfl, by simpa [keyExec, here] using onward⟩
  | resetAll => exact ⟨rfl, rfl⟩

theorem keyExec_peek (first : ∀ readings ∈ call.readings, now ≤ readings.first)
    (peeks : call.peeks = true) : (keyExec config key window call).1 = none ∧
      live config (call.finish now) (keyExec config key window call).2
        = live config (call.finish now) window' := by
  have onward := live_same same (Call.le_finish first)
  cases call with
  | remaining readings other =>
    refine ⟨rfl, ?_⟩
    by_cases here : other = key
    · simp only [keyExec, here, if_true]
      exact (live_live config (readings.first_le.trans readings.second_le) window).trans onward
    · simpa [keyExec, here] using onward
  | retryAfter readings other =>
    refine ⟨rfl, ?_⟩
    by_cases here : other = key
    · simp only [keyExec, here, if_true]
      exact (live_live config (readings.first_le.trans readings.second_le) window).trans onward
    · simpa [keyExec, here] using onward
  | _ => cases peeks

theorem keyVerdicts_filter (ordered : Ordered now calls) :
    verdicts (keyExec config key) window calls
      = verdicts (keyExec config key) window' (calls.filter fun call => !call.peeks) := by
  induction calls generalizing window window' now with
  | nil => rfl
  | cons call calls ih =>
    obtain ⟨first, rest⟩ := ordered
    by_cases peeks : call.peeks = true
    · obtain ⟨silent, same'⟩ : (keyExec config key window call).1 = none ∧ _ :=
        keyExec_peek same first peeks
      rw [List.filter_cons_of_neg (by simp [peeks])]
      simp only [verdicts, silent, Option.toList_none, List.nil_append]
      exact ih same' rest
    · obtain ⟨verdict, same'⟩ : (keyExec config key window call).1 = _ ∧ _ :=
        keyExec_same same first
      rw [List.filter_cons_of_pos (by simpa using peeks)]
      simp only [verdicts, verdict]
      rw [ih same' rest]

end

/-! ### The bound of a window -/

theorem filter_sublist_live (now : Time) (window : List Time) :
    (window.filter fun t => decide (now - config.windowSeconds < t)).Sublist
      (live config now window) := by
  induction window with
  | nil => exact List.Sublist.slnil
  | cons t rest ih =>
    by_cases gone : t ≤ now - config.windowSeconds
    · simpa [live, gone] using ih
    · have whole : live config now (t :: rest) = t :: rest := by simp [live, gone]
      rw [whole]
      exact List.filter_sublist

def Recorded (config : RateLimitConfig) (now : Time) (accepted window : List Time) : Prop :=
  (accepted.filter fun t => decide (now - config.windowSeconds < t)).Sublist window

theorem filter_later (ordered : now ≤ later) (times : List Time) :
    times.filter (fun t => decide (later - config.windowSeconds < t))
      = (times.filter fun t => decide (now - config.windowSeconds < t)).filter
        fun t => decide (later - config.windowSeconds < t) := by
  rw [List.filter_filter]
  refine List.filter_congr fun t _ => ?_
  by_cases young : later - config.windowSeconds < t
  · have before : now - config.windowSeconds < t := by linarith
    simp [young, before]
  · simp [young]

theorem Recorded.mono (recorded : Recorded config now accepted window)
    (ordered : now ≤ later) : Recorded config later accepted window := by
  unfold Recorded
  rw [filter_later ordered]
  exact List.filter_sublist.trans recorded

section

variable {accepted : List Time} (recorded : Recorded config now accepted window)

include recorded

theorem Recorded.live
    (ordered : now ≤ later) : Recorded config later accepted (live config later window) := by
  unfold Recorded
  rw [filter_later ordered]
  exact (recorded.filter _).trans (filter_sublist_live later window)

theorem Recorded.append (t : Time) : Recorded config now (accepted ++ [t]) (window ++ [t]) := by
  unfold Recorded
  rw [List.filter_append]
  exact List.Sublist.append recorded List.filter_sublist

end

theorem Recorded.countP_le (recorded : Recorded config now accepted window) {p : Time → Bool}
    (close : ∀ t ∈ accepted, p t = true → now - config.windowSeconds < t) :
    accepted.countP p ≤ window.length := by
  refine le_trans ?_ recorded.length_le
  rw [← List.countP_eq_length_filter]
  exact List.countP_mono_left fun t member here => decide_eq_true (close t member here)

variable {p : Time → Bool} (close : ∀ s t, p s = true → p t = true → s - config.windowSeconds < t)
  (recorded : Recorded config now accepted window)
  (within : (accepted.countP p : Int) ≤ config.maxRequests)

include close recorded within

theorem keyExec_recorded (first : ∀ readings ∈ call.readings, now ≤ readings.first)
    (kept : call.resets key = false) : ∃ accepted',
      Recorded config (call.finish now) accepted' (keyExec config key window call).2 ∧
        accepted'.countP p = accepted.countP p
          + allowedAt key p (keyExec config key window call).1.toList ∧
        (accepted'.countP p : Int) ≤ config.maxRequests := by
  have onward := Call.le_finish first
  cases call with
  | isAllowed readings other =>
    have begun := recorded.live (first readings rfl)
    have through := readings.first_le.trans readings.second_le
    by_cases here : other = key
    · simp only [keyExec, here, if_true]
      split
      next full =>
        exact ⟨accepted, begun.mono through, by simp [allowedAt], within⟩
      next room =>
        refine ⟨accepted ++ [readings.second], (begun.append _).live through, ?_, ?_⟩
        · simp [allowedAt, List.countP_append, List.countP_cons]
        · by_cases young : p readings.second = true
          · -- the requests counted so far are in the window that had room
            have counted := begun.countP_le fun t _ here =>
              lt_of_le_of_lt (sub_le_sub_right readings.first_le _)
                (close readings.second t young here)
            simp only [List.countP_append, List.countP_singleton, young, if_true]
            omega
          · simpa [List.countP_append, List.countP_singleton, young] using within
    · simp only [keyExec, here, if_false]
      exact ⟨accepted, recorded.mono onward, by simp [allowedAt], within⟩
  | remaining readings other | retryAfter readings other =>
    refine ⟨accepted, ?_, by simp [keyExec, allowedAt], within⟩
    by_cases here : other = key
    · simp only [keyExec, here, if_true]
      exact (recorded.live (first readings rfl)).mono
        (readings.first_le.trans readings.second_le)
    · simpa [keyExec, here] using recorded.mono onward
  | reset other =>
    have apart : other ≠ key := by
      rintro rfl
      simp [Call.resets] at kept
    refine ⟨accepted, ?_, by simp [keyExec, allowedAt], within⟩
    simpa [keyExec, apart] using recorded.mono onward
  | resetAll => cases kept

theorem keyVerdicts_le (ordered : Ordered now calls)
    (kept : ∀ call ∈ calls, call.resets key = false) :
    ((accepted.countP p + allowedAt key p (verdicts (keyExec config key) window calls) : Nat) : Int)
      ≤ config.maxRequests := by
  induction calls generalizing window now accepted with
  | nil => simpa [verdicts, allowedAt] using within
  | cons call calls ih =>
    obtain ⟨first, rest⟩ := ordered
    obtain ⟨accepted', recorded', counted, within'⟩ :=
      keyExec_recorded close recorded within first (kept call List.mem_cons_self)
    have later := ih recorded' within' rest fun other member =>
      kept other (List.mem_cons_of_mem _ member)
    rw [verdicts, allowedAt, List.countP_append]
    rw [counted, allowedAt, allowedAt] at later
    omega

end Windows

/-- Of the requests for a key that are closer together than the window no more are allowed than its
limit, in any part of a run that neither resets nor evicts the key. -/
theorem allowed_le_limit {w : SlidingWindow} {key : String} {now : Time}
    (ordered : Ordered now calls) (kept : ∀ call ∈ calls, call.resets key = false)
    (spared : Spared key w calls) {p : Time → Bool}
    (close : ∀ s t, p s = true → p t = true → s - w.config.windowSeconds < t) :
    (allowedAt key p (verdicts exec w calls) : Int) ≤ w.config.maxRequests := by
  have own : allowedAt key p (verdicts exec w calls)
      = allowedAt key p ((verdicts exec w calls).filter fun v => decide (v.key = key)) := by
    rw [allowedAt, allowedAt, List.countP_filter]
    refine List.countP_congr fun v _ => ?_
    by_cases same : v.key = key <;> simp [same]
  rw [own, verdicts_spared spared]
  have limit := w.config.one_le_requests
  have begun : Recorded w.config now [] (w.windows.getD key []) := List.nil_sublist _
  have bound := keyVerdicts_le close begun (by simp; omega) ordered kept
  simpa using bound

def create (config : RateLimitConfig) : SlidingWindow := ⟨config, ∅, [], tracked_empty⟩

theorem config_afterCalls (calls : List Call) : (afterCalls exec w calls).config = w.config := by
  induction calls generalizing w with
  | nil => rfl
  | cons call calls ih => exact (ih _).trans (w.config_exec call)

end SlidingWindow

def SameButPeeks (calls others : List Call) : Prop :=
  (calls.filter fun call => !call.peeks) = others.filter fun call => !call.peeks

/-- What a rate limit bounds. A bucket allows its burst and what its rate gives in any interval in
which the key is not reset, a window its limit in any half-open interval of its length in which the
key is neither reset nor evicted. Looking at the keys changes no verdict of a bucket, and of a
window none on a key that is not evicted. -/
theorem rates_bounded (config : RateLimitConfig) (key : String) (now : Time) :
    (∀ before during, Ordered now (before ++ during) →
      (∀ call ∈ during, call.resets key = false) → ∀ start length : ℚ, 0 ≤ length →
        (allowedAt key (fun t => decide (start ≤ t ∧ t ≤ start + length))
          (verdicts TokenBucket.exec (afterCalls TokenBucket.exec ⟨config, ∅⟩ before) during) : ℚ)
            ≤ config.burstSize + config.requestsPerSecond * length) ∧
    (∀ before during, Ordered now (before ++ during) → (∀ call ∈ during, call.resets key = false) →
      SlidingWindow.Spared key (afterCalls SlidingWindow.exec (.create config) before) during →
        ∀ start : ℚ, (allowedAt key (fun t => decide (start ≤ t ∧ t < start + config.windowSeconds))
            (verdicts SlidingWindow.exec (afterCalls SlidingWindow.exec (.create config) before)
              during) : Int) ≤ config.maxRequests ∧
          (allowedAt key (fun t => decide (start < t ∧ t ≤ start + config.windowSeconds))
            (verdicts SlidingWindow.exec (afterCalls SlidingWindow.exec (.create config) before)
              during) : Int) ≤ config.maxRequests) ∧
    (∀ calls others, Ordered now calls → Ordered now others → SameButPeeks calls others →
      verdicts TokenBucket.exec ⟨config, ∅⟩ calls = verdicts TokenBucket.exec ⟨config, ∅⟩ others) ∧
    (∀ calls others, Ordered now calls → Ordered now others → SameButPeeks calls others →
      SlidingWindow.Spared key (.create config) calls →
      SlidingWindow.Spared key (.create config) others →
        ((verdicts SlidingWindow.exec (.create config) calls).filter fun v => decide (v.key = key))
          = (verdicts SlidingWindow.exec (.create config) others).filter
            fun v => decide (v.key = key)) := by
  refine ⟨?bucket, ?window, ?bucketPeeks, ?windowPeeks⟩
  case bucket =>
    intro before during ordered kept start length some_
    exact TokenBucket.allowed_le_burst ordered kept some_
  case window =>
    intro before during ordered kept spared start
    have config_eq := (SlidingWindow.create config).config_afterCalls before
    have rest := ordered.append.2
    constructor
    all_goals
      refine (SlidingWindow.allowed_le_limit rest kept spared fun s t here there => ?_).trans ?_
      · simp only [decide_eq_true_eq] at here there
        rw [config_eq]
        show s - config.windowSeconds < t
        linarith
      · rw [config_eq]
        exact le_rfl
  case bucketPeeks =>
    intro calls others ordered ordered' same
    have valid : TokenBucket.Valid config now ⟨config, ∅⟩ := TokenBucket.created_valid
    have still : TokenBucket.SameLevels now ⟨config, ∅⟩ ⟨config, ∅⟩ := fun _ _ _ => rfl
    rw [still.verdicts valid valid ordered, still.verdicts valid valid ordered', same]
  case windowPeeks =>
    intro calls others ordered ordered' same spared spared'
    rw [SlidingWindow.verdicts_spared spared, SlidingWindow.verdicts_spared spared',
      SlidingWindow.keyVerdicts_filter rfl ordered, SlidingWindow.keyVerdicts_filter rfl ordered',
      same]

theorem one_per_second_pos : (0 : ℚ) < 1 := zero_lt_one

theorem one_le_single : (1 : Int) ≤ 1 := le_rfl

theorem one_le_minute : (1 : Int) ≤ 60 := by decide

/-- One request for each of two keys in a minute, or one token a second. -/
def oneEach : RateLimitConfig where
  strategy := .slidingWindow
  requestsPerSecond := 1
  burstSize := 1
  windowSeconds := 60
  maxRequests := 1
  maxKeys := 2
  redisPrefix := "rate_limit:"
  redisTtl := 120
  rate_pos := one_per_second_pos
  one_le_burst := one_le_single
  one_le_window := one_le_minute
  one_le_requests := one_le_single

def Readings.still (t : Time) : Readings := ⟨t, t, t, le_rfl, le_rfl⟩

/-- Two requests at once, of which a bucket of one token allows at most one. -/
theorem rates_bounded_twice : (allowedAt "a" (fun t => decide (0 ≤ t ∧ t ≤ 0 + 0))
      (verdicts TokenBucket.exec ⟨oneEach, ∅⟩
        [.isAllowed (.still 0) "a", .isAllowed (.still 0) "a"]) : ℚ)
      ≤ oneEach.burstSize + oneEach.requestsPerSecond * 0 := by
  refine (rates_bounded oneEach "a" 0).1 []
    [.isAllowed (.still 0) "a", .isAllowed (.still 0) "a"] ⟨?_, ?_, trivial⟩ ?_ 0 0 le_rfl
  · rintro _ ⟨⟩
    exact le_rfl
  · rintro _ ⟨⟩
    exact le_rfl
  · decide

/-- Looking at the key `"a"` keeps its window from the eviction, so that its next request is denied;
and a bucket that is reset in between allows two requests at once. -/
theorem peek_changes_verdict :
    let asked := [Call.isAllowed (.still 0) "a", .isAllowed (.still 1) "b"]
    let later := [Call.isAllowed (.still 3) "c", .isAllowed (.still 4) "a"]
    (verdicts SlidingWindow.exec (.create oneEach)
        (asked ++ .remaining (.still 2) "a" :: later)).map Verdict.allowed
          = [true, true, true, false] ∧
      (verdicts SlidingWindow.exec (.create oneEach) (asked ++ later)).map Verdict.allowed
        = [true, true, true, true] ∧
      allowedAt "a" (fun t => decide (0 ≤ t ∧ t ≤ 0 + 0)) (verdicts TokenBucket.exec ⟨oneEach, ∅⟩
        [.isAllowed (.still 0) "a", .reset "a", .isAllowed (.still 0) "a"]) = 2 := by
  refine ⟨?_, ?_, ?_⟩ <;> decide +kernel

end DistLLM.RateLimit
