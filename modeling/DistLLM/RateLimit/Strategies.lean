import DistLLM.Library.Dict
import DistLLM.Library.Rounding
import Mathlib.Data.List.Perm.Subperm
import Mathlib.Tactic.Linarith
import Mathlib.Tactic.Ring

/-!
# Rate limiting strategies

`TokenBucket`, `SlidingWindow` and `RedisRateLimiter`, each with what a call on a key does and how
many units of the key are in use at a time. A call that is allowed uses one unit more; one that is
refused changes nothing that can be seen from then on.
-/
namespace DistLLM.RateLimit

open Library

abbrev Time := ℚ

inductive RateLimitStrategy where
  | tokenBucket
  | slidingWindow
  | redis
deriving DecidableEq

/-- A validated configuration: `__post_init__` raises unless the last four fields hold. -/
structure RateLimitConfig where
  strategy : RateLimitStrategy
  requestsPerSecond : ℚ
  burstSize : Int
  windowSeconds : Int
  maxRequests : Int
  maxKeys : Nat
  redisPrefix : String
  redisTtl : Int
  rate_pos : 0 < requestsPerSecond
  one_le_burst : 1 ≤ burstSize
  one_le_window : 1 ≤ windowSeconds
  one_le_requests : 1 ≤ maxRequests

/-- How the Redis server and its client library answer a call. -/
inductive RedisFate where
  | works
  | notInstalled
  | pipelineFails
  | zaddFails
  | expireFails
deriving DecidableEq

/-- What a request finds: the two clocks, how floats are rounded, and Redis for each of its keys. -/
structure Surroundings where
  monotonic : Time
  wall : Time
  floats : Rounding
  redis : String → RedisFate

structure Surroundings.Later (now later : Surroundings) : Prop where
  monotonic : now.monotonic ≤ later.monotonic
  wall : now.wall ≤ later.wall
  floats : later.floats = now.floats

/-! ### Token buckets -/

/-- Mutable state for a single key's token bucket. -/
structure TokenBucketEntry where
  tokens : ℚ
  lastRefill : Time
  maxTokens : ℚ
  ratePerSecond : ℚ
  rate_nonneg : 0 ≤ ratePerSecond

variable {now later : Time} {fl : Rounding}

namespace TokenBucketEntry

def refill (e : TokenBucketEntry) (now : Time) (fl : Rounding := .exact) : TokenBucketEntry :=
  let elapsed := fl (now - e.lastRefill)
  if elapsed > 0 then
    { e with
      tokens := min e.maxTokens (fl (e.tokens + fl (elapsed * e.ratePerSecond)))
      lastRefill := now }
  else e

def consume (e : TokenBucketEntry) (now : Time) (fl : Rounding := .exact) :
    Bool × TokenBucketEntry :=
  let e := e.refill now fl
  if e.tokens ≥ 1 then (true, { e with tokens := fl (e.tokens - 1) }) else (false, e)

/-- Nothing is rounded in a refill at this time. -/
structure Unrounded (fl : Rounding) (now : Time) (e : TokenBucketEntry) : Prop where
  elapsed : fl (now - e.lastRefill) = now - e.lastRefill
  gained : fl ((now - e.lastRefill) * e.ratePerSecond) = (now - e.lastRefill) * e.ratePerSecond
  tokens : fl (e.tokens + (now - e.lastRefill) * e.ratePerSecond)
    = e.tokens + (now - e.lastRefill) * e.ratePerSecond

variable (e : TokenBucketEntry)

theorem refill_exact (now : Time) : e.refill now = if now - e.lastRefill > 0 then
    { e with
      tokens := min e.maxTokens (e.tokens + (now - e.lastRefill) * e.ratePerSecond)
      lastRefill := now }
    else e := rfl

theorem Unrounded.refill_eq {e : TokenBucketEntry} (unrounded : e.Unrounded fl now) :
    e.refill now fl = e.refill now := by
  obtain ⟨elapsed, gained, tokens⟩ := unrounded
  rw [refill_exact]
  simp only [refill, elapsed, gained, tokens]

include e

theorem refill_refill (ordered : now ≤ later) :
    (e.refill now).refill later = e.refill later := by
  by_cases first : now - e.lastRefill > 0
  · have whole : later - e.lastRefill > 0 := by linarith
    have grows : 0 ≤ (later - now) * e.ratePerSecond :=
      mul_nonneg (by linarith) e.rate_nonneg
    by_cases second : later - now > 0
    · simp only [refill_exact, first, whole, second, if_true]
      congr 1
      rw [← min_add_add_right, ← min_assoc,
        min_eq_left (by linarith : e.maxTokens ≤ e.maxTokens + (later - now) * e.ratePerSecond)]
      congr 1
      ring
    · have same : later = now := by linarith
      simp [refill_exact, first, same]
  · simp [refill_exact, first]

theorem le_lastRefill (now : Time) : now ≤ (e.refill now).lastRefill := by
  rw [refill_exact]
  split
  next => simp
  next early => linarith

/-- A bucket that was refilled has no time to make up for, and one that was not has none, either. -/
theorem refill_consume (now : Time) :
    (e.consume now fl).2.refill now fl = (e.consume now fl).2 := by
  by_cases elapsed : fl (now - e.lastRefill) > 0
  · simp only [consume, refill, elapsed, if_true]
    split <;> simp [fl.zero]
  · have still : e.refill now fl = e := if_neg elapsed
    simp only [consume, still]
    split
    · exact if_neg elapsed
    · exact still

end TokenBucketEntry

structure TokenBucket where
  config : RateLimitConfig
  buckets : Dict String TokenBucketEntry

namespace TokenBucket

variable (b : TokenBucket)

def newEntry (now : Time) (fl : Rounding := .exact) : TokenBucketEntry :=
  { tokens := fl b.config.burstSize, lastRefill := now, maxTokens := fl b.config.burstSize
    ratePerSecond := b.config.requestsPerSecond, rate_nonneg := b.config.rate_pos.le }

def entry (now : Time) (key : String) (fl : Rounding := .exact) : TokenBucketEntry :=
  (b.buckets.get? key).getD (b.newEntry now fl)

def isAllowed (fl : Rounding) (now : Time) (key : String) : Bool × TokenBucket :=
  let (allowed, entry) := (b.entry now key fl).consume now fl
  (allowed, { b with buckets := b.buckets.set key entry })

def used (fl : Rounding) (now : Time) (key : String) : ℚ :=
  b.config.burstSize - ((b.entry now key fl).refill now fl).tokens

/-- The token that a call takes is counted, as it is from fewer than `2 ^ 53` of them. -/
def counts (fl : Rounding) (now : Time) (key : String) : Bool :=
  let tokens := ((b.entry now key fl).refill now fl).tokens
  decide (fl (tokens - 1) = tokens - 1)

/-- The refills of a key's bucket at these times, the second one with the first and without it. -/
structure Unrounded (fl : Rounding) (now later : Time) (key : String) : Prop where
  early : (b.entry now key fl).Unrounded fl now
  late : (b.entry now key fl).Unrounded fl later
  both : ((b.entry now key fl).refill now).Unrounded fl later

end TokenBucket

/-- What a call on a key does to the units that are in use. A bucket that refused it has been
refilled, which cannot be seen later on where nothing is rounded. -/
structure Charges (now : Surroundings) (allowed : Bool) (capacity : ℚ) (unrounded : Time → Prop)
    (used used' : Surroundings → ℚ) : Prop where
  verdict : allowed = decide (used now + 1 ≤ capacity)
  charged : allowed = true → used' now = used now + 1
  refused : allowed = false → used' now = used now
  later : allowed = false → ∀ later, now.Later later → unrounded later.monotonic →
    used' later = used later

namespace TokenBucket

variable (b : TokenBucket)

theorem isAllowed_charges (now : Surroundings) (key : String)
    (counts : b.counts now.floats now.monotonic key = true) :
    Charges now (b.isAllowed now.floats now.monotonic key).1 b.config.burstSize
      (b.Unrounded now.floats now.monotonic · key) (fun t => b.used t.floats t.monotonic key)
      fun t => (b.isAllowed now.floats now.monotonic key).2.used t.floats t.monotonic key := by
  have burst : (1 : ℚ) ≤ b.config.burstSize := by exact_mod_cast b.config.one_le_burst
  set e := b.entry now.monotonic key now.floats with held
  -- the bucket of the key after the call
  have after : ∀ t fl, (b.isAllowed now.floats now.monotonic key).2.entry t key fl
      = (e.consume now.monotonic now.floats).2 := by
    simp [isAllowed, entry, held]
  have first : (b.isAllowed now.floats now.monotonic key).1
      = decide ((e.refill now.monotonic now.floats).tokens ≥ 1) := by
    simp only [isAllowed, TokenBucketEntry.consume]
    split <;> simp [*]
  refine ⟨?verdict, ?charged, ?refused, ?later⟩
  case verdict =>
    rw [first, decide_eq_decide, used]
    constructor <;> intro enough <;> linarith
  case charged =>
    intro allowed
    have enough : (e.refill now.monotonic now.floats).tokens ≥ 1 := by
      simpa [first] using allowed
    have less : now.floats ((e.refill now.monotonic now.floats).tokens - 1)
        = (e.refill now.monotonic now.floats).tokens - 1 := by
      simpa [TokenBucket.counts] using counts
    simp only [used, after, TokenBucketEntry.refill_consume]
    simp only [TokenBucketEntry.consume, enough, if_true, isAllowed, less]
    ring
  case refused =>
    intro refused
    have short : ¬ (e.refill now.monotonic now.floats).tokens ≥ 1 := by
      simpa [first] using refused
    simp only [used, after, TokenBucketEntry.refill_consume]
    simp only [TokenBucketEntry.consume, short, if_false, isAllowed]
    rfl
  case later =>
    intro refused later ordered unrounded
    have short : ¬ (e.refill now.monotonic now.floats).tokens ≥ 1 := by
      simpa [first] using refused
    -- a new bucket is full, so that it is not refused
    have old : b.entry later.monotonic key now.floats = e := by
      rw [held]
      cases found : b.buckets.get? key with
      | some e => simp [entry, found]
      | none =>
        refine absurd ?_ short
        have full := now.floats.one_le burst
        simpa [held, entry, found, newEntry, TokenBucketEntry.refill, now.floats.zero] using full
    simp only [used, ordered.floats, after, TokenBucketEntry.consume, short, if_false, old]
    rw [unrounded.early.refill_eq, unrounded.both.refill_eq, unrounded.late.refill_eq,
      TokenBucketEntry.refill_refill _ ordered.monotonic]
    rfl

end TokenBucket

/-! ### Sliding windows -/

/-- The keys in the order of their last use are those that have a window. -/
structure Tracked (windows : Dict String (List Time)) (accessOrder : List String) : Prop where
  distinct : accessOrder.Nodup
  listed : ∀ key, key ∈ accessOrder ↔ ∃ timestamps, windows.get? key = some timestamps

structure SlidingWindow where
  config : RateLimitConfig
  windows : Dict String (List Time)
  accessOrder : List String
  tracked : Tracked windows accessOrder

namespace SlidingWindow

def live (config : RateLimitConfig) (now : Time) (timestamps : List Time)
    (fl : Rounding := .exact) : List Time :=
  timestamps.dropWhile fun t => decide (t ≤ fl (now - config.windowSeconds))

/-- Drop the windows of the keys used least recently, while there are too many. -/
def evictOldest (maxKeys : Nat) :
    List String → Dict String (List Time) → Dict String (List Time) × List String
  | [], windows => (windows, [])
  | key :: rest, windows =>
    if maxKeys < windows.size then
      evictOldest maxKeys rest (windows.filterKeys fun k => decide (k ≠ key))
    else (windows, key :: rest)

def pruned (config : RateLimitConfig) (now : Time) (key : String)
    (windows : Dict String (List Time)) (accessOrder : List String) (fl : Rounding := .exact) :
    Dict String (List Time) × List String :=
  match windows.get? key with
  | none => (windows, accessOrder)
  | some timestamps =>
    let others := accessOrder.filter fun k => decide (k ≠ key)
    match live config now timestamps fl with
    | [] => (windows.filterKeys fun k => decide (k ≠ key), others)
    | t :: rest => evictOldest config.maxKeys (others ++ [key]) (windows.set key (t :: rest))

variable {windows : Dict String (List Time)}

theorem evictOldest_tracked (maxKeys : Nat) {order : List String}
    (tracked : Tracked windows order) :
    Tracked (evictOldest maxKeys order windows).1 (evictOldest maxKeys order windows).2 := by
  induction order generalizing windows with
  | nil => exact tracked
  | cons key rest ih =>
    simp only [evictOldest]
    split
    next =>
      obtain ⟨new, others⟩ := List.nodup_cons.mp tracked.distinct
      refine ih ⟨others, ?_⟩
      intro other
      have whole := tracked.listed other
      rw [Dict.get?_filterKeys]
      by_cases same : other = key
      · simp [same, new]
      · simpa [same] using whole
    next => exact tracked

variable {key : String}

theorem evictOldest_last {maxKeys : Nat} (some_ : 1 ≤ maxKeys) {others : List String}
    (tracked : Tracked windows (others ++ [key])) :
    (evictOldest maxKeys (others ++ [key]) windows).1.get? key = windows.get? key := by
  induction others generalizing windows with
  | nil =>
    -- no other key has a window
    have single : windows.size ≤ 1 := by
      have inside : windows.keys ⊆ [key] := by
        intro other member
        exact (tracked.listed other).mpr ((Dict.mem_keys_iff _).mp member)
      simpa [Dict.size, Dict.keys] using (List.subperm_of_subset windows.distinct inside).length_le
    have fits : ¬ maxKeys < windows.size := by omega
    simp [evictOldest, fits]
  | cons other rest ih =>
    simp only [List.cons_append, evictOldest]
    split
    next =>
      have distinct := tracked.distinct
      rw [List.cons_append, List.nodup_cons] at distinct
      have differs : key ≠ other := by
        rintro rfl
        exact distinct.1 (by simp)
      rw [ih]
      · simp [Dict.get?_filterKeys, differs]
      · refine ⟨distinct.2, ?_⟩
        intro last
        have whole := tracked.listed last
        rw [Dict.get?_filterKeys]
        by_cases same : last = other
        · simpa [same] using distinct.1
        · simpa [same] using whole
    next => rfl

/-- The keys of the windows are listed, apart from a key that has just got its window. -/
structure TrackedBut (key : String) (windows : Dict String (List Time))
    (accessOrder : List String) : Prop where
  distinct : accessOrder.Nodup
  listed : ∀ other, other ≠ key →
    (other ∈ accessOrder ↔ ∃ timestamps, windows.get? other = some timestamps)
  absent : windows.get? key = none → key ∉ accessOrder

variable {accessOrder : List String}

theorem Tracked.but (tracked : Tracked windows accessOrder) (key : String) :
    TrackedBut key windows accessOrder := by
  refine ⟨tracked.distinct, fun other _ => tracked.listed other, ?_⟩
  intro none inside
  obtain ⟨timestamps, found⟩ := (tracked.listed key).mp inside
  rw [none] at found
  cases found

theorem TrackedBut.touch (tracked : TrackedBut key windows accessOrder)
    (timestamps : List Time) : Tracked (windows.set key timestamps)
      ((accessOrder.filter fun k => decide (k ≠ key)) ++ [key]) := by
  constructor
  case distinct =>
    refine (tracked.distinct.filter _).append (List.nodup_singleton key) ?_
    intro other inside last
    simp_all
  case listed =>
    intro other
    rw [Dict.get?_set]
    by_cases same : other = key
    · simp [same]
    · simpa [same, Ne.symm same] using tracked.listed other same

theorem pruned_tracked (config : RateLimitConfig) (now : Time)
    (tracked : TrackedBut key windows accessOrder) :
    Tracked (pruned config now key windows accessOrder fl).1
      (pruned config now key windows accessOrder fl).2 := by
  simp only [pruned]
  split
  next none =>
    refine ⟨tracked.distinct, ?_⟩
    intro other
    by_cases same : other = key
    · simp [same, none, tracked.absent none]
    · exact tracked.listed other same
  next =>
    split
    next =>
      refine ⟨tracked.distinct.filter _, ?_⟩
      intro other
      rw [Dict.get?_filterKeys]
      by_cases same : other = key
      · simp [same]
      · simpa [same] using tracked.listed other same
    next t rest _ => exact evictOldest_tracked _ (tracked.touch (t :: rest))

theorem getD_pruned {config : RateLimitConfig} (some_ : 1 ≤ config.maxKeys) (now : Time)
    (tracked : TrackedBut key windows accessOrder) :
    (pruned config now key windows accessOrder fl).1.getD key []
      = live config now (windows.getD key []) fl := by
  simp only [pruned]
  cases found : windows.get? key with
  | none => simp [Dict.getD, found, live]
  | some timestamps =>
    cases alive : live config now timestamps fl with
    | nil => simp [Dict.getD, found, alive, Dict.get?_filterKeys]
    | cons t rest =>
      have kept := evictOldest_last some_ (tracked.touch (t :: rest))
      simp only [Dict.getD, alive, kept, Dict.get?_set_self, Option.getD_some, found]

theorem appended_tracked (key : String) (tracked : Tracked windows accessOrder)
    (timestamps : List Time) :
    TrackedBut key (windows.set key timestamps) accessOrder := by
  refine ⟨tracked.distinct, ?_, by simp⟩
  intro other differs
  rw [Dict.get?_set, if_neg (Ne.symm differs)]
  exact tracked.listed other

/-- Check the limit and record the attempt. -/
def isAllowed (w : SlidingWindow) (fl : Rounding) (now : Time) (key : String) :
    Bool × SlidingWindow :=
  let before := pruned w.config now key w.windows w.accessOrder fl
  let tracked := pruned_tracked w.config now (Tracked.but w.tracked key)
  let window := before.1.getD key []
  if w.config.maxRequests ≤ window.length then (false, ⟨w.config, before.1, before.2, tracked⟩)
  else
    let windows := before.1.set key (window ++ [now])
    let after := pruned w.config now key windows before.2 fl
    (true, ⟨w.config, after.1, after.2, pruned_tracked w.config now (appended_tracked key tracked _)⟩)

def used (w : SlidingWindow) (fl : Rounding) (now : Time) (key : String) : ℚ :=
  (live w.config now (w.windows.getD key []) fl).length

/-- What is recorded now has not expired now, and its window is not evicted at once. -/
def records (w : SlidingWindow) (fl : Rounding) (now : Time) : Bool :=
  decide (1 ≤ w.config.maxKeys) && decide (fl (now - w.config.windowSeconds) < now)

theorem live_live (config : RateLimitConfig) (ordered : now ≤ later)
    (timestamps : List Time) : live config later (live config now timestamps fl) fl
      = live config later timestamps fl := by
  induction timestamps with
  | nil => rfl
  | cons t rest ih =>
    simp only [live] at ih ⊢
    by_cases gone : t ≤ fl (now - config.windowSeconds)
    · have goneLater : t ≤ fl (later - config.windowSeconds) :=
        gone.trans (fl.mono (by linarith))
      simp [gone, goneLater, ih]
    · simp [gone]

theorem live_append {config : RateLimitConfig} (fresh : fl (now - config.windowSeconds) < now)
    (timestamps : List Time) : live config now (live config now timestamps fl ++ [now]) fl
      = live config now timestamps fl ++ [now] := by
  cases alive : live config now timestamps fl with
  | nil => simp [live, fresh]
  | cons t rest =>
    have still : ¬ t ≤ fl (now - config.windowSeconds) := by
      have head := List.head?_dropWhile_not
        (fun t => decide (t ≤ fl (now - config.windowSeconds))) timestamps
      rw [← live, alive] at head
      simpa using head
    simp [live, still]

theorem isAllowed_charges (w : SlidingWindow) (now : Surroundings) (key : String)
    (records : w.records now.floats now.wall = true) (unrounded : Time → Prop) :
    Charges now (w.isAllowed now.floats now.wall key).1 w.config.maxRequests unrounded
      (fun t => w.used t.floats t.wall key)
      fun t => (w.isAllowed now.floats now.wall key).2.used t.floats t.wall key := by
  simp only [SlidingWindow.records, Bool.and_eq_true, decide_eq_true_eq] at records
  obtain ⟨some_, fresh⟩ := records
  set fl := now.floats with rounding
  have window := @getD_pruned fl _ key _ _ some_ now.wall (Tracked.but w.tracked key)
  have first : (w.isAllowed fl now.wall key).1
      = decide (w.used fl now.wall key + 1 ≤ w.config.maxRequests) := by
    simp only [isAllowed, window, used]
    split
    next full =>
      have full : (w.config.maxRequests : ℚ)
          ≤ (live w.config now.wall (w.windows.getD key []) fl).length := by exact_mod_cast full
      exact (decide_eq_false (by linarith)).symm
    next room =>
      have room : ((live w.config now.wall (w.windows.getD key []) fl).length : ℚ) + 1
          ≤ w.config.maxRequests := by exact_mod_cast by omega
      exact (decide_eq_true room).symm
  have refused (denied : (w.isAllowed fl now.wall key).1 = false) (later : Surroundings)
      (ordered : now.Later later) : (w.isAllowed fl now.wall key).2.used later.floats later.wall key
        = w.used later.floats later.wall key := by
    simp only [isAllowed, window] at denied ⊢
    split at denied
    next full =>
      simp only [full, if_true, used, window, ordered.floats, ← rounding,
        live_live w.config ordered.wall]
    next => cases denied
  refine ⟨first, ?charged, fun denied => refused denied now ⟨le_rfl, le_rfl, rfl⟩,
    fun denied later ordered _ => refused denied later ordered⟩
  case charged =>
    intro allowed
    simp only [isAllowed, window] at allowed ⊢
    split at allowed
    next => cases allowed
    next room =>
      have kept := @getD_pruned fl _ key _ _ some_ now.wall (appended_tracked key
        (@pruned_tracked fl _ _ _ w.config now.wall (Tracked.but w.tracked key))
        (live w.config now.wall (w.windows.getD key []) fl ++ [now.wall]))
      simp only [← rounding, room, if_false, used, kept]
      simp [Dict.getD_set, live_append fresh]

end SlidingWindow

/-! ### Redis -/

/-- A sorted set whose members are their scores, and when it goes. -/
structure ZSet where
  scores : List ℚ
  deadline : Option Time
deriving DecidableEq

namespace ZSet

def missing : ZSet := ⟨[], none⟩

/-- Whether the key has reached its time to live. -/
def gone (z : ZSet) (now : Time) : Bool := z.deadline.any fun d => decide (d ≤ now)

/-- The scores that `zremrangebyscore(key, 0, cutoff)` removes. -/
def inRange (cutoff s : Time) : Bool := decide (0 ≤ s) && decide (s ≤ cutoff)

/-- `zremrangebyscore(key, 0, cutoff)`; a set without members does not exist. -/
def purged (z : ZSet) (now cutoff : Time) : ZSet :=
  if z.gone now then missing
  else
    let kept := z.scores.filter fun s => !inRange cutoff s
    if kept = [] then missing else ⟨kept, z.deadline⟩

/-- `zadd` of a member that is its score. -/
def zadd (z : ZSet) (now : Time) : ZSet :=
  if now ∈ z.scores then z else { z with scores := z.scores ++ [now] }

def expire (z : ZSet) (deadline : Time) : ZSet := { z with deadline := some deadline }

end ZSet

/-- Without a client the limiter falls back to a local bucket. -/
structure RedisRateLimiter where
  config : RateLimitConfig
  fallback : Option TokenBucket

namespace RedisRateLimiter

def create (config : RateLimitConfig) (hasClient : Bool) : RedisRateLimiter :=
  ⟨config, if hasClient then none else some ⟨config, ∅⟩⟩

/-- The number of members that a check of the limit counts. -/
def purge (r : RedisRateLimiter) (fl : Rounding) (now : Time) (z : ZSet) : ZSet :=
  z.purged now (fl (now - r.config.windowSeconds))

/-- `_check_and_record_redis`, on the sorted set of the key: errors let the request through. -/
def checkAndRecordRedis (r : RedisRateLimiter) (fl : Rounding) (fate : RedisFate) (now : Time)
    (z : ZSet) : Bool × ZSet :=
  match fate with
  | .notInstalled | .pipelineFails => (true, z)
  | fate =>
    let z := r.purge fl now z
    if r.config.maxRequests ≤ z.scores.length then (false, z)
    else
      match fate with
      | .zaddFails => (true, z)
      | .expireFails => (true, z.zadd now)
      | _ => (true, (z.zadd now).expire (now + r.config.redisTtl))

def used (r : RedisRateLimiter) (fl : Rounding) (now : Time) (z : ZSet) : ℚ :=
  (r.purge fl now z).scores.length

theorem scores_purge (r : RedisRateLimiter) (now : Time) (z : ZSet) :
    (r.purge fl now z).scores = if z.gone now then []
      else z.scores.filter fun s => !ZSet.inRange (fl (now - r.config.windowSeconds)) s := by
  simp only [purge, ZSet.purged]
  split
  next => rfl
  next =>
    split
    next none => rw [none, ZSet.missing]
    next => rfl

theorem scores_purge_purge (r : RedisRateLimiter) (ordered : now ≤ later)
    (z : ZSet) : (r.purge fl later (r.purge fl now z)).scores = (r.purge fl later z).scores := by
  have empty : (r.purge fl later ZSet.missing).scores = [] := by
    simp [scores_purge, ZSet.missing]
  by_cases here : z.gone now = true
  · have later' : z.gone later = true := by
      simp only [ZSet.gone, Option.any_eq_true, decide_eq_true_eq] at here ⊢
      obtain ⟨d, same, past⟩ := here
      exact ⟨d, same, past.trans ordered⟩
    have nothing : r.purge fl now z = ZSet.missing := by simp only [purge, ZSet.purged, here, if_true]
    rw [nothing, empty, scores_purge, if_pos later']
  · -- what stays at the later time stays now
    have both : (z.scores.filter fun s => !ZSet.inRange (fl (now - r.config.windowSeconds)) s).filter
          (fun s => !ZSet.inRange (fl (later - r.config.windowSeconds)) s)
        = z.scores.filter fun s => !ZSet.inRange (fl (later - r.config.windowSeconds)) s := by
      rw [List.filter_filter]
      apply List.filter_congr
      intro s _
      have within : s ≤ fl (now - r.config.windowSeconds) →
          s ≤ fl (later - r.config.windowSeconds) := fun old =>
        old.trans (fl.mono (by linarith))
      rw [Bool.and_eq_left_iff_imp]
      simp only [ZSet.inRange, Bool.not_eq_true', Bool.and_eq_false_iff, decide_eq_false_iff_not]
      tauto
    rw [scores_purge r later z]
    by_cases none : (z.scores.filter fun s =>
        !ZSet.inRange (fl (now - r.config.windowSeconds)) s) = []
    · have nothing : r.purge fl now z = ZSet.missing := by
        simp only [purge, ZSet.purged, here, Bool.false_eq_true, if_false, none, if_true]
      rw [none, List.filter_nil] at both
      rw [nothing, empty, ← both, ite_self]
    · have kept : r.purge fl now z
          = ⟨z.scores.filter fun s => !ZSet.inRange (fl (now - r.config.windowSeconds)) s,
            z.deadline⟩ := by
        simp only [purge, ZSet.purged, here, Bool.false_eq_true, if_false, none]
      rw [scores_purge, kept, both]
      rfl

/-- A call on a working server that is not the second at its time, and whose record has not expired
at once. -/
def sound (r : RedisRateLimiter) (fl : Rounding) (fate : RedisFate) (now : Time) (z : ZSet) :
    Bool :=
  decide (fate = .works) && decide (now ∉ (r.purge fl now z).scores) &&
    decide (0 < r.config.redisTtl) && decide (fl (now - r.config.windowSeconds) < now)

theorem checkAndRecord_charges (r : RedisRateLimiter) (now : Surroundings) (redisKey : String)
    {z : ZSet} (sound : r.sound now.floats (now.redis redisKey) now.wall z = true)
    (unrounded : Time → Prop) :
    Charges now (r.checkAndRecordRedis now.floats (now.redis redisKey) now.wall z).1
      r.config.maxRequests unrounded (fun t => r.used t.floats t.wall z) fun t =>
        r.used t.floats t.wall
          (r.checkAndRecordRedis now.floats (now.redis redisKey) now.wall z).2 := by
  simp only [RedisRateLimiter.sound, Bool.and_eq_true, decide_eq_true_eq] at sound
  obtain ⟨⟨⟨works, new⟩, lasts⟩, recent⟩ := sound
  simp only [checkAndRecordRedis, works, used]
  by_cases full : r.config.maxRequests ≤ (r.purge now.floats now.wall z).scores.length
  · have full' : (r.config.maxRequests : ℚ) ≤ (r.purge now.floats now.wall z).scores.length := by
      exact_mod_cast full
    have kept (later : Surroundings) (ordered : now.Later later) :
        (r.purge later.floats later.wall (r.purge now.floats now.wall z)).scores
          = (r.purge later.floats later.wall z).scores := by
      rw [ordered.floats, r.scores_purge_purge ordered.wall]
    refine ⟨?verdict, by simp [full], ?refused, ?later⟩
    case verdict =>
      simp only [full, if_true]
      exact (decide_eq_false (by linarith)).symm
    case refused =>
      intro _
      simp only [full, if_true, kept now ⟨le_rfl, le_rfl, rfl⟩]
    case later =>
      intro _ later ordered _
      simp only [full, if_true, kept later ordered]
  · have room : ((r.purge now.floats now.wall z).scores.length : ℚ) + 1 ≤ r.config.maxRequests := by
      exact_mod_cast by omega
    refine ⟨?verdict, ?charged, by simp [full], by simp [full]⟩
    case verdict =>
      simp only [full, if_false]
      exact (decide_eq_true room).symm
    case charged =>
      intro _
      -- neither the old members nor the new one expire now
      have alive : ∀ s ∈ (r.purge now.floats now.wall z).scores,
          ZSet.inRange (now.floats (now.wall - r.config.windowSeconds)) s = false := by
        intro s member
        rw [scores_purge] at member
        split at member
        next => simp at member
        next => simpa using (List.mem_filter.mp member).2
      have fresh : ZSet.inRange (now.floats (now.wall - r.config.windowSeconds)) now.wall = false := by
        simp only [ZSet.inRange, Bool.and_eq_false_iff, decide_eq_false_iff_not]
        exact Or.inr (by linarith [recent])
      have stays : (((r.purge now.floats now.wall z).zadd now.wall).expire
          (now.wall + r.config.redisTtl)).gone now.wall = false := by
        simpa [ZSet.gone, ZSet.expire] using lasts
      have all : ((r.purge now.floats now.wall z).scores ++ [now.wall]).filter (fun s =>
          !ZSet.inRange (now.floats (now.wall - r.config.windowSeconds)) s)
          = (r.purge now.floats now.wall z).scores ++ [now.wall] := by
        rw [List.filter_eq_self]
        intro s member
        rcases List.mem_append.mp member with old | last
        · simp [alive s old]
        · obtain rfl := List.mem_singleton.mp last
          simp [fresh]
      have scores : (((r.purge now.floats now.wall z).zadd now.wall).expire
          (now.wall + r.config.redisTtl)).scores =
        (r.purge now.floats now.wall z).scores ++ [now.wall] := by
        simp only [ZSet.expire, ZSet.zadd, new, if_false]
      simp only [full, if_false]
      rw [scores_purge, stays, scores]
      simp only [Bool.false_eq_true, if_false, all, List.length_append, List.length_singleton]
      push_cast
      rfl

end RedisRateLimiter

end DistLLM.RateLimit
