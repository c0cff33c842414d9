import DistLLM.RateLimit.Strategies
import Mathlib.Algebra.BigOperators.Group.List.Basic

/-!
# The hierarchical rate limiter

`RateLimiter.is_allowed` charges its tiers one after the other and stops at the first that refuses.
So a request is charged to all its tiers or to none only if the first tier is the one that refuses
whenever any does.
-/
namespace DistLLM.RateLimit

open Library

inductive Strategy where
  | tokenBucket (b : TokenBucket)
  | slidingWindow (w : SlidingWindow)
  | redis (r : RedisRateLimiter)

def buildStrategy (config : RateLimitConfig) (hasClient : Bool) : Strategy :=
  match config.strategy with
  | .tokenBucket => .tokenBucket ⟨config, ∅⟩
  | .slidingWindow => .slidingWindow ⟨config, ∅, [], ⟨List.nodup_nil, by simp⟩⟩
  | .redis => .redis (.create config hasClient)

namespace Strategy

/-- The key on the Redis server, for a strategy that asks it. -/
def redisKey (s : Strategy) (key : String) : Option String :=
  match s with
  | .redis r => if r.fallback.isSome then none else some (r.config.redisPrefix ++ key)
  | _ => none

/-- `is_allowed`, on the sorted set of the key. -/
def isAllowed (s : Strategy) (now : Surroundings) (key : String) (z : ZSet) :
    Bool × Strategy × ZSet :=
  match s with
  | .tokenBucket b =>
    let (allowed, b) := b.isAllowed now.floats now.monotonic key
    (allowed, .tokenBucket b, z)
  | .slidingWindow w =>
    let (allowed, w) := w.isAllowed now.floats now.wall key
    (allowed, .slidingWindow w, z)
  | .redis r =>
    match r.fallback with
    | some b =>
      let (allowed, b) := b.isAllowed now.floats now.monotonic key
      (allowed, .redis { r with fallback := some b }, z)
    | none =>
      let (allowed, z) := r.checkAndRecordRedis now.floats
        (now.redis (r.config.redisPrefix ++ key)) now.wall z
      (allowed, .redis r, z)

def used (s : Strategy) (now : Surroundings) (key : String) (z : ZSet) : ℚ :=
  match s with
  | .tokenBucket b => b.used now.floats now.monotonic key
  | .slidingWindow w => w.used now.floats now.wall key
  | .redis r =>
    match r.fallback with
    | some b => b.used now.floats now.monotonic key
    | none => r.used now.floats now.wall z

def capacity (s : Strategy) : ℚ :=
  match s with
  | .tokenBucket b => b.config.burstSize
  | .slidingWindow w => w.config.maxRequests
  | .redis r =>
    match r.fallback with
    | some b => b.config.burstSize
    | none => r.config.maxRequests

/-- A call that records what it allows: a bucket counts the token, a window is not evicted at once,
and Redis works, has not recorded a call at this very time and keeps what it records. -/
def records (s : Strategy) (now : Surroundings) (key : String) (z : ZSet) : Bool :=
  match s with
  | .tokenBucket b => b.counts now.floats now.monotonic key
  | .slidingWindow w => w.records now.floats now.wall
  | .redis r =>
    match r.fallback with
    | some b => b.counts now.floats now.monotonic key
    | none => r.sound now.floats (now.redis (r.config.redisPrefix ++ key)) now.wall z

/-- Whether a call now is out of sight at a later time, as nothing is rounded. -/
def Unrounded (s : Strategy) (now : Surroundings) (key : String) (later : Time) : Prop :=
  match s with
  | .tokenBucket b => b.Unrounded now.floats now.monotonic later key
  | .slidingWindow _ => True
  | .redis r => ∀ b ∈ r.fallback, b.Unrounded now.floats now.monotonic later key

theorem isAllowed_charges (s : Strategy) (now : Surroundings) (key : String) (z : ZSet)
    (records : s.records now key z = true) :
    Charges now (s.isAllowed now key z).1 s.capacity (s.Unrounded now key)
      (fun t => s.used t key z)
      fun t => (s.isAllowed now key z).2.1.used t key (s.isAllowed now key z).2.2 := by
  cases s with
  | tokenBucket b => exact b.isAllowed_charges now key records
  | slidingWindow w => exact w.isAllowed_charges now key records _
  | redis r =>
    obtain ⟨config, fallback⟩ := r
    cases fallback with
    | some b =>
      have charges := b.isAllowed_charges now key records
      exact { charges with
        later := fun denied t ordered unrounded =>
          charges.later denied t ordered (unrounded b rfl) }
    | none => exact RedisRateLimiter.checkAndRecord_charges _ now _ records _

end Strategy

inductive Slot where
  | global
  | tenant (name : String)
  | tenantDefault
  | model (name : String)
  | modelDefault
  | endpoint (path : String)
  | endpointDefault
deriving DecidableEq

/-- The strategies in their slots, and the sorted sets on the Redis server. -/
structure RateLimiter where
  strategies : Slot → Option Strategy
  redis : Dict String ZSet

structure Request where
  clientId : String
  endpoint : String
  tenant : Option String
  model : Option String

/-- A tier that applies to a request: its slot, and the key it is charged under. -/
abbrev Tier := Slot × String

namespace RateLimiter

def create (defaultConfig : RateLimitConfig) (endpointConfigs : Dict String RateLimitConfig)
    (globalConfig : Option RateLimitConfig)
    (tenantConfigs modelConfigs : Dict String RateLimitConfig)
    (tenantDefaultConfig modelDefaultConfig : Option RateLimitConfig) (hasClient : Bool) :
    RateLimiter where
  strategies slot :=
    let config := match slot with
      | .global => globalConfig
      | .tenant name => tenantConfigs.get? name
      | .tenantDefault => tenantDefaultConfig
      | .model name => modelConfigs.get? name
      | .modelDefault => modelDefaultConfig
      | .endpoint path => endpointConfigs.get? path
      | .endpointDefault => some defaultConfig
    config.map (buildStrategy · hasClient)
  redis := ∅

variable (lim : RateLimiter)

/-- A slot of its own or, without a strategy there, the one of the default. -/
def resolve (own default : Slot) : Slot := if (lim.strategies own).isSome then own else default

/-- The tiers of a request, in the order in which they are charged: those of its slots that have a
strategy. -/
def tiers (req : Request) : List Tier :=
  ([(Slot.global, "__global__")]
    ++ (req.tenant.map fun t => (lim.resolve (.tenant t) .tenantDefault, "tenant:" ++ t)).toList
    ++ (req.model.map fun m => (lim.resolve (.model m) .modelDefault, "model:" ++ m)).toList
    ++ [(lim.resolve (.endpoint req.endpoint) .endpointDefault,
      req.clientId ++ ":" ++ req.endpoint)]).filter fun tier => (lim.strategies tier.1).isSome

/-- The sorted set that a tier's strategy sees. -/
def zset (redisKey : Option String) : ZSet :=
  match redisKey with
  | none => .missing
  | some k => lim.redis.getD k .missing

def charge (now : Surroundings) (tier : Tier) : Bool × RateLimiter :=
  match lim.strategies tier.1 with
  | none => (true, lim)
  | some s =>
    let redisKey := s.redisKey tier.2
    let (allowed, s, z) := s.isAllowed now tier.2 (lim.zset redisKey)
    (allowed, {
      strategies := Function.update lim.strategies tier.1 (some s)
      redis := match redisKey with
        | none => lim.redis
        | some k => lim.redis.set k z })

/-- Charge one tier after the other, up to the first that refuses. -/
def chargeAll (now : Surroundings) : List Tier → RateLimiter → Bool × RateLimiter
  | [], lim => (true, lim)
  | tier :: rest, lim =>
    match lim.charge now tier with
    | (false, lim) => (false, lim)
    | (true, lim) => chargeAll now rest lim

def isAllowed (now : Surroundings) (req : Request) : Bool × RateLimiter :=
  chargeAll now (lim.tiers req) lim

/-- What a call on a tier depends on: its strategy, and the sorted set that this sees. -/
def view (tier : Tier) : Option (Strategy × ZSet) :=
  (lim.strategies tier.1).map fun s => (s, lim.zset (s.redisKey tier.2))

def used (now : Surroundings) (tier : Tier) : ℚ :=
  (lim.view tier).elim 0 fun v => v.1.used now tier.2 v.2

def hasRoom (now : Surroundings) (tier : Tier) : Bool :=
  (lim.view tier).elim true fun v => decide (v.1.used now tier.2 v.2 + 1 ≤ v.1.capacity)

def records (now : Surroundings) (tier : Tier) : Bool :=
  (lim.view tier).elim true fun v => v.1.records now tier.2 v.2

def Unrounded (now : Surroundings) (tier : Tier) (later : Time) : Prop :=
  ∀ v ∈ lim.view tier, v.1.Unrounded now tier.2 later

/-- The key of a tier on the Redis server. -/
def redisName (tier : Tier) : Option String := (lim.strategies tier.1).bind (·.redisKey tier.2)

/-- Tiers that share neither a strategy nor a sorted set. -/
def Apart (a b : Tier) : Prop :=
  a.1 ≠ b.1 ∧ (lim.redisName a = none ∨ lim.redisName a ≠ lim.redisName b)

end RateLimiter

theorem Strategy.redisKey_isAllowed (s : Strategy) (now : Surroundings) (key other : String)
    (z : ZSet) : (s.isAllowed now key z).2.1.redisKey other = s.redisKey other := by
  cases s with
  | tokenBucket b => rfl
  | slidingWindow w => rfl
  | redis r =>
    obtain ⟨config, fallback⟩ := r
    cases fallback <;> rfl

namespace RateLimiter

variable {lim : RateLimiter} {now : Surroundings} {tier : Tier}

theorem charge_verdict : (lim.charge now tier).1
    = (lim.view tier).elim true fun v => (v.1.isAllowed now tier.2 v.2).1 := by
  cases found : lim.strategies tier.1 <;> simp [charge, view, found]

theorem redisName_charge (other : Tier) :
    (lim.charge now tier).2.redisName other = lim.redisName other := by
  cases found : lim.strategies tier.1 with
  | none => simp [charge, found]
  | some s =>
    simp only [charge, found, redisName, Function.update_apply]
    split
    next same => simp [same, found, Strategy.redisKey_isAllowed]
    next => rfl

theorem view_charge_self : (lim.charge now tier).2.view tier
    = (lim.view tier).map fun v => (v.1.isAllowed now tier.2 v.2).2 := by
  cases found : lim.strategies tier.1 with
  | none => simp [charge, view, found]
  | some s =>
    have sameKey := s.redisKey_isAllowed now tier.2 tier.2 (lim.zset (s.redisKey tier.2))
    simp only [charge, view, found, Function.update_self, Option.map_some, sameKey]
    cases key : s.redisKey tier.2 with
    | none =>
      -- without a server, the sorted set is passed through
      have through : (s.isAllowed now tier.2 (lim.zset none)).2.2 = ZSet.missing := by
        cases s with
        | tokenBucket b => rfl
        | slidingWindow w => rfl
        | redis r =>
          obtain ⟨config, fallback⟩ := r
          cases fallback with
          | some b => rfl
          | none => simp [Strategy.redisKey] at key
      exact congrArg some (Prod.ext rfl through.symm)
    | some k => simp [zset, Dict.getD]

theorem view_charge_of_apart (now : Surroundings) {other : Tier} (apart : lim.Apart tier other) :
    (lim.charge now tier).2.view other = lim.view other := by
  obtain ⟨slots, names⟩ := apart
  cases found : lim.strategies tier.1 with
  | none => simp [charge, found]
  | some s =>
    simp only [charge, found, view, Function.update_of_ne (Ne.symm slots)]
    cases there : lim.strategies other.1 with
    | none => rfl
    | some s' =>
      simp only [redisName, found, there, Option.bind_some] at names
      simp only [Option.map_some, Option.some.injEq, Prod.mk.injEq, true_and]
      cases key : s.redisKey tier.2 with
      | none => rfl
      | some k =>
        cases key' : s'.redisKey other.2 with
        | none => rfl
        | some k' =>
          have differs : k ≠ k' := by simpa [key, key'] using names
          simp [zset, Dict.getD, Dict.get?_set, differs]

theorem charge_charges (records : lim.records now tier = true) {v : Strategy × ZSet}
    (here : lim.view tier = some v) :
    Charges now (lim.charge now tier).1 v.1.capacity (v.1.Unrounded now tier.2)
      (fun t => lim.used t tier) fun t => (lim.charge now tier).2.used t tier := by
  have recorded : v.1.records now tier.2 v.2 = true := by
    simpa [RateLimiter.records, here] using records
  have charges := v.1.isAllowed_charges now tier.2 v.2 recorded
  simpa [used, charge_verdict, view_charge_self, here] using charges

theorem apart_charge (now : Surroundings) (tier : Tier) {a b : Tier} :
    (lim.charge now tier).2.Apart a b ↔ lim.Apart a b := by
  simp only [Apart, redisName_charge]

theorem Apart.symm {a b : Tier} (apart : lim.Apart a b) : lim.Apart b a := by
  obtain ⟨slots, names⟩ := apart
  refine ⟨Ne.symm slots, ?_⟩
  by_cases bare : lim.redisName b = none
  · exact Or.inl bare
  · right
    rcases names with local_ | differs
    · rwa [local_]
    · exact Ne.symm differs

theorem view_chargeAll_of_apart (now : Surroundings) {tiers : List Tier} {other : Tier}
    (apart : ∀ t ∈ tiers, lim.Apart t other) :
    (chargeAll now tiers lim).2.view other = lim.view other := by
  induction tiers generalizing lim with
  | nil => rfl
  | cons first rest ih =>
    have one := view_charge_of_apart now (apart first (by simp))
    simp only [chargeAll]
    split
    next lim' charged =>
      rw [charged] at one
      exact one
    next lim' charged =>
      have later : ∀ t ∈ rest, lim'.Apart t other := by
        intro t member
        have same := apart t (by simp [member])
        rwa [← apart_charge now first, charged] at same
      rw [charged] at one
      rw [ih later, one]

theorem chargeAll_granted {tiers : List Tier} (apart : tiers.Pairwise lim.Apart)
    (configured : ∀ t ∈ tiers, ∃ v, lim.view t = some v)
    (records : ∀ t ∈ tiers, lim.records now t = true)
    (room : ∀ t ∈ tiers, lim.hasRoom now t = true) : (chargeAll now tiers lim).1 = true ∧
      ∀ t ∈ tiers, (chargeAll now tiers lim).2.used now t = lim.used now t + 1 := by
  induction tiers generalizing lim with
  | nil => simp [chargeAll]
  | cons first rest ih =>
    obtain ⟨v, here⟩ := configured first (by simp)
    have charges := charge_charges (records first (by simp)) here
    have enough : lim.used now first + 1 ≤ v.1.capacity := by
      simpa [hasRoom, used, here] using room first (by simp)
    have allowed : (lim.charge now first).1 = true := by
      rw [charges.verdict, decide_eq_true_eq]
      exact enough
    obtain ⟨others, apart⟩ := List.pairwise_cons.mp apart
    -- the other tiers look as before
    have same : ∀ t ∈ rest, (lim.charge now first).2.view t = lim.view t := fun t member =>
      view_charge_of_apart now (others t member)
    obtain ⟨granted, charged⟩ := @ih (lim.charge now first).2
      (apart.imp fun related => (apart_charge now first).mpr related)
      (fun t member => by rw [same t member]; exact configured t (by simp [member]))
      (fun t member => by
        have kept := records t (by simp [member])
        rwa [RateLimiter.records, ← same t member] at kept)
      (fun t member => by
        have kept := room t (by simp [member])
        rwa [hasRoom, ← same t member] at kept)
    have unfolded : chargeAll now (first :: rest) lim
        = chargeAll now rest (lim.charge now first).2 := by
      simp only [chargeAll]
      split
      next lim' result => simp [result] at allowed
      next lim' result => rw [result]
    rw [unfolded]
    refine ⟨granted, ?_⟩
    intro t member
    rcases List.mem_cons.mp member with rfl | later
    · rw [← charges.charged allowed]
      have apart' : ∀ a ∈ rest, (lim.charge now t).2.Apart a t := fun a inside =>
        (apart_charge now t).mpr (others a inside).symm
      have untouched := view_chargeAll_of_apart now apart'
      simp only [used, untouched]
    · have before : (lim.charge now first).2.used now t = lim.used now t := by
        simp only [used, same t later]
      rw [charged t later, before]

theorem chargeAll_refused {first : Tier} {rest : List Tier}
    (apart : (first :: rest).Pairwise lim.Apart) {v : Strategy × ZSet}
    (here : lim.view first = some v) (records : lim.records now first = true)
    (full : lim.hasRoom now first = false) :
    (chargeAll now (first :: rest) lim).1 = false ∧ ∀ t ∈ first :: rest, ∀ later,
      (t = first → later = now ∨
        now.Later later ∧ lim.Unrounded now first later.monotonic) →
      (chargeAll now (first :: rest) lim).2.used later t = lim.used later t := by
  have charges := charge_charges records here
  have refused : (lim.charge now first).1 = false := by
    rw [charges.verdict, decide_eq_false_iff_not]
    simpa [hasRoom, used, here] using full
  have unfolded : chargeAll now (first :: rest) lim = (false, (lim.charge now first).2) := by
    simp only [chargeAll]
    split
    next lim' result => rw [result]
    next lim' result => simp [result] at refused
  rw [unfolded]
  refine ⟨rfl, ?_⟩
  intro t member later seen
  rcases List.mem_cons.mp member with rfl | other
  · rcases seen rfl with rfl | ⟨ordered, unrounded⟩
    · exact charges.refused refused
    · exact charges.later refused later ordered (unrounded v here)
  · have same := view_charge_of_apart now ((List.pairwise_cons.mp apart).1 t other)
    simp only [used, same]

theorem pairwise_tiers (lim : RateLimiter) (req : Request) :
    (lim.tiers req).Pairwise fun a b => a.1 ≠ b.1 := by
  apply List.Pairwise.filter
  obtain ⟨clientId, endpoint, tenant, model⟩ := req
  have ends (own default : Slot) : lim.resolve own default = own ∨
      lim.resolve own default = default := by
    simp only [resolve]
    split <;> simp
  cases tenant with
  | none =>
    cases model with
    | none =>
      rcases ends (.endpoint endpoint) .endpointDefault with e | e <;> simp [e]
    | some m =>
      rcases ends (.endpoint endpoint) .endpointDefault with e | e <;>
        rcases ends (.model m) .modelDefault with f | f <;> simp [e, f]
  | some t =>
    cases model with
    | none =>
      rcases ends (.endpoint endpoint) .endpointDefault with e | e <;>
        rcases ends (.tenant t) .tenantDefault with g | g <;> simp [e, g]
    | some m =>
      rcases ends (.endpoint endpoint) .endpointDefault with e | e <;>
        rcases ends (.model m) .modelDefault with f | f <;>
        rcases ends (.tenant t) .tenantDefault with g | g <;> simp [e, f, g]

/-- A request that the limiter charges to all of its tiers or to none: every tier records what it
allows, no two use one sorted set, and either all tiers have room or the first one has none. -/
structure Settles (lim : RateLimiter) (now : Surroundings) (req : Request) : Prop where
  records : ∀ tier ∈ lim.tiers req, lim.records now tier = true
  sets : (lim.tiers req).Pairwise fun a b =>
    lim.redisName a = none ∨ lim.redisName a ≠ lim.redisName b
  verdict : (∀ tier ∈ lim.tiers req, lim.hasRoom now tier = true) ∨
    ∃ tier ∈ (lim.tiers req).head?, lim.hasRoom now tier = false

/-- An allowed request uses one unit of each of its tiers, a denied one nothing of any, now and
later. The tier that refused has refilled its bucket, so that it is the same later on only where the
refills are not rounded; the other tiers are the same at every time. -/
structure AllOrNothing (lim : RateLimiter) (now : Surroundings) (req : Request) : Prop where
  allowed : (lim.isAllowed now req).1 = true →
    ∀ tier ∈ lim.tiers req, (lim.isAllowed now req).2.used now tier = lim.used now tier + 1
  denied : (lim.isAllowed now req).1 = false → ∀ tier ∈ lim.tiers req,
    (lim.isAllowed now req).2.used now tier = lim.used now tier
  later : (lim.isAllowed now req).1 = false → ∀ tier ∈ lim.tiers req, ∀ later,
    (tier ∈ (lim.tiers req).head? →
      now.Later later ∧ lim.Unrounded now tier later.monotonic) →
    (lim.isAllowed now req).2.used later tier = lim.used later tier

theorem Settles.allOrNothing {req : Request} (settles : lim.Settles now req) :
    lim.AllOrNothing now req := by
  obtain ⟨records, sets, verdict⟩ := settles
  have apart : (lim.tiers req).Pairwise lim.Apart :=
    (lim.pairwise_tiers req).and sets
  have configured : ∀ tier ∈ lim.tiers req, ∃ v, lim.view tier = some v := by
    intro tier member
    obtain ⟨s, found⟩ := Option.isSome_iff_exists.mp (List.mem_filter.mp member).2
    exact ⟨_, by rw [view, found, Option.map_some]⟩
  rcases verdict with room | ⟨first, head, full⟩
  · obtain ⟨granted, charged⟩ := chargeAll_granted apart configured records room
    refine ⟨fun _ => charged, fun refused => ?_, fun refused => ?_⟩ <;>
    · rw [isAllowed, granted] at refused
      cases refused
  · obtain ⟨rest, same⟩ : ∃ rest, lim.tiers req = first :: rest := by
      cases parts : lim.tiers req with
      | nil => simp [parts] at head
      | cons a rest => exact ⟨rest, by simpa [parts] using head⟩
    rw [same] at apart
    obtain ⟨v, here⟩ := configured first (by simp [same])
    obtain ⟨refused, kept⟩ := chargeAll_refused apart here (records first (by simp [same])) full
    refine ⟨?allowed, ?denied, ?later⟩
    case allowed =>
      intro granted
      rw [isAllowed, same, refused] at granted
      cases granted
    case denied =>
      intro _ tier member
      rw [same] at member
      simp only [isAllowed, same]
      exact kept tier member now fun _ => Or.inl rfl
    case later =>
      intro _ tier member later seen
      rw [same] at member seen
      simp only [isAllowed, same]
      refine kept tier member later ?_
      rintro rfl
      exact Or.inr (seen rfl)

/-! ### Runs -/

abbrev Step := Surroundings × Request

def run (lim : RateLimiter) (steps : List Step) : RateLimiter :=
  steps.foldl (fun lim step => (lim.isAllowed step.1 step.2).2) lim

def AllSettle : RateLimiter → List Step → Prop
  | _, [] => True
  | lim, (now, req) :: rest => lim.Settles now req ∧ AllSettle (lim.isAllowed now req).2 rest

/-- The units of a slot that the requests of a run use, each measured when it is made. -/
def consumed (slot : Slot) : RateLimiter → List Step → ℚ
  | _, [] => 0
  | lim, (now, req) :: rest =>
    (((lim.tiers req).filter fun tier => decide (tier.1 = slot)).map fun tier =>
      (lim.isAllowed now req).2.used now tier - lim.used now tier).sum
      + consumed slot (lim.isAllowed now req).2 rest

/-- The allowed requests of a run that a slot applies to. -/
def granted (slot : Slot) : RateLimiter → List Step → Nat
  | _, [] => 0
  | lim, (now, req) :: rest =>
    (if (lim.isAllowed now req).1 then
      ((lim.tiers req).filter fun tier => decide (tier.1 = slot)).length else 0)
      + granted slot (lim.isAllowed now req).2 rest

theorem AllSettle.split {before : List Step} {after : List Step}
    (settled : lim.AllSettle (before ++ after)) : (lim.run before).AllSettle after := by
  induction before generalizing lim with
  | nil => exact settled
  | cons step rest ih => exact ih settled.2

theorem AllSettle.front {period : List Step} {after : List Step}
    (settled : lim.AllSettle (period ++ after)) : lim.AllSettle period := by
  induction period generalizing lim with
  | nil => trivial
  | cons step rest ih => exact ⟨settled.1, ih settled.2⟩

theorem consumed_eq_granted (slot : Slot) {steps : List Step} (settled : lim.AllSettle steps) :
    consumed slot lim steps = granted slot lim steps := by
  induction steps generalizing lim with
  | nil => simp [consumed, granted]
  | cons step rest ih =>
    obtain ⟨now, req⟩ := step
    obtain ⟨allowed, denied, -⟩ := settled.1.allOrNothing
    have later := ih settled.2
    simp only [consumed, granted, later]
    have inside : ∀ tier ∈ (lim.tiers req).filter (fun tier => decide (tier.1 = slot)),
        tier ∈ lim.tiers req := fun tier member => (List.mem_filter.mp member).1
    generalize (lim.tiers req).filter (fun tier => decide (tier.1 = slot)) = tiers at inside ⊢
    cases verdict : (lim.isAllowed now req).1 with
    | true =>
      have one : tiers.map (fun tier =>
          (lim.isAllowed now req).2.used now tier - lim.used now tier) = tiers.map fun _ => 1 := by
        apply List.map_congr_left
        intro tier member
        rw [allowed verdict tier (inside tier member)]
        ring
      simp [one]
    | false =>
      have zero : tiers.map (fun tier =>
          (lim.isAllowed now req).2.used now tier - lim.used now tier) = tiers.map fun _ => 0 := by
        apply List.map_congr_left
        intro tier member
        rw [denied verdict tier (inside tier member)]
        ring
      simp [zero]

end RateLimiter

/-- A token bucket of so many tokens, with one more every second. -/
def bucketConfig (burstSize : Int) (one_le : 1 ≤ burstSize) : RateLimitConfig where
  strategy := .tokenBucket
  requestsPerSecond := 1
  burstSize := burstSize
  windowSeconds := 60
  maxRequests := 1000
  maxKeys := 10000
  redisPrefix := "rate_limit:"
  redisTtl := 120
  rate_pos := by decide +kernel
  one_le_burst := one_le
  one_le_window := by decide
  one_le_requests := by decide

def atStart : Surroundings := ⟨0, 0, .exact, fun _ => .works⟩

/-- A limit for all requests together, one for each tenant, and a client's own. -/
def threeTiers (all : RateLimitConfig) (tenant : RateLimitConfig) : RateLimiter :=
  .create (bucketConfig 50 (by decide)) ∅ (some all) ∅ ∅ (some tenant) none false

def chat (tenant : String) : Request := ⟨"client", "/v1/chat/completions", some tenant, none⟩

end DistLLM.RateLimit
