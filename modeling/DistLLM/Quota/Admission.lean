import DistLLM.Quota.Runs
import Mathlib.Algebra.Order.BigOperators.Group.List

/-!
# Queues and quotas over a run

Each request of a configured tenant is released once and in order, or still queued. What
`try_consume` grants is within the quota of the tenant; what is released is not charged to it.
-/
namespace DistLLM.Quota

open Library QuotaEnforcer TenantQuota

variable {κ ρ : Type} [DecidableEq κ] {clock : ℕ → Time} {tenants : Dict κ QuotaConfig}

/-- Of the requests that were enqueued the first have been released, and the others are queued. -/
def InOrder (t : κ) (w : World κ ρ) : Prop :=
  requestsOf t w.enqueued = requestsOf t w.released ++ w.enforcer.queue t

@[simp] theorem requestsOf_append (t : κ) (log more : List (κ × ρ)) :
    requestsOf t (log ++ more) = requestsOf t log ++ requestsOf t more := by
  simp [requestsOf]

theorem requestsOf_singleton (t u : κ) (request : ρ) :
    requestsOf t [(u, request)] = if u = t then [request] else [] := by
  by_cases same : u = t <;> simp [requestsOf, same]

theorem InOrder.exec (ticks : Monotone clock) {t : κ} {w : World κ ρ} (act : Action κ ρ)
    (known : w.enforcer.quotas.get? t ≠ none) (order : InOrder t w) :
    InOrder t (w.exec clock act) := by
  unfold InOrder at order ⊢
  cases act with
  | enqueue u request =>
    simp only [World.exec, requestsOf_append, requestsOf_singleton, order, List.append_assoc,
      QuotaEnforcer.enqueue]
    by_cases same : u = t
    · subst same
      rw [queue_withQueue _ known]
      simp
    · have kept : (w.enforcer.withQueue u (w.enforcer.queue u ++ [request])).queue t
          = w.enforcer.queue t := by
        unfold queue
        rw [get?_withQueue, if_neg same]
      rw [kept]
      simp [same]
  | dequeue u =>
    simp only [World.exec, QuotaEnforcer.dequeue]
    split
    · simpa using order
    · rename_i request rest queued
      have knownU : w.enforcer.quotas.get? u ≠ none := known_of_queue (by simp [queued])
      rw [order, queue_withQueue rest knownU]
      by_cases same : u = t
      · subst same
        simp [requestsOf_singleton, queued]
      · simp [requestsOf_singleton, same]
  | tryConsume u tokens => exact order.trans (by simp [World.exec, queue_tryConsume])
  | canConsume u tokens => exact order.trans (by simp [World.exec, queue_canConsume])
  | selectNext availableSlots minTokens =>
    simp only [World.exec, requestsOf_append, List.append_assoc]
    rw [order, ← selectNext_queue ticks]

/-- What has been spent from `a` to `b` is within what the bucket held at `a` and has been refilled
with since. -/
structure Metered (c : QuotaConfig) (a b : Time) (spent : ℚ) (q : TenantQuota ρ) : Prop where
  tokensPerMinute : q.tokensPerMinute = c.tokensPerMinute
  burst : q.burst = c.burst
  tokens_nonneg : 0 ≤ q.tokens
  before : q.lastRefill < a → spent ≤ 0
  within : a ≤ q.lastRefill → q.lastRefill ≤ b →
    min c.burst q.tokens + spent ≤ c.burst + (q.lastRefill - a) * (c.tokensPerMinute / 60)
  total : spent ≤ c.burst + (b - a) * (c.tokensPerMinute / 60)

namespace Metered

variable {c : QuotaConfig} {a b now spent less tokens : ℚ} {q : TenantQuota ρ}

theorem rate_nonneg (c : QuotaConfig) : 0 ≤ c.tokensPerMinute / 60 :=
  div_nonneg c.rate_nonneg (by norm_num)

theorem new (c : QuotaConfig) (created : Time) (ordered : a ≤ b) :
    Metered c a b 0 (newQuota c created : TenantQuota ρ) where
  tokensPerMinute := rfl
  burst := rfl
  tokens_nonneg := by norm_num [newQuota]
  before _ := le_rfl
  within started _ := by
    have refilled := mul_nonneg (sub_nonneg.mpr started) (rate_nonneg c)
    linarith [min_le_left c.burst (newQuota c created : TenantQuota ρ).tokens]
  total := by
    have refilled := mul_nonneg (sub_nonneg.mpr ordered) (rate_nonneg c)
    linarith [c.burst_nonneg]

theorem refill (metered : Metered c a b spent q) (later : q.lastRefill ≤ now) :
    Metered c a b spent (q.refill now) := by
  have rate := rate_nonneg c
  have added := mul_nonneg (sub_nonneg.mpr later) rate
  have tokens : (q.refill now).tokens
      = min c.burst (q.tokens + (now - q.lastRefill) * (c.tokensPerMinute / 60)) := by
    rw [← metered.burst, ← metered.tokensPerMinute]
    rfl
  refine ⟨metered.tokensPerMinute, metered.burst, ?_, fun early => ?_, fun started ongoing => ?_,
    metered.total⟩
  · rw [tokens]
    exact le_min c.burst_nonneg (add_nonneg metered.tokens_nonneg added)
  · exact metered.before (later.trans_lt early)
  · simp only [refill_lastRefill] at started ongoing ⊢
    rw [tokens, min_eq_right (min_le_left _ _)]
    by_cases early : q.lastRefill < a
    · -- nothing has been spent yet, and the bucket holds its burst at most
      have since := mul_nonneg (sub_nonneg.mpr started) rate
      linarith [metered.before early, min_le_left c.burst
        (q.tokens + (now - q.lastRefill) * (c.tokensPerMinute / 60))]
    · have held := metered.within (not_lt.mp early) (later.trans ongoing)
      have capped : min c.burst (q.tokens + (now - q.lastRefill) * (c.tokensPerMinute / 60))
          ≤ min c.burst q.tokens + (now - q.lastRefill) * (c.tokensPerMinute / 60) :=
        (min_le_min_right _ (le_add_of_nonneg_right added)).trans (min_add_add_right _ _ _).le
      linarith

theorem pay (metered : Metered c a b spent q) (full : q.tokens ≤ c.burst)
    (has : tokens ≤ q.tokens) (consumed : ℚ) :
    Metered c a b (spent + if a ≤ q.lastRefill ∧ q.lastRefill ≤ b then tokens else 0)
      { q with tokens := q.tokens - tokens, totalConsumed := consumed } := by
  have left := min_le_right c.burst (q.tokens - tokens)
  refine ⟨metered.tokensPerMinute, metered.burst, sub_nonneg.mpr has, fun early => ?_,
    fun started ongoing => ?_, ?_⟩
  · have outside : ¬ (a ≤ q.lastRefill ∧ q.lastRefill ≤ b) := fun inside =>
      absurd early (not_lt.mpr inside.1)
    rw [if_neg outside, add_zero]
    exact metered.before early
  · have held := metered.within started ongoing
    rw [min_eq_right full] at held
    rw [if_pos ⟨started, ongoing⟩]
    linarith
  · by_cases inside : a ≤ q.lastRefill ∧ q.lastRefill ≤ b
    · have held := metered.within inside.1 inside.2
      rw [min_eq_right full] at held
      have until_end := mul_le_mul_of_nonneg_right (sub_le_sub_right inside.2 a) (rate_nonneg c)
      rw [if_pos inside]
      linarith
    · rw [if_neg inside, add_zero]
      exact metered.total

end Metered

/-- The bucket of a tenant, at a reading of the clock that is not before its last refill. -/
def MeteredAt (clock : ℕ → Time) (c : QuotaConfig) (a b : Time) (spent : ℚ) (i : ℕ)
    (q : TenantQuota ρ) : Prop :=
  Metered c a b spent q ∧ q.lastRefill ≤ clock i

theorem MeteredAt.lasting (ticks : Monotone clock) (c : QuotaConfig) (a b : Time) (spent : ℚ) :
    Lasting clock (MeteredAt (ρ := ρ) clock c a b spent) where
  wait {i _} metered := ⟨metered.1, metered.2.trans (ticks (Nat.le_succ i))⟩
  refill {i _} metered := ⟨metered.1.refill metered.2, ticks (Nat.le_succ i)⟩
  queue _ metered :=
    ⟨{ metered.1 with within := metered.1.within, before := metered.1.before }, metered.2⟩

section

variable {t : κ} {a b : Time} {w : World κ ρ}

theorem tokensOf_append (log more : List (Grant κ)) :
    tokensOf t a b (log ++ more) = tokensOf t a b log + tokensOf t a b more := by
  simp [tokensOf]

theorem grants_other {act : Action κ ρ} (consumes : ∀ tokens, act ≠ .tryConsume t tokens) :
    tokensOf t a b (w.exec clock act).grants = tokensOf t a b w.grants := by
  cases act with
  | enqueue => rfl
  | dequeue => rfl
  | canConsume => rfl
  | selectNext => rfl
  | tryConsume u tokens =>
    have other : u ≠ t := by
      rintro rfl
      exact consumes tokens rfl
    simp only [World.exec]
    split
    · simp [tokensOf, other]
    · rfl

theorem grants_tryConsume {q : TenantQuota ρ} {tokens : ℚ}
    (found : w.enforcer.quotas.get? t = some q) :
    tokensOf t a b (w.exec clock (.tryConsume t tokens)).grants = tokensOf t a b w.grants +
      if (q.consume tokens (clock w.enforcer.readings)).1 = true ∧
          a ≤ clock w.enforcer.readings ∧ clock w.enforcer.readings ≤ b then tokens else 0 := by
  simp only [World.exec, QuotaEnforcer.tryConsume, found]
  by_cases taken : (q.consume tokens (clock w.enforcer.readings)).1 = true
  · by_cases inside : a ≤ clock w.enforcer.readings ∧ clock w.enforcer.readings ≤ b
    · simp [taken, inside, tokensOf]
    · simp [taken, inside, tokensOf]
  · simp [taken]

variable {c : QuotaConfig}

theorem metered_exec (ticks : Monotone clock) (act : Action κ ρ)
    (metered : w.enforcer.Holds t (MeteredAt clock c a b (tokensOf t a b w.grants))) :
    (w.exec clock act).enforcer.Holds t
      (MeteredAt clock c a b (tokensOf t a b (w.exec clock act).grants)) := by
  by_cases consumes : ∃ tokens, act = .tryConsume t tokens
  · obtain ⟨tokens, rfl⟩ := consumes
    obtain ⟨q, found, metered, earlier⟩ := metered
    obtain ⟨found', readings⟩ := exec_tryConsume clock tokens found
    have refilled := metered.refill earlier
    refine ⟨_, found', ?_⟩
    rw [grants_tryConsume found, readings]
    by_cases lacks : (q.refill (clock w.enforcer.readings)).tokens < tokens
    · have refused : q.consume tokens (clock w.enforcer.readings)
          = (false, q.refill (clock w.enforcer.readings)) := if_pos lacks
      rw [refused]
      simp only [Bool.false_eq_true, false_and, if_false, add_zero]
      exact ⟨refilled, ticks (Nat.le_succ _)⟩
    · have full : (q.refill (clock w.enforcer.readings)).tokens ≤ c.burst :=
        (min_le_left _ _).trans metered.burst.le
      have paid : q.consume tokens (clock w.enforcer.readings) = (true,
          { q.refill (clock w.enforcer.readings) with
            tokens := (q.refill (clock w.enforcer.readings)).tokens - tokens
            totalConsumed := q.totalConsumed + tokens }) := if_neg lacks
      rw [paid]
      simp only [true_and]
      exact ⟨refilled.pay full (not_lt.mp lacks) _, ticks (Nat.le_succ _)⟩
  · push Not at consumes
    rw [grants_other consumes]
    exact (MeteredAt.lasting ticks c a b _).exec ticks consumes metered

variable {ok : World κ ρ → Action κ ρ → Prop}

theorem consumed_le (ticks : Monotone clock) (config : tenants.get? t = some c) (ordered : a ≤ b)
    (run : (machine clock tenants).Reaches ok w) :
    tokensOf t a b w.grants ≤ c.burst + (b - a) * (c.tokensPerMinute / 60) := by
  have metered : w.enforcer.Holds t (MeteredAt clock c a b (tokensOf t a b w.grants)) := by
    refine Machine.Reaches.invariant
      (I := fun w => w.enforcer.Holds t (MeteredAt clock c a b (tokensOf t a b w.grants))) ?_
      (fun w act metered _ _ => metered_exec ticks act metered) run
    rintro _ rfl
    obtain ⟨i, earlier, found, -⟩ := start_found clock config
    exact ⟨_, found, .new c (clock i) ordered, ticks earlier.le⟩
  obtain ⟨q, -, metered, -⟩ := metered
  exact metered.total

/-- A selection from `a` to `b` that asks for tokens finds nothing queued of the tenant. -/
def Unreleased (clock : ℕ → Time) (t : κ) (a b : Time) (w : World κ ρ) : Action κ ρ → Prop
  | .selectNext availableSlots minTokens =>
    a ≤ clock w.enforcer.readings → clock w.enforcer.readings ≤ b → 0 < minTokens →
      0 < availableSlots → w.enforcer.queue t = []
  | _ => True

theorem releases_exec (ticks : Monotone clock) {act : Action κ ρ}
    (unreleased : Unreleased clock t a b w act) :
    tokensOf t a b (w.exec clock act).releases ≤ tokensOf t a b w.releases := by
  cases act with
  | enqueue => exact le_rfl
  | dequeue => exact le_rfl
  | canConsume => exact le_rfl
  | tryConsume => exact le_rfl
  | selectNext availableSlots minTokens =>
    simp only [World.exec, tokensOf_append]
    refine add_le_of_nonpos_right ?_
    refine (List.sum_le_card_nsmul _ 0 fun x member => ?_).trans (by simp)
    simp only [List.mem_map, List.mem_filter, decide_eq_true_eq] at member
    obtain ⟨_, ⟨⟨p, released, rfl⟩, rfl, started, ongoing⟩, rfl⟩ := member
    by_contra positive
    rw [selectNext_eq] at released
    have candidate := fill_members ticks nodup_candidates minTokens _ _ p released
    have slots : 0 < availableSlots := by
      by_contra none_left
      rw [Int.toNat_eq_zero.mpr (not_lt.mp none_left)] at released
      simp [fill] at released
    exact mem_candidates.mp candidate
      (unreleased started ongoing (not_le.mp positive) slots)

theorem granted_le (ticks : Monotone clock) (config : tenants.get? t = some c) (ordered : a ≤ b)
    (run : (machine clock tenants).Reaches (Unreleased clock t a b) w) :
    granted t a b w ≤ c.burst + (b - a) * (c.tokensPerMinute / 60) := by
  have released : tokensOf t a b w.releases ≤ 0 := by
    refine Machine.Reaches.invariant (I := fun w => tokensOf t a b w.releases ≤ 0) ?_
      (fun w act nonpos _ unreleased => (releases_exec ticks unreleased).trans nonpos) run
    rintro _ rfl
    exact le_rfl
  have consumed := consumed_le ticks config ordered run
  unfold granted
  linarith

theorem inOrder_of_reaches (ticks : Monotone clock) (config : tenants.get? t = some c)
    (run : (machine clock tenants).Reaches ok w) : InOrder t w := by
  have known {w : World κ ρ} (same : w.enforcer.configOf t
      = some (c.tokensPerMinute, c.burst, c.weight)) : w.enforcer.quotas.get? t ≠ none := by
    intro unknown
    simp [configOf, unknown] at same
  have both : InOrder t w ∧
      w.enforcer.configOf t = some (c.tokensPerMinute, c.burst, c.weight) := by
    refine Machine.Reaches.invariant (I := fun w => InOrder t w ∧
      w.enforcer.configOf t = some (c.tokensPerMinute, c.burst, c.weight)) ?_
      (fun w act holds _ _ => ⟨holds.1.exec ticks act (known holds.2),
        (configOf_exec ticks w act).trans holds.2⟩) run
    rintro _ rfl
    obtain ⟨i, -, found, -⟩ := start_found (ρ := ρ) clock config
    have queued : (start (ρ := ρ) clock tenants).enforcer.queue t = [] := by
      simp [queue, found, newQuota]
    refine ⟨?_, by simp [configOf, found, newQuota]⟩
    unfold InOrder
    rw [queued]
    rfl
  exact both.1

end

end DistLLM.Quota
