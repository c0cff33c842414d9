import DistLLM.Library.Dict
import Mathlib.Tactic.Linarith
import Mathlib.Tactic.Ring

/-!
# The quota enforcer

`TenantQuota`, a token bucket with the queue of its tenant, and `QuotaEnforcer` over the tenants.
Time is a clock that the program reads again and again: the enforcer counts the readings.
-/
namespace DistLLM.Quota

open Library

abbrev Time := ℚ

variable {κ ρ : Type}

structure TenantQuota (ρ : Type) where
  tokensPerMinute : ℚ := 10000
  burst : ℚ := 5000
  weight : ℚ := 1
  tokens : ℚ := 5000
  lastRefill : Time
  totalConsumed : ℚ := 0
  queuedRequests : List ρ := []

namespace TenantQuota

def refill (q : TenantQuota ρ) (now : Time) : TenantQuota ρ :=
  let added := (now - q.lastRefill) * (q.tokensPerMinute / 60)
  { q with tokens := min q.burst (q.tokens + added), lastRefill := now }

def canConsume (q : TenantQuota ρ) (amount : ℚ) (now : Time) : Bool × TenantQuota ρ :=
  (decide (amount ≤ (q.refill now).tokens), q.refill now)

def consume (q : TenantQuota ρ) (amount : ℚ) (now : Time) : Bool × TenantQuota ρ :=
  let q := q.refill now
  if q.tokens < amount then (false, q)
  else
    (true, { q with tokens := q.tokens - amount, totalConsumed := q.totalConsumed + amount })

section

variable (q : TenantQuota ρ) (now : Time)

@[simp] theorem refill_lastRefill : (q.refill now).lastRefill = now := rfl
@[simp] theorem refill_queuedRequests : (q.refill now).queuedRequests = q.queuedRequests := rfl

end

end TenantQuota

structure QuotaEnforcer (κ ρ : Type) where
  quotas : Dict κ (TenantQuota ρ) := ∅
  deficit : Dict κ ℚ := ∅
  /-- How often the clock has been read. -/
  readings : ℕ := 0

def quantum : ℚ := 256

namespace QuotaEnforcer

variable [DecidableEq κ] (clock : ℕ → Time) (e : QuotaEnforcer κ ρ) (t : κ)

def queue : List ρ := ((e.quotas.get? t).map (·.queuedRequests)).getD []

def deficitOf : ℚ := e.deficit.getD t 0

def setTenantQuota (tokensPerMinute burst weight : ℚ) : QuotaEnforcer κ ρ :=
  match e.quotas.get? t with
  | some q => { e with quotas := e.quotas.set t { q with tokensPerMinute, burst, weight } }
  | none =>
    { quotas := e.quotas.set t
        { tokensPerMinute, burst, weight, lastRefill := clock e.readings }
      deficit := e.deficit.set t 0
      readings := e.readings + 1 }

def tryConsume (tokens : ℚ) : Bool × QuotaEnforcer κ ρ :=
  match e.quotas.get? t with
  | none => (true, e)
  | some q =>
    let r := q.consume tokens (clock e.readings)
    (r.1, { e with quotas := e.quotas.set t r.2, readings := e.readings + 1 })

/-- `can_consume` of the bucket of a tenant. -/
def check (q : TenantQuota ρ) (tokens : ℚ) : Bool × QuotaEnforcer κ ρ :=
  let r := q.canConsume tokens (clock e.readings)
  (r.1, { e with quotas := e.quotas.set t r.2, readings := e.readings + 1 })

def canConsume (tokens : ℚ) : Bool × QuotaEnforcer κ ρ :=
  match e.quotas.get? t with
  | none => (true, e)
  | some q => e.check clock t q tokens

def withQueue (requests : List ρ) : QuotaEnforcer κ ρ :=
  match e.quotas.get? t with
  | none => e
  | some q => { e with quotas := e.quotas.set t { q with queuedRequests := requests } }

/-- A request of an unknown tenant is not kept. -/
def enqueue (request : ρ) : QuotaEnforcer κ ρ := e.withQueue t (e.queue t ++ [request])

def dequeue : Option ρ × QuotaEnforcer κ ρ :=
  match e.queue t with
  | [] => (none, e)
  | request :: rest => (some request, e.withQueue t rest)

/-- The tenants with queued requests, in the order of the dictionary. -/
def candidates : List κ := e.quotas.keys.filter fun t => !(e.queue t).isEmpty

def credit (weight : ℚ) : QuotaEnforcer κ ρ :=
  { e with deficit := e.deficit.set t (e.deficitOf t + weight * quantum) }

/-- The pass of one slot at one candidate, with the best one so far. -/
def consider (minTokens : ℚ) (pass : QuotaEnforcer κ ρ × Option κ) (t : κ) :
    QuotaEnforcer κ ρ × Option κ :=
  match pass.1.quotas.get? t with
  | none => pass
  | some q =>
    let credited := pass.1.credit t q.weight
    if minTokens ≤ credited.deficitOf t ∧ q.queuedRequests ≠ [] then
      let r := credited.check clock t q minTokens
      if r.1 = true ∧ pass.2.all fun b => decide (r.2.deficitOf b < r.2.deficitOf t) then
        (r.2, some t)
      else (r.2, pass.2)
    else (credited, pass.2)

def charge (tokens : ℚ) : QuotaEnforcer κ ρ :=
  { e with deficit := e.deficit.set t (e.deficitOf t - tokens) }

def slot (minTokens : ℚ) (candidates : List κ) : Option (κ × ρ) × QuotaEnforcer κ ρ :=
  let pass := candidates.foldl (consider clock minTokens) (e, none)
  match pass.2 with
  | none => (none, pass.1)
  | some b =>
    match pass.1.queue b with
    | [] => (none, pass.1)
    | request :: rest => (some (b, request), (pass.1.withQueue b rest).charge b minTokens)

/-- The slots of a batch, up to the first that nobody gets. -/
def fill (minTokens : ℚ) (candidates : List κ) :
    ℕ → QuotaEnforcer κ ρ → List (κ × ρ) × QuotaEnforcer κ ρ
  | 0, e => ([], e)
  | n + 1, e =>
    match e.slot clock minTokens candidates with
    | (none, e) => ([], e)
    | (some released, e) =>
      let r := fill minTokens candidates n e
      (released :: r.1, r.2)

def selectNext (availableSlots : ℤ) (minTokens : ℚ) : List (κ × ρ) × QuotaEnforcer κ ρ :=
  if e.candidates = [] then ([], e)
  else fill clock minTokens e.candidates availableSlots.toNat e

end QuotaEnforcer

end DistLLM.Quota
