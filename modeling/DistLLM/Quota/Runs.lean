import DistLLM.Library.Machine
import DistLLM.Quota.Selection

/-!
# Runs of the quota enforcer

The operations in any order, on an enforcer with quotas set for some tenants, and what each of them
does to the bucket of a tenant.
-/
namespace DistLLM.Quota

open Library QuotaEnforcer TenantQuota

variable {κ ρ : Type} [DecidableEq κ]

structure QuotaConfig where
  tokensPerMinute : ℚ := 10000
  burst : ℚ := 5000
  weight : ℚ := 1
  rate_nonneg : 0 ≤ tokensPerMinute := by norm_num
  burst_nonneg : 0 ≤ burst := by norm_num
  weight_pos : 0 < weight := by norm_num

/-- A new enforcer, with the quotas set one after the other. -/
def configured (clock : ℕ → Time) (tenants : List (κ × QuotaConfig)) (e : QuotaEnforcer κ ρ) :
    QuotaEnforcer κ ρ :=
  tenants.foldl
    (fun e c => e.setTenantQuota clock c.1 c.2.tokensPerMinute c.2.burst c.2.weight) e

structure Grant (κ : Type) where
  tenant : κ
  time : Time
  tokens : ℚ

/-- The enforcer, and what has happened so far. -/
structure World (κ ρ : Type) where
  enforcer : QuotaEnforcer κ ρ
  enqueued : List (κ × ρ) := []
  released : List (κ × ρ) := []
  /-- The releases by `select_next`. -/
  selected : List (κ × ρ) := []
  /-- What `try_consume` granted. -/
  grants : List (Grant κ) := []
  /-- The tokens of the releases by `select_next`. -/
  releases : List (Grant κ) := []

inductive Action (κ ρ : Type)
  | enqueue (t : κ) (request : ρ)
  | dequeue (t : κ)
  | tryConsume (t : κ) (tokens : ℚ)
  | canConsume (t : κ) (tokens : ℚ)
  | selectNext (availableSlots : ℤ) (minTokens : ℚ)

/-- An operation takes place at its first reading of the clock. -/
def World.exec (clock : ℕ → Time) (w : World κ ρ) : Action κ ρ → World κ ρ
  | .enqueue t request =>
    { w with
      enforcer := w.enforcer.enqueue t request
      enqueued := w.enqueued ++ [(t, request)] }
  | .dequeue t =>
    let r := w.enforcer.dequeue t
    { w with
      enforcer := r.2
      released := w.released ++ (r.1.map fun request => (t, request)).toList }
  | .tryConsume t tokens =>
    let r := w.enforcer.tryConsume clock t tokens
    { w with
      enforcer := r.2
      grants := if r.1 then w.grants ++ [⟨t, clock w.enforcer.readings, tokens⟩] else w.grants }
  | .canConsume t tokens => { w with enforcer := (w.enforcer.canConsume clock t tokens).2 }
  | .selectNext availableSlots minTokens =>
    let r := w.enforcer.selectNext clock availableSlots minTokens
    { w with
      enforcer := r.2
      released := w.released ++ r.1
      selected := w.selected ++ r.1
      releases := w.releases ++ r.1.map fun p => ⟨p.1, clock w.enforcer.readings, minTokens⟩ }

def start (clock : ℕ → Time) (tenants : Dict κ QuotaConfig) : World κ ρ :=
  { enforcer := configured clock tenants.entries {} }

def machine (clock : ℕ → Time) (tenants : Dict κ QuotaConfig) :
    Machine (World κ ρ) (Action κ ρ) where
  init w := w = start clock tenants
  enabled _ _ := True
  exec := World.exec clock

def requestsOf (t : κ) (log : List (κ × ρ)) : List ρ :=
  (log.filter fun p => decide (p.1 = t)).map Prod.snd

def tokensOf (t : κ) (a b : Time) (log : List (Grant κ)) : ℚ :=
  ((log.filter fun g => decide (g.tenant = t ∧ a ≤ g.time ∧ g.time ≤ b)).map (·.tokens)).sum

/-- What a tenant was granted, and its requests that were released. -/
def granted (t : κ) (a b : Time) (w : World κ ρ) : ℚ :=
  tokensOf t a b w.grants + tokensOf t a b w.releases

/-! ### The configured tenants -/

variable {cs : List κ} (tokens : ℚ)

section

variable {clock : ℕ → Time} {e : QuotaEnforcer κ ρ} {t u : κ}

theorem readings_setTenantQuota (x y z : ℚ) :
    e.readings ≤ (e.setTenantQuota clock u x y z).readings := by
  unfold setTenantQuota
  split
  · exact le_rfl
  · exact Nat.le_succ _

theorem readings_configured (tenants : List (κ × QuotaConfig)) :
    e.readings ≤ (configured clock tenants e).readings := by
  induction tenants generalizing e with
  | nil => exact le_rfl
  | cons c rest ih => exact (readings_setTenantQuota _ _ _).trans ih

theorem setTenantQuota_other (clock : ℕ → Time) (e : QuotaEnforcer κ ρ) (x y z : ℚ)
    (other : u ≠ t) : (e.setTenantQuota clock u x y z).quotas.get? t = e.quotas.get? t ∧
      (e.setTenantQuota clock u x y z).deficitOf t = e.deficitOf t := by
  unfold setTenantQuota
  split <;> simp [Dict.get?_set, Dict.getD_set, deficitOf, other]

variable {tenants : List (κ × QuotaConfig)}

theorem configured_other (clock : ℕ → Time) (e : QuotaEnforcer κ ρ)
    (absent : t ∉ tenants.map Prod.fst) :
    (configured clock tenants e).quotas.get? t = e.quotas.get? t ∧
      (configured clock tenants e).deficitOf t = e.deficitOf t := by
  induction tenants generalizing e with
  | nil => exact ⟨rfl, rfl⟩
  | cons c rest ih =>
    simp only [List.map_cons, List.mem_cons, not_or] at absent
    obtain ⟨quotas, deficit⟩ :=
      setTenantQuota_other clock e c.2.tokensPerMinute c.2.burst c.2.weight (Ne.symm absent.1)
    obtain ⟨quotas', deficit'⟩ := ih _ absent.2
    exact ⟨quotas'.trans quotas, deficit'.trans deficit⟩

/-- A bucket that was set up at some reading of the clock. -/
def newQuota (c : QuotaConfig) (created : Time) : TenantQuota ρ :=
  { tokensPerMinute := c.tokensPerMinute, burst := c.burst, weight := c.weight,
    lastRefill := created }

theorem setTenantQuota_new (clock : ℕ → Time) (c : QuotaConfig) (absent : e.quotas.get? t = none) :
    (e.setTenantQuota clock t c.tokensPerMinute c.burst c.weight).quotas.get? t
        = some (newQuota c (clock e.readings)) ∧
      (e.setTenantQuota clock t c.tokensPerMinute c.burst c.weight).deficitOf t = 0 ∧
      (e.setTenantQuota clock t c.tokensPerMinute c.burst c.weight).readings = e.readings + 1 := by
  unfold setTenantQuota
  rw [absent]
  exact ⟨by simp [newQuota], by simp [deficitOf, Dict.getD_set], rfl⟩

theorem configured_new {c : QuotaConfig} (distinct : (tenants.map Prod.fst).Nodup)
    (member : (t, c) ∈ tenants)
    (absent : e.quotas.get? t = none) : ∃ i < (configured clock tenants e).readings,
      (configured clock tenants e).quotas.get? t = some (newQuota c (clock i)) ∧
        (configured clock tenants e).deficitOf t = 0 := by
  induction tenants generalizing e with
  | nil => simp at member
  | cons d rest ih =>
    obtain ⟨first, distinct⟩ := List.nodup_cons.mp distinct
    obtain rfl | later := List.mem_cons.mp member
    · -- the later tenants are others
      obtain ⟨quotas, deficit, readings⟩ := setTenantQuota_new clock c absent
      obtain ⟨quotas', deficit'⟩ := configured_other clock
        (e.setTenantQuota clock t c.tokensPerMinute c.burst c.weight) first
      refine ⟨e.readings, ?_, quotas'.trans quotas, deficit'.trans deficit⟩
      exact (Nat.lt_succ_self _).trans_le (readings.symm.le.trans (readings_configured rest))
    · have other : d.1 ≠ t := by
        rintro rfl
        exact first (List.mem_map.mpr ⟨_, later, rfl⟩)
      exact ih distinct later ((setTenantQuota_other clock e _ _ _ other).1.trans absent)

variable {P : ℕ → TenantQuota ρ → Prop}

theorem Lasting.fill (lasting : Lasting clock P) (ticks : Monotone clock) {cs : List κ}
    (distinct : cs.Nodup) {minTokens : ℚ} (n : ℕ) (holds : e.Holds t P) :
    (QuotaEnforcer.fill clock minTokens cs n e).2.Holds t P := by
  refine fill_induction ticks distinct (I := fun _ e _ e' => e.Holds t P → e'.Holds t P)
    (fun _ holds => holds) (fun skip holds => skip.holds lasting holds) ?_ n e holds
  exact fun serve later holds => later (serve.holds lasting holds)

theorem Lasting.exec (lasting : Lasting clock P) (ticks : Monotone clock) {w : World κ ρ}
    {act : Action κ ρ} (other : ∀ tokens, act ≠ .tryConsume t tokens)
    (holds : w.enforcer.Holds t P) : (w.exec clock act).enforcer.Holds t P := by
  cases act with
  | enqueue u request => exact lasting.withQueue _ holds
  | dequeue u =>
    simp only [World.exec, QuotaEnforcer.dequeue]
    split
    · exact holds
    · exact lasting.withQueue _ holds
  | tryConsume u tokens =>
    simp only [World.exec, QuotaEnforcer.tryConsume]
    split
    · exact holds
    · obtain ⟨q, found, property⟩ := holds
      have apart : u ≠ t := by
        rintro rfl
        exact other tokens rfl
      exact ⟨q, by simp [Dict.get?_set, apart, found], lasting.wait property⟩
  | canConsume u tokens =>
    simp only [World.exec, QuotaEnforcer.canConsume]
    split
    · exact holds
    · rename_i q found
      exact lasting.check found holds tokens
  | selectNext availableSlots minTokens =>
    simp only [World.exec, selectNext_eq]
    exact lasting.fill ticks nodup_candidates _ holds

theorem exec_tryConsume (clock : ℕ → Time) {w : World κ ρ} {q : TenantQuota ρ} (tokens : ℚ)
    (found : w.enforcer.quotas.get? t = some q) :
    (w.exec clock (.tryConsume t tokens)).enforcer.quotas.get? t
        = some (q.consume tokens (clock w.enforcer.readings)).2 ∧
      (w.exec clock (.tryConsume t tokens)).enforcer.readings = w.enforcer.readings + 1 := by
  simp [World.exec, QuotaEnforcer.tryConsume, found]

theorem fill_queue (ticks : Monotone clock) (distinct : cs.Nodup) (minTokens : ℚ) (n : ℕ)
    (e : QuotaEnforcer κ ρ) : e.queue t = requestsOf t (QuotaEnforcer.fill clock minTokens cs n e).1
      ++ (QuotaEnforcer.fill clock minTokens cs n e).2.queue t := by
  refine fill_induction ticks distinct
    (I := fun _ e released e' => e.queue t = requestsOf t released ++ e'.queue t)
    (fun _ => rfl) (fun skip => (skip.queue t).symm) ?_ n e
  intro _ e b request e' released e'' serve later
  by_cases same : b = t
  · subst same
    rw [serve.head, later]
    simp [requestsOf]
  · rw [← serve.queue t (Ne.symm same), later]
    simp [requestsOf, same]

theorem selectNext_queue (ticks : Monotone clock) (e : QuotaEnforcer κ ρ) (availableSlots : ℤ)
    (minTokens : ℚ) : e.queue t = requestsOf t (e.selectNext clock availableSlots minTokens).1
      ++ (e.selectNext clock availableSlots minTokens).2.queue t := by
  rw [selectNext_eq]
  exact fill_queue ticks nodup_candidates minTokens _ e

theorem fill_members (ticks : Monotone clock) (distinct : cs.Nodup) (minTokens : ℚ) (n : ℕ)
    (e : QuotaEnforcer κ ρ) : ∀ p ∈ (QuotaEnforcer.fill clock minTokens cs n e).1, p.1 ∈ cs := by
  refine fill_induction ticks distinct (I := fun _ _ released _ => ∀ p ∈ released, p.1 ∈ cs)
    (fun _ => by simp) (fun _ => by simp) ?_ n e
  intro _ _ b request _ released _ serve later
  exact List.forall_mem_cons.mpr ⟨serve.member, later⟩

theorem tryConsume_view {β : Type} {view : TenantQuota ρ → β}
    (kept : ∀ q now, view (q.consume tokens now).2 = view q) :
    ((e.tryConsume clock u tokens).2.quotas.get? t).map view = (e.quotas.get? t).map view := by
  unfold tryConsume
  split
  · rfl
  · rename_i q found
    by_cases same : u = t
    · subst same
      simp [found, kept]
    · simp [Dict.get?_set, same]

theorem canConsume_view {β : Type} {view : TenantQuota ρ → β}
    (kept : ∀ q now, view (q.refill now) = view q) :
    ((e.canConsume clock u tokens).2.quotas.get? t).map view = (e.quotas.get? t).map view := by
  unfold QuotaEnforcer.canConsume
  split
  · rfl
  · rename_i q found
    by_cases same : u = t
    · subst same
      simp [check, TenantQuota.canConsume, found, kept]
    · simp [check, Dict.get?_set, same]

theorem consume_kept (q : TenantQuota ρ) (tokens : ℚ) (now : Time) :
    (q.consume tokens now).2.queuedRequests = q.queuedRequests ∧
      (q.consume tokens now).2.tokensPerMinute = q.tokensPerMinute ∧
      (q.consume tokens now).2.burst = q.burst ∧ (q.consume tokens now).2.weight = q.weight := by
  unfold consume
  dsimp only
  split <;> exact ⟨rfl, rfl, rfl, rfl⟩

theorem queue_tryConsume : (e.tryConsume clock u tokens).2.queue t = e.queue t :=
  congrArg (Option.getD · []) (tryConsume_view tokens fun q now => (consume_kept q tokens now).1)

theorem queue_canConsume : (e.canConsume clock u tokens).2.queue t = e.queue t :=
  congrArg (Option.getD · []) (canConsume_view tokens (refill_queuedRequests · ·))

theorem fill_configOf (ticks : Monotone clock) (distinct : cs.Nodup) (minTokens : ℚ) (n : ℕ)
    (e : QuotaEnforcer κ ρ) :
    (QuotaEnforcer.fill clock minTokens cs n e).2.configOf t = e.configOf t :=
  fill_induction ticks distinct (I := fun _ e _ e' => e'.configOf t = e.configOf t)
    (fun _ => rfl) (fun skip => skip.configOf t)
    (fun serve later => later.trans (serve.configOf t)) n e

theorem configOf_exec (ticks : Monotone clock) (w : World κ ρ) (act : Action κ ρ) :
    (w.exec clock act).enforcer.configOf t = w.enforcer.configOf t := by
  cases act with
  | enqueue u request => exact configOf_withQueue _
  | dequeue u =>
    simp only [World.exec, QuotaEnforcer.dequeue]
    split
    · rfl
    · exact configOf_withQueue _
  | tryConsume u tokens =>
    refine tryConsume_view tokens fun q now => ?_
    obtain ⟨-, rate, burst, weight⟩ := consume_kept q tokens now
    rw [rate, burst, weight]
  | canConsume u tokens => exact canConsume_view tokens fun _ _ => rfl
  | selectNext availableSlots minTokens =>
    simp only [World.exec, selectNext_eq]
    exact fill_configOf ticks nodup_candidates minTokens _ _

variable {tenants : Dict κ QuotaConfig} {w : World κ ρ}

theorem start_found (clock : ℕ → Time) {c : QuotaConfig} (config : tenants.get? t = some c) :
    ∃ i < (start (ρ := ρ) clock tenants).enforcer.readings,
      (start (ρ := ρ) clock tenants).enforcer.quotas.get? t = some (newQuota c (clock i)) ∧
        (start (ρ := ρ) clock tenants).enforcer.deficitOf t = 0 :=
  configured_new tenants.distinct ((tenants.mem_entries_iff t c).mpr config) rfl

theorem start_absent (clock : ℕ → Time) (unknown : tenants.get? t = none) :
    (start (ρ := ρ) clock tenants).enforcer.quotas.get? t = none ∧
      (start (ρ := ρ) clock tenants).enforcer.deficitOf t = 0 := by
  refine configured_other clock {} fun member => ?_
  obtain ⟨c, config⟩ := (tenants.mem_keys_iff).mp member
  rw [unknown] at config
  cases config

variable {ok : World κ ρ → Action κ ρ → Prop} (ticks : Monotone clock)
  (run : (machine clock tenants).Reaches ok w)

include ticks run

theorem configOf_of_reaches (t : κ) : w.enforcer.configOf t
      = (tenants.get? t).map fun c => (c.tokensPerMinute, c.burst, c.weight) := by
  refine Machine.Reaches.invariant (I := fun w => w.enforcer.configOf t
    = (tenants.get? t).map fun c => (c.tokensPerMinute, c.burst, c.weight)) ?_
    (fun w act same _ _ => (configOf_exec ticks w act).trans same) run
  rintro _ rfl
  unfold configOf
  cases config : tenants.get? t with
  | none => rw [(start_absent clock config).1]; rfl
  | some c =>
    obtain ⟨i, -, found, -⟩ := start_found (ρ := ρ) clock config
    rw [found]
    rfl

theorem weightOf_of_reaches (t : κ) :
    w.enforcer.weightOf t = ((tenants.get? t).map (·.weight)).getD 0 := by
  rw [weightOf_config, configOf_of_reaches ticks run]
  cases tenants.get? t <;> rfl

end

end DistLLM.Quota
