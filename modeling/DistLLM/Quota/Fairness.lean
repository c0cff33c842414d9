import DistLLM.Library.Levels
import DistLLM.Quota.Admission
import Mathlib.Tactic.FieldSimp

/-!
# Fairness of the selection

Tenants that stay backlogged are credited in the same slots, so what they have got differs as their
deficits do. Those keep together for equal weights, and are bounded where the slots charge as much
as they credit.
-/
namespace DistLLM.Quota

open Library QuotaEnforcer TenantQuota

variable {κ ρ : Type} [DecidableEq κ] {clock : ℕ → Time} {tenants : Dict κ QuotaConfig}

def countOf (t : κ) (log : List (κ × ρ)) : ℕ := (requestsOf t log).length

theorem countOf_cons (t b : κ) (request : ρ) (log : List (κ × ρ)) :
    (countOf t ((b, request) :: log) : ℚ) = (if b = t then 1 else 0) + countOf t log := by
  by_cases same : b = t
  · simp [countOf, requestsOf, same, add_comm]
  · simp [countOf, requestsOf, same]

@[simp] theorem countOf_append (t : κ) (log more : List (κ × ρ)) :
    countOf t (log ++ more) = countOf t log + countOf t more := by
  simp [countOf]

/-! ### Over a batch -/

variable {all : Finset κ}

section

variable {cs : List κ} {m : ℚ} {t u : κ}

theorem fill_account (ticks : Monotone clock) (distinct : cs.Nodup) (n : ℕ)
    (e : QuotaEnforcer κ ρ) : ∃ slots : ℕ, ∀ v ∈ cs,
      (fill clock m cs n e).2.deficitOf v + m * countOf v (fill clock m cs n e).1
        = e.deficitOf v + slots * (e.weightOf v * quantum) := by
  refine fill_induction ticks distinct (I := fun _ e released e' => ∃ slots : ℕ, ∀ v ∈ cs,
    e'.deficitOf v + m * countOf v released
      = e.deficitOf v + slots * (e.weightOf v * quantum)) ?_ ?_ ?_ n e
  · intro e
    exact ⟨0, by simp [countOf, requestsOf]⟩
  · intro _ e e' skip
    refine ⟨1, fun v member => ?_⟩
    rw [skip.deficitOf, raised, if_pos member]
    simp [countOf, requestsOf]
  · rintro _ e b request e' released e'' serve ⟨slots, later⟩
    refine ⟨slots + 1, fun v member => ?_⟩
    have rest := later v member
    rw [serve.deficitOf, raised, if_pos member, weightOf_congr (serve.configOf v)] at rest
    rw [countOf_cons]
    push_cast
    by_cases same : v = b
    · subst same
      simp only [if_true] at rest ⊢
      linarith
    · simp only [same, Ne.symm same, if_false] at rest ⊢
      linarith

variable {e : QuotaEnforcer κ ρ}

theorem raised_sub (inCs : t ∈ cs ∧ u ∈ cs) (weights : e.weightOf t = e.weightOf u) :
    raised e cs t - raised e cs u = e.deficitOf t - e.deficitOf u := by
  rw [raised, raised, if_pos inCs.1, if_pos inCs.2, weights]
  ring

variable {e' : QuotaEnforcer κ ρ} {request : ρ}

theorem Served.backlog {b : κ} (serve : Served clock m cs e b request e')
    (later : e'.queue t ≠ []) : e.queue t ≠ [] := by
  by_cases same : t = b
  · rw [same, serve.head]
    exact List.cons_ne_nil _ _
  · rwa [← serve.queue t same]

theorem Served.gap {b : κ} {bound : ℚ} (serve : Served clock m cs e b request e') (m_nonneg : 0 ≤ m)
    (m_le : m ≤ bound) (inCs : t ∈ cs ∧ u ∈ cs) (weights : e.weightOf t = e.weightOf u)
    (ready : Ready clock m e t ∧ Ready clock m e u)
    (gap : |e.deficitOf t - e.deficitOf u| ≤ bound) :
    |e'.deficitOf t - e'.deficitOf u| ≤ bound := by
  have before := raised_sub inCs weights
  rw [serve.deficitOf, serve.deficitOf]
  rw [← before, abs_le] at gap
  by_cases first : t = b
  · by_cases second : u = b
    · rw [first, second, sub_self, abs_zero]
      exact m_nonneg.trans m_le
    · have ahead := serve.highest u inCs.2 ready.2
      rw [if_pos first, if_neg second, abs_le]
      subst first
      constructor <;> linarith
  · by_cases second : u = b
    · have ahead := serve.highest t inCs.1 ready.1
      rw [if_neg first, if_pos second, abs_le]
      subst second
      constructor <;> linarith
    · rw [if_neg first, if_neg second, abs_le]
      exact gap

theorem fill_gap (ticks : Monotone clock) (distinct : cs.Nodup) (n : ℕ) (e : QuotaEnforcer κ ρ)
    {bound : ℚ} (m_nonneg : 0 ≤ m) (m_le : m ≤ bound) (inCs : t ∈ cs ∧ u ∈ cs)
    (weights : e.weightOf t = e.weightOf u)
    (backlogged : (fill clock m cs n e).2.queue t ≠ [] ∧ (fill clock m cs n e).2.queue u ≠ [])
    (quota : e.Holds t (HasQuota clock m) ∧ e.Holds u (HasQuota clock m))
    (gap : |e.deficitOf t - e.deficitOf u| ≤ bound) :
    |(fill clock m cs n e).2.deficitOf t - (fill clock m cs n e).2.deficitOf u| ≤ bound := by
  refine (fill_induction ticks distinct (I := fun _ e _ e' =>
    (∀ v, e'.queue v ≠ [] → e.queue v ≠ []) ∧ (e.weightOf t = e.weightOf u →
      e'.queue t ≠ [] ∧ e'.queue u ≠ [] →
      e.Holds t (HasQuota clock m) ∧ e.Holds u (HasQuota clock m) →
      |e.deficitOf t - e.deficitOf u| ≤ bound → |e'.deficitOf t - e'.deficitOf u| ≤ bound))
    ?_ ?_ ?_ n e).2 weights backlogged quota gap
  · exact fun _ => ⟨fun _ => id, fun _ _ _ => id⟩
  · intro _ e e' skip
    refine ⟨fun v queued => by rwa [skip.queue] at queued, fun weights _ _ gap => ?_⟩
    rwa [skip.deficitOf, skip.deficitOf, raised_sub inCs weights]
  · rintro _ e b request e' released e'' serve ⟨later, rest⟩
    refine ⟨fun v queued => serve.backlog (later v queued), fun weights queued quota gap => ?_⟩
    have ready : Ready clock m e t ∧ Ready clock m e u :=
      ⟨⟨serve.backlog (later t queued.1), quota.1⟩, serve.backlog (later u queued.2), quota.2⟩
    refine rest ?_ queued ⟨?_, ?_⟩ (serve.gap m_nonneg m_le inCs weights ready gap)
    · rw [weightOf_congr (serve.configOf t), weightOf_congr (serve.configOf u), weights]
    · exact serve.holds (HasQuota.lasting ticks) quota.1
    · exact serve.holds (HasQuota.lasting ticks) quota.2

theorem fill_nonneg (ticks : Monotone clock) (distinct : cs.Nodup) (n : ℕ) (e : QuotaEnforcer κ ρ)
    (weights : ∀ v, 0 ≤ e.weightOf v) (nonneg : ∀ v, 0 ≤ e.deficitOf v) :
    ∀ v, 0 ≤ (fill clock m cs n e).2.deficitOf v := by
  have up {e : QuotaEnforcer κ ρ} (weights : ∀ v, 0 ≤ e.weightOf v)
      (nonneg : ∀ v, 0 ≤ e.deficitOf v) (v : κ) : 0 ≤ raised e cs v := by
    unfold raised
    split
    · exact add_nonneg (nonneg v) (mul_nonneg (weights v) (by norm_num [quantum]))
    · simpa using nonneg v
  refine fill_induction ticks distinct (I := fun _ e _ e' => (∀ v, 0 ≤ e.weightOf v) →
    (∀ v, 0 ≤ e.deficitOf v) → ∀ v, 0 ≤ e'.deficitOf v) (fun _ _ => id) ?_ ?_ n e weights nonneg
  · intro _ e e' skip weights nonneg v
    rw [skip.deficitOf]
    exact up weights nonneg v
  · intro _ e b request e' released e'' serve later weights nonneg
    refine later (fun v => by rw [weightOf_congr (serve.configOf v)]; exact weights v) fun v => ?_
    rw [serve.deficitOf]
    split
    · rename_i same
      rw [same]
      exact sub_nonneg.mpr serve.enough
    · exact up weights nonneg v

/-- No candidate is without quota or runs out of requests in a batch of so many slots, and a slot
charges no less than it credits. -/
def Covered (clock : ℕ → Time) (m : ℚ) (slots : ℕ) (cs : List κ) (e : QuotaEnforcer κ ρ) : Prop :=
  (cs.map e.weightOf).sum * quantum ≤ m ∧
    ∀ v ∈ cs, slots ≤ (e.queue v).length ∧ e.Holds v (HasQuota clock m)

theorem Covered.served (ticks : Monotone clock) {n : ℕ} {b : κ}
    (covered : Covered clock m (n + 1) cs e)
    (serve : Served clock m cs e b request e') : Covered clock m n cs e' := by
  refine ⟨?_, fun v member => ⟨?_, ?_⟩⟩
  · have same : cs.map e'.weightOf = cs.map e.weightOf :=
      List.map_congr_left fun v _ => weightOf_congr (serve.configOf v)
    rw [same]
    exact covered.1
  · have enough := (covered.2 v member).1
    by_cases same : v = b
    · rw [same, serve.head] at enough
      rw [same]
      exact Nat.le_of_succ_le_succ enough
    · rw [serve.queue v same]
      omega
  · exact serve.holds (HasQuota.lasting ticks) (covered.2 v member).2

theorem Covered.ready {n : ℕ} (covered : Covered clock m (n + 1) cs e) {v : κ}
    (member : v ∈ cs) : Ready clock m e v := by
  refine ⟨fun empty => ?_, (covered.2 v member).2⟩
  have := (covered.2 v member).1
  simp [empty] at this

theorem sum_credits (distinct : cs.Nodup) (e : QuotaEnforcer κ ρ) :
    ∑ v ∈ cs.toFinset, (raised e cs v - e.deficitOf v) = (cs.map e.weightOf).sum * quantum := by
  have each : ∀ v ∈ cs.toFinset, raised e cs v - e.deficitOf v = e.weightOf v * quantum := by
    intro v member
    rw [raised, if_pos (List.mem_toFinset.mp member)]
    ring
  rw [Finset.sum_congr rfl each, ← Finset.sum_mul, List.sum_toFinset _ distinct]

theorem fill_leveled (ticks : Monotone clock) (distinct : cs.Nodup) {bound : ℚ}
    (inAll : ∀ v ∈ cs, v ∈ all) (m_nonneg : 0 ≤ m) (m_le : m ≤ bound) (n : ℕ)
    (e : QuotaEnforcer κ ρ) (weights : ∀ v, 0 ≤ e.weightOf v) (covered : Covered clock m n cs e)
    (leveled : Leveled all bound e.deficitOf) :
    Leveled all bound (fill clock m cs n e).2.deficitOf := by
  have nonneg := m_nonneg.trans m_le
  have same (e : QuotaEnforcer κ ρ) : ∀ v ∉ cs.toFinset, raised e cs v = e.deficitOf v := by
    intro v other
    rw [raised, if_neg fun member => other (List.mem_toFinset.mpr member), add_zero]
  have up {e : QuotaEnforcer κ ρ} (weights : ∀ v, 0 ≤ e.weightOf v) (v : κ) :
      e.deficitOf v ≤ raised e cs v := by
    unfold raised
    split
    · exact le_add_of_nonneg_right (mul_nonneg (weights v) (by norm_num [quantum]))
    · simp
  refine fill_induction ticks distinct (I := fun n e _ e' => (∀ v, 0 ≤ e.weightOf v) →
    Covered clock m n cs e → Leveled all bound e.deficitOf → Leveled all bound e'.deficitOf)
    (fun _ _ _ => id) ?_ ?_ n e weights covered leveled
  · intro n e e' skip weights covered leveled
    have equal : e'.deficitOf = raised e cs := funext skip.deficitOf
    rw [equal]
    refine leveled.raise nonneg (same e) (up weights) fun v member => ?_
    have inCs := List.mem_toFinset.mp member
    exact (skip.low v inCs (covered.ready inCs)).le.trans m_le
  · intro n e b request e' released e'' serve later weights covered leveled
    refine later (fun v => by rw [weightOf_congr (serve.configOf v)]; exact weights v)
      (covered.served ticks serve) ?_
    have equal : e'.deficitOf = fun v => if v = b then raised e cs v - m else raised e cs v :=
      funext serve.deficitOf
    rw [equal]
    refine leveled.draw nonneg m_le (same e) (up weights) ?_
      (List.mem_toFinset.mpr serve.member) (inAll b serve.member) (fun v member => ?_) serve.enough
    · rw [sum_credits distinct]
      exact covered.1
    · have inCs := List.mem_toFinset.mp member
      exact serve.highest v inCs (covered.ready inCs)

end

/-! ### Over a run -/

def runsFrom (clock : ℕ → Time) (w₀ : World κ ρ) : Machine (World κ ρ) (Action κ ρ) where
  init w := w = w₀
  enabled _ _ := True
  exec := World.exec clock

/-- The tenant is backlogged when the operation ends, and has quota when it begins. -/
def Contends (clock : ℕ → Time) (m : ℚ) (t : κ) (w : World κ ρ) (act : Action κ ρ) : Prop :=
  (w.exec clock act).enforcer.queue t ≠ [] ∧ w.enforcer.Holds t (HasQuota clock m)

/-- Every selection asks for the same tokens, and charges as much as it credits unless the two
tenants have equal weights. -/
def FairStep (clock : ℕ → Time) (m : ℚ) (t u : κ) (w : World κ ρ) : Action κ ρ → Prop
  | .selectNext availableSlots minTokens =>
    minTokens = m ∧
      Contends clock m t w (.selectNext availableSlots minTokens) ∧
      Contends clock m u w (.selectNext availableSlots minTokens) ∧
      (w.enforcer.weightOf t = w.enforcer.weightOf u ∨
        Covered clock m availableSlots.toNat w.enforcer.candidates w.enforcer)
  | _ => True

def selectedSince (w₀ : World κ ρ) (t : κ) (w : World κ ρ) : ℚ :=
  countOf t w.selected - countOf t w₀.selected

section

variable {w₀ w : World κ ρ} {t u : κ} {m bound : ℚ} {act : Action κ ρ}

theorem exec_deficitOf (clock : ℕ → Time)
    (selects : ∀ slots tokens, act ≠ .selectNext slots tokens) :
    (∀ v, (w.exec clock act).enforcer.deficitOf v = w.enforcer.deficitOf v) ∧
      (w.exec clock act).selected = w.selected := by
  cases act with
  | enqueue v request => exact ⟨fun _ => deficitOf_withQueue _, rfl⟩
  | dequeue v =>
    refine ⟨fun _ => ?_, rfl⟩
    simp only [World.exec, QuotaEnforcer.dequeue]
    split
    · rfl
    · exact deficitOf_withQueue _
  | tryConsume v tokens =>
    refine ⟨fun _ => ?_, rfl⟩
    simp only [World.exec, QuotaEnforcer.tryConsume]
    split <;> rfl
  | canConsume v tokens =>
    refine ⟨fun _ => ?_, rfl⟩
    simp only [World.exec, QuotaEnforcer.canConsume]
    split <;> rfl
  | selectNext slots tokens => exact absurd rfl (selects slots tokens)

theorem Contends.candidate (ticks : Monotone clock) {slots : ℤ} {tokens : ℚ}
    (contends : Contends clock m t w (.selectNext slots tokens)) : t ∈ w.enforcer.candidates := by
  refine mem_candidates.mpr fun empty => contends.1 ?_
  have order := selectNext_queue (t := t) ticks w.enforcer slots tokens
  rw [empty] at order
  exact (List.append_eq_nil_iff.mp order.symm).2

/-- The two tenants were credited in the same slots. -/
def Accounted (m : ℚ) (w₀ : World κ ρ) (t u : κ) (w : World κ ρ) : Prop :=
  ∃ slots : ℚ, ∀ v, v = t ∨ v = u →
    w.enforcer.deficitOf v + m * selectedSince w₀ v w
      = w₀.enforcer.deficitOf v + slots * (w₀.enforcer.weightOf v * quantum)

/-- A selection credits both tenants for the same number of slots. -/
theorem Accounted.exec (ticks : Monotone clock)
    (weights : ∀ v, w.enforcer.weightOf v = w₀.enforcer.weightOf v)
    (fair : FairStep clock m t u w act) (accounted : Accounted m w₀ t u w) :
    Accounted m w₀ t u (w.exec clock act) := by
  obtain ⟨slots, account⟩ := accounted
  by_cases selects : ∃ slots tokens, act = .selectNext slots tokens
  · obtain ⟨available, tokens, rfl⟩ := selects
    obtain ⟨rfl, contendsT, contendsU, -⟩ := fair
    obtain ⟨more, batch⟩ :=
      fill_account (m := tokens) ticks nodup_candidates available.toNat w.enforcer
    refine ⟨slots + more, fun v which => ?_⟩
    have candidate : v ∈ w.enforcer.candidates := by
      obtain rfl | rfl := which
      · exact contendsT.candidate ticks
      · exact contendsU.candidate ticks
    have now := batch v candidate
    have earlier := account v which
    rw [weights v] at now
    simp only [World.exec, selectNext_eq, selectedSince, countOf_append] at now earlier ⊢
    push_cast
    linarith
  · push Not at selects
    refine ⟨slots, fun v which => ?_⟩
    obtain ⟨deficits, selected⟩ := exec_deficitOf clock selects
    rw [deficits, selectedSince, selected]
    exact account v which

/-- What a run keeps between two contending tenants. -/
structure Even (m bound : ℚ) (all : Finset κ) (w₀ : World κ ρ) (t u : κ) (w : World κ ρ) :
    Prop where
  configOf : ∀ v, w.enforcer.configOf v = w₀.enforcer.configOf v
  accounted : Accounted m w₀ t u w
  close : w₀.enforcer.weightOf t = w₀.enforcer.weightOf u →
    |w.enforcer.deficitOf t - w.enforcer.deficitOf u| ≤ bound
  leveled : w₀.enforcer.weightOf t ≠ w₀.enforcer.weightOf u →
    Leveled all bound w.enforcer.deficitOf

theorem Even.exec (ticks : Monotone clock) (m_nonneg : 0 ≤ m) (m_le : m ≤ bound)
    (nonneg : ∀ v, 0 ≤ w₀.enforcer.weightOf v)
    (inAll : ∀ v, w₀.enforcer.configOf v ≠ none → v ∈ all) (fair : FairStep clock m t u w act)
    (even : Even m bound all w₀ t u w) :
    Even m bound all w₀ t u (w.exec clock act) := by
  have weights (v : κ) := weightOf_congr (even.configOf v)
  -- deficits move in `selectNext` only; every other action leaves gap and level alone
  refine ⟨fun v => (configOf_exec ticks w act).trans (even.configOf v),
    even.accounted.exec ticks weights fair, fun equal => ?_, fun differ => ?_⟩
  · by_cases selects : ∃ slots tokens, act = .selectNext slots tokens
    · obtain ⟨available, tokens, rfl⟩ := selects
      obtain ⟨rfl, contendsT, contendsU, -⟩ := fair
      have queues : ∀ v, (w.exec clock (.selectNext available tokens)).enforcer.queue v
          = (fill clock tokens w.enforcer.candidates available.toNat w.enforcer).2.queue v :=
        fun v => by simp only [World.exec, selectNext_eq]
      have backlogged := And.intro contendsT.1 contendsU.1
      rw [queues, queues] at backlogged
      simp only [World.exec, selectNext_eq]
      exact fill_gap ticks nodup_candidates _ _ m_nonneg m_le
        ⟨contendsT.candidate ticks, contendsU.candidate ticks⟩
        (by rw [weights, weights, equal]) backlogged ⟨contendsT.2, contendsU.2⟩
        (even.close equal)
    · push Not at selects
      rw [(exec_deficitOf clock selects).1, (exec_deficitOf clock selects).1]
      exact even.close equal
  · by_cases selects : ∃ slots tokens, act = .selectNext slots tokens
    · obtain ⟨available, tokens, rfl⟩ := selects
      obtain ⟨rfl, -, -, equal | covered⟩ := fair
      · -- the level is kept for unequal weights only
        rw [weights, weights] at equal
        exact absurd equal differ
      · simp only [World.exec, selectNext_eq]
        refine fill_leveled ticks nodup_candidates (fun v candidate => inAll v ?_) m_nonneg m_le _ _
          (fun v => by rw [weights]; exact nonneg v) covered (even.leveled differ)
        rw [← even.configOf v]
        have known := known_of_queue (mem_candidates.mp candidate)
        simpa [QuotaEnforcer.configOf] using known
    · push Not at selects
      have same : (w.exec clock act).enforcer.deficitOf = w.enforcer.deficitOf :=
        funext (exec_deficitOf clock selects).1
      rw [same]
      exact even.leveled differ

theorem Even.selected_le (m_pos : 0 < m) (m_le : m ≤ bound) (inAll : t ∈ all) (inAllU : u ∈ all)
    (weights : 0 < w₀.enforcer.weightOf t ∧ 0 < w₀.enforcer.weightOf u)
    (nonneg : ∀ v, 0 ≤ w₀.enforcer.deficitOf v) (low : ∀ v ∈ all, w₀.enforcer.deficitOf v ≤ bound)
    (even : Even m bound all w₀ t u w) :
    |selectedSince w₀ t w / w₀.enforcer.weightOf t
        - selectedSince w₀ u w / w₀.enforcer.weightOf u|
      ≤ (bound * all.card / w₀.enforcer.weightOf t
          + bound * all.card / w₀.enforcer.weightOf u) / m := by
  have bound_nonneg : 0 ≤ bound := m_pos.le.trans m_le
  have wide : bound ≤ bound * all.card := by
    have size : (1 : ℚ) ≤ all.card := by exact_mod_cast Finset.card_pos.mpr ⟨t, inAll⟩
    nlinarith
  obtain ⟨slots, account⟩ := even.accounted
  -- what is left after the common credits
  have share (v : κ) (which : v = t ∨ v = u) (pos : 0 < w₀.enforcer.weightOf v) :
      m * (selectedSince w₀ v w / w₀.enforcer.weightOf v)
        = (w₀.enforcer.deficitOf v - w.enforcer.deficitOf v) / w₀.enforcer.weightOf v
          + slots * quantum := by
    have := account v which
    field_simp
    linarith
  have shareT := share t (.inl rfl) weights.1
  have shareU := share u (.inr rfl) weights.2
  have apart : |(w₀.enforcer.deficitOf t - w.enforcer.deficitOf t) / w₀.enforcer.weightOf t
      - (w₀.enforcer.deficitOf u - w.enforcer.deficitOf u) / w₀.enforcer.weightOf u|
      ≤ bound * all.card / w₀.enforcer.weightOf t
        + bound * all.card / w₀.enforcer.weightOf u := by
    by_cases equal : w₀.enforcer.weightOf t = w₀.enforcer.weightOf u
    · have gap := abs_le.mp (even.close equal)
      have now : |(w₀.enforcer.deficitOf t - w.enforcer.deficitOf t)
          - (w₀.enforcer.deficitOf u - w.enforcer.deficitOf u)|
          ≤ bound * all.card + bound * all.card := by
        rw [abs_le]
        constructor <;> linarith [nonneg t, nonneg u, low t inAll, low u inAllU]
      rw [equal, ← sub_div, ← add_div, abs_div, abs_of_pos weights.2]
      exact div_le_div_of_nonneg_right now weights.2.le
    · have leveled := even.leveled equal
      have one (v : κ) (member : v ∈ all) (pos : 0 < w₀.enforcer.weightOf v) :
          |(w₀.enforcer.deficitOf v - w.enforcer.deficitOf v) / w₀.enforcer.weightOf v|
            ≤ bound * all.card / w₀.enforcer.weightOf v := by
        rw [abs_div, abs_of_pos pos]
        refine div_le_div_of_nonneg_right (abs_le.mpr ?_) pos.le
        have held := leveled.le member
        have left := leveled.nonneg v member
        constructor <;> linarith [nonneg v, low v member]
      exact (abs_sub _ _).trans (add_le_add (one t inAll weights.1) (one u inAllU weights.2))
  rw [le_div_iff₀ m_pos, ← abs_of_pos m_pos, ← abs_mul]
  refine le_trans (le_of_eq ?_) apart
  congr 1
  linarith

variable {ok : World κ ρ → Action κ ρ → Prop}

theorem nonneg_of_reaches (ticks : Monotone clock)
    (run : (machine clock tenants).Reaches ok w) : ∀ v, 0 ≤ w.enforcer.weightOf v := by
  intro v
  rw [weightOf_of_reaches ticks run]
  cases tenants.get? v with
  | none => exact le_rfl
  | some c => exact c.weight_pos.le

theorem deficit_nonneg (ticks : Monotone clock)
    (run : (machine clock tenants).Reaches ok w) : ∀ v, 0 ≤ w.enforcer.deficitOf v := by
  induction run with
  | @init w start =>
    obtain rfl := start
    intro v
    cases config : tenants.get? v with
    | none => rw [(start_absent clock config).2]
    | some c =>
      obtain ⟨_, -, -, zero⟩ := start_found (ρ := ρ) clock config
      rw [zero]
  | @step w act run _ _ ih =>
    by_cases selects : ∃ slots tokens, act = .selectNext slots tokens
    · obtain ⟨available, tokens, rfl⟩ := selects
      simp only [machine, World.exec, selectNext_eq]
      exact fill_nonneg ticks nodup_candidates _ _ (nonneg_of_reaches ticks run) ih
    · push Not at selects
      intro v
      rw [machine, (exec_deficitOf clock selects).1]
      exact ih v

/-- Two tenants that contend in every selection get as much for their weights, but for a bound that
does not depend on how long the run goes on. -/
theorem selected_fair (ticks : Monotone clock) {c d : QuotaConfig}
    (configT : tenants.get? t = some c) (configU : tenants.get? u = some d)
    (reached : (machine clock tenants).Reachable w₀) (m_pos : 0 < m) :
    ∃ bound, ∀ w, (runsFrom clock w₀).Reaches (FairStep clock m t u) w →
      |selectedSince w₀ t w / c.weight - selectedSince w₀ u w / d.weight| ≤ bound := by
  have weightT : w₀.enforcer.weightOf t = c.weight := by
    rw [weightOf_of_reaches ticks reached, configT]
    rfl
  have weightU : w₀.enforcer.weightOf u = d.weight := by
    rw [weightOf_of_reaches ticks reached, configU]
    rfl
  have inAll (v : κ) (c : QuotaConfig) (config : tenants.get? v = some c) :
      v ∈ tenants.keys.toFinset :=
    List.mem_toFinset.mpr ((tenants.mem_keys_iff).mpr ⟨c, config⟩)
  have known (v : κ) (configured : w₀.enforcer.configOf v ≠ none) :
      v ∈ tenants.keys.toFinset := by
    rw [configOf_of_reaches ticks reached] at configured
    obtain ⟨c, config⟩ : ∃ c, tenants.get? v = some c := by
      simpa [Option.ne_none_iff_exists'] using configured
    exact inAll v c config
  have nonneg := deficit_nonneg ticks reached
  have weights := nonneg_of_reaches ticks reached
  -- no deficit is greater than all of them together when the run begins
  obtain ⟨bound, m_le, low⟩ : ∃ bound, m ≤ bound ∧
      ∀ v ∈ tenants.keys.toFinset, w₀.enforcer.deficitOf v ≤ bound :=
    ⟨max m (∑ v ∈ tenants.keys.toFinset, w₀.enforcer.deficitOf v), le_max_left _ _,
      fun v member =>
        (Finset.single_le_sum (fun v _ => nonneg v) member).trans (le_max_right _ _)⟩
  have lowT := low t (inAll t c configT)
  have lowU := low u (inAll u d configU)
  refine ⟨(bound * tenants.keys.toFinset.card / c.weight
    + bound * tenants.keys.toFinset.card / d.weight) / m, fun w run => ?_⟩
  have even : Even m bound tenants.keys.toFinset w₀ t u w := by
    refine Machine.Reaches.invariant (I := Even m bound tenants.keys.toFinset w₀ t u) ?_
      (fun w act even _ fair => even.exec ticks m_pos.le m_le weights known fair) run
    rintro _ rfl
    refine ⟨fun _ => rfl, ⟨0, fun v _ => by simp [selectedSince]⟩, fun _ => ?_, fun _ => ?_⟩
    · rw [abs_le]
      constructor <;> linarith [nonneg t, nonneg u]
    · exact .of_le (fun v _ => nonneg v) low (m_pos.le.trans m_le)
  rw [← weightT, ← weightU]
  exact even.selected_le m_pos m_le (inAll t c configT) (inAll u d configU)
    ⟨weightT ▸ c.weight_pos, weightU ▸ d.weight_pos⟩ nonneg low

end

/-- Requests come out in order. What is consumed is within the quota, and so is what is released
with it where selections find nothing queued. Tenants of equal weight are treated fairly, and all
tenants where a slot charges as much as it credits. -/
theorem enforcer_guarantees (clock : ℕ → Time) (ticks : Monotone clock)
    (tenants : Dict κ QuotaConfig) : (∀ t c, tenants.get? t = some c → ∀ w : World κ ρ,
      (machine clock tenants).Reachable w → InOrder t w) ∧
    (∀ t c a b, tenants.get? t = some c → a ≤ b → ∀ w : World κ ρ,
      (machine clock tenants).Reaches (Unreleased clock t a b) w →
        granted t a b w ≤ c.burst + (b - a) * (c.tokensPerMinute / 60)) ∧
    (∀ t c u d m, tenants.get? t = some c → tenants.get? u = some d → 0 < m →
      ∀ w₀ : World κ ρ, (machine clock tenants).Reachable w₀ →
        ∃ bound, ∀ w, (runsFrom clock w₀).Reaches (FairStep clock m t u) w →
          |selectedSince w₀ t w / c.weight - selectedSince w₀ u w / d.weight| ≤ bound) :=
  ⟨fun _ _ config _ run => inOrder_of_reaches ticks config run,
    fun _ _ _ _ config ordered _ run => granted_le ticks config ordered run,
    fun _ _ _ _ _ configT configU m_pos _ reached =>
      selected_fair ticks configT configU reached m_pos⟩

instance (e : QuotaEnforcer κ ρ) (t : κ) (P : ℕ → TenantQuota ρ → Prop)
    [∀ i q, Decidable (P i q)] : Decidable (e.Holds t P) :=
  match found : e.quotas.get? t with
  | none => .isFalse fun ⟨_, found', _⟩ => by simp [found] at found'
  | some q => decidable_of_iff (P e.readings q) (by simp [Holds, found])

instance (clock : ℕ → Time) (m : ℚ) (i : ℕ) (q : TenantQuota ρ) :
    Decidable (HasQuota clock m i q) :=
  inferInstanceAs (Decidable (_ ∧ _))

instance (clock : ℕ → Time) (m : ℚ) (t : κ) (w : World κ ρ) (act : Action κ ρ) :
    Decidable (Contends clock m t w act) :=
  inferInstanceAs (Decidable (_ ∧ _))

instance (clock : ℕ → Time) (m : ℚ) (slots : ℕ) (cs : List κ) (e : QuotaEnforcer κ ρ) :
    Decidable (Covered clock m slots cs e) :=
  inferInstanceAs (Decidable (_ ∧ ∀ v ∈ cs, _ ∧ _))

instance (clock : ℕ → Time) (m : ℚ) (t u : κ) (w : World κ ρ) :
    ∀ act, Decidable (FairStep clock m t u w act)
  | .selectNext _ _ => inferInstanceAs (Decidable (_ ∧ _ ∧ _ ∧ (_ ∨ _)))
  | .enqueue _ _ | .dequeue _ | .tryConsume _ _ | .canConsume _ _ => .isTrue trivial

instance (clock : ℕ → Time) (t : κ) (a b : Time) (w : World κ ρ) :
    ∀ act, Decidable (Unreleased clock t a b w act)
  | .selectNext _ _ => inferInstanceAs (Decidable (_ → _ → _ → _ → _))
  | .enqueue _ _ | .dequeue _ | .tryConsume _ _ | .canConsume _ _ => .isTrue trivial

instance (clock : ℕ → Time) (tenants : Dict κ QuotaConfig) (w : World κ ρ) (act : Action κ ρ) :
    Decidable ((machine clock tenants).enabled w act) :=
  .isTrue trivial

instance (clock : ℕ → Time) (w₀ w : World κ ρ) (act : Action κ ρ) :
    Decidable ((runsFrom clock w₀).enabled w act) :=
  .isTrue trivial

def seconds (i : ℕ) : Time := i

def lightAndHeavy : Dict String QuotaConfig :=
  (({} : Dict String QuotaConfig).set "light" {}).set "heavy" { weight := 2 }

def queueing : List (Action String ℕ) :=
  [.enqueue "light" 1, .enqueue "light" 2, .enqueue "light" 3,
    .enqueue "heavy" 4, .enqueue "heavy" 5, .enqueue "heavy" 6]

def backlogged : World String ℕ := queueing.foldl (World.exec seconds) (start seconds lightAndHeavy)

/-- A slot charges what it credits to the two tenants. -/
def selections : List (Action String ℕ) := [.selectNext 1 768, .selectNext 2 768]

theorem enforcer_guarantees_two :
    InOrder "light" (selections.foldl (World.exec seconds) backlogged) ∧
    granted "light" 0 60 ([.tryConsume "light" 100, .enqueue "heavy" 7, .selectNext 2 1].foldl
      (World.exec seconds) (start (ρ := ℕ) seconds lightAndHeavy))
        ≤ 5000 + (60 - 0) * (10000 / 60) ∧
    ∃ bound : ℚ,
      |selectedSince backlogged "light" (selections.foldl (World.exec seconds) backlogged) / 1
        - selectedSince backlogged "heavy" (selections.foldl (World.exec seconds) backlogged) / 2|
        ≤ bound := by
  have ticks : Monotone seconds := fun i j le => Nat.cast_le.mpr le
  obtain ⟨order, quota, fair⟩ := enforcer_guarantees (ρ := ℕ) seconds ticks lightAndHeavy
  have reached : (machine seconds lightAndHeavy).Reachable backlogged :=
    Machine.Reaches.of_follows (.init rfl) queueing ⟨trivial, trivial, by decide +kernel⟩
  refine ⟨order "light" {} rfl _ ?_, quota "light" {} 0 60 rfl (by norm_num) _ ?_, ?_⟩
  · exact reached.of_follows selections (by decide +kernel)
  · exact Machine.Reaches.of_follows (.init rfl) _ (by decide +kernel)
  · obtain ⟨bound, even⟩ :=
      fair "light" {} "heavy" { weight := 2 } 768 rfl rfl (by norm_num) backlogged reached
    refine ⟨bound, even _ ?_⟩
    exact Machine.Reaches.of_follows (.init rfl) selections (by decide +kernel)

/-- The two tenants contend in every selection, whatever tokens it asks for. -/
def BothContend (clock : ℕ → Time) (t u : κ) (w : World κ ρ) : Action κ ρ → Prop
  | .selectNext availableSlots minTokens =>
    Contends clock minTokens t w (.selectNext availableSlots minTokens) ∧
      Contends clock minTokens u w (.selectNext availableSlots minTokens)
  | _ => True

def small : Dict String QuotaConfig := ({} : Dict String QuotaConfig).set "small" { burst := 5 }

/-- Two requests of three tokens each are released to the tenant at once. -/
theorem released_uncharged :
    ¬ ∀ (clock : ℕ → Time) (tenants : Dict String QuotaConfig), Monotone clock →
      (∀ t c, tenants.get? t = some c → ∀ w : World String ℕ,
        (machine clock tenants).Reachable w → InOrder t w) ∧
      (∀ t c a b, tenants.get? t = some c → a ≤ b → ∀ w : World String ℕ,
        (machine clock tenants).Reachable w →
          granted t a b w ≤ c.burst + (b - a) * (c.tokensPerMinute / 60)) ∧
      (∀ t c u d, tenants.get? t = some c → tenants.get? u = some d →
        ∀ w₀ : World String ℕ, (machine clock tenants).Reachable w₀ →
          ∃ bound, ∀ w, (runsFrom clock w₀).Reaches (BothContend clock t u) w →
            |selectedSince w₀ t w / c.weight - selectedSince w₀ u w / d.weight| ≤ bound) := by
  intro always
  obtain ⟨-, quota, -⟩ := always (fun _ => 0) small monotone_const
  have run : (machine (fun _ => 0) small).Reachable
      ([.enqueue "small" 1, .enqueue "small" 2, .selectNext 2 3].foldl (World.exec fun _ => 0)
        (start (fun _ => 0) small)) :=
    Machine.Reaches.of_follows (.init rfl) _ (by decide +kernel)
  exact absurd (quota "small" { burst := 5 } 0 0 rfl le_rfl _ run) (by decide +kernel)

end DistLLM.Quota
