import DistLLM.Quota.Enforcer

/-!
# What a slot does

A slot raises the deficit of every candidate and takes the first request of one whose deficit is
the greatest among those ready to be served. Buckets are refilled on the way.
-/
namespace DistLLM.Quota

open Library QuotaEnforcer TenantQuota

variable {κ ρ : Type} [DecidableEq κ] {clock : ℕ → Time} {minTokens : ℚ}
  {e : QuotaEnforcer κ ρ} {pass : QuotaEnforcer κ ρ × Option κ} {t u : κ}

namespace QuotaEnforcer

def weightOf (e : QuotaEnforcer κ ρ) (t : κ) : ℚ := ((e.quotas.get? t).map (·.weight)).getD 0

/-- The configuration of a tenant: its rate, its burst and its weight. -/
def configOf (e : QuotaEnforcer κ ρ) (t : κ) : Option (ℚ × ℚ × ℚ) :=
  (e.quotas.get? t).map fun q => (q.tokensPerMinute, q.burst, q.weight)

/-- The tenant is known, and its bucket has the property, after so many readings of the clock. -/
def Holds (e : QuotaEnforcer κ ρ) (t : κ) (P : ℕ → TenantQuota ρ → Prop) : Prop :=
  ∃ q, e.quotas.get? t = some q ∧ P e.readings q

end QuotaEnforcer

/-- A property of a bucket that refills do not end, nor changes of its queue. -/
structure Lasting (clock : ℕ → Time) (P : ℕ → TenantQuota ρ → Prop) : Prop where
  wait : ∀ {i q}, P i q → P (i + 1) q
  refill : ∀ {i q}, P i q → P (i + 1) (q.refill (clock i))
  queue : ∀ {i q} (requests : List ρ), P i q → P i { q with queuedRequests := requests }

variable (requests : List ρ)

@[simp] theorem readings_withQueue : (e.withQueue t requests).readings = e.readings := by
  unfold withQueue
  split <;> rfl

@[simp] theorem deficitOf_withQueue : (e.withQueue t requests).deficitOf u = e.deficitOf u := by
  unfold withQueue
  split <;> rfl

theorem get?_withQueue :
    (e.withQueue t requests).quotas.get? u =
      if t = u then (e.quotas.get? t).map fun q => { q with queuedRequests := requests }
      else e.quotas.get? u := by
  unfold withQueue
  split
  · rename_i unknown
    split
    · rename_i same
      rw [← same, unknown]
      rfl
    · rfl
  · rename_i q found
    simp [Dict.get?_set, found]

theorem queue_withQueue (known : e.quotas.get? t ≠ none) :
    (e.withQueue t requests).queue u = if t = u then requests else e.queue u := by
  unfold queue
  rw [get?_withQueue]
  split
  · obtain ⟨q, found⟩ := Option.ne_none_iff_exists'.mp known
    simp [found]
  · rfl

theorem weightOf_config (e : QuotaEnforcer κ ρ) (t : κ) :
    e.weightOf t = ((e.configOf t).map (·.2.2)).getD 0 := by
  simp [weightOf, configOf, Function.comp_def]

theorem weightOf_congr {e e' : QuotaEnforcer κ ρ} (same : e'.configOf t = e.configOf t) :
    e'.weightOf t = e.weightOf t := by
  rw [weightOf_config, weightOf_config, same]

@[simp] theorem configOf_withQueue : (e.withQueue t requests).configOf u = e.configOf u := by
  unfold configOf
  rw [get?_withQueue]
  split
  · rename_i same
    subst same
    cases e.quotas.get? t <;> rfl
  · rfl

variable {P : ℕ → TenantQuota ρ → Prop}

theorem Lasting.withQueue (lasting : Lasting clock P) (requests : List ρ)
    (holds : e.Holds u P) : (e.withQueue t requests).Holds u P := by
  obtain ⟨q, found, property⟩ := holds
  unfold Holds
  rw [get?_withQueue, readings_withQueue]
  split
  · rename_i same
    exact ⟨_, by rw [same, found]; rfl, lasting.queue requests property⟩
  · exact ⟨q, found, property⟩

theorem known_of_queue (queued : e.queue t ≠ []) : e.quotas.get? t ≠ none := by
  intro unknown
  simp [queue, unknown] at queued

/-! ### One candidate -/

variable {q : TenantQuota ρ}

theorem weightOf_eq (found : e.quotas.get? t = some q) : e.weightOf t = q.weight := by
  simp [weightOf, found]

@[simp] theorem deficitOf_credit (weight : ℚ) :
    (e.credit u weight).deficitOf t
      = e.deficitOf t + if u = t then weight * quantum else 0 := by
  unfold credit deficitOf
  rw [Dict.getD_set]
  split
  · rename_i same
    subst same
    rfl
  · simp

theorem consider_unknown (unknown : pass.1.quotas.get? u = none) :
    consider clock minTokens pass u = pass := by
  simp [consider, unknown]

theorem consider_known (clock : ℕ → Time) (minTokens : ℚ) (found : pass.1.quotas.get? u = some q) :
    consider clock minTokens pass u = (pass.1.credit u q.weight, pass.2) ∧
        ¬ (minTokens ≤ (pass.1.credit u q.weight).deficitOf u ∧ q.queuedRequests ≠ []) ∨
      consider clock minTokens pass u
          = (((pass.1.credit u q.weight).check clock u q minTokens).2, pass.2) ∧
        ¬ (minTokens ≤ (q.refill (clock pass.1.readings)).tokens ∧
          ∀ b ∈ pass.2, (pass.1.credit u q.weight).deficitOf b
            < (pass.1.credit u q.weight).deficitOf u) ∨ consider clock minTokens pass u
          = (((pass.1.credit u q.weight).check clock u q minTokens).2, some u) ∧
        minTokens ≤ (pass.1.credit u q.weight).deficitOf u ∧ q.queuedRequests ≠ [] ∧
          ∀ b ∈ pass.2, (pass.1.credit u q.weight).deficitOf b
            < (pass.1.credit u q.weight).deficitOf u := by
  obtain ⟨e, best⟩ := pass
  have passes : ((e.credit u q.weight).check clock u q minTokens).1 = true
      ↔ minTokens ≤ (q.refill (clock e.readings)).tokens :=
    decide_eq_true_iff
  have better : (best.all fun b => decide
        (((e.credit u q.weight).check clock u q minTokens).2.deficitOf b
          < ((e.credit u q.weight).check clock u q minTokens).2.deficitOf u)) = true
      ↔ ∀ b ∈ best, (e.credit u q.weight).deficitOf b < (e.credit u q.weight).deficitOf u := by
    cases best with
    | none => simp
    | some b =>
      refine decide_eq_true_iff.trans ⟨?_, fun all => all b rfl⟩
      rintro above _ ⟨⟩
      exact above
  dsimp only at found ⊢
  simp only [consider, found, passes, better]
  split
  · rename_i ready
    split
    · rename_i best'
      exact .inr (.inr ⟨rfl, ready.1, ready.2, best'.2⟩)
    · rename_i worse
      exact .inr (.inl ⟨rfl, worse⟩)
  · rename_i unready
    exact .inl ⟨rfl, unready⟩

@[simp] theorem consider_deficitOf :
    (consider clock minTokens pass u).1.deficitOf t
      = pass.1.deficitOf t + if u = t then pass.1.weightOf t * quantum else 0 := by
  cases found : pass.1.quotas.get? u with
  | none =>
    rw [consider_unknown found]
    split
    · rename_i same
      subst same
      simp [weightOf, found]
    · simp
  | some q =>
    have credited : (pass.1.credit u q.weight).deficitOf t
        = pass.1.deficitOf t + if u = t then pass.1.weightOf t * quantum else 0 := by
      rw [deficitOf_credit]
      split
      · rename_i same
        subst same
        rw [weightOf_eq found]
      · rfl
    obtain ⟨equal, -⟩ | ⟨equal, -⟩ | ⟨equal, -⟩ := consider_known clock minTokens found
    all_goals rw [equal]; exact credited

theorem Lasting.check (lasting : Lasting clock P) {q : TenantQuota ρ}
    (found : e.quotas.get? u = some q) (holds : e.Holds t P) (tokens : ℚ) :
    (e.check clock u q tokens).2.Holds t P := by
  obtain ⟨p, foundT, property⟩ := holds
  unfold Holds QuotaEnforcer.check
  dsimp only
  rw [Dict.get?_set]
  split
  · rename_i same
    subst same
    obtain rfl := Option.some.inj (found.symm.trans foundT)
    exact ⟨_, rfl, lasting.refill property⟩
  · exact ⟨p, foundT, lasting.wait property⟩

theorem Lasting.consider (lasting : Lasting clock P)
    (holds : pass.1.Holds t P) : (QuotaEnforcer.consider clock minTokens pass u).1.Holds t P := by
  cases found : pass.1.quotas.get? u with
  | none => rwa [consider_unknown found]
  | some q =>
    obtain ⟨equal, -⟩ | ⟨equal, -⟩ | ⟨equal, -⟩ := consider_known clock minTokens found
    · rw [equal]
      exact holds
    · rw [equal]
      exact lasting.check found holds minTokens
    · rw [equal]
      exact lasting.check found holds minTokens

theorem consider_view {β : Type} {view : TenantQuota ρ → β}
    (kept : ∀ q now, view (q.refill now) = view q) :
    ((QuotaEnforcer.consider clock minTokens pass u).1.quotas.get? t).map view
      = (pass.1.quotas.get? t).map view := by
  cases found : pass.1.quotas.get? u with
  | none => rw [consider_unknown found]
  | some q =>
    have checked :
        (((pass.1.credit u q.weight).check clock u q minTokens).2.quotas.get? t).map view
          = (pass.1.quotas.get? t).map view := by
      unfold QuotaEnforcer.check
      dsimp only
      rw [Dict.get?_set]
      split
      · rename_i same
        subst same
        rw [found]
        exact congrArg some (kept q _)
      · rfl
    obtain ⟨equal, -⟩ | ⟨equal, -⟩ | ⟨equal, -⟩ := consider_known clock minTokens found
    · rw [equal]
      rfl
    · rw [equal, checked]
    · rw [equal, checked]

@[simp] theorem consider_queue :
    (QuotaEnforcer.consider clock minTokens pass u).1.queue t = pass.1.queue t :=
  congrArg (Option.getD · []) (consider_view (refill_queuedRequests · ·))

@[simp] theorem consider_configOf :
    (QuotaEnforcer.consider clock minTokens pass u).1.configOf t = pass.1.configOf t :=
  consider_view fun _ _ => rfl

@[simp] theorem consider_weightOf :
    (QuotaEnforcer.consider clock minTokens pass u).1.weightOf t = pass.1.weightOf t :=
  weightOf_congr consider_configOf

theorem consider_best (clock : ℕ → Time) (minTokens : ℚ) (pass : QuotaEnforcer κ ρ × Option κ)
    (u : κ) : (QuotaEnforcer.consider clock minTokens pass u).2 = pass.2 ∨
      (QuotaEnforcer.consider clock minTokens pass u).2 = some u ∧ pass.1.queue u ≠ [] ∧
        minTokens ≤ (QuotaEnforcer.consider clock minTokens pass u).1.deficitOf u ∧
        ∀ b ∈ pass.2, (QuotaEnforcer.consider clock minTokens pass u).1.deficitOf b
          < (QuotaEnforcer.consider clock minTokens pass u).1.deficitOf u := by
  cases found : pass.1.quotas.get? u with
  | none => exact .inl (by rw [consider_unknown found])
  | some q =>
    obtain ⟨equal, -⟩ | ⟨equal, -⟩ | ⟨equal, enough, queued, above⟩ :=
      consider_known clock minTokens found
    · exact .inl (by rw [equal])
    · exact .inl (by rw [equal])
    · rw [equal]
      exact .inr ⟨rfl, by simpa [queue, found] using queued, enough, above⟩

/-- The bucket holds the tokens, when it is refilled next. -/
def HasQuota (clock : ℕ → Time) (minTokens : ℚ) (i : ℕ) (q : TenantQuota ρ) : Prop :=
  0 ≤ q.tokensPerMinute ∧ minTokens ≤ (q.refill (clock i)).tokens

theorem HasQuota.lasting (ticks : Monotone clock) :
    Lasting clock (HasQuota (ρ := ρ) clock minTokens) where
  wait {i q} quota := by
    refine ⟨quota.1, quota.2.trans (min_le_min_left _ ?_)⟩
    have more : clock i - q.lastRefill ≤ clock (i + 1) - q.lastRefill :=
      sub_le_sub_right (ticks (Nat.le_succ i)) _
    have rate : 0 ≤ q.tokensPerMinute / 60 := div_nonneg quota.1 (by norm_num)
    exact add_le_add_right (mul_le_mul_of_nonneg_right more rate) _
  refill {i q} quota := by
    refine ⟨quota.1, quota.2.trans ?_⟩
    have later : 0 ≤ clock (i + 1) - clock i := sub_nonneg.mpr (ticks (Nat.le_succ i))
    have rate : 0 ≤ q.tokensPerMinute / 60 := div_nonneg quota.1 (by norm_num)
    exact le_min (min_le_left _ _) (le_add_of_nonneg_right (mul_nonneg later rate))
  queue _ quota := quota

/-- A tenant that can be served once its deficit allows it. -/
def Ready (clock : ℕ → Time) (minTokens : ℚ) (e : QuotaEnforcer κ ρ) (t : κ) : Prop :=
  e.queue t ≠ [] ∧ e.Holds t (HasQuota clock minTokens)

theorem Ready.consider (ticks : Monotone clock) (ready : Ready clock minTokens pass.1 t) :
    Ready clock minTokens (QuotaEnforcer.consider clock minTokens pass u).1 t :=
  ⟨by simpa using ready.1, (HasQuota.lasting ticks).consider ready.2⟩

theorem consider_ready (ready : Ready clock minTokens pass.1 u)
    (enough : minTokens ≤ (QuotaEnforcer.consider clock minTokens pass u).1.deficitOf u) :
    ∃ b, (QuotaEnforcer.consider clock minTokens pass u).2 = some b ∧
      (QuotaEnforcer.consider clock minTokens pass u).1.deficitOf u
        ≤ (QuotaEnforcer.consider clock minTokens pass u).1.deficitOf b := by
  obtain ⟨queued, q, found, quota⟩ := ready
  have nonempty : q.queuedRequests ≠ [] := by simpa [queue, found] using queued
  obtain ⟨equal, unready⟩ | ⟨equal, worse⟩ | ⟨equal, -⟩ :=
    consider_known clock minTokens found
  · rw [equal] at enough
    exact absurd ⟨enough, nonempty⟩ unready
  · -- the check passes, so another one is at least as good
    have other : ∃ b ∈ pass.2,
        (pass.1.credit u q.weight).deficitOf u ≤ (pass.1.credit u q.weight).deficitOf b := by
      by_contra none_above
      push Not at none_above
      exact worse ⟨quota.2, none_above⟩
    obtain ⟨b, isBest, above⟩ := other
    rw [equal]
    exact ⟨b, isBest, above⟩
  · rw [equal]
    exact ⟨u, rfl, le_rfl⟩

/-! ### All candidates -/

abbrev scan (clock : ℕ → Time) (minTokens : ℚ) (cs : List κ)
    (pass : QuotaEnforcer κ ρ × Option κ) : QuotaEnforcer κ ρ × Option κ :=
  cs.foldl (QuotaEnforcer.consider clock minTokens) pass

/-- The deficits after the credits of a slot. -/
def raised (e : QuotaEnforcer κ ρ) (cs : List κ) (t : κ) : ℚ :=
  e.deficitOf t + if t ∈ cs then e.weightOf t * quantum else 0

section

variable {cs : List κ}

theorem Lasting.scan (lasting : Lasting clock P) (pass : QuotaEnforcer κ ρ × Option κ)
    (holds : pass.1.Holds t P) : (Quota.scan clock minTokens cs pass).1.Holds t P := by
  induction cs generalizing pass with
  | nil => exact holds
  | cons u cs ih => exact ih _ (lasting.consider holds)

theorem scan_queue (pass : QuotaEnforcer κ ρ × Option κ) :
    (scan clock minTokens cs pass).1.queue t = pass.1.queue t := by
  induction cs generalizing pass with
  | nil => rfl
  | cons u cs ih => exact (ih _).trans consider_queue

theorem scan_configOf (pass : QuotaEnforcer κ ρ × Option κ) :
    (scan clock minTokens cs pass).1.configOf t = pass.1.configOf t := by
  induction cs generalizing pass with
  | nil => rfl
  | cons u cs ih => exact (ih _).trans consider_configOf

theorem raised_consider (clock : ℕ → Time) (minTokens : ℚ) (first : u ∉ cs) :
    raised (QuotaEnforcer.consider clock minTokens pass u).1 cs t = raised pass.1 (u :: cs) t := by
  simp only [raised, consider_deficitOf, consider_weightOf, List.mem_cons]
  by_cases same : u = t
  · subst same
    simp [first]
  · simp [same, Ne.symm same]

theorem scan_deficitOf (pass : QuotaEnforcer κ ρ × Option κ) (distinct : cs.Nodup) :
    (scan clock minTokens cs pass).1.deficitOf t = raised pass.1 cs t := by
  induction cs generalizing pass with
  | nil => simp [scan, raised]
  | cons u cs ih =>
    obtain ⟨first, distinct⟩ := List.nodup_cons.mp distinct
    exact (ih _ distinct).trans (raised_consider clock minTokens first)

theorem scan_best (pass : QuotaEnforcer κ ρ × Option κ) (distinct : cs.Nodup) {b : κ}
    (isBest : (scan clock minTokens cs pass).2 = some b) :
    pass.2 = some b ∨ b ∈ cs ∧ pass.1.queue b ≠ [] ∧ minTokens ≤ raised pass.1 cs b := by
  induction cs generalizing pass with
  | nil => exact .inl isBest
  | cons u cs ih =>
    obtain ⟨first, distinct⟩ := List.nodup_cons.mp distinct
    obtain earlier | ⟨member, queued, enough⟩ := ih _ distinct isBest
    · obtain same | ⟨becomes, queued, enough, -⟩ :=
        consider_best clock minTokens pass u
      · exact .inl (same.symm.trans earlier)
      · obtain rfl : u = b := Option.some.inj (becomes.symm.trans earlier)
        refine .inr ⟨List.mem_cons_self, queued, ?_⟩
        rw [← raised_consider clock minTokens first]
        simpa [raised, first] using enough
    · rw [raised_consider clock minTokens first] at enough
      exact .inr ⟨List.mem_cons_of_mem u member, by simpa using queued, enough⟩

theorem scan_not_below (distinct : cs.Nodup) (apart : ∀ b ∈ pass.2, b ∉ cs) {b : κ}
    (isBest : pass.2 = some b) : ∃ b', (scan clock minTokens cs pass).2 = some b' ∧
      pass.1.deficitOf b ≤ (scan clock minTokens cs pass).1.deficitOf b' := by
  induction cs generalizing pass b with
  | nil => exact ⟨b, isBest, le_rfl⟩
  | cons u cs ih =>
    obtain ⟨first, distinct⟩ := List.nodup_cons.mp distinct
    have other : u ≠ b := by
      rintro rfl
      exact apart u isBest List.mem_cons_self
    obtain same | ⟨becomes, -, -, above⟩ :=
      consider_best clock minTokens pass u
    · have apart' : ∀ b ∈ (consider clock minTokens pass u).2, b ∉ cs := by
        rw [same]
        exact fun b isBest inCs => apart b isBest (List.mem_cons_of_mem u inCs)
      simpa [other] using ih distinct apart' (same.trans isBest)
    · have apart' : ∀ b ∈ (consider clock minTokens pass u).2, b ∉ cs := by
        rw [becomes]
        rintro _ ⟨⟩
        exact first
      obtain ⟨b', isBest', higher⟩ := ih distinct apart' becomes
      refine ⟨b', isBest', ?_⟩
      have := above b isBest
      rw [consider_deficitOf, if_neg other, add_zero] at this
      exact this.le.trans higher

theorem scan_ready (pass : QuotaEnforcer κ ρ × Option κ)
    (ticks : Monotone clock) (distinct : cs.Nodup) (apart : ∀ b ∈ pass.2, b ∉ cs)
    (member : t ∈ cs) (ready : Ready clock minTokens pass.1 t)
    (enough : minTokens ≤ raised pass.1 cs t) : ∃ b, (scan clock minTokens cs pass).2 = some b ∧
      raised pass.1 cs t ≤ (scan clock minTokens cs pass).1.deficitOf b := by
  induction cs generalizing pass with
  | nil => simp at member
  | cons u cs ih =>
    obtain ⟨first, others⟩ := List.nodup_cons.mp distinct
    have apart' : ∀ b ∈ (consider clock minTokens pass u).2, b ∉ cs := by
      obtain same | ⟨becomes, -⟩ :=
        consider_best clock minTokens pass u
      · rw [same]
        exact fun b isBest inCs => apart b isBest (List.mem_cons_of_mem u inCs)
      · rw [becomes]
        rintro _ ⟨⟩
        exact first
    rw [← raised_consider clock minTokens first] at enough ⊢
    obtain rfl | later := List.mem_cons.mp member
    · have alone : raised (consider clock minTokens pass t).1 cs t
          = (consider clock minTokens pass t).1.deficitOf t := by
        simp [raised, first]
      rw [alone] at enough ⊢
      obtain ⟨b, isBest, higher⟩ := consider_ready ready enough
      obtain ⟨b', isBest', higher'⟩ := scan_not_below others apart' isBest
      exact ⟨b', isBest', higher.trans higher'⟩
    · exact ih _ others apart' later (ready.consider ticks) enough

end

/-! ### One slot -/

/-- The slot goes to nobody: who is ready has too small a deficit. -/
structure Skipped (clock : ℕ → Time) (minTokens : ℚ) (cs : List κ) (e e' : QuotaEnforcer κ ρ) :
    Prop where
  queue : ∀ t, e'.queue t = e.queue t
  configOf : ∀ t, e'.configOf t = e.configOf t
  deficitOf : ∀ t, e'.deficitOf t = raised e cs t
  low : ∀ t ∈ cs, Ready clock minTokens e t → raised e cs t < minTokens
  holds : ∀ {t P}, Lasting clock P → e.Holds t P → e'.Holds t P

/-- The slot goes to the first request of a tenant. -/
structure Served (clock : ℕ → Time) (minTokens : ℚ) (cs : List κ) (e : QuotaEnforcer κ ρ) (b : κ)
    (request : ρ) (e' : QuotaEnforcer κ ρ) : Prop where
  member : b ∈ cs
  head : e.queue b = request :: e'.queue b
  queue : ∀ t, t ≠ b → e'.queue t = e.queue t
  configOf : ∀ t, e'.configOf t = e.configOf t
  deficitOf : ∀ t, e'.deficitOf t = if t = b then raised e cs t - minTokens else raised e cs t
  enough : minTokens ≤ raised e cs b
  highest : ∀ t ∈ cs, Ready clock minTokens e t → raised e cs t ≤ raised e cs b
  holds : ∀ {t P}, Lasting clock P → e.Holds t P → e'.Holds t P

section

variable {cs : List κ} (ticks : Monotone clock) (distinct : cs.Nodup)

include ticks distinct

theorem skipped_scan (nobody : (scan clock minTokens cs (e, none)).2 = none) :
    Skipped clock minTokens cs e (scan clock minTokens cs (e, none)).1 where
  queue _ := scan_queue (e, none)
  configOf _ := scan_configOf (e, none)
  deficitOf _ := scan_deficitOf (e, none) distinct
  low t member ready := by
    by_contra enough
    obtain ⟨b, isBest, -⟩ :=
      scan_ready (e, none) ticks distinct (by simp) member ready (not_lt.mp enough)
    rw [nobody] at isBest
    cases isBest
  holds lasting holds := lasting.scan (e, none) holds

theorem served_scan {b : κ} {request : ρ} {rest : List ρ}
    (isBest : (scan clock minTokens cs (e, none)).2 = some b)
    (queued : e.queue b = request :: rest) : Served clock minTokens cs e b request
      (((scan clock minTokens cs (e, none)).1.withQueue b rest).charge b minTokens) := by
  obtain absurd' | ⟨member, nonempty, enough⟩ := scan_best (e, none) distinct isBest
  · cases absurd'
  have known : (scan clock minTokens cs (e, none)).1.quotas.get? b ≠ none :=
    known_of_queue (by rw [scan_queue]; exact nonempty)
  have queues (t : κ) :
      (((scan clock minTokens cs (e, none)).1.withQueue b rest).charge b minTokens).queue t
        = if b = t then rest else e.queue t := by
    refine (queue_withQueue rest known).trans ?_
    rw [scan_queue]
  refine ⟨member, ?_, fun t other => ?_, fun t => ?_, fun t => ?_, enough, fun t inCs ready => ?_,
    fun lasting holds => lasting.withQueue rest (lasting.scan (e, none) holds)⟩
  · rw [queues, if_pos rfl, queued]
  · rw [queues, if_neg (Ne.symm other)]
  · exact (configOf_withQueue rest).trans (scan_configOf (e, none))
  · have charged (f : QuotaEnforcer κ ρ) : (f.charge b minTokens).deficitOf t
        = if t = b then f.deficitOf t - minTokens else f.deficitOf t := by
      refine (Dict.getD_set _ _ _ _ _).trans ?_
      by_cases same : b = t
      · subst same
        simp
      · simp [same, Ne.symm same, deficitOf]
    rw [charged, deficitOf_withQueue, scan_deficitOf (e, none) distinct]
  · -- who has too small a deficit is below the best one in any case
    by_cases has : minTokens ≤ raised e cs t
    · obtain ⟨b', isBest', higher⟩ := scan_ready (e, none) ticks distinct (by simp) inCs ready has
      obtain rfl : b = b' := Option.some.inj (isBest.symm.trans isBest')
      rwa [scan_deficitOf (e, none) distinct] at higher
    · exact (not_le.mp has).le.trans enough

theorem slot_spec :
    (∃ e', e.slot clock minTokens cs = (none, e') ∧ Skipped clock minTokens cs e e') ∨
      ∃ b request e', e.slot clock minTokens cs = (some (b, request), e') ∧
        Served clock minTokens cs e b request e' := by
  cases isBest : (scan clock minTokens cs (e, none)).2 with
  | none =>
    exact .inl ⟨_, by simp [slot, isBest], skipped_scan ticks distinct isBest⟩
  | some b =>
    obtain absurd' | ⟨-, nonempty, -⟩ := scan_best (e, none) distinct isBest
    · cases absurd'
    obtain ⟨request, rest, queued⟩ := List.exists_cons_of_ne_nil nonempty
    refine .inr ⟨b, request, _, ?_, served_scan ticks distinct isBest queued⟩
    have queued' : (scan clock minTokens cs (e, none)).1.queue b = request :: rest :=
      (scan_queue (e, none)).trans queued
    simp [slot, isBest, queued']

/-- What holds of no slots, of a slot that goes to nobody and, with the slots after it, of one that
goes to a tenant, holds of a batch. -/
theorem fill_induction {I : ℕ → QuotaEnforcer κ ρ → List (κ × ρ) → QuotaEnforcer κ ρ → Prop}
    (none_left : ∀ e, I 0 e [] e)
    (skipped : ∀ {n e e'}, Skipped clock minTokens cs e e' → I (n + 1) e [] e')
    (served : ∀ {n e b request e' released e''}, Served clock minTokens cs e b request e' →
      I n e' released e'' → I (n + 1) e ((b, request) :: released) e'') (n : ℕ)
    (e : QuotaEnforcer κ ρ) :
    I n e (fill clock minTokens cs n e).1 (fill clock minTokens cs n e).2 := by
  induction n generalizing e with
  | zero => exact none_left e
  | succ n ih =>
    obtain ⟨e', result, skip⟩ | ⟨b, request, e', result, serve⟩ :=
      slot_spec (e := e) ticks distinct
    · unfold fill
      rw [result]
      exact skipped skip
    · unfold fill
      rw [result]
      exact served serve (ih e')

end

theorem nodup_candidates : e.candidates.Nodup := e.quotas.distinct.filter _

theorem mem_candidates : t ∈ e.candidates ↔ e.queue t ≠ [] := by
  have known (queued : e.queue t ≠ []) : t ∈ e.quotas.keys :=
    (e.quotas.mem_keys_iff).mpr (Option.ne_none_iff_exists'.mp (known_of_queue queued))
  simp only [candidates, List.mem_filter, Bool.not_eq_true', List.isEmpty_eq_false_iff]
  exact ⟨And.right, fun queued => ⟨known queued, queued⟩⟩

theorem selectNext_eq (availableSlots : ℤ) : e.selectNext clock availableSlots minTokens
      = fill clock minTokens e.candidates availableSlots.toNat e := by
  unfold selectNext
  split
  · rename_i empty
    rw [empty]
    cases availableSlots.toNat <;> rfl
  · rfl

end DistLLM.Quota
