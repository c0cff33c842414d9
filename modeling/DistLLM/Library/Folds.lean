import Mathlib.Data.List.Basic
import Mathlib.Order.Lattice

/-!
# Loops that can raise, and loops that keep the least

Rules for folds in `Except`: what such a loop keeps, and when it is an ordinary fold. And the scan
that keeps the first least of several candidates.
-/
namespace DistLLM.Library

variable {α β γ ε : Type}

/-! ### Folds that can raise -/

variable {f : α → Except ε β} {b : β}

theorem bind_eq_ok_iff {x : Except ε α} :
    x.bind f = .ok b ↔ ∃ a, x = .ok a ∧ f a = .ok b := by
  cases x with
  | error e => simp [Except.bind]
  | ok a => simp [Except.bind]

variable {items : List α}

theorem foldlM_keeps {f : β → α → Except ε β} {I : β → Prop}
    (round : ∀ b, ∀ a ∈ items, ∀ b', I b → f b a = .ok b' → I b') {b' : β} (start : I b)
    (returns : items.foldlM f b = .ok b') : I b' := by
  induction items generalizing b with
  | nil =>
    obtain rfl : b = b' := Except.ok.inj returns
    exact start
  | cons a rest ih =>
    obtain ⟨next, first, later⟩ := bind_eq_ok_iff.mp (List.foldlM_cons.symm.trans returns)
    have kept := round b a List.mem_cons_self next start first
    exact ih (fun b a inside => round b a (List.mem_cons_of_mem _ inside)) kept later

theorem foldlM_returns {f : β → α → Except ε β} (I : List α → β → Prop)
    (round : ∀ seen a later b, items = seen ++ a :: later → I seen b →
      ∃ b', f b a = .ok b' ∧ I (seen ++ [a]) b') (start : I [] b) :
    ∃ b', items.foldlM f b = .ok b' ∧ I items b' := by
  have run : ∀ seen later b, items = seen ++ later → I seen b →
      ∃ b', later.foldlM f b = .ok b' ∧ I items b' := by
    intro seen later
    induction later generalizing seen with
    | nil =>
      intro b all holds
      rw [List.append_nil] at all
      exact ⟨b, rfl, all ▸ holds⟩
    | cons a later ih =>
      intro b all holds
      obtain ⟨next, first, then_⟩ := round seen a later b all holds
      obtain ⟨b', rest, ends⟩ := ih (seen ++ [a]) next (by simpa using all) then_
      rw [List.foldlM_cons, first]
      exact ⟨b', rest, ends⟩
  exact run [] items b rfl start

theorem foldlM_eq_ok {f : β → α → Except ε β} {g : γ → α → γ} (stands : γ → β)
    (round : ∀ c, ∀ a ∈ items, f (stands c) a = .ok (stands (g c a))) (c : γ) :
    items.foldlM f (stands c) = .ok (stands (items.foldl g c)) := by
  induction items generalizing c with
  | nil => rfl
  | cons a rest ih =>
    rw [List.foldlM_cons, round c a List.mem_cons_self]
    exact ih (fun c a later => round c a (List.mem_cons_of_mem _ later)) (g c a)

theorem foldlM_follows {f : β → α → Except ε β} {g : γ → α → Except ε γ} (R : β → γ → Prop)
    (round : ∀ b c, ∀ a ∈ items, ∀ b', R b c → f b a = .ok b' → ∃ c', g c a = .ok c' ∧ R b' c')
    {b' : β} {c : γ} (start : R b c) (returns : items.foldlM f b = .ok b') :
    ∃ c', items.foldlM g c = .ok c' ∧ R b' c' := by
  induction items generalizing b c with
  | nil =>
    obtain rfl : b = b' := Except.ok.inj returns
    exact ⟨c, rfl, start⟩
  | cons a rest ih =>
    obtain ⟨next, first, later⟩ := bind_eq_ok_iff.mp (List.foldlM_cons.symm.trans returns)
    obtain ⟨next', first', related⟩ := round b c a List.mem_cons_self next start first
    rw [List.foldlM_cons, first']
    exact ih (fun b c a inside => round b c a (List.mem_cons_of_mem _ inside)) related later

theorem mapM_eq_ok {g : α → β}
    (each : ∀ a ∈ items, f a = .ok (g a)) : items.mapM f = .ok (items.map g) := by
  induction items with
  | nil => rfl
  | cons a rest ih =>
    simp only [List.mapM_cons, each a List.mem_cons_self,
      ih fun a later => each a (List.mem_cons_of_mem _ later)]
    rfl

theorem mem_of_mapM_eq_ok {results : List β} (returns : items.mapM f = .ok results)
    (member : b ∈ results) : ∃ a ∈ items, f a = .ok b := by
  induction items generalizing results with
  | nil =>
    obtain rfl : [] = results := Except.ok.inj returns
    simp at member
  | cons a rest ih =>
    rw [List.mapM_cons] at returns
    obtain ⟨first, here, returns⟩ := bind_eq_ok_iff.mp returns
    obtain ⟨others, later, returns⟩ := bind_eq_ok_iff.mp returns
    obtain rfl : first :: others = results := Except.ok.inj returns
    rcases List.mem_cons.mp member with rfl | inside
    · exact ⟨a, List.mem_cons_self, here⟩
    · obtain ⟨a', among, there⟩ := ih later inside
      exact ⟨a', List.mem_cons_of_mem _ among, there⟩

theorem mapM_mapM_iff {g : β → Except ε γ} {R : α → γ → Prop} :
    (∃ middle results, items.mapM f = .ok middle ∧ middle.mapM g = .ok results ∧
        List.Forall₂ R items results) ↔ ∀ a ∈ items, ∃ b c, f a = .ok b ∧ g b = .ok c ∧ R a c := by
  induction items with
  | nil =>
    simp only [List.not_mem_nil, false_implies, implies_true, iff_true]
    exact ⟨[], [], rfl, rfl, .nil⟩
  | cons a rest ih =>
    rw [List.forall_mem_cons, ← ih]
    constructor
    · rintro ⟨middle, results, first, second, related⟩
      rw [List.mapM_cons] at first
      obtain ⟨b, here, first⟩ := bind_eq_ok_iff.mp first
      obtain ⟨later, others, first⟩ := bind_eq_ok_iff.mp first
      obtain rfl : b :: later = middle := Except.ok.inj first
      rw [List.mapM_cons] at second
      obtain ⟨c, there, second⟩ := bind_eq_ok_iff.mp second
      obtain ⟨last, others', second⟩ := bind_eq_ok_iff.mp second
      obtain rfl : c :: last = results := Except.ok.inj second
      obtain ⟨head, tail⟩ := List.forall₂_cons.mp related
      exact ⟨⟨b, c, here, there, head⟩, later, last, others, others', tail⟩
    · rintro ⟨⟨b, c, here, there, head⟩, later, last, others, others', tail⟩
      refine ⟨b :: later, c :: last, ?_, ?_, .cons head tail⟩
      · rw [List.mapM_cons, here, others]
        rfl
      · rw [List.mapM_cons, there, others']
        rfl

section Least

variable {F : Type} [LinearOrder F] (cost : α → Option F)

/-- A candidate replaces the best one so far when it is strictly cheaper. -/
def keepLess (best : Option (F × α)) (a : α) : Option (F × α) :=
  match cost a with
  | none => best
  | some c => if best.all fun least => c < least.1 then some (c, a) else best

def firstLeast (items : List α) : Option (F × α) := items.foldl (keepLess cost) none

/-- What the scan holds after `seen`: nothing if no candidate has a cost, else one of them with
the least cost. -/
def IsLeast (seen : List α) : Option (F × α) → Prop
  | none => ∀ a ∈ seen, cost a = none
  | some (c, a) => a ∈ seen ∧ cost a = some c ∧ ∀ b ∈ seen, ∀ d, cost b = some d → c ≤ d

variable {cost}

theorem IsLeast.keepLess {seen : List α} {best : Option (F × α)} (least : IsLeast cost seen best)
    (a : α) : IsLeast cost (seen ++ [a]) (keepLess cost best a) := by
  cases costs : cost a with
  | none =>
    simp only [Library.keepLess, costs]
    cases best with
    | none =>
      intro b member
      rcases List.mem_append.mp member with before | here
      · exact least b before
      · rw [List.mem_singleton.mp here, costs]
    | some kept =>
      obtain ⟨inside, priced, below⟩ := least
      constructor
      · exact List.mem_append_left _ inside
      · constructor
        · exact priced
        · intro b member d priced'
          rcases List.mem_append.mp member with before | here
          · exact below b before d priced'
          · rw [List.mem_singleton.mp here, costs] at priced'
            cases priced'
  | some c =>
    simp only [Library.keepLess, costs]
    -- the new one is least where it costs no more than those before
    have new : ∀ (before : ∀ b ∈ seen, ∀ d, cost b = some d → c ≤ d),
        IsLeast cost (seen ++ [a]) (some (c, a)) := by
      intro before
      constructor
      · simp
      · constructor
        · exact costs
        · intro b member d priced
          rcases List.mem_append.mp member with earlier | here
          · exact before b earlier d priced
          · rw [List.mem_singleton.mp here, costs] at priced
            exact le_of_eq (Option.some.inj priced)
    cases best with
    | none =>
      apply new
      intro b earlier d priced
      rw [least b earlier] at priced
      cases priced
    | some kept =>
      obtain ⟨inside, priced, below⟩ := least
      by_cases less : c < kept.1
      · simp only [Option.all_some, decide_eq_true less, if_true]
        exact new fun b earlier d priced' => le_trans (le_of_lt less) (below b earlier d priced')
      · simp only [Option.all_some, decide_eq_false less, Bool.false_eq_true, if_false]
        constructor
        · exact List.mem_append_left _ inside
        · constructor
          · exact priced
          · intro b member d priced'
            rcases List.mem_append.mp member with earlier | here
            · exact below b earlier d priced'
            · rw [List.mem_singleton.mp here, costs] at priced'
              cases priced'
              exact le_of_not_gt less

variable (cost) in
theorem firstLeast_isLeast (items : List α) : IsLeast cost items (firstLeast cost items) := by
  have run : ∀ seen best, IsLeast cost seen best →
      IsLeast cost (seen ++ items) (items.foldl (keepLess cost) best) := by
    induction items with
    | nil => simp
    | cons a rest ih =>
      intro seen best least
      simpa using ih (seen ++ [a]) _ (least.keepLess a)
  exact run [] none fun a member => absurd member List.not_mem_nil

end Least

end DistLLM.Library
