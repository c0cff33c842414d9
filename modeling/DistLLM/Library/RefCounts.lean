import DistLLM.Library.Dict
import Mathlib.Data.Finset.Basic
import Mathlib.Algebra.Order.Group.Multiset
import Mathlib.Algebra.Order.Ring.Int

/-!
# Reference counts

Cells with a reference count each and a list of the free ones. A pool is balanced against the
references that somebody holds when every count is the number of those references and the free
cells are the ones that nobody holds.
-/
namespace DistLLM.Library.RefCounts

variable {α : Type} [DecidableEq α]

structure Pool (α : Type) where
  refs : α → Int
  free : List α

namespace Pool

variable (pool : Pool α)

def retain (a : α) : Pool α := { pool with refs := Function.update pool.refs a (pool.refs a + 1) }

/-- One reference less; without any left the cell goes to the end of the free list. -/
def release (a : α) : Pool α :=
  if pool.refs a - 1 ≤ 0 then
    { refs := Function.update pool.refs a 0, free := pool.free ++ [a] }
  else { pool with refs := Function.update pool.refs a (pool.refs a - 1) }

/-- Take cells out of the free list, each with one reference. -/
def acquire (taken : List α) : Pool α :=
  { refs := fun a => if a ∈ taken then 1 else pool.refs a
    free := pool.free.filter fun a => decide (a ∉ taken) }

end Pool

structure Balanced (cells : Finset α) (pool : Pool α) (held : Multiset α) : Prop where
  counted : ∀ a, pool.refs a = held.count a
  distinct : pool.free.Nodup
  free_iff : ∀ a, a ∈ pool.free ↔ a ∈ cells ∧ a ∉ held
  inside : ∀ a ∈ held, a ∈ cells

variable {a : α}

namespace Balanced

variable {cells : Finset α} {pool : Pool α} {held held' : Multiset α}

section

variable (balanced : Balanced cells pool held)

include balanced

theorem free_iff_zero (a : α) :
    a ∈ pool.free ↔ a ∈ cells ∧ pool.refs a = 0 := by
  rw [balanced.free_iff, balanced.counted, ← Multiset.count_eq_zero]
  norm_cast

/-! ### Operations -/

theorem acquire {taken : List α} (once : taken.Nodup)
    (free : ∀ a ∈ taken, a ∈ pool.free) : Balanced cells (pool.acquire taken) (taken + held) where
  counted a := by
    by_cases here : a ∈ taken
    · -- a free cell is held by nobody
      have nobody := Multiset.count_eq_zero.mpr ((balanced.free_iff a).mp (free a here)).2
      simp [Pool.acquire, here, nobody, List.count_eq_one_of_mem once here]
    · simp [Pool.acquire, here, balanced.counted a]
  distinct := balanced.distinct.filter _
  free_iff a := by
    simp only [Pool.acquire, List.mem_filter, decide_eq_true_eq, balanced.free_iff,
      Multiset.mem_add, Multiset.mem_coe, not_or]
    tauto
  inside a member := by
    rcases Multiset.mem_add.mp member with new | old
    · exact ((balanced.free_iff a).mp (free a (Multiset.mem_coe.mp new))).1
    · exact balanced.inside a old

theorem pop {front : List α} (last : pool.free = front ++ [a]) :
    Balanced cells { refs := Function.update pool.refs a 1, free := front } (a ::ₘ held) := by
  have free : ∀ b ∈ [a], b ∈ pool.free := by simp [last]
  have acquired := balanced.acquire (List.nodup_singleton a) free
  have apart : ∀ b ∈ front, b ≠ a := by
    have distinct := balanced.distinct
    rw [last, List.nodup_append] at distinct
    exact fun b member => distinct.2.2 b member a (List.mem_singleton.mpr rfl)
  have same : pool.acquire [a] = { refs := Function.update pool.refs a 1, free := front } := by
    simp only [Pool.acquire, Pool.mk.injEq]
    constructor
    · funext b
      by_cases here : b = a <;> simp [here]
    · rw [last, List.filter_append]
      simpa using apart
  rwa [same] at acquired

theorem retain (member : a ∈ held) :
    Balanced cells (pool.retain a) (a ::ₘ held) where
  counted b := by
    by_cases here : b = a
    · subst here
      simp [Pool.retain, balanced.counted b]
    · simp [Pool.retain, here, balanced.counted b, Multiset.count_cons_of_ne here]
  distinct := balanced.distinct
  free_iff b := by
    rw [show (pool.retain a).free = pool.free from rfl, balanced.free_iff]
    by_cases here : b = a
    · subst here
      simp [member]
    · simp [here]
  inside b inside := by
    rcases Multiset.mem_cons.mp inside with rfl | old
    · exact balanced.inside b member
    · exact balanced.inside b old

end

theorem release (balanced : Balanced cells pool (a ::ₘ held)) :
    Balanced cells (pool.release a) held := by
  have count : pool.refs a = held.count a + 1 := by simp [balanced.counted a]
  have others : ∀ b, b ≠ a → pool.refs b = held.count b := by
    intro b here
    rw [balanced.counted b, Multiset.count_cons_of_ne here]
  by_cases last : a ∈ held
  · -- somebody else holds the cell, so it is not freed
    have still := Multiset.count_pos.mpr last
    have stays : ¬ pool.refs a - 1 ≤ 0 := by omega
    refine ⟨fun b => ?_, ?_, fun b => ?_, fun b inside => balanced.inside b (by simp [inside])⟩
    · by_cases here : b = a
      · subst here
        rw [Pool.release, if_neg stays]
        simp [count]
      · simp [Pool.release, stays, here, others b here]
    · simpa [Pool.release, stays] using balanced.distinct
    · simp only [Pool.release, stays, if_false, balanced.free_iff, Multiset.mem_cons]
      by_cases here : b = a
      · subst here
        simp [last]
      · simp [here]
  · have none := Multiset.count_eq_zero.mpr last
    have freed : pool.refs a - 1 ≤ 0 := by omega
    have taken : a ∉ pool.free := by simp [balanced.free_iff]
    refine ⟨fun b => ?_, ?_, fun b => ?_, fun b inside => balanced.inside b (by simp [inside])⟩
    · by_cases here : b = a
      · subst here
        simp [Pool.release, freed, none]
      · simp [Pool.release, freed, here, others b here]
    · simp only [Pool.release, freed, if_true]
      exact balanced.distinct.append (List.nodup_singleton a) (by simpa using taken)
    · simp only [Pool.release, freed, if_true, List.mem_append, List.mem_singleton,
        balanced.free_iff, Multiset.mem_cons]
      by_cases here : b = a
      · subst here
        simp [last, balanced.inside b (by simp)]
      · simp [here]

theorem retainAll (balanced : Balanced cells pool held) (l : List α) (inside : ∀ a ∈ l, a ∈ held) :
    Balanced cells (l.foldl Pool.retain pool) (l + held) := by
  induction l generalizing pool held with
  | nil => simpa using balanced
  | cons a rest ih =>
    have one := balanced.retain (inside a (by simp))
    have all := ih one fun b member => by simp [inside b (by simp [member])]
    have sum : (↑rest + a ::ₘ held : Multiset α) = ↑(a :: rest) + held := by
      simp [← Multiset.cons_coe]
    rwa [sum] at all

theorem releaseAll (l : List α) (balanced : Balanced cells pool (l + held)) :
    Balanced cells (l.foldl Pool.release pool) held := by
  induction l generalizing pool with
  | nil => simpa using balanced
  | cons a rest ih =>
    have one : Balanced cells (pool.release a) (rest + held) := by
      apply release
      simpa [← Multiset.cons_coe] using balanced
    exact ih one

end Balanced

section Tables

variable {κ ν : Type} [DecidableEq κ]

def references (f : ν → List α) (d : Dict κ ν) : Multiset α := (d.values.flatMap f : List α)

variable (f : ν → List α) (d : Dict κ ν)

section

omit [DecidableEq α]

theorem references_set (k : κ) (v : ν) :
    references f (d.set k v) + ((d.get? k).elim [] f : List α) = f v + references f d := by
  have general (es : List (κ × ν)) :
      (((Dict.setEntries k v es).map Prod.snd).flatMap f : Multiset α) +
          ((Dict.lookupEntries k es).elim [] f : List α) =
        f v + ((es.map Prod.snd).flatMap f : List α) := by
    induction es with
    | nil => simp [Dict.setEntries, Dict.lookupEntries]
    | cons e rest ih =>
      obtain ⟨key, old⟩ := e
      by_cases same : key = k
      · simp only [Dict.setEntries, Dict.lookupEntries, same, if_true, List.map_cons,
          List.flatMap_cons, ← Multiset.coe_add, Option.elim_some]
        rw [add_assoc, add_comm (Multiset.ofList (List.flatMap f _))]
      · simp only [Dict.setEntries, Dict.lookupEntries, same, if_false, List.map_cons,
          List.flatMap_cons, ← Multiset.coe_add]
        rw [add_assoc, ih, add_left_comm]
  exact general d.entries

theorem references_drop {k : κ} {v : ν} (found : d.get? k = some v) :
    references f d = f v + references f (d.filterKeys fun k' => decide (k' ≠ k)) := by
  have perm := ((d.entries_perm_filterKeys k v found).map Prod.snd).flatMap_right f
  simpa [references, Dict.values] using Multiset.coe_eq_coe.mpr perm

theorem mem_references_of_get? {f : ν → List α} {d : Dict κ ν} {k : κ} {v : ν}
    (found : d.get? k = some v) (member : a ∈ f v) : a ∈ references f d := by
  rw [references_drop f d found]
  simp [member]

theorem mem_references_iff {f : ν → List α} {d : Dict κ ν} :
    a ∈ references f d ↔ ∃ k v, d.get? k = some v ∧ a ∈ f v := by
  simp only [references, Multiset.mem_coe, List.mem_flatMap, Dict.mem_values_iff]
  tauto

end

omit [DecidableEq α] [DecidableEq κ] in
theorem references_mapValues {g : κ → ν → ν} {rename : α → α}
    (renames : ∀ k v, f (g k v) = (f v).map rename) :
    references f (d.mapValues g) = (references f d).map rename := by
  simp only [references, Dict.values, Dict.mapValues, Multiset.map_coe, List.map_map]
  congr 1
  induction d.entries with
  | nil => rfl
  | cons e rest ih => simp [List.flatMap_cons, renames, ih]

end Tables

end DistLLM.Library.RefCounts
