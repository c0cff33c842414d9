import DistLLM.Library.Dict
import Mathlib.Algebra.GroupWithZero.Nat
import Mathlib.Algebra.Order.BigOperators.Group.List

/-!
# Dictionaries that are filled in a loop

A loop over distinct keys writes its entries in order. A dictionary of counts adds up to the number
of increments it has seen.
-/
namespace DistLLM.Library.Dict

variable {α κ ν : Type} [DecidableEq κ]

theorem get?_eq_none_iff (d : Dict κ ν) {k : κ} : d.get? k = none ↔ k ∉ d.keys := by
  rw [mem_keys_iff, Option.eq_none_iff_forall_ne_some, not_exists]

theorem keys_set (d : Dict κ ν) (k : κ) (v : ν) :
    (d.set k v).keys = if k ∈ d.keys then d.keys else d.keys ++ [k] :=
  keys_setEntries k v d.entries

theorem entries_foldl_set (key : α → κ) (value : α → ν) (items : List α) (d : Dict κ ν)
    (distinct : (d.keys ++ items.map key).Nodup) :
    (items.foldl (fun d a => d.set (key a) (value a)) d).entries =
      d.entries ++ items.map fun a => (key a, value a) := by
  induction items generalizing d with
  | nil => simp
  | cons a rest ih =>
    have absent : key a ∉ d.keys := by
      intro present
      exact (List.nodup_append.mp distinct).2.2 _ present _ (List.mem_cons_self ..) rfl
    have grown : (d.set (key a) (value a)).keys = d.keys ++ [key a] := by
      rw [keys_set, if_neg absent]
    rw [List.foldl_cons, ih _ (by simpa [grown] using distinct),
      entries_set_of_absent d _ _ ((get?_eq_none_iff d).mpr absent), List.map_cons,
      List.append_assoc, List.singleton_append]

theorem sum_getD_keys (d : Dict κ Nat) : (d.keys.map fun k => d.getD k 0).sum = d.values.sum := by
  have same : d.keys.map (fun k => d.getD k 0) = d.values := by
    rw [keys, values, List.map_map]
    refine List.map_congr_left fun entry member => ?_
    have found := (d.mem_entries_iff entry.1 entry.2).mp member
    simp [getD, found]
  rw [same]

theorem sum_getD_of_perm (d : Dict κ Nat) {ks : List κ} (perm : ks.Perm d.keys) :
    (ks.map fun k => d.getD k 0).sum = d.values.sum :=
  (perm.map _).sum_eq.trans d.sum_getD_keys

theorem foldl_increment (ks : List κ) (d : Dict κ Nat) (inside : ∀ k ∈ ks, k ∈ d.keys) :
    let d' := ks.foldl (fun d k => d.set k (d.getD k 0 + 1)) d
    d'.keys = d.keys ∧ ∀ k, d'.getD k 0 = d.getD k 0 + ks.count k := by
  induction ks generalizing d with
  | nil => simp
  | cons k rest ih =>
    have here : k ∈ d.keys := inside k (List.mem_cons_self ..)
    have keys : (d.set k (d.getD k 0 + 1)).keys = d.keys := by rw [keys_set, if_pos here]
    obtain ⟨same, counts⟩ := ih (d.set k (d.getD k 0 + 1)) fun other later => by
      rw [keys]
      exact inside other (List.mem_cons_of_mem _ later)
    refine ⟨same.trans keys, fun other => ?_⟩
    rw [List.foldl_cons, counts, getD_set, List.count_cons]
    by_cases equal : k = other
    · simp only [equal, if_true, beq_self_eq_true]
      omega
    · simp [equal]

theorem sum_increment (d : Dict κ Nat) (k : κ) :
    (d.set k (d.getD k 0 + 1)).values.sum = d.values.sum + 1 := by
  have written := ((d.entries_set_perm_filterKeys k (d.getD k 0 + 1)).map Prod.snd).sum_eq
  cases found : d.get? k with
  | none =>
    simp [values, entries_set_of_absent d k _ found, getD, found]
  | some v =>
    have before := ((d.entries_perm_filterKeys k v found).map Prod.snd).sum_eq
    have old : d.getD k 0 = v := by simp [getD, found]
    rw [List.map_cons, List.sum_cons] at written before
    rw [values, values, written, before, old]
    omega

theorem sum_foldl_increment (ks : List κ) (d : Dict κ Nat) :
    (ks.foldl (fun d k => d.set k (d.getD k 0 + 1)) d).values.sum = d.values.sum + ks.length := by
  induction ks generalizing d with
  | nil => simp
  | cons k rest ih =>
    rw [List.foldl_cons, ih, sum_increment, List.length_cons]
    omega

end DistLLM.Library.Dict
