import Mathlib.Data.List.Nodup

/-!
# Insertion-ordered dictionaries

A finite map kept as the list of its entries in insertion order, with distinct
keys. Writing to a present key keeps its place and a new key goes last, so
iteration meets the keys in the order of their first insertion.
-/
namespace DistLLM.Library

/-- A dictionary: entries in insertion order, each key at most once. -/
structure Dict (κ ν : Type) where
  entries : List (κ × ν)
  distinct : (entries.map Prod.fst).Nodup

namespace Dict

variable {κ ν : Type}

/-! ### Entry lists -/

def lookupEntries [DecidableEq κ] (k : κ) : List (κ × ν) → Option ν
  | [] => none
  | (k', v) :: rest => if k' = k then some v else lookupEntries k rest

def setEntries [DecidableEq κ] (k : κ) (v : ν) : List (κ × ν) → List (κ × ν)
  | [] => [(k, v)]
  | (k', v') :: rest => if k' = k then (k', v) :: rest else (k', v') :: setEntries k v rest

theorem lookupEntries_setEntries [DecidableEq κ] (k k' : κ) (v : ν) (es : List (κ × ν)) :
    lookupEntries k' (setEntries k v es) = if k = k' then some v else lookupEntries k' es := by
  induction es with
  | nil => simp [setEntries, lookupEntries]
  | cons e rest ih =>
    obtain ⟨key, old⟩ := e
    by_cases same : key = k
    · subst key
      by_cases asked : k = k' <;> simp [setEntries, lookupEntries, asked]
    · by_cases asked : key = k'
      · subst key
        simp [setEntries, lookupEntries, same, Ne.symm same]
      · simp [setEntries, lookupEntries, same, asked, ih]

variable (d : Dict κ ν) (k : κ) (v : ν) (es : List (κ × ν))

theorem keys_setEntries [DecidableEq κ] :
    (setEntries k v es).map Prod.fst =
      if k ∈ es.map Prod.fst then es.map Prod.fst else es.map Prod.fst ++ [k] := by
  induction es with
  | nil => simp [setEntries]
  | cons e rest ih =>
    obtain ⟨key, old⟩ := e
    by_cases same : key = k
    · subst key
      simp [setEntries]
    · simp only [setEntries, same, if_false, List.map_cons, ih, List.mem_cons, Ne.symm same,
        false_or]
      split <;> simp

theorem nodup_setEntries [DecidableEq κ]
    (distinct : (es.map Prod.fst).Nodup) : ((setEntries k v es).map Prod.fst).Nodup := by
  rw [keys_setEntries]
  split
  · exact distinct
  · next absent =>
    refine distinct.append (List.nodup_singleton k) ?_
    intro key member single
    rw [List.mem_singleton] at single
    exact absent (single ▸ member)

theorem mem_of_lookupEntries [DecidableEq κ]
    (found : lookupEntries k es = some v) : (k, v) ∈ es := by
  induction es with
  | nil => simp [lookupEntries] at found
  | cons e rest ih =>
    obtain ⟨key, value⟩ := e
    by_cases same : key = k
    · have value_eq : value = v := by simpa [lookupEntries, same] using found
      simp [same, value_eq]
    · exact List.mem_cons_of_mem _ (ih (by simpa [lookupEntries, same] using found))

theorem lookupEntries_of_mem [DecidableEq κ] (distinct : (es.map Prod.fst).Nodup)
    (member : (k, v) ∈ es) : lookupEntries k es = some v := by
  induction es with
  | nil => simp at member
  | cons e rest ih =>
    obtain ⟨key, value⟩ := e
    simp only [List.map_cons, List.nodup_cons] at distinct
    rcases List.mem_cons.mp member with here | later
    · obtain ⟨rfl, rfl⟩ := Prod.mk.inj here
      simp [lookupEntries]
    · have other : key ≠ k := fun same =>
        distinct.1 (same ▸ List.mem_map_of_mem (f := Prod.fst) later)
      simpa [lookupEntries, other] using ih distinct.2 later

theorem lookupEntries_filter_keys [DecidableEq κ] (p : κ → Bool) (k : κ) (es : List (κ × ν)) :
    lookupEntries k (es.filter fun e => p e.1) =
      if p k = true then lookupEntries k es else none := by
  induction es with
  | nil => simp [lookupEntries]
  | cons e rest ih =>
    obtain ⟨key, value⟩ := e
    by_cases kept : p key = true <;> by_cases same : key = k
    · subst key; simp [lookupEntries, kept]
    · simp [lookupEntries, kept, same, ih]
    · subst key; simp [kept, ih]
    · simp [lookupEntries, kept, same, ih]

def empty : Dict κ ν := ⟨[], List.nodup_nil⟩

instance : EmptyCollection (Dict κ ν) := ⟨empty⟩

def keys : List κ := d.entries.map Prod.fst

def values : List ν := d.entries.map Prod.snd

def size : Nat := d.entries.length

def get? [DecidableEq κ] (d : Dict κ ν) (k : κ) : Option ν := lookupEntries k d.entries

def getD [DecidableEq κ] (d : Dict κ ν) (k : κ) (default : ν) : ν := (d.get? k).getD default

def set [DecidableEq κ] (d : Dict κ ν) (k : κ) (v : ν) : Dict κ ν :=
  ⟨setEntries k v d.entries, nodup_setEntries k v d.entries d.distinct⟩

def setDefault [DecidableEq κ] (d : Dict κ ν) (k : κ) (v : ν) : Dict κ ν :=
  match d.get? k with
  | some _ => d
  | none => d.set k v

def moveToEnd [DecidableEq κ] (d : Dict κ ν) (k : κ) : Dict κ ν :=
  match d.get? k with
  | some v =>
    ⟨(d.entries.filter fun e => decide (e.1 ≠ k)) ++ [(k, v)], by
      rw [List.map_append, List.nodup_append']
      refine ⟨d.distinct.sublist (List.filter_sublist.map _), List.nodup_singleton k, ?_⟩
      intro key member single
      obtain ⟨e, kept, rfl⟩ := List.mem_map.mp member
      simp only [List.map_singleton, List.mem_singleton] at single
      simp [single] at kept⟩
  | none => d

def update [DecidableEq κ] (d other : Dict κ ν) : Dict κ ν :=
  other.entries.foldl (fun d e => d.set e.1 e.2) d

def filterKeys (p : κ → Bool) : Dict κ ν :=
  ⟨d.entries.filter fun e => p e.1,
    d.distinct.sublist (List.filter_sublist.map Prod.fst)⟩

def mapValues (f : κ → ν → ν) : Dict κ ν :=
  ⟨d.entries.map fun e => (e.1, f e.1 e.2), by
    simpa [List.map_map, Function.comp_def] using d.distinct⟩

/-! ### Reading after writing -/

section Lemmas

variable [DecidableEq κ]

section

omit [DecidableEq κ]

@[simp] theorem entries_empty : (∅ : Dict κ ν).entries = [] := rfl

@[simp] theorem values_empty : (∅ : Dict κ ν).values = [] := rfl

theorem eq_empty_of_size {d : Dict κ ν} (none_held : d.size = 0) : d = ∅ := by
  obtain ⟨entries, distinct⟩ := d
  obtain rfl : entries = [] := List.length_eq_zero_iff.mp none_held
  rfl

end

@[simp] theorem get?_empty : (∅ : Dict κ ν).get? k = none := rfl

theorem get?_set (k k' : κ) (v : ν) :
    (d.set k v).get? k' = if k = k' then some v else d.get? k' :=
  lookupEntries_setEntries k k' v d.entries

@[simp] theorem get?_set_self : (d.set k v).get? k = some v := by
  simp [get?_set]

theorem get?_setDefault (k k' : κ) (v : ν) :
    (d.setDefault k v).get? k' = if k = k' then some ((d.get? k).getD v) else d.get? k' := by
  unfold setDefault
  cases present : d.get? k with
  | none => simp [get?_set]
  | some old =>
    by_cases same : k = k'
    · subst k'; simp [present]
    · simp [same]

theorem get?_update (d other : Dict κ ν) (k : κ) :
    (d.update other).get? k = (other.get? k).or (d.get? k) := by
  obtain ⟨entries, distinct⟩ := other
  simp only [update, get?]
  induction entries generalizing d with
  | nil => rfl
  | cons e rest ih =>
    obtain ⟨key, value⟩ := e
    simp only [List.map_cons, List.nodup_cons] at distinct
    have written := lookupEntries_setEntries key k value d.entries
    rw [List.foldl_cons, ih (d.set key value) distinct.2]
    simp only [set, written, lookupEntries]
    by_cases same : key = k
    · -- the key written first is not written again
      have absent : lookupEntries k rest = none := by
        by_contra present
        obtain ⟨v, found⟩ := Option.ne_none_iff_exists'.mp present
        have member := mem_of_lookupEntries k v rest found
        exact distinct.1 (same ▸ List.mem_map_of_mem (f := Prod.fst) member)
      simp [same, absent]
    · simp [same]

theorem get?_filterKeys (p : κ → Bool) (k : κ) :
    (d.filterKeys p).get? k = if p k = true then d.get? k else none :=
  lookupEntries_filter_keys p k d.entries

theorem getD_set (k k' : κ) (v default : ν) :
    (d.set k v).getD k' default = if k = k' then v else d.getD k' default := by
  unfold getD
  rw [get?_set]
  split <;> rfl

theorem getD_filterKeys (p : κ → Bool) (k : κ) (default : ν) :
    (d.filterKeys p).getD k default = if p k = true then d.getD k default else default := by
  unfold getD
  rw [get?_filterKeys]
  split <;> rfl

theorem mem_entries_iff : (k, v) ∈ d.entries ↔ d.get? k = some v :=
  ⟨lookupEntries_of_mem k v d.entries d.distinct, mem_of_lookupEntries k v d.entries⟩

theorem mem_keys_iff {k : κ} : k ∈ d.keys ↔ ∃ v, d.get? k = some v := by
  constructor
  · intro member
    obtain ⟨⟨_, v⟩, entry, rfl⟩ := List.mem_map.mp member
    exact ⟨v, (d.mem_entries_iff _ v).mp entry⟩
  · rintro ⟨v, found⟩
    exact List.mem_map.mpr ⟨(k, v), (d.mem_entries_iff k v).mpr found, rfl⟩

theorem mem_values_iff : v ∈ d.values ↔ ∃ k, d.get? k = some v := by
  constructor
  · intro member
    obtain ⟨⟨k, _⟩, entry, rfl⟩ := List.mem_map.mp member
    exact ⟨k, (d.mem_entries_iff k _).mp entry⟩
  · rintro ⟨k, found⟩
    exact List.mem_map.mpr ⟨(k, v), (d.mem_entries_iff k v).mpr found, rfl⟩

theorem get?_mapValues (f : κ → ν → ν) (k : κ) : (d.mapValues f).get? k = (d.get? k).map (f k) := by
  apply Option.ext
  intro v
  rw [← mem_entries_iff, Option.map_eq_some_iff]
  simp only [mapValues, List.mem_map, Prod.mk.injEq]
  constructor
  · rintro ⟨⟨k', v'⟩, member, rfl, rfl⟩
    exact ⟨v', (d.mem_entries_iff _ _).mp member, rfl⟩
  · rintro ⟨v', found, rfl⟩
    exact ⟨(k, v'), (d.mem_entries_iff _ _).mpr found, rfl, rfl⟩

theorem mapValues_eq_self {f : κ → ν → ν}
    (same : ∀ k v, d.get? k = some v → f k v = v) : d.mapValues f = d := by
  have entries : d.entries.map (fun e => (e.1, f e.1 e.2)) = d.entries := by
    conv_rhs => rw [← List.map_id d.entries]
    apply List.map_congr_left
    rintro ⟨k, v⟩ member
    rw [same k v ((d.mem_entries_iff k v).mp member)]
    rfl
  obtain ⟨entries_d, distinct⟩ := d
  simpa [mapValues] using entries

theorem entries_set_of_absent (absent : d.get? k = none) :
    (d.set k v).entries = d.entries ++ [(k, v)] := by
  have general (es : List (κ × ν)) (absent : lookupEntries k es = none) :
      setEntries k v es = es ++ [(k, v)] := by
    induction es with
    | nil => rfl
    | cons e rest ih =>
      obtain ⟨key, value⟩ := e
      by_cases same : key = k
      · simp [lookupEntries, same] at absent
      · simp only [lookupEntries, same, if_false] at absent
        simp [setEntries, same, ih absent]
  exact general d.entries absent

theorem entries_set_last {es : List (κ × ν)} {k : κ} {v : ν} (v' : ν)
    (entries : d.entries = es ++ [(k, v)]) : (d.set k v').entries = es ++ [(k, v')] := by
  have distinct := d.distinct
  rw [entries, List.map_append, List.nodup_append'] at distinct
  have general (es : List (κ × ν)) (absent : k ∉ es.map Prod.fst) :
      setEntries k v' (es ++ [(k, v)]) = es ++ [(k, v')] := by
    induction es with
    | nil => simp [setEntries]
    | cons e rest ih =>
      rw [List.map_cons, List.mem_cons, not_or] at absent
      simp [setEntries, Ne.symm absent.1, ih absent.2]
  have absent : k ∉ es.map Prod.fst := fun member => distinct.2.2 member (by simp)
  show setEntries k v' d.entries = _
  rw [entries, general es absent]

theorem filterKeys_of_absent {k : κ} (absent : d.get? k = none) :
    (d.filterKeys fun k' => decide (k' ≠ k)) = d := by
  have others : d.entries.filter (fun e => decide (e.1 ≠ k)) = d.entries := by
    apply List.filter_eq_self.mpr
    intro e member
    have other : e.1 ≠ k := by
      rintro rfl
      rw [(d.mem_entries_iff e.1 e.2).mp member] at absent
      cases absent
    simp [other]
  obtain ⟨entries, distinct⟩ := d
  simpa [filterKeys] using others

theorem entries_perm_filterKeys (found : d.get? k = some v) :
    d.entries.Perm ((k, v) :: (d.filterKeys fun k' => decide (k' ≠ k)).entries) := by
  obtain ⟨entries, distinct⟩ := d
  simp only [get?, filterKeys] at *
  induction entries with
  | nil => cases found
  | cons e rest ih =>
    obtain ⟨key, value⟩ := e
    simp only [List.map_cons, List.nodup_cons] at distinct
    by_cases same : key = k
    · subst key
      have value_eq : value = v := by simpa [lookupEntries] using found
      have kept : (rest.filter fun e => decide (e.1 ≠ k)) = rest := by
        refine List.filter_eq_self.mpr fun e member => ?_
        have other : e.1 ≠ k := fun equal =>
          distinct.1 (equal ▸ List.mem_map_of_mem (f := Prod.fst) member)
        simp [other]
      rw [List.filter_cons_of_neg (by simp), kept, value_eq]
    · have later : lookupEntries k rest = some v := by simpa [lookupEntries, same] using found
      have tail := (ih distinct.2 later).cons (key, value)
      simpa [same] using tail.trans (List.Perm.swap ..)

theorem entries_moveToEnd_perm : (d.moveToEnd k).entries.Perm d.entries := by
  unfold moveToEnd
  split
  next v found =>
    exact (List.perm_append_singleton _ _).trans (d.entries_perm_filterKeys k v found).symm
  next => exact .rfl

theorem get?_moveToEnd (k k' : κ) : (d.moveToEnd k).get? k' = d.get? k' := by
  apply Option.ext
  intro v
  rw [← mem_entries_iff, ← mem_entries_iff]
  exact (d.entries_moveToEnd_perm k).mem_iff

theorem filterKeys_perm {k : κ} {v : ν} {rest : List (κ × ν)}
    (entries : d.entries.Perm ((k, v) :: rest)) :
    (d.filterKeys fun k' => decide (k' ≠ k)).entries.Perm rest := by
  have found := (d.mem_entries_iff k v).mp (entries.mem_iff.mpr List.mem_cons_self)
  exact ((d.entries_perm_filterKeys k v found).symm.trans entries).cons_inv

theorem filter_setEntries : (setEntries k v es).filter (fun e => decide (e.1 ≠ k)) =
      es.filter fun e => decide (e.1 ≠ k) := by
  induction es with
  | nil => simp [setEntries]
  | cons e es ih =>
    obtain ⟨key, value⟩ := e
    by_cases same : key = k
    · simp [setEntries, same]
    · simpa [setEntries, same] using ih

theorem entries_set_perm_filterKeys :
    (d.set k v).entries.Perm ((k, v) :: (d.filterKeys fun k' => decide (k' ≠ k)).entries) := by
  have others : (d.set k v).filterKeys (fun k' => decide (k' ≠ k)) =
      d.filterKeys fun k' => decide (k' ≠ k) := by
    simp only [filterKeys, set, filter_setEntries]
  have written := (d.set k v).entries_perm_filterKeys k v (d.get?_set_self k v)
  rwa [others] at written

theorem entries_set_perm {k : κ} {v : ν} (v' : ν) {rest : List (κ × ν)}
    (entries : d.entries.Perm ((k, v) :: rest)) : (d.set k v').entries.Perm ((k, v') :: rest) := by
  exact (d.entries_set_perm_filterKeys k v').trans ((d.filterKeys_perm entries).cons _)

theorem entries_set_middle (before : List (κ × ν)) {k : κ} {v : ν} (v' : ν) {after : List (κ × ν)}
    (entries : (before ++ (k, v) :: after).Perm d.entries) :
    (before ++ (k, v') :: after).Perm (d.set k v').entries :=
  List.perm_middle.trans
    (d.entries_set_perm v' (entries.symm.trans List.perm_middle)).symm

theorem mem_flatten_values_iff {α : Type} (d : Dict κ (List α)) (a : α) :
    a ∈ d.values.flatten ↔ ∃ k, a ∈ d.getD k [] := by
  rw [List.mem_flatten]
  constructor
  · rintro ⟨l, member, inside⟩
    obtain ⟨k, found⟩ := (d.mem_values_iff l).mp member
    exact ⟨k, by rw [getD, found]; exact inside⟩
  · rintro ⟨k, inside⟩
    cases found : d.get? k with
    | none =>
      rw [getD, found] at inside
      cases inside
    | some l =>
      rw [getD, found] at inside
      exact ⟨l, (d.mem_values_iff l).mpr ⟨k, found⟩, inside⟩

end Lemmas

end Dict

end DistLLM.Library
