import Mathlib.Data.List.Rotate
import Mathlib.Data.List.Sort

/-!
# Sorted lists read as rings

A list sorted by a key, read clockwise from a point: first the elements from the point on, then
those before it. Elements with equal keys stay in the order in which they came.
-/
namespace DistLLM.Library.Clockwise

variable {α : Type} (key : α → Nat) (h : Nat) (p : α → Bool) (xs : List α)

def AtMost (a b : α) : Prop := key a ≤ key b

instance : DecidableRel (AtMost key) := fun a b => inferInstanceAs (Decidable (key a ≤ key b))

instance : IsTrans α (AtMost key) := ⟨fun _ _ _ => Nat.le_trans⟩

instance : Std.Total (AtMost key) := ⟨fun a b => Nat.le_total (key a) (key b)⟩

def Sorted : Prop := xs.Pairwise (AtMost key)

def clockwise : List α :=
  (xs.filter fun a => decide (h ≤ key a)) ++ xs.filter fun a => decide (key a < h)

def sort : List α := xs.insertionSort (AtMost key)

/-- Of the keys on the ring, `v` is the first one from the point on. -/
def Lands (v : Nat) : Prop :=
  (∃ a ∈ xs, key a = v) ∧
    ((h ≤ v ∧ ∀ a ∈ xs, h ≤ key a → v ≤ key a) ∨
      ((∀ a ∈ xs, key a < h) ∧ ∀ a ∈ xs, v ≤ key a))

variable {key h p xs}

theorem Sorted.split (sorted : Sorted key xs) :
    (xs.filter fun a => decide (key a < h)) ++ (xs.filter fun a => decide (h ≤ key a)) = xs := by
  induction xs with
  | nil => rfl
  | cons a rest ih =>
    obtain ⟨first, later⟩ := List.pairwise_cons.mp sorted
    by_cases before : key a < h
    · simp only [List.filter_cons, before, decide_true, if_true, Nat.not_le.mpr before,
        decide_false, Bool.false_eq_true, if_false, List.cons_append, ih later]
    · -- all the rest is behind the point
      have none : (rest.filter fun b => decide (key b < h)) = [] :=
        List.filter_eq_nil_iff.mpr fun b member => by
          have : key a ≤ key b := first b member
          simp only [decide_eq_true_eq]
          omega
      have all : (rest.filter fun b => decide (h ≤ key b)) = rest :=
        List.filter_eq_self.mpr fun b member => by
          have : key a ≤ key b := first b member
          simp only [decide_eq_true_eq]
          omega
      simp [before, none, all, Nat.le_of_not_lt before]

theorem mem_clockwise {a : α} : a ∈ clockwise key h xs ↔ a ∈ xs := by
  simp only [clockwise, List.mem_append, List.mem_filter, decide_eq_true_eq, ← and_or_left]
  exact and_iff_left (le_or_gt h (key a))

theorem clockwise_filter : clockwise key h (xs.filter p) = (clockwise key h xs).filter p := by
  simp only [clockwise, List.filter_append, List.filter_filter, Bool.and_comm]

theorem sort_perm : (sort key xs).Perm xs := List.perm_insertionSort _ xs

theorem sort_sorted : Sorted key (sort key xs) := List.pairwise_insertionSort _ xs

theorem sort_filter (sorted : Sorted key (xs.filter p)) : (sort key xs).filter p = xs.filter p := by
  have kept : (xs.filter p).Sublist (sort key xs) :=
    List.sublist_insertionSort sorted List.filter_sublist
  have inside := kept.filter p
  rw [List.filter_filter] at inside
  simp only [Bool.and_self] at inside
  exact (inside.eq_of_length (sort_perm.filter p).length_eq.symm).symm

theorem sorted_of_eq {v : Nat} (equal : ∀ a ∈ xs, key a = v) : Sorted key xs :=
  List.pairwise_of_forall_mem_list fun a ha b hb => (equal a ha).trans_le (equal b hb).ge

theorem Lands.unique {v v' : Nat} (lands : Lands key h xs v) (lands' : Lands key h xs v') :
    v = v' := by
  obtain ⟨⟨a, member, rfl⟩, here⟩ := lands
  obtain ⟨⟨b, member', rfl⟩, here'⟩ := lands'
  rcases here with ⟨from_h, least⟩ | ⟨before, least⟩ <;>
    rcases here' with ⟨from_h', least'⟩ | ⟨before', least'⟩
  · exact le_antisymm (least b member' from_h') (least' a member from_h)
  · exact absurd (before' a member) (Nat.not_lt.mpr from_h)
  · exact absurd (before b member') (Nat.not_lt.mpr from_h')
  · exact le_antisymm (least b member') (least' a member)

/-- The ring begins with the first of the elements at the key on which the point lands. -/
theorem Sorted.clockwise_head {a : α} (sorted : Sorted key xs)
    (head : (clockwise key h xs).head? = some a) :
    Lands key h xs (key a) ∧ (xs.filter fun b => decide (key b = key a)).head? = some a := by
  have split := sorted.split (h := h)
  rw [clockwise] at head
  cases above : xs.filter fun b => decide (h ≤ key b) with
  | nil =>
    -- every element is before the point
    have before := List.filter_eq_nil_iff.mp above
    rw [above, List.append_nil] at split
    rw [above, List.nil_append, split] at head
    obtain ⟨rest, rfl⟩ := List.head?_eq_some_iff.mp head
    refine ⟨⟨⟨a, by simp, rfl⟩, .inr ⟨fun b member => ?_, fun b member => ?_⟩⟩, by simp⟩
    · simpa using before b member
    · rcases List.mem_cons.mp member with rfl | later
      · exact le_rfl
      · exact (List.pairwise_cons.mp sorted).1 b later
  | cons first rest =>
    rw [above] at head split
    obtain rfl : first = a := by simpa using head
    have here : first ∈ xs ∧ h ≤ key first := by
      have member : first ∈ xs.filter fun b => decide (h ≤ key b) := by simp [above]
      simpa using member
    have least : ∀ b ∈ xs, h ≤ key b → key first ≤ key b := by
      intro b member from_h
      have inside : b ∈ first :: rest := above ▸ List.mem_filter.mpr ⟨member, by simpa using from_h⟩
      have ordered : Sorted key (first :: rest) := above ▸ List.Pairwise.filter _ sorted
      rcases List.mem_cons.mp inside with rfl | later
      · exact le_rfl
      · exact (List.pairwise_cons.mp ordered).1 b later
    refine ⟨⟨⟨first, here.1, rfl⟩, .inl ⟨here.2, least⟩⟩, ?_⟩
    have none : ((xs.filter fun b => decide (key b < h)).filter fun b =>
        decide (key b = key first)) = [] := by
      rw [List.filter_eq_nil_iff]
      intro b member equal
      have before := (List.mem_filter.mp member).2
      simp only [decide_eq_true_eq] at before equal
      omega
    rw [← split, List.filter_append, none]
    simp

end DistLLM.Library.Clockwise
