import Mathlib.Data.Multiset.Filter

/-!
# Moving the contents of cells

Moves that fill free cells with the contents of others, which are blank afterwards. A reference to
a cell is carried along to where its contents went.
-/
namespace DistLLM.Library.Relocation

variable {ι α : Type} [DecidableEq ι] (moves : List (ι × ι))

/-- No cell is emptied twice or filled twice, and none is both emptied and filled. -/
structure Separate : Prop where
  sources : (moves.map Prod.fst).Nodup
  destinations : (moves.map Prod.snd).Nodup
  apart : ∀ i ∈ moves.map Prod.fst, i ∉ moves.map Prod.snd

/-- The contents of a cell are copied, and the cell is blanked. -/
def move (blank : α) (cells : ι → α) (m : ι × ι) : ι → α :=
  Function.update (Function.update cells m.2 (cells m.1)) m.1 blank

def relocate (blank : α) (moves : List (ι × ι)) (cells : ι → α) : ι → α :=
  moves.foldl (move blank) cells

theorem relocate_rel {β : Type} (R : α → β → Prop) {blank : α} {blank' : β}
    (blanks : R blank blank') (moves : List (ι × ι)) {cells : ι → α} {cells' : ι → β}
    (all : ∀ i, R (cells i) (cells' i)) (i : ι) :
    R (relocate blank moves cells i) (relocate blank' moves cells' i) := by
  induction moves generalizing cells cells' with
  | nil => exact all i
  | cons m rest ih =>
    apply ih
    intro j
    unfold move
    by_cases emptied : j = m.1
    · subst emptied
      simpa using blanks
    · by_cases filled : j = m.2
      · subst filled
        simpa [emptied] using all m.1
      · simpa [emptied, filled] using all j

theorem relocate_all (P : α → Prop) {blank : α} (blanks : P blank) (moves : List (ι × ι))
    {cells : ι → α} (all : ∀ i, P (cells i)) (i : ι) : P (relocate blank moves cells i) :=
  @relocate_rel ι α _ α (fun a _ => P a) blank blank blanks moves cells cells all i

def target (i : ι) : ι :=
  moves.foldl (fun i m => if i = m.1 then m.2 else i) i

theorem target_nil : target ([] : List (ι × ι)) = id := rfl

theorem target_cons (m : ι × ι) (rest : List (ι × ι)) (i : ι) :
    target (m :: rest) i = target rest (if i = m.1 then m.2 else i) := rfl

theorem target_of_not_mem {moves : List (ι × ι)} {i : ι} (stays : i ∉ moves.map Prod.fst) :
    target moves i = i := by
  induction moves with
  | nil => rfl
  | cons m rest ih =>
    simp only [List.map_cons, List.mem_cons, not_or] at stays
    rw [target_cons, if_neg stays.1, ih stays.2]

namespace Separate

variable {moves : List (ι × ι)} {m : ι × ι}

omit [DecidableEq ι] in
theorem tail {rest : List (ι × ι)} (separate : Separate (m :: rest)) :
    Separate rest where
  sources := (List.nodup_cons.mp separate.sources).2
  destinations := (List.nodup_cons.mp separate.destinations).2
  apart i here there :=
    separate.apart i (List.mem_cons_of_mem _ here) (List.mem_cons_of_mem _ there)

omit [DecidableEq ι] in
theorem head_destination {rest : List (ι × ι)} (separate : Separate (m :: rest)) :
    m.2 ≠ m.1 ∧ m.2 ∉ rest.map Prod.fst ∧ m.2 ∉ rest.map Prod.snd := by
  refine ⟨fun same => ?_, fun later => ?_, (List.nodup_cons.mp separate.destinations).1⟩
  · exact separate.apart m.1 (by simp) (by simp [same])
  · exact separate.apart m.2 (List.mem_cons_of_mem _ later) (by simp)

variable (separate : Separate moves)

include separate

theorem target_of_mem (member : m ∈ moves) : target moves m.1 = m.2 := by
  induction moves with
  | nil => cases member
  | cons first rest ih =>
    rw [target_cons]
    rcases List.mem_cons.mp member with rfl | later
    · rw [if_pos rfl, target_of_not_mem separate.head_destination.2.1]
    · have other : m.1 ≠ first.1 := fun same =>
        (List.nodup_cons.mp separate.sources).1
          (same ▸ List.mem_map_of_mem (f := Prod.fst) later)
      rw [if_neg other, ih separate.tail later]

theorem relocate_target (blank : α) (cells : ι → α) {i : ι} (held : i ∉ moves.map Prod.snd) :
    relocate blank moves cells (target moves i) = cells i := by
  induction moves generalizing i cells with
  | nil => rfl
  | cons m rest ih =>
    obtain ⟨here, unmoved, unfilled⟩ := separate.head_destination
    simp only [List.map_cons, List.mem_cons, not_or] at held
    rw [target_cons]
    split
    next same =>
      subst same
      refine (ih separate.tail _ unfilled).trans ?_
      rw [move, Function.update_of_ne here, Function.update_self]
    next other =>
      refine (ih separate.tail _ held.2).trans ?_
      rw [move, Function.update_of_ne other, Function.update_of_ne held.1]

theorem relocate_source (blank : α) (cells : ι → α) {i : ι}
    (moved : i ∈ moves.map Prod.fst) : relocate blank moves cells i = blank := by
  induction moves generalizing cells with
  | nil => cases moved
  | cons m rest ih =>
    rcases List.mem_cons.mp moved with rfl | later
    · -- once blank the cell is neither emptied nor filled again
      have unmoved := (List.nodup_cons.mp separate.sources).1
      have unfilled : m.1 ∉ rest.map Prod.snd := fun there =>
        separate.apart m.1 (by simp) (List.mem_cons_of_mem _ there)
      have kept := separate.tail.relocate_target blank (move blank cells m) unfilled
      rw [target_of_not_mem unmoved, move, Function.update_self] at kept
      exact kept
    · exact ih separate.tail _ later

theorem target_inj {i j : ι} (held : i ∉ moves.map Prod.snd) (held' : j ∉ moves.map Prod.snd)
    (same : target moves i = target moves j) : i = j := by
  -- the cells themselves are contents that tell them apart
  have here := separate.relocate_target none some held
  have there := separate.relocate_target none some held'
  rw [same] at here
  exact Option.some.inj (here.symm.trans there)

theorem count_map_target {held : Multiset ι} (inside : ∀ i ∈ held, i ∉ moves.map Prod.snd) (i : ι) :
    (held.map (target moves)).count i = relocate 0 moves (fun j => held.count j) i := by
  by_cases image : ∃ j, j ∉ moves.map Prod.snd ∧ target moves j = i
  · obtain ⟨j, unfilled, rfl⟩ := image
    rw [separate.relocate_target 0 _ unfilled]
    by_cases member : j ∈ held
    · exact Multiset.count_map_eq_count _ _ (fun a here b there same =>
        separate.target_inj (inside a here) (inside b there) same) j member
    · rw [Multiset.count_eq_zero.mpr member, Multiset.count_eq_zero, Multiset.mem_map]
      rintro ⟨a, here, same⟩
      exact member (separate.target_inj (inside a here) unfilled same ▸ here)
  · have moved : i ∈ moves.map Prod.fst := by
      by_contra stays
      by_cases filled : i ∈ moves.map Prod.snd
      · obtain ⟨m, member, rfl⟩ := List.mem_map.mp filled
        exact image ⟨m.1, separate.apart _ (List.mem_map_of_mem member),
          separate.target_of_mem member⟩
      · exact image ⟨i, filled, target_of_not_mem stays⟩
    rw [separate.relocate_source 0 _ moved, Multiset.count_eq_zero, Multiset.mem_map]
    rintro ⟨a, here, same⟩
    exact image ⟨a, inside a here, same⟩

end Separate

end DistLLM.Library.Relocation
