import Mathlib.Order.WithBot

/-!
# Binary heaps in an array

The algorithms of Python's `heapq`, with a comparison that may raise. Whatever the comparison
does, the entries stay the same. If it never raises and follows a linear order of keys, the
parents stay below their children, and the entry popped is a least one.
-/
namespace DistLLM.Library.Heap

variable {pos : Nat} {ε α κ : Type}

def parent (i : Nat) : Nat := (i - 1) / 2

variable {i : Nat}

theorem parent_lt (inner : 0 < i) : parent i < i := by
  unfold parent
  omega

theorem parent_inside {size : Nat} (inside : i < size) : parent i < size :=
  (Nat.div_le_self _ _).trans_lt ((Nat.sub_le _ _).trans_lt inside)

/-- `_siftdown`: the entry at `pos` goes towards `start` while it is less than its parent. -/
def siftdown (lt : α → α → Except ε Bool) (start : Nat) :
    Nat → Array α → Nat → Except ε (Array α)
  | 0, heap, _ => .ok heap
  | fuel + 1, heap, pos =>
    if inside : start < pos ∧ pos < heap.size then
      match lt (getElem heap pos inside.2)
          (getElem heap (parent pos) (parent_inside inside.2)) with
      | .error e => .error e
      | .ok true =>
        siftdown lt start fuel (heap.swap pos (parent pos) inside.2 (parent_inside inside.2))
          (parent pos)
      | .ok false => .ok heap
    else .ok heap

/-- The child of `pos` that is not above the other one. -/
def smallerChild (lt : α → α → Except ε Bool) (heap : Array α) (pos : Nat)
    (left : 2 * pos + 1 < heap.size) : Except ε (Fin heap.size) :=
  if right : 2 * pos + 2 < heap.size then
    match lt heap[2 * pos + 1] heap[2 * pos + 2] with
    | .error e => .error e
    | .ok true => .ok ⟨2 * pos + 1, left⟩
    | .ok false => .ok ⟨2 * pos + 2, right⟩
  else .ok ⟨2 * pos + 1, left⟩

/-- The loop of `_siftup`: the smaller child takes the place of its parent, down to a leaf. -/
def bubble (lt : α → α → Except ε Bool) : Nat → Array α → Nat → Except ε (Array α × Nat)
  | 0, heap, pos => .ok (heap, pos)
  | fuel + 1, heap, pos =>
    if left : 2 * pos + 1 < heap.size then
      match smallerChild lt heap pos left with
      | .error e => .error e
      | .ok child => bubble lt fuel (heap.swap child pos child.isLt (by omega)) child
    else .ok (heap, pos)

def siftup (lt : α → α → Except ε Bool) (heap : Array α) (pos : Nat) : Except ε (Array α) :=
  match bubble lt heap.size heap pos with
  | .error e => .error e
  | .ok (sunk, leaf) => siftdown lt pos heap.size sunk leaf

def heappush (lt : α → α → Except ε Bool) (heap : Array α) (item : α) : Except ε (Array α) :=
  siftdown lt 0 (heap.size + 1) (heap.push item) heap.size

def heappop (lt : α → α → Except ε Bool) (heap : Array α) : Except ε (Option (α × Array α)) :=
  match heap.back? with
  | none => .ok none
  | some last =>
    if more : 0 < heap.pop.size then
      match siftup lt (heap.pop.set 0 last) 0 with
      | .error e => .error e
      | .ok rest => .ok (some (heap.pop[0], rest))
    else .ok (some (last, heap.pop))

def heapifyFrom (lt : α → α → Except ε Bool) : Nat → Array α → Except ε (Array α)
  | 0, heap => .ok heap
  | pos + 1, heap =>
    match siftup lt heap pos with
    | .error e => .error e
    | .ok heap => heapifyFrom lt pos heap

def heapify (lt : α → α → Except ε Bool) (heap : Array α) : Except ε (Array α) :=
  heapifyFrom lt (heap.size / 2) heap

variable {item : α} {heap' : Array α} {start fuel : Nat}

section Entries

variable {lt : α → α → Except ε Bool} {heap : Array α}

theorem siftdown_perm (done : siftdown lt start fuel heap pos = .ok heap') : heap'.Perm heap := by
  induction fuel generalizing heap pos with
  | zero =>
    cases done
    exact Array.Perm.refl _
  | succ fuel ih =>
    unfold siftdown at done
    split at done
    · split at done
      · cases done
      · exact (ih done).trans (Array.swap_perm _ _)
      · cases done
        exact Array.Perm.refl _
    · cases done
      exact Array.Perm.refl _

theorem bubble_perm {pos leaf : Nat}
    (done : bubble lt fuel heap pos = .ok (heap', leaf)) : heap'.Perm heap := by
  induction fuel generalizing heap pos with
  | zero =>
    cases done
    exact Array.Perm.refl _
  | succ fuel ih =>
    unfold bubble at done
    split at done
    · split at done
      · cases done
      · exact (ih done).trans (Array.swap_perm _ _)
    · cases done
      exact Array.Perm.refl _

theorem siftup_perm (done : siftup lt heap pos = .ok heap') :
    heap'.Perm heap := by
  unfold siftup at done
  split at done
  · cases done
  · next sunk leaf sinks => exact (siftdown_perm done).trans (bubble_perm sinks)

theorem heappush_perm
    (done : heappush lt heap item = .ok heap') : heap'.toList.Perm (item :: heap.toList) := by
  have pushed := Array.perm_iff_toList_perm.mp (siftdown_perm done)
  rw [Array.toList_push] at pushed
  exact pushed.trans (List.perm_append_singleton _ _)

theorem heappop_perm {rest : Array α} (done : heappop lt heap = .ok (some (item, rest))) :
    heap.toList.Perm (item :: rest.toList) := by
  unfold heappop at done
  split at done
  · cases done
  next last isLast =>
  obtain ⟨front, rfl⟩ := Array.back?_eq_some_iff.mp isLast
  simp only [Array.pop_push] at done
  rw [Array.toList_push]
  split at done
  · next more =>
    split at done
    · cases done
    next rest' sifted =>
    cases done
    have sifts := Array.perm_iff_toList_perm.mp (siftup_perm sifted)
    -- the last entry stands in for the root
    obtain ⟨_ | ⟨root, tail⟩⟩ := front
    · cases more
    · exact (List.perm_append_singleton _ _).trans
        ((List.Perm.swap _ _ _).trans (sifts.symm.cons root))
  · cases done
    exact List.perm_append_singleton _ _

theorem heapifyFrom_perm (done : heapifyFrom lt pos heap = .ok heap') : heap'.Perm heap := by
  induction pos generalizing heap with
  | zero =>
    cases done
    exact Array.Perm.refl _
  | succ pos ih =>
    unfold heapifyFrom at done
    split at done
    · cases done
    · next sifted sifts => exact (ih done).trans (siftup_perm sifts)

theorem heapify_perm (done : heapify lt heap = .ok heap') :
    heap'.Perm heap :=
  heapifyFrom_perm done

end Entries

/-! ### The order of the entries -/

variable {heap : Array α} {key : α → κ}

section Order

/-- The key at a position; beyond the entries there is nothing less. -/
def rank (key : α → κ) (heap : Array α) (i : Nat) : WithTop κ :=
  match heap[i]? with
  | some a => (key a : WithTop κ)
  | none => ⊤

theorem rank_of_lt (inside : i < heap.size) :
    rank key heap i = (key heap[i] : WithTop κ) := by
  unfold rank
  rw [Array.getElem?_eq_getElem inside]

theorem rank_of_le (outside : heap.size ≤ i) : rank key heap i = ⊤ := by
  unfold rank
  rw [Array.getElem?_eq_none outside]

theorem rank_swap (key : α → κ) {j : Nat} (first : i < heap.size) (second : j < heap.size)
    (k : Nat) : rank key (heap.swap i j) k =
      if k = i then rank key heap j else if k = j then rank key heap i else rank key heap k := by
  unfold rank
  rw [Array.getElem?_swap]
  by_cases atSecond : k = j
  · subst atSecond
    rw [if_pos rfl]
    by_cases same : k = i
    · subst same
      rw [if_pos rfl, Array.getElem?_eq_getElem first]
    · rw [if_neg same, if_pos rfl, Array.getElem?_eq_getElem first]
  · rw [if_neg (Ne.symm atSecond), if_neg atSecond]
    by_cases atFirst : k = i
    · subst atFirst
      rw [if_pos rfl, if_pos rfl, Array.getElem?_eq_getElem second]
    · rw [if_neg (Ne.symm atFirst), if_neg atFirst]

theorem rank_push (other : i ≠ heap.size) :
    rank key (heap.push item) i = rank key heap i := by
  unfold rank
  rw [Array.getElem?_push, if_neg other]

theorem rank_set (inside : pos < heap.size) (item : α) (i : Nat) : rank key (heap.set pos item) i =
      if i = pos then (key item : WithTop κ) else rank key heap i := by
  unfold rank
  rw [Array.getElem?_set]
  by_cases same : pos = i
  · rw [if_pos same, if_pos same.symm]
  · rw [if_neg same, if_neg (Ne.symm same)]

variable [LinearOrder κ] {lt : α → α → Except ε Bool} {key : α → κ}

/-- No two entries of the heap make the comparison raise, and it compares their keys. -/
def Comparable (lt : α → α → Except ε Bool) (key : α → κ) (heap : Array α) : Prop :=
  ∀ a ∈ heap, ∀ b ∈ heap, lt a b = .ok (decide (key a < key b))

theorem Comparable.perm {heap : Array α} (comparable : Comparable lt key heap)
    (perm : heap'.Perm heap) : Comparable lt key heap' :=
  fun a first b second => comparable a (perm.mem_iff.mp first) b (perm.mem_iff.mp second)

theorem Comparable.lt_eq (comparable : Comparable lt key heap) {j : Nat} (first : i < heap.size)
    (second : j < heap.size) :
    lt heap[i] heap[j] = .ok (decide (rank key heap i < rank key heap j)) := by
  rw [comparable _ (Array.getElem_mem first) _ (Array.getElem_mem second), rank_of_lt first,
    rank_of_lt second]
  simp only [WithTop.coe_lt_coe]

def Edge (key : α → κ) (heap : Array α) (i : Nat) : Prop :=
  rank key heap (parent i) ≤ rank key heap i

/-- No entry whose parent is at `low` or later is less than that parent. -/
def OrderedFrom (key : α → κ) (low : Nat) (heap : Array α) : Prop :=
  ∀ i, 0 < i → low ≤ parent i → Edge key heap i

abbrev Ordered (key : α → κ) (heap : Array α) : Prop := OrderedFrom key 0 heap

theorem OrderedFrom.root_le (ordered : Ordered key heap) (i : Nat) :
    rank key heap 0 ≤ rank key heap i := by
  induction i using Nat.strong_induction_on with
  | h i ih =>
    rcases Nat.eq_zero_or_pos i with rfl | inner
    · exact le_rfl
    · exact (ih (parent i) (parent_lt inner)).trans (ordered i inner (Nat.zero_le _))

/-- The positions of the subtree under `start`. -/
inductive Below (start : Nat) : Nat → Prop
  | refl : Below start start
  | child {c : Nat} : 0 < c → Below start (parent c) → Below start c

theorem Below.le {pos : Nat} (below : Below start pos) : start ≤ pos := by
  induction below with
  | refl => exact le_rfl
  | child inner _ ih => exact ih.trans (parent_lt inner).le

theorem Below.up {pos : Nat} (below : Below start pos) (strict : start < pos) :
    Below start (parent pos) := by
  cases below with
  | refl => exact absurd strict (lt_irrefl _)
  | child _ above => exact above

theorem below_zero : Below 0 pos := by
  induction pos using Nat.strong_induction_on with
  | h i ih =>
    rcases Nat.eq_zero_or_pos i with rfl | inner
    · exact .refl
    · exact .child inner (ih _ (parent_lt inner))

/-- What is in order while the entry at `pos` rises: all edges but the one to its own parent, and
that parent would do for the children of `pos`. -/
structure Rising (key : α → κ) (low : Nat) (heap : Array α) (pos : Nat) : Prop where
  edges : ∀ i, 0 < i → i ≠ pos → low ≤ parent i → Edge key heap i
  grand : 0 < pos → low ≤ parent pos → ∀ c, 0 < c → parent c = pos →
    rank key heap (parent pos) ≤ rank key heap c

variable {low : Nat}

theorem Rising.swap {pos : Nat} {heap : Array α} (rising : Rising key low heap pos)
    (inner : 0 < pos) (above : low ≤ parent pos) (inside : pos < heap.size)
    (less : rank key heap pos < rank key heap (parent pos)) :
    Rising key low (heap.swap pos (parent pos) inside (parent_inside inside)) (parent pos) := by
  have strict := parent_lt inner
  have ranks := fun k => rank_swap key inside (parent_inside inside) k
  refine ⟨?_, ?_⟩
  · intro i innerI other lowI
    unfold Edge
    rw [ranks, ranks]
    by_cases same : i = pos
    · -- the edge of the swap itself
      subst same
      rw [if_neg strict.ne, if_pos rfl, if_pos rfl]
      exact less.le
    · rw [if_neg same, if_neg other]
      by_cases child : parent i = pos
      · rw [if_pos child]
        exact rising.grand inner above i innerI child
      · rw [if_neg child]
        have old := rising.edges i innerI same lowI
        unfold Edge at old
        by_cases sibling : parent i = parent pos
        · rw [if_pos sibling]
          rw [sibling] at old
          exact less.le.trans old
        · rw [if_neg sibling]
          exact old
  · intro innerUp aboveUp c innerC child
    have strictUp := parent_lt innerUp
    have upper : Edge key heap (parent pos) := rising.edges _ innerUp strict.ne aboveUp
    unfold Edge at upper
    rw [ranks, ranks, if_neg (strictUp.trans strict).ne, if_neg strictUp.ne]
    by_cases same : c = pos
    · rw [if_pos same]
      exact upper
    · have strictC := parent_lt innerC
      rw [if_neg same, if_neg (by omega)]
      have old := rising.edges c innerC same (child ▸ above)
      unfold Edge at old
      rw [child] at old
      exact upper.trans old

theorem siftdown_ordered (comparable : Comparable lt key heap) (rising : Rising key low heap pos)
    (inside : pos < heap.size) (enough : pos ≤ fuel) (below : Below start pos)
    (lowStart : low ≤ start)
    (top : 0 < start → low ≤ parent start → rank key heap (parent start) ≤ rank key heap pos) :
    ∃ heap', siftdown lt start fuel heap pos = .ok heap' ∧ OrderedFrom key low heap' := by
  have settled {heap : Array α} {pos : Nat} (rising : Rising key low heap pos)
      (here : 0 < pos → low ≤ parent pos → Edge key heap pos) : OrderedFrom key low heap := by
    intro i inner lowI
    by_cases same : i = pos
    · subst same
      exact here inner lowI
    · exact rising.edges i inner same lowI
  have stops {heap : Array α} {pos : Nat} (rising : Rising key low heap pos)
      (below : Below start pos) (reached : ¬ start < pos)
      (top : 0 < start → low ≤ parent start → rank key heap (parent start) ≤ rank key heap pos) :
      OrderedFrom key low heap := by
    have same : start = pos := le_antisymm below.le (not_lt.mp reached)
    subst same
    exact settled rising top
  induction fuel generalizing heap pos with
  | zero => exact ⟨heap, rfl, stops rising below (by omega) top⟩
  | succ fuel ih =>
    unfold siftdown
    by_cases more : start < pos
    · rw [dif_pos ⟨more, inside⟩, comparable.lt_eq inside (parent_inside inside)]
      have inner := Nat.zero_lt_of_lt more
      have above := lowStart.trans (below.up more).le
      by_cases less : rank key heap pos < rank key heap (parent pos)
      · simp only [less, decide_true]
        have strict := parent_lt inner
        -- the entry is now at the parent's place, with the same edge still in question
        refine ih (comparable.perm (Array.swap_perm _ _)) (rising.swap inner above inside less)
          (by simpa using parent_inside inside) (by omega) (below.up more) ?_
        intro innerStart lowUp
        have strictStart := parent_lt innerStart
        have startLe := (below.up more).le
        rw [rank_swap, rank_swap, if_neg (by omega), if_neg (by omega), if_neg strict.ne,
          if_pos rfl]
        exact top innerStart lowUp
      · simp only [less, decide_false]
        exact ⟨heap, rfl, settled rising fun _ _ => not_lt.mp less⟩
    · rw [dif_neg (fun both => more both.1)]
      exact ⟨heap, rfl, stops rising below more top⟩

/-! ### Sinking -/

/-- What is in order while the entry at `pos` sinks: all edges that do not touch `pos`, and the
parent of `pos` would do for its children. -/
structure Sinking (key : α → κ) (low : Nat) (heap : Array α) (pos : Nat) : Prop where
  edges : ∀ i, 0 < i → i ≠ pos → parent i ≠ pos → low ≤ parent i → Edge key heap i
  grand : 0 < pos → low ≤ parent pos → ∀ c, 0 < c → parent c = pos →
    rank key heap (parent pos) ≤ rank key heap c

theorem parent_eq_iff {c pos : Nat} (inner : 0 < c) :
    parent c = pos ↔ c = 2 * pos + 1 ∨ c = 2 * pos + 2 := by
  unfold parent
  omega

theorem smallerChild_spec (comparable : Comparable lt key heap)
    (left : 2 * pos + 1 < heap.size) : ∃ child : Fin heap.size,
      smallerChild lt heap pos left = .ok child ∧ parent child = pos ∧ pos < child ∧
        ∀ c, 0 < c → parent c = pos → rank key heap child ≤ rank key heap c := by
  have ofLeft : parent (2 * pos + 1) = pos := (parent_eq_iff (by omega)).mpr (Or.inl rfl)
  have ofRight : parent (2 * pos + 2) = pos := (parent_eq_iff (by omega)).mpr (Or.inr rfl)
  unfold smallerChild
  by_cases right : 2 * pos + 2 < heap.size
  · rw [dif_pos right, comparable.lt_eq left right]
    by_cases less : rank key heap (2 * pos + 1) < rank key heap (2 * pos + 2)
    · simp only [less, decide_true]
      refine ⟨_, rfl, ofLeft, by dsimp only; omega, fun c inner child => ?_⟩
      rcases (parent_eq_iff inner).mp child with rfl | rfl
      · exact le_rfl
      · exact less.le
    · simp only [less, decide_false]
      refine ⟨_, rfl, ofRight, by dsimp only; omega, fun c inner child => ?_⟩
      rcases (parent_eq_iff inner).mp child with rfl | rfl
      · exact not_lt.mp less
      · exact le_rfl
  · rw [dif_neg right]
    refine ⟨_, rfl, ofLeft, by dsimp only; omega, fun c inner child => ?_⟩
    rcases (parent_eq_iff inner).mp child with rfl | rfl
    · exact le_rfl
    · rw [rank_of_le (not_lt.mp right)]
      exact le_top

theorem Sinking.swap {pos : Nat} {heap : Array α} (sinking : Sinking key low heap pos)
    (above : low ≤ pos) {child : Nat} (inside : child < heap.size) (isChild : parent child = pos)
    (deeper : pos < child)
    (least : ∀ c, 0 < c → parent c = pos → rank key heap child ≤ rank key heap c) :
    Sinking key low (heap.swap child pos inside (deeper.trans inside)) child := by
  have ranks := fun k => rank_swap key inside (deeper.trans inside) k
  refine ⟨?_, ?_⟩
  · intro i inner other otherParent lowI
    have strict := parent_lt inner
    unfold Edge
    rw [ranks, ranks, if_neg other, if_neg otherParent]
    by_cases same : i = pos
    · subst same
      rw [if_neg strict.ne, if_pos rfl]
      exact sinking.grand inner lowI child (Nat.zero_lt_of_lt deeper) isChild
    · rw [if_neg same]
      by_cases sibling : parent i = pos
      · rw [if_pos sibling]
        exact least i inner sibling
      · rw [if_neg sibling]
        exact sinking.edges i inner same sibling lowI
  · intro _ _ c inner under
    have strict := parent_lt inner
    rw [isChild, ranks, ranks, if_neg deeper.ne, if_pos rfl, if_neg (by omega), if_neg (by omega)]
    have old := sinking.edges c inner (by omega) (by omega) (by omega)
    unfold Edge at old
    rwa [under] at old

section

variable (comparable : Comparable lt key heap) (sinking : Sinking key low heap pos)
  (inside : pos < heap.size)

include comparable sinking inside

theorem bubble_rising (enough : heap.size ≤ pos + fuel) (below : Below start pos)
    (lowStart : low ≤ start)
    (top : 0 < start → low ≤ parent start → rank key heap (parent start) ≤ rank key heap pos) :
    ∃ sunk leaf, bubble lt fuel heap pos = .ok (sunk, leaf) ∧ Rising key low sunk leaf ∧
      leaf < sunk.size ∧ Below start leaf ∧
      (0 < start → low ≤ parent start → rank key sunk (parent start) ≤ rank key sunk leaf) := by
  induction fuel generalizing heap pos with
  | zero => omega
  | succ fuel ih =>
    unfold bubble
    by_cases left : 2 * pos + 1 < heap.size
    · rw [dif_pos left]
      obtain ⟨child, found, isChild, deeper, least⟩ := smallerChild_spec comparable left
      rw [found]
      have inner := Nat.zero_lt_of_lt deeper
      have lowPos := lowStart.trans below.le
      refine ih (comparable.perm (Array.swap_perm _ _))
        (sinking.swap lowPos child.isLt isChild deeper least) (by simp) ?_
        (Below.child inner (isChild ▸ below)) ?_
      · rw [Array.size_swap]
        omega
      · intro innerStart lowUp
        have strictStart := parent_lt innerStart
        have startLe := below.le
        rw [rank_swap, rank_swap, if_neg (by omega), if_neg (by omega), if_pos rfl]
        exact top innerStart lowUp
    · rw [dif_neg left]
      refine ⟨heap, pos, rfl, ⟨?_, sinking.grand⟩, inside, below, top⟩
      intro i inner other lowI
      by_cases child : parent i = pos
      · -- there are no children
        have := (parent_eq_iff inner).mp child
        unfold Edge
        rw [rank_of_le (i := i) (by omega)]
        exact le_top
      · exact sinking.edges i inner other child lowI

theorem siftup_ordered (lowPos : low ≤ pos) (top : 0 < pos → low ≤ parent pos → Edge key heap pos) :
    ∃ heap', siftup lt heap pos = .ok heap' ∧ OrderedFrom key low heap' := by
  obtain ⟨sunk, leaf, sinks, rising, insideLeaf, below, still⟩ :=
    bubble_rising comparable sinking inside (Nat.le_add_left _ _) Below.refl lowPos top
  have perm := bubble_perm sinks
  unfold siftup
  rw [sinks]
  exact siftdown_ordered (comparable.perm perm) rising insideLeaf
    (by have := perm.size_eq; omega) below lowPos still

end

/-! ### The operations -/

theorem heappush_ordered (comparable : Comparable lt key (heap.push item))
    (ordered : Ordered key heap) :
    ∃ heap', heappush lt heap item = .ok heap' ∧ Ordered key heap' := by
  refine siftdown_ordered comparable ⟨?_, ?_⟩ (by simp) (Nat.le_succ _) below_zero le_rfl
    (fun inner => absurd inner (lt_irrefl _))
  · intro i inner other _
    have strict := parent_lt inner
    unfold Edge
    rw [rank_push other]
    by_cases after : parent i = heap.size
    · have beyond : rank key heap i = ⊤ := rank_of_le (by omega)
      rw [beyond]
      exact le_top
    · rw [rank_push after]
      exact ordered i inner (Nat.zero_le _)
  · intro inner _ c innerC child
    have strict := parent_lt innerC
    have beyond : rank key heap c = ⊤ := rank_of_le (by omega)
    rw [rank_push (i := c) (by omega), beyond]
    exact le_top

/-- The entry popped is a least one, and what is left is in order. -/
theorem heappop_ordered (comparable : Comparable lt key heap) (ordered : Ordered key heap)
    (some : 0 < heap.size) :
    ∃ item rest, heappop lt heap = .ok (.some (item, rest)) ∧ Ordered key rest ∧
      ∀ other ∈ heap, key item ≤ key other := by
  obtain ⟨front, last, rfl⟩ : ∃ front last, heap = Array.push front last := by
    have last : heap.back? = .some heap[heap.size - 1] := by
      rw [Array.back?, Array.getElem?_eq_getElem]
    obtain ⟨front, whole⟩ := Array.back?_eq_some_iff.mp last
    exact ⟨front, _, whole⟩
  unfold heappop
  simp only [Array.back?_push, Array.pop_push]
  by_cases more : 0 < front.size
  · rw [dif_pos more]
    have members : ∀ a ∈ front.set 0 last, a ∈ front.push last := by
      intro a member
      rcases Array.mem_or_eq_of_mem_set member with old | new
      · exact Array.mem_push_of_mem _ old
      · rw [new]
        exact Array.mem_push_self
    -- only the root is out of order once the last entry has taken its place
    have sinking : Sinking key 0 (front.set 0 last) 0 := by
      refine ⟨?_, fun inner => absurd inner (lt_irrefl _)⟩
      intro i inner other otherParent _
      unfold Edge
      rw [rank_set more, rank_set more, if_neg other, if_neg otherParent]
      by_cases inside : i < front.size
      · have old := ordered i inner (Nat.zero_le _)
        have strict := parent_lt inner
        unfold Edge at old
        rwa [rank_push (by omega), rank_push (by omega)] at old
      · rw [rank_of_le (i := i) (not_lt.mp inside)]
        exact le_top
    obtain ⟨rest, sifts, better⟩ := siftup_ordered
      (fun a first b second => comparable a (members a first) b (members b second)) sinking
      (by simpa using more) le_rfl (fun inner => absurd inner (lt_irrefl _))
    rw [sifts]
    refine ⟨_, rest, rfl, better, fun other member => ?_⟩
    obtain ⟨i, inside, rfl⟩ := Array.mem_iff_getElem.mp member
    have least := ordered.root_le i
    rw [rank_of_lt inside, rank_push more.ne, rank_of_lt more] at least
    exact WithTop.coe_le_coe.mp least
  · rw [dif_neg more]
    have empty : front = #[] := Array.eq_empty_of_size_eq_zero (by omega)
    subst empty
    refine ⟨last, _, rfl, ?_, ?_⟩
    · intro i inner _
      unfold Edge
      rw [rank_of_le (i := i) (by simp)]
      exact le_top
    · intro other member
      have : other = last := by simpa using member
      rw [this]

/-- Whatever is put at a position, its parent stays below its children. -/
theorem rank_set_skip (inside : pos < heap.size) (ordered : Ordered key heap) (inner : 0 < pos)
    {c : Nat} (innerC : 0 < c) (child : parent c = pos) :
    rank key (heap.set pos item) (parent pos) ≤ rank key (heap.set pos item) c := by
  have strict := parent_lt innerC
  have strictPos := parent_lt inner
  have upper := ordered pos inner (Nat.zero_le _)
  have old := ordered c innerC (Nat.zero_le _)
  unfold Edge at upper old
  rw [rank_set inside, rank_set inside, if_neg strictPos.ne, if_neg (by omega)]
  rw [child] at old
  exact upper.trans old

section

variable (inside : pos < heap.size) (comparable : Comparable lt key (heap.set pos item))
  (ordered : Ordered key heap)

include inside comparable ordered

theorem siftdown_set_ordered (less : key item ≤ key heap[pos]) :
    ∃ heap', siftdown lt 0 heap.size (heap.set pos item) pos = .ok heap' ∧ Ordered key heap' := by
  have lower : (key item : WithTop κ) ≤ rank key heap pos := by
    rw [rank_of_lt inside]
    exact WithTop.coe_le_coe.mpr less
  refine siftdown_ordered comparable ⟨?_, ?_⟩ (by simpa using inside) inside.le below_zero le_rfl
    (fun inner => absurd inner (lt_irrefl _))
  · intro i inner other _
    have old := ordered i inner (Nat.zero_le _)
    unfold Edge at old ⊢
    rw [rank_set inside, rank_set inside, if_neg other]
    by_cases child : parent i = pos
    · rw [if_pos child]
      rw [child] at old
      exact lower.trans old
    · rwa [if_neg child]
  · exact fun inner _ c innerC child => rank_set_skip inside ordered inner innerC child

theorem siftup_set_ordered (greater : key heap[pos] ≤ key item) :
    ∃ heap', siftup lt (heap.set pos item) pos = .ok heap' ∧ Ordered key heap' := by
  refine siftup_ordered comparable ⟨?_, ?_⟩ (by simpa using inside) (Nat.zero_le _) ?_
  · intro i inner other otherParent _
    have old := ordered i inner (Nat.zero_le _)
    unfold Edge at old ⊢
    rwa [rank_set inside, rank_set inside, if_neg other, if_neg otherParent]
  · exact fun inner _ c innerC child => rank_set_skip inside ordered inner innerC child
  · intro inner _
    have strictPos := parent_lt inner
    have upper := ordered pos inner (Nat.zero_le _)
    unfold Edge at upper ⊢
    rw [rank_set inside, rank_set inside, if_neg strictPos.ne, if_pos rfl]
    rw [rank_of_lt inside] at upper
    exact upper.trans (WithTop.coe_le_coe.mpr greater)

end

theorem heapifyFrom_ordered (comparable : Comparable lt key heap) (inside : pos ≤ heap.size)
    (ordered : OrderedFrom key pos heap) :
    ∃ heap', heapifyFrom lt pos heap = .ok heap' ∧ Ordered key heap' := by
  induction pos generalizing heap with
  | zero => exact ⟨heap, rfl, ordered⟩
  | succ pos ih =>
    have sinking : Sinking key pos heap pos := by
      refine ⟨fun i inner _ other low => ordered i inner (by omega), fun inner low => ?_⟩
      have := parent_lt inner
      omega
    obtain ⟨sifted, sifts, better⟩ := siftup_ordered comparable sinking (by omega) le_rfl
      (fun inner low => by have := parent_lt inner; omega)
    have perm := siftup_perm sifts
    unfold heapifyFrom
    rw [sifts]
    exact ih (comparable.perm perm) (by have := perm.size_eq; omega) better

theorem heapify_ordered (comparable : Comparable lt key heap) :
    ∃ heap', heapify lt heap = .ok heap' ∧ Ordered key heap' := by
  refine heapifyFrom_ordered comparable (Nat.div_le_self _ _) fun i inner low => ?_
  -- the positions from the middle on have no children
  have := (parent_eq_iff inner).mp rfl
  unfold Edge
  rw [rank_of_le (i := i) (by omega)]
  exact le_top

end Order

end DistLLM.Library.Heap
