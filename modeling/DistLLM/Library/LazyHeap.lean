import DistLLM.Library.Heap

/-!
# Heaps with stale entries

Heaps over a linear order of keys, where the comparison never raises. Entries are not deleted when
they become stale: whoever pops goes on until an entry is still valid. The entry found is a least
valid one, and no other valid entry is lost.
-/
namespace DistLLM.Library.Heap

variable {α κ : Type} [LinearOrder κ]

def keyLt (key : α → κ) (a b : α) : Except Empty Bool := .ok (decide (key a < key b))

def push (key : α → κ) (heap : Array α) (item : α) : Array α :=
  match heappush (keyLt key) heap item with
  | .ok heap' => heap'
  | .error e => nomatch e

def pop (key : α → κ) (heap : Array α) : Option (α × Array α) :=
  match heappop (keyLt key) heap with
  | .ok popped => popped
  | .error e => nomatch e

/-- Pop until an entry is valid; the fuel bounds the number of pops. -/
def popValidFrom (key : α → κ) (valid : α → Bool) : Nat → Array α → Option α × Array α
  | 0, heap => (none, heap)
  | fuel + 1, heap =>
    match pop key heap with
    | none => (none, heap)
    | some (item, rest) =>
      if valid item then (some item, rest) else popValidFrom key valid fuel rest

/-- `while heap: item = heappop(heap)`, up to the first valid entry. -/
def popValid (key : α → κ) (valid : α → Bool) (heap : Array α) : Option α × Array α :=
  popValidFrom key valid heap.size heap

variable {key : α → κ}

theorem keyLt_comparable (heap : Array α) : Comparable (keyLt key) key heap :=
  fun _ _ _ _ => rfl

variable {heap : Array α}

theorem push_ordered (ordered : Ordered key heap) (item : α) :
    Ordered key (push key heap item) := by
  obtain ⟨heap', pushed, better⟩ := heappush_ordered (keyLt_comparable (heap.push item)) ordered
  simpa [push, pushed] using better

theorem mem_push {item other : α} : other ∈ push key heap item ↔ other = item ∨ other ∈ heap := by
  have perm : (push key heap item).toList.Perm (item :: heap.toList) := by
    unfold push
    split
    next done => exact heappush_perm done
    next e _ => exact nomatch e
  rw [← Array.mem_toList_iff, perm.mem_iff, List.mem_cons, Array.mem_toList_iff]

theorem pop_spec {heap rest : Array α} {item : α} (ordered : Ordered key heap)
    (popped : pop key heap = some (item, rest)) :
    heap.toList.Perm (item :: rest.toList) ∧ Ordered key rest ∧
      ∀ other ∈ heap, key item ≤ key other := by
  unfold pop at popped
  split at popped
  next result done =>
    subst popped
    have perm := heappop_perm done
    have some : 0 < heap.size := by
      have length := perm.length_eq
      simp at length
      omega
    obtain ⟨item', rest', done', better, least⟩ :=
      heappop_ordered (keyLt_comparable heap) ordered some
    rw [done] at done'
    cases done'
    exact ⟨perm, better, least⟩
  next e _ => exact nomatch e

theorem pop_eq_none (popped : pop key heap = none) : heap = #[] := by
  by_contra full
  unfold pop at popped
  split at popped
  next result done =>
    subst popped
    simp only [heappop] at done
    split at done
    next none => exact full (by simpa using none)
    next last _ =>
      split at done
      · split at done <;> cases done
      · cases done
  next e _ => exact nomatch e

variable {valid : α → Bool}

theorem popValidFrom_spec (valid : α → Bool) {fuel : Nat} (ordered : Ordered key heap)
    (enough : heap.size ≤ fuel) :
    match popValidFrom key valid fuel heap with
    | (none, rest) => rest = #[] ∧ ∀ item ∈ heap, valid item = false
    | (some item, rest) => item ∈ heap ∧ valid item = true ∧ Ordered key rest ∧
        (∀ other ∈ rest, other ∈ heap) ∧
        ∀ other ∈ heap, valid other = true →
          key item ≤ key other ∧ (other = item ∨ other ∈ rest) := by
  induction fuel generalizing heap with
  | zero =>
    have empty : heap = #[] := Array.eq_empty_of_size_eq_zero (by omega)
    simp [popValidFrom, empty]
  | succ fuel ih =>
    cases popped : pop key heap with
    | none =>
      simp only [popValidFrom, popped]
      simp [pop_eq_none popped]
    | some result =>
      obtain ⟨item, rest⟩ := result
      obtain ⟨perm, better, least⟩ := pop_spec ordered popped
      have members : ∀ other, other ∈ heap ↔ other = item ∨ other ∈ rest := by
        intro other
        rw [← Array.mem_toList_iff, perm.mem_iff, List.mem_cons, Array.mem_toList_iff]
      simp only [popValidFrom, popped]
      by_cases here : valid item = true
      · simp only [here, if_true]
        refine ⟨(members item).mpr (.inl rfl), trivial, better, fun other later =>
          (members other).mpr (.inr later), fun other member _ =>
            ⟨least other member, (members other).mp member⟩⟩
      · -- a stale entry is dropped, and no valid one with it
        simp only [here]
        have size := perm.length_eq
        simp only [Array.length_toList, List.length_cons] at size
        have later := ih better (by omega)
        simp only [Bool.false_eq_true, if_false]
        split at later
        next none =>
          refine ⟨later.1, fun other member => ?_⟩
          rcases (members other).mp member with rfl | old
          · simpa using here
          · exact later.2 other old
        next some =>
          obtain ⟨inside, isValid, better', fewer, first_least⟩ := later
          refine ⟨(members _).mpr (.inr inside), isValid, better', fun other member =>
            (members other).mpr (.inr (fewer other member)), fun other member ok => ?_⟩
          rcases (members other).mp member with rfl | old
          · exact absurd ok here
          · exact first_least other old ok

theorem popValid_none {heap rest : Array α} (ordered : Ordered key heap)
    (nothing : popValid key valid heap = (none, rest)) :
    rest = #[] ∧ ∀ item ∈ heap, valid item = false := by
  have spec := popValidFrom_spec valid ordered le_rfl
  rw [popValid] at nothing
  rwa [nothing] at spec

variable {heap rest : Array α} {item : α} (ordered : Ordered key heap)
  (found : popValid key valid heap = (some item, rest))

include ordered found

theorem popValid_some :
    item ∈ heap ∧ valid item = true ∧ Ordered key rest ∧ (∀ other ∈ rest, other ∈ heap) ∧
      ∀ other ∈ heap, valid other = true →
        key item ≤ key other ∧ (other = item ∨ other ∈ rest) := by
  have spec := popValidFrom_spec valid ordered le_rfl
  rw [popValid] at found
  rwa [found] at spec

theorem popValid_count [BEq α] [LawfulBEq α] :
    heap.toList.count item = rest.toList.count item + 1 := by
  have isValid := (popValid_some ordered found).2.1
  rw [popValid] at found
  generalize heap.size = fuel at found
  induction fuel generalizing heap with
  | zero => cases found
  | succ fuel ih =>
    rw [popValidFrom] at found
    split at found
    next => cases found
    next first left popped =>
      obtain ⟨perm, better, _⟩ := pop_spec ordered popped
      rw [perm.count_eq]
      by_cases here : valid first = true
      · rw [if_pos here] at found
        cases found
        rw [List.count_cons_self]
      · rw [if_neg here] at found
        have other : first ≠ item := by
          rintro rfl
          exact here isValid
        rw [List.count_cons_of_ne other, ih better found]

end DistLLM.Library.Heap
