import Mathlib.Data.List.Basic
import Mathlib.Data.List.Induction

/-!
# Continuations of a list

A list grown one element at a time, each computed from those before it; how far given paths go
along such a choice; and loops that grow a list several elements a round until it has the wanted
length or a stop element has come.
-/
namespace DistLLM.Library

variable {α σ : Type}

def continuation (next : List α → α) : Nat → List α → List α
  | 0, _ => []
  | n + 1, xs => next xs :: continuation next n (xs ++ [next xs])

/-- A list up to and including its first stop element. -/
def cutAfter (stop : α → Bool) : List α → List α
  | [] => []
  | x :: xs => if stop x then [x] else x :: cutAfter stop xs

variable (xs : List α) {path other : List α} (stride : Nat → Nat)

section Continuation

variable (next : List α → α)

@[simp] theorem continuation_zero : continuation next 0 xs = [] := rfl

@[simp] theorem length_continuation (n : Nat) (xs : List α) :
    (continuation next n xs).length = n := by
  induction n generalizing xs with
  | zero => simp
  | succ n ih => simp [continuation, ih]

theorem continuation_add (m n : Nat) (xs : List α) : continuation next (m + n) xs
      = continuation next m xs ++ continuation next n (xs ++ continuation next m xs) := by
  induction m generalizing xs with
  | zero => simp
  | succ m ih =>
    rw [Nat.add_right_comm]
    simp [continuation, ih]

theorem continuation_succ (n : Nat) (xs : List α) : continuation next (n + 1) xs
      = continuation next n xs ++ [next (xs ++ continuation next n xs)] := by
  rw [continuation_add]
  simp [continuation]

theorem take_continuation (m n : Nat) (xs : List α) :
    (continuation next (m + n) xs).take m = continuation next m xs := by
  rw [continuation_add, List.take_append_of_le_length (by simp), List.take_of_length_le (by simp)]

end Continuation

section Cut

variable {stop : α → Bool}

theorem cutAfter_isPrefix (stop : α → Bool) (xs : List α) : cutAfter stop xs <+: xs := by
  induction xs with
  | nil => simp [cutAfter]
  | cons x xs ih =>
    simp only [cutAfter]
    split
    next => simp
    next => simpa using ih

theorem cutAfter_eq_self {xs : List α} (quiet : ∀ x ∈ xs, stop x = false) :
    cutAfter stop xs = xs := by
  induction xs with
  | nil => rfl
  | cons x xs ih =>
    simp only [List.mem_cons, forall_eq_or_imp] at quiet
    simp [cutAfter, quiet.1, ih quiet.2]

theorem cutAfter_append {xs : List α} (stops : ∃ x ∈ xs, stop x = true) (ys : List α) :
    cutAfter stop (xs ++ ys) = cutAfter stop xs := by
  induction xs with
  | nil => simp at stops
  | cons x xs ih =>
    by_cases here : stop x = true
    · simp [cutAfter, here]
    · have later : ∃ x ∈ xs, stop x = true := by
        obtain ⟨y, inside, halts⟩ := stops
        rcases List.mem_cons.mp inside with rfl | inside
        · exact absurd halts here
        · exact ⟨y, inside, halts⟩
      simp [cutAfter, here, ih later]

theorem stops_of_cutAfter_lt {xs : List α} (shorter : (cutAfter stop xs).length < xs.length) :
    ∃ x ∈ xs, stop x = true := by
  by_contra none
  simp only [not_exists, not_and, Bool.not_eq_true] at none
  rw [cutAfter_eq_self none] at shorter
  omega

theorem cutAfter_append_of_quiet {xs : List α} (quiet : ∀ x ∈ xs, stop x = false) (ys : List α) :
    cutAfter stop (xs ++ ys) = xs ++ cutAfter stop ys := by
  induction xs with
  | nil => rfl
  | cons x xs ih =>
    simp only [List.mem_cons, forall_eq_or_imp] at quiet
    simp [cutAfter, quiet.1, ih quiet.2]

theorem cutAfter_ne_nil {xs : List α} (some_ : xs ≠ []) : cutAfter stop xs ≠ [] := by
  cases xs with
  | nil => exact absurd rfl some_
  | cons x xs =>
    simp only [cutAfter]
    split <;> simp

theorem cutAfter_eq_of_length {xs : List α} (whole : xs.length ≤ (cutAfter stop xs).length) :
    cutAfter stop xs = xs := by
  induction xs with
  | nil => rfl
  | cons x xs ih =>
    by_cases here : stop x = true
    · simp only [cutAfter, here, if_true, List.length_cons, List.length_nil] at whole ⊢
      rw [List.length_eq_zero_iff.mp (by omega : xs.length = 0)]
    · simp only [cutAfter, here, Bool.false_eq_true, if_false, List.length_cons] at whole ⊢
      rw [ih (by omega)]

/-- Whether a stop element stands before the last of the next `n` elements. -/
def StopsBefore (next : List α → α) (stop : α → Bool) (xs : List α) (n : Nat) : Prop :=
  (cutAfter stop (continuation next n xs)).length < n

variable {next : List α → α} {xs : List α}

theorem cutAfter_continuation_of_le {m n : Nat} (within : m ≤ n)
    (stops : ∃ x ∈ continuation next m xs, stop x = true) :
    cutAfter stop (continuation next n xs) = cutAfter stop (continuation next m xs) := by
  obtain ⟨more, rfl⟩ := Nat.exists_eq_add_of_le within
  rw [continuation_add, cutAfter_append stops]

theorem StopsBefore.stops {n : Nat} (before : StopsBefore next stop xs n) :
    ∃ x ∈ continuation next n xs, stop x = true := by
  apply stops_of_cutAfter_lt
  simpa [StopsBefore] using before

theorem not_stopsBefore_zero : ¬ StopsBefore next stop xs 0 := by
  simp [StopsBefore]

theorem cutAfter_of_not_stopsBefore {n : Nat} (whole : ¬ StopsBefore next stop xs n) :
    cutAfter stop (continuation next n xs) = continuation next n xs := by
  apply cutAfter_eq_of_length
  simpa [StopsBefore] using whole

end Cut

/-! ### Paths along a choice -/

section Choice

/-- Every element of a path is the one chosen after those before it. -/
def Along (choice : List α → Option α) (path : List α) : Prop :=
  ∀ i, ∀ inside : i < path.length, choice (path.take i) = some path[i]

/-- The farthest that some of the paths go along a choice. -/
structure IsFarthest (paths : List (List α)) (choice : List α → Option α) (path : List α) :
    Prop where
  begins : path = [] ∨ ∃ whole ∈ paths, path <+: whole
  along : Along choice path
  longest : ∀ other whole, whole ∈ paths → other <+: whole → Along choice other →
    other.length ≤ path.length

/-- Some path begins with the list, and each of its elements is the chosen one. -/
def Walks (paths : List (List α)) (choice : List α → Option α) (walk : List α) : Prop :=
  (∃ whole ∈ paths, walk <+: whole) ∧ Along choice walk

def stepsAlong [DecidableEq α] : (List α → Option α) → List α → Nat
  | _, [] => 0
  | choice, x :: path =>
    if choice [] = some x then stepsAlong (fun earlier => choice (x :: earlier)) path + 1 else 0

variable {choice : List α → Option α}

@[simp] theorem along_nil : Along choice [] := by
  intro i inside
  simp at inside

theorem along_cons {x : α} {path : List α} : Along choice (x :: path) ↔
      choice [] = some x ∧ Along (fun earlier => choice (x :: earlier)) path := by
  simp only [Along, List.length_cons]
  constructor
  · intro along
    constructor
    · simpa using along 0 (by omega)
    · intro i inside
      have later := along (i + 1) (by omega)
      rwa [List.take_succ_cons, List.getElem_cons_succ] at later
  · rintro ⟨first, along⟩ i inside
    cases i with
    | zero => simpa using first
    | succ i =>
      rw [List.take_succ_cons, List.getElem_cons_succ]
      exact along i (by omega)

theorem Along.eq_take (along : Along choice path) (other_along : Along choice other)
    (shorter : path.length ≤ other.length) : path = other.take path.length := by
  induction path generalizing choice other with
  | nil => simp
  | cons x path ih =>
    cases other with
    | nil => simp at shorter
    | cons y other =>
      rw [along_cons] at along other_along
      obtain rfl : x = y := Option.some.inj (along.1.symm.trans other_along.1)
      have rest := ih along.2 other_along.2 (by simpa using shorter)
      rw [List.length_cons, List.take_succ_cons, ← rest]

theorem Along.of_prefix (along : Along choice path) (begins : other <+: path) :
    Along choice other := by
  obtain ⟨rest, rfl⟩ := begins
  intro i inside
  have step := along i (by rw [List.length_append]; omega)
  rwa [List.take_append_of_le_length (Nat.le_of_lt inside),
    List.getElem_append_left inside] at step

variable {paths : List (List α)}

/-- The walks are what the farthest one begins with. -/
theorem IsFarthest.walks_iff (farthest : IsFarthest paths choice path) (some_ : paths ≠ [])
    {walk : List α} : Walks paths choice walk ↔ walk <+: path := by
  constructor
  · rintro ⟨⟨whole, member, begins⟩, along⟩
    rw [along.eq_take farthest.along (farthest.longest walk whole member begins along)]
    exact List.take_prefix ..
  · intro begins
    refine ⟨?_, farthest.along.of_prefix begins⟩
    rcases farthest.begins with rfl | ⟨whole, member, path_begins⟩
    · obtain ⟨first, rest, rfl⟩ := List.exists_cons_of_ne_nil some_
      rw [List.prefix_nil.mp begins]
      exact ⟨first, List.mem_cons_self, List.nil_prefix⟩
    · exact ⟨whole, member, begins.trans path_begins⟩

section

variable (farthest : IsFarthest paths choice path) (other_farthest : IsFarthest paths choice other)

include farthest other_farthest

theorem IsFarthest.length_le : other.length ≤ path.length := by
  rcases other_farthest.begins with rfl | ⟨whole, member, begins⟩
  · simp
  · exact farthest.longest other whole member begins other_farthest.along

theorem IsFarthest.unique : path = other := by
  have shorter := other_farthest.length_le farthest
  have longer := farthest.length_le other_farthest
  rw [farthest.along.eq_take other_farthest.along shorter, List.take_of_length_le longer]

end

section Steps

variable [DecidableEq α]

theorem stepsAlong_le (choice : List α → Option α) (path : List α) :
    stepsAlong choice path ≤ path.length := by
  induction path generalizing choice with
  | nil => simp [stepsAlong]
  | cons x path ih =>
    have rest := ih fun earlier => choice (x :: earlier)
    rw [stepsAlong, List.length_cons]
    split <;> omega

theorem along_take_stepsAlong (choice : List α → Option α) (path : List α) :
    Along choice (path.take (stepsAlong choice path)) := by
  induction path generalizing choice with
  | nil => simp
  | cons x path ih =>
    rw [stepsAlong]
    split
    next first =>
      rw [List.take_succ_cons, along_cons]
      exact ⟨first, ih _⟩
    next => simp

theorem length_le_stepsAlong (begins : other <+: path)
    (along : Along choice other) : other.length ≤ stepsAlong choice path := by
  induction path generalizing choice other with
  | nil => simp [List.prefix_nil.mp begins]
  | cons x path ih =>
    cases other with
    | nil => simp
    | cons y other =>
      obtain ⟨rfl, rest_begins⟩ := List.cons_prefix_cons.mp begins
      rw [along_cons] at along
      rw [stepsAlong, if_pos along.1, List.length_cons]
      exact Nat.succ_le_succ (ih rest_begins along.2)

theorem IsFarthest.append {best : List α} (farthest : IsFarthest paths choice best)
    (path : List α) :
    IsFarthest (paths ++ [path]) choice
      (if best.length < stepsAlong choice path then path.take (stepsAlong choice path)
        else best) := by
  have length_taken : (path.take (stepsAlong choice path)).length = stepsAlong choice path := by
    rw [List.length_take, Nat.min_eq_left (stepsAlong_le choice path)]
  split
  next longer =>
    constructor
    · exact Or.inr ⟨path, by simp, List.take_prefix ..⟩
    · exact along_take_stepsAlong choice path
    · intro other whole member begins along
      rw [length_taken]
      rcases List.mem_append.mp member with seen | last
      · have := farthest.longest other whole seen begins along
        omega
      · rw [List.mem_singleton.mp last] at begins
        exact length_le_stepsAlong begins along
  next shorter =>
    constructor
    · rcases farthest.begins with none | ⟨whole, member, begins⟩
      · exact Or.inl none
      · exact Or.inr ⟨whole, by simp [member], begins⟩
    · exact farthest.along
    · intro other whole member begins along
      rcases List.mem_append.mp member with seen | last
      · exact farthest.longest other whole seen begins along
      · rw [List.mem_singleton.mp last] at begins
        have := length_le_stepsAlong begins along
        omega

theorem foldl_isFarthest {count : List α → Nat}
    (counts : ∀ path ∈ paths, count path = stepsAlong choice path) :
    ∃ best, IsFarthest paths choice best ∧
      paths.foldl (fun (best : Nat × List α) path =>
        if best.1 < count path then (count path, path.take (count path)) else best) (0, []) =
          (best.length, best) := by
  induction paths using List.reverseRecOn with
  | nil => exact ⟨[], ⟨Or.inl rfl, along_nil, by simp⟩, rfl⟩
  | append_singleton paths path ih =>
    obtain ⟨best, farthest, found⟩ := ih fun earlier member => counts earlier (by simp [member])
    use if best.length < stepsAlong choice path then path.take (stepsAlong choice path) else best
    constructor
    · exact farthest.append path
    · rw [List.foldl_append, found, List.foldl_cons, List.foldl_nil, counts path (by simp)]
      split
      next => rw [List.length_take, Nat.min_eq_left (stepsAlong_le choice path)]
      next => rfl

theorem exists_isFarthest (paths : List (List α)) (choice : List α → Option α) :
    ∃ path, IsFarthest paths choice path := by
  have steps : ∀ path ∈ paths, stepsAlong choice path = stepsAlong choice path := fun _ _ => rfl
  obtain ⟨best, farthest, -⟩ := foldl_isFarthest steps
  exact ⟨best, farthest⟩

end Steps

theorem isFarthest_nil_iff :
    IsFarthest paths choice [] ↔ ∀ path ∈ paths, ∀ x ∈ path.head?, choice [] ≠ some x := by
  constructor
  · intro farthest path member x first chosen
    have single : Along choice [x] := by simp [along_cons, chosen]
    have begins : [x] <+: path := by
      cases path with
      | nil => simp at first
      | cons y path => simpa [eq_comm] using first
    simpa using farthest.longest [x] path member begins single
  · intro differs
    constructor
    · exact Or.inl rfl
    · exact along_nil
    · intro other path member begins along
      cases other with
      | nil => simp
      | cons x other =>
        obtain ⟨rest, rfl⟩ := begins
        exact absurd (along_cons.mp along).1 (differs _ member x (by simp))

variable {x : α} {path : List α} (farthest : IsFarthest (paths.map (x :: ·)) choice path)

include farthest

theorem IsFarthest.eq_nil (misses : choice [] ≠ some x) :
    path = [] := by
  apply farthest.unique
  rw [isFarthest_nil_iff]
  intro whole member y first
  obtain ⟨rest, -, rfl⟩ := List.mem_map.mp member
  obtain rfl : x = y := by simpa using first
  exact misses

theorem IsFarthest.eq_cons (some_ : paths ≠ []) (chosen : choice [] = some x) :
    ∃ rest, path = x :: rest ∧ IsFarthest paths (fun earlier => choice (x :: earlier)) rest := by
  obtain ⟨first, firsts, rfl⟩ := List.exists_cons_of_ne_nil some_
  have single : Along choice [x] := by simp [along_cons, chosen]
  have some_step := farthest.longest [x] (x :: first) (by simp) (by simp) single
  rcases farthest.begins with rfl | ⟨whole, member, begins⟩
  · simp at some_step
  obtain ⟨behind, inside, rfl⟩ := List.mem_map.mp member
  cases path with
  | nil => simp at some_step
  | cons y rest =>
    obtain ⟨rfl, rest_begins⟩ := List.cons_prefix_cons.mp begins
    have along := along_cons.mp farthest.along
    use rest
    constructor
    · rfl
    constructor
    · exact Or.inr ⟨behind, inside, rest_begins⟩
    · exact along.2
    · intro other whole member begins other_along
      have longer := farthest.longest (y :: other) (y :: whole) (List.mem_map_of_mem member)
        (by simpa using begins) (along_cons.mpr ⟨chosen, other_along⟩)
      simpa using longer

end Choice

/-- How one pass through the body of a loop ends: by returning, or by going on. -/
inductive Pass (σ α : Type) where
  | returned (result : List α) (s : σ)
  | continued (grown : List α) (s : σ)

/-- A loop that runs while the list is shorter than its goal; it can return from the body. -/
def whileShorter (body : σ → List α → Option (Pass σ α)) (goal : Nat) :
    Nat → σ → List α → Option (List α × σ)
  | 0, _, _ => none
  | fuel + 1, s, xs =>
    if xs.length < goal then
      (body s xs).bind fun
        | .returned result s' => some (result, s')
        | .continued grown s' => whileShorter body goal fuel s' grown
    else some (xs, s)

section Loop

variable {next : List α → α} {stop : α → Bool} {start : List α} {n : Nat}
  {body : σ → List α → Option (Pass σ α)}

/-- What a pass from the `k` elements after the start has done: it has gone on to `m` of them, and
returned if a stop element is before the last of these. -/
def PassTo (next : List α → α) (stop : α → Bool) (start : List α) (kept : σ → Prop) (m : Nat)
    (ends : Option (Pass σ α)) : Prop :=
  (StopsBefore next stop start m → ∃ s, kept s ∧
    ends = some (.returned (start ++ cutAfter stop (continuation next m start)) s)) ∧
  (¬ StopsBefore next stop start m → ∃ s, kept s ∧
    ends = some (.continued (start ++ continuation next m start) s))

variable {kept : σ → Prop}

/-- A loop whose passes each go on along the continuation ends on it: at a place where its passes
can stand, which is the goal or beyond, or has a stop element before it. -/
theorem whileShorter_lands (Place : Nat → Prop)
    (pass : ∀ s k, kept s → Place k → k < n → ∃ m, k < m ∧ Place m ∧
        PassTo next stop start kept m (body s (start ++ continuation next k start))) {fuel k : Nat}
    (enough : n - k < fuel) {s : σ} (holds : kept s) (here : Place k)
    (whole : ¬ StopsBefore next stop start k) :
    ∃ m s', Place m ∧ kept s' ∧ (n ≤ m ∨ StopsBefore next stop start m) ∧
      whileShorter body (start.length + n) fuel s (start ++ continuation next k start)
        = some (start ++ cutAfter stop (continuation next m start), s') := by
  induction fuel generalizing k s with
  | zero => omega
  | succ fuel ih =>
    by_cases inside : k < n
    · obtain ⟨m, further, there, returns, goesOn⟩ := pass s k holds here inside
      have enters : (start ++ continuation next k start).length < start.length + n := by
        simpa using inside
      by_cases early : StopsBefore next stop start m
      · obtain ⟨s', kept', returned⟩ := returns early
        refine ⟨m, s', there, kept', Or.inr early, ?_⟩
        simp only [whileShorter, enters, if_true, returned, Option.bind_some]
      · obtain ⟨s', kept', continued⟩ := goesOn early
        obtain ⟨last, final, place, keeps, ended, ends⟩ := ih (by omega) kept' there early
        refine ⟨last, final, place, keeps, ended, ?_⟩
        simp only [whileShorter, enters, if_true, continued, Option.bind_some, ends]
    · refine ⟨k, s, here, holds, Or.inl (by omega), ?_⟩
      have leaves : ¬ (start ++ continuation next k start).length < start.length + n := by
        simpa using inside
      rw [cutAfter_of_not_stopsBefore whole]
      simp only [whileShorter, leaves, if_false]

/-- A loop whose passes never go past the goal returns the continuation up to the goal, cut after
the first stop element. -/
theorem whileShorter_eq
    (pass : ∀ s k, kept s → k < n → ∃ m, k < m ∧ m ≤ n ∧
        PassTo next stop start kept m (body s (start ++ continuation next k start))) {fuel : Nat}
    (enough : n < fuel) {s : σ} (holds : kept s) :
    ∃ s', kept s' ∧ whileShorter body (start.length + n) fuel s start
      = some (start ++ cutAfter stop (continuation next n start), s') := by
  obtain ⟨m, s', within, keeps, ended, ends⟩ :=
    whileShorter_lands (k := 0) (· ≤ n)
      (fun s k holds _ inside => by
        obtain ⟨m, further, within, passes⟩ := pass s k holds inside
        exact ⟨m, further, within, passes⟩)
      (by omega) holds (by omega) not_stopsBefore_zero
  refine ⟨s', keeps, ?_⟩
  rw [continuation_zero, List.append_nil] at ends
  rw [ends]
  rcases ended with reached | early
  · obtain rfl : m = n := by omega
    rfl
  · rw [cutAfter_continuation_of_le within early.stops]

/-- Where the rounds of a loop begin, in elements after the start: each round adds `stride` of
them, until the goal is reached. -/
def roundStart (stride : Nat → Nat) (goal : Nat) : Nat → Nat
  | 0 => 0
  | t + 1 =>
    let k := roundStart stride goal t
    if k < goal then k + stride k else k

theorem roundStart_mono (goal : Nat) {t u : Nat} (earlier : t ≤ u) :
    roundStart stride goal t ≤ roundStart stride goal u := by
  induction earlier with
  | refl => exact Nat.le_refl _
  | step _ ih =>
    apply Nat.le_trans ih
    simp only [roundStart]
    split <;> omega

theorem roundStart_of_reached {goal t u : Nat} (earlier : t ≤ u)
    (reached : goal ≤ roundStart stride goal t) :
    roundStart stride goal u = roundStart stride goal t := by
  induction earlier with
  | refl => rfl
  | step _ ih => simp [roundStart, ih, Nat.not_lt.mpr reached]

/-- A loop whose rounds go along the continuation returns exactly what is wanted if a stop element
comes within the goal, or no round goes past it; and only then. -/
theorem whileShorter_eq_iff {stride : Nat → Nat}
    (pass : ∀ s k, kept s → k < n → 0 < stride k ∧
      PassTo next stop start kept (k + stride k) (body s (start ++ continuation next k start)))
    {fuel : Nat} (enough : n < fuel) {s : σ} (holds : kept s) :
    (whileShorter body (start.length + n) fuel s start).map Prod.fst
        = some (start ++ cutAfter stop (continuation next n start)) ↔
      (∃ x ∈ continuation next n start, stop x = true) ∨ ∀ t, roundStart stride n t ≤ n := by
  obtain ⟨m, s', ⟨t, starts⟩, -, ended, ends⟩ :=
    whileShorter_lands (k := 0) (fun m => ∃ t, roundStart stride n t = m)
      (fun s k holds ⟨t, here⟩ inside => by
        obtain ⟨positive, passes⟩ := pass s k holds inside
        refine ⟨k + stride k, by omega, ⟨t + 1, ?_⟩, passes⟩
        simp [roundStart, here, inside])
      (by omega) holds ⟨0, rfl⟩ not_stopsBefore_zero
  rw [continuation_zero, List.append_nil] at ends
  simp only [ends, Option.map_some, Option.some.injEq, List.append_cancel_left_eq]
  -- with a stop within the length both sides end there, wherever the rounds land
  by_cases stops : ∃ x ∈ continuation next n start, stop x = true
  · simp only [stops, true_or, iff_true]
    rcases Nat.le_total n m with past | within
    · exact cutAfter_continuation_of_le past stops
    · rcases ended with reached | early
      · rw [Nat.le_antisymm within reached]
      · rw [cutAfter_continuation_of_le within early.stops]
  · have quiet : ∀ x ∈ continuation next n start, stop x = false := by
      simpa using stops
    simp only [stops, false_or]
    have reached : n ≤ m := by
      rcases ended with reached | early
      · exact reached
      · by_contra short
        obtain ⟨more, rfl⟩ := Nat.exists_eq_add_of_le (Nat.le_of_not_le short)
        obtain ⟨x, inside, halts⟩ := early.stops
        rw [quiet x (by simp [continuation_add, inside])] at halts
        cases halts
    constructor
    · intro same u
      have lands : m = n := by
        obtain ⟨more, rfl⟩ := Nat.exists_eq_add_of_le reached
        rw [continuation_add, cutAfter_append_of_quiet quiet, cutAfter_eq_self quiet] at same
        have nothing := List.append_right_eq_self.mp same
        cases more with
        | zero => rfl
        | succ more => exact absurd nothing (cutAfter_ne_nil (by simp [continuation]))
      rcases Nat.le_total u t with before | after
      · have := roundStart_mono stride n before
        omega
      · rw [roundStart_of_reached stride after (by omega)]
        omega
    · intro fits
      have := fits t
      rw [show m = n by omega]

end Loop

end DistLLM.Library
