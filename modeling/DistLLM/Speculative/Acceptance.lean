import DistLLM.Library.Rounding
import DistLLM.Speculative.Target

/-!
# The acceptance kernel

Whether a draft token is accepted at a row of logits, decided for one token at a time and for a
whole chain at once. The chain is decided with tensors, whose operations raise where a shape or an
entry does not fit, and whose floats are not those of Python.
-/
namespace DistLLM.Speculative

open Library

/-- What an operation of the kernel can raise. -/
inductive TensorError
  | indexError
  | typeError
  | runtimeError
  deriving DecidableEq

/-- Logits of shape `(1, seq_len, vocab)`. -/
structure Logits (R : Type) where
  vocab : Nat
  rows : List (List R)
  rectangular : ∀ row ∈ rows, row.length = vocab

/-- What is taken from torch: `F.softmax(row / temperature, dim=-1)`, with a probability for each
logit, and how results are rounded, those of Python and those in the dtype of the logits. -/
structure Torch (R : Type) where
  softmax : ℚ → List R → List ℚ
  length_softmax : ∀ temperature row, (softmax temperature row).length = row.length
  double : Rounding
  single : Rounding

def UnitDraw : Type := { u : ℚ // 0 ≤ u ∧ u < 1 }

/-- `row[i]` of a tensor, from the end for a negative index. -/
def entryAt (row : List ℚ) (i : Int) : Option ℚ :=
  if 0 ≤ i then row[i.toNat]?
  else if -row.length ≤ i then row[(row.length + i).toNat]?
  else none

/-- An operation on two tensors of one dimension, one of which may be of length one. -/
def broadcast {α β γ : Type} (f : α → β → γ) (xs : List α) (ys : List β) :
    Except TensorError (List γ) :=
  if xs.length = ys.length then .ok (List.zipWith f xs ys)
  else
    match xs, ys with
    | xs, [y] => .ok (xs.map (f · y))
    | [x], ys => .ok (ys.map (f x))
    | _, _ => .error .runtimeError

variable {R : Type} [LinearOrder R] (torch : Torch R) (targetLogits : Logits R)
  (temperature : ℚ) (vocabSize : Option Int)

def acceptToken (pos tokenId : Int) (draftProb : Option ℚ) (draw : UnitDraw) :
    Except TensorError Bool :=
  match rowAt targetLogits.rows pos with
  | none => .error .indexError
  | some row =>
    if temperature = 0 then
      if targetLogits.vocab = 0 then .error .indexError
      else .ok (decide ((argmax row : Int) = tokenId))
    else
      match entryAt (torch.softmax temperature row) tokenId with
      | none => .error .indexError
      | some p =>
        match draftProb with
        | some q =>
          if q ≤ 0 then .ok false else .ok (decide (draw.1 < min 1 (torch.double (p / q))))
        | none => .ok (decide (draw.1 <
            min 1 (torch.double (p * torch.double (vocabSize.getD targetLogits.vocab)))))

variable (draftProbs : Option (List (Option ℚ))) {given : List (Option ℚ)} (firstPos : Int)
  {i : Nat} {usable : Nat}

omit [LinearOrder R] in
/-- How many rows there are for the chain. -/
def usableRows (draftTokens : List Int) : Nat :=
  (min (draftTokens.length : Int) (max 0 (targetLogits.rows.length - firstPos))).toNat

def greedyMatches (logitsRows : List (List R)) (ids : List Int) :
    Except TensorError (List Bool) :=
  if targetLogits.vocab = 0 then .error .indexError
  else .ok (List.zipWith (fun row id => decide ((argmax row : Int) = id)) logitsRows ids)

/-- `probs.gather(1, ids)`, where a negative index is out of range. -/
def gather (probs : List (List ℚ)) (ids : List Int) : Except TensorError (List ℚ) :=
  match (probs.zip ids).mapM fun (row, id) => if 0 ≤ id then row[id.toNat]? else none with
  | none => .error .runtimeError
  | some p => .ok p

/-- The draft probability is cast to the dtype of the logits. -/
def acceptanceOf (p draftProb : ℚ) : ℚ :=
  let q := torch.single draftProb
  if 0 < q then min (torch.single (p / q)) 1 else 0

def uniformAcceptance (p : ℚ) : ℚ :=
  min (torch.single (p * torch.single (vocabSize.getD targetLogits.vocab))) 1

def acceptances (usable : Nat) (p : List ℚ) (draftProbs : Option (List (Option ℚ))) :
    Except TensorError (List ℚ) :=
  match draftProbs with
  | none => .ok (p.map (uniformAcceptance torch targetLogits vocabSize))
  | some given =>
    -- `torch.tensor` of a list raises for a `None` in it
    match (given.take usable).mapM id with
    | none => .error .typeError
    | some q => broadcast (acceptanceOf torch) p q

def sampledMatches (logitsRows : List (List R)) (ids : List Int)
    (draftProbs : Option (List (Option ℚ))) (draws : Nat → UnitDraw) :
    Except TensorError (List Bool) := do
  let p ← gather (logitsRows.map (torch.softmax temperature)) ids
  let acceptance ← acceptances torch targetLogits vocabSize ids.length p draftProbs
  broadcast (fun draw acceptance => decide (draw < acceptance))
    ((List.range ids.length).map fun i => (draws i).1) acceptance

def acceptTokensBatched (draftTokens : List Int) (draftProbs : Option (List (Option ℚ)))
    (draws : Nat → UnitDraw) : Except TensorError Nat :=
  let n := draftTokens.length
  let usable := usableRows targetLogits firstPos draftTokens
  if usable = 0 then .ok 0
  else
    let ids := draftTokens.take usable
    match ((List.range usable).map fun i : Nat => firstPos + i).mapM (rowAt targetLogits.rows) with
    | none => .error .indexError
    | some logitsRows =>
      let found :=
        if temperature = 0 then greedyMatches targetLogits logitsRows ids
        else sampledMatches torch targetLogits temperature vocabSize logitsRows ids draftProbs
          draws
      found.map fun found =>
        let allMatches := found ++ List.replicate (n - usable) false
        (allMatches.findIdx? fun accepted => !accepted).getD n

/-- `prefix_len`: the row that verifies the first draft token. -/
def prefixLen (tokens : List Token) : Int := tokens.length - 1

def verifyChain (tokens : List Token) (draftTokens : List Int)
    (draftProbs : Option (List (Option ℚ))) (draws : Nat → UnitDraw) : Except TensorError Nat :=
  acceptTokensBatched torch targetLogits temperature vocabSize (prefixLen tokens) draftTokens
    draftProbs draws

/-- The probability that is given for a draft token, if one is. -/
def givenProb (i : Nat) : Option ℚ :=
  draftProbs.bind fun given => (given[i]?).join

/-- What is wanted of the chain: how many leading tokens are accepted one by one, from the `i`-th
on, while there are rows. -/
def acceptChain (firstPos : Int) (draftProbs : Option (List (Option ℚ)))
    (draws : Nat → UnitDraw) : Nat → List Int → Nat
  | _, [] => 0
  | i, id :: rest =>
    if targetLogits.rows.length ≤ firstPos + i then 0
    else if acceptToken torch targetLogits temperature vocabSize (firstPos + i) id
        (givenProb draftProbs i) (draws i) = .ok true then
      acceptChain firstPos draftProbs draws (i + 1) rest + 1
    else 0

section Lists

variable {α β γ : Type}

theorem mapM_eq_some_map {f : α → Option β} {g : α → β} {l : List α}
    (defined : ∀ a ∈ l, f a = some (g a)) : l.mapM f = some (l.map g) := by
  induction l with
  | nil => rfl
  | cons a rest ih =>
    rw [List.mapM_cons, defined a (List.mem_cons_self ..),
      ih fun b later => defined b (List.mem_cons_of_mem _ later)]
    rfl

theorem mapM_eq_none {f : α → Option β} {l : List α} {a : α} (member : a ∈ l)
    (undefined : f a = none) : l.mapM f = none := by
  induction l with
  | nil => cases member
  | cons b rest ih =>
    rw [List.mapM_cons]
    rcases List.mem_cons.mp member with rfl | later
    · rw [undefined]
      rfl
    · rw [ih later]
      cases f b <;> rfl

theorem take_eq_map_range (l : List α) {n : Nat} (within : n ≤ l.length) (default : α) :
    l.take n = (List.range n).map fun i => l.getD i default := by
  refine List.ext_getElem (by simpa using within) fun i inTake _ => ?_
  have inside : i < l.length := by
    rw [List.length_take] at inTake
    omega
  simp [List.getD, inside]

theorem broadcast_map_range (f : α → β → γ) (n : Nat) (a : Nat → α) (b : Nat → β) :
    broadcast f ((List.range n).map a) ((List.range n).map b) =
      .ok ((List.range n).map fun i => f (a i) (b i)) := by
  have same : ((List.range n).map a).length = ((List.range n).map b).length := by simp
  unfold broadcast
  rw [if_pos same, List.zipWith_map, List.zipWith_self]

theorem broadcast_single (f : α → β → γ) (xs : List α) (y : β) :
    broadcast f xs [y] = .ok (xs.map (f · y)) := by
  unfold broadcast
  split
  next same =>
    obtain ⟨x, rfl⟩ := List.length_eq_one_iff.mp same
    rfl
  next => rfl

theorem broadcast_error {f : α → β → γ} {xs : List α} {ys : List β}
    (different : xs.length ≠ ys.length) (manyX : xs.length ≠ 1) (manyY : ys.length ≠ 1) :
    broadcast f xs ys = .error .runtimeError := by
  unfold broadcast
  rw [if_neg different]
  split
  · exact absurd rfl manyY
  · exact absurd rfl manyX
  · rfl

/-- How many leading positions below a bound have the property. -/
def leading : Nat → (Nat → Bool) → Nat
  | 0, _ => 0
  | n + 1, accepted => if accepted 0 then leading n (fun i => accepted (i + 1)) + 1 else 0

theorem findIdx?_eq_leading (accepted : Nat → Bool) {usable n : Nat} (within : usable ≤ n) :
    (((List.range usable).map accepted ++ List.replicate (n - usable) false).findIdx?
      fun a => !a).getD n = leading usable accepted := by
  induction usable generalizing n accepted with
  | zero => cases n <;> simp [leading, List.replicate_succ, List.findIdx?_cons]
  | succ usable ih =>
    obtain ⟨n, rfl⟩ : ∃ m, n = m + 1 := ⟨n - 1, by omega⟩
    have rest := ih (fun i => accepted (i + 1)) (Nat.le_of_succ_le_succ within)
    rw [List.range_succ_eq_map, List.map_cons, List.map_map, List.cons_append,
      List.findIdx?_cons, Nat.add_sub_add_right, leading]
    by_cases first : accepted 0 = true
    · rw [← rest]
      simp only [first, Bool.not_true, Bool.false_eq_true, if_false, if_true]
      change (Option.map (· + 1) (List.findIdx? _
        (List.map (fun i => accepted (i + 1)) (List.range usable) ++ _))).getD (n + 1) = _
      generalize List.findIdx? _ _ = found
      cases found <;> rfl
    · simp [first]

theorem leading_eq_iff (n : Nat) (accepted accepted' : Nat → Bool) :
    leading n accepted = leading n accepted' ↔
      ∀ i < n, (∀ j < i, accepted j = true) → accepted i = accepted' i := by
  induction n generalizing accepted accepted' with
  | zero => simp [leading]
  | succ n ih =>
    have first : (∀ i < n + 1, (∀ j < i, accepted j = true) → accepted i = accepted' i) ↔
        accepted 0 = accepted' 0 ∧ (accepted 0 = true →
          ∀ i < n, (∀ j < i, accepted (j + 1) = true) → accepted (i + 1) = accepted' (i + 1)) := by
      simp only [Nat.forall_lt_succ_left, Nat.not_lt_zero, false_imp_iff, implies_true,
        true_imp_iff]
      refine and_congr_right fun _ => ?_
      constructor
      · exact fun all start i below before => all i below ⟨start, before⟩
      · exact fun all i below before => all before.1 i below before.2
    rw [first, ← ih, leading, leading]
    cases accepted 0 <;> cases accepted' 0 <;> simp

end Lists

/-! ### Single decisions -/

section Decisions

variable {torch targetLogits temperature vocabSize} {firstPos : Int} {draftTokens : List Int}
  {draftProbs : Option (List (Option ℚ))} {draws : Nat → UnitDraw}

omit [LinearOrder R] in
theorem rowAt_isSome (rows : List (List R)) {i : Int} (low : -rows.length ≤ i)
    (high : i < rows.length) : ∃ row ∈ rows, rowAt rows i = some row := by
  unfold rowAt
  by_cases forwards : 0 ≤ i
  · have inside : i.toNat < rows.length := by omega
    exact ⟨rows[i.toNat], List.getElem_mem inside, by simp [forwards, inside]⟩
  · have inside : (rows.length + i).toNat < rows.length := by omega
    exact ⟨rows[(rows.length + i).toNat], List.getElem_mem inside, by simp [forwards, low, inside]⟩

omit [LinearOrder R] in
theorem rowAt_before {rows : List (List R)} {i : Int} (low : i < -rows.length) :
    rowAt rows i = none := by
  unfold rowAt
  rw [if_neg (by omega), if_neg (by omega)]

variable (targetLogits firstPos draftTokens) in
omit [LinearOrder R] in
theorem usableRows_le : usableRows targetLogits firstPos draftTokens ≤ draftTokens.length := by
  unfold usableRows
  omega

variable (targetLogits firstPos draftTokens) in
omit [LinearOrder R] in
theorem lt_usableRows (i : Nat) : i < usableRows targetLogits firstPos draftTokens ↔
    i < draftTokens.length ∧ firstPos + i < targetLogits.rows.length := by
  unfold usableRows
  omega

variable (torch targetLogits temperature vocabSize firstPos draftTokens draws) in
/-- The draft token is accepted with the probability. -/
def Accepts (i : Nat) (draftProb : Option ℚ) : Prop :=
  acceptToken torch targetLogits temperature vocabSize (firstPos + i) (draftTokens.getD i 0)
    draftProb (draws i) = .ok true

instance (i : Nat) (draftProb : Option ℚ) : Decidable (Accepts torch targetLogits temperature
    vocabSize firstPos draftTokens draws i draftProb) :=
  inferInstanceAs (Decidable (_ = _))

theorem acceptChain_eq_leading (i : Nat) (within : i ≤ draftTokens.length) :
    acceptChain torch targetLogits temperature vocabSize firstPos draftProbs draws i
        (draftTokens.drop i) = leading (usableRows targetLogits firstPos draftTokens - i) fun k =>
        decide (Accepts torch targetLogits temperature vocabSize firstPos draftTokens draws
          (i + k) (givenProb draftProbs (i + k))) := by
  induction left : draftTokens.length - i generalizing i with
  | zero =>
    have all : usableRows targetLogits firstPos draftTokens - i = 0 := by
      have bound := usableRows_le targetLogits firstPos draftTokens
      omega
    rw [List.drop_eq_nil_of_le (by omega), all]
    rfl
  | succ left' ih =>
    have inside : i < draftTokens.length := by omega
    have token : draftTokens.getD i 0 = draftTokens[i] := by simp [List.getD, inside]
    rw [List.drop_eq_getElem_cons inside, acceptChain]
    by_cases row : targetLogits.rows.length ≤ firstPos + i
    · have none : usableRows targetLogits firstPos draftTokens - i = 0 := by
        have bound := (lt_usableRows targetLogits firstPos draftTokens i).not.mpr (by omega)
        omega
      rw [if_pos row, none]
      rfl
    · have more : usableRows targetLogits firstPos draftTokens - i =
          (usableRows targetLogits firstPos draftTokens - (i + 1)) + 1 := by
        have bound := (lt_usableRows targetLogits firstPos draftTokens i).mpr
          ⟨inside, not_le.mp row⟩
        omega
      have later : (fun k => decide (Accepts torch targetLogits temperature vocabSize firstPos
            draftTokens draws (i + (k + 1)) (givenProb draftProbs (i + (k + 1))))) =
          fun k => decide (Accepts torch targetLogits temperature vocabSize firstPos draftTokens
            draws (i + 1 + k) (givenProb draftProbs (i + 1 + k))) := by
        funext k
        rw [Nat.add_right_comm i 1 k, Nat.add_assoc i k 1]
      rw [if_neg row, more, leading, later, ih (i + 1) inside (by omega)]
      simp only [Nat.add_zero, decide_eq_true_eq, Accepts, token]

def rowOf (targetLogits : Logits R) (firstPos : Int) (i : Nat) : List R :=
  (rowAt targetLogits.rows (firstPos + i)).getD []

def probOf (torch : Torch R) (targetLogits : Logits R) (temperature : ℚ) (firstPos : Int)
    (draftTokens : List Int) (i : Nat) : ℚ :=
  (torch.softmax temperature (rowOf targetLogits firstPos i)).getD (draftTokens.getD i 0).toNat 0

omit [LinearOrder R] in
theorem rowAt_rowOf (low : -targetLogits.rows.length ≤ firstPos)
    (usable : i < usableRows targetLogits firstPos draftTokens) :
    rowAt targetLogits.rows (firstPos + i) = some (rowOf targetLogits firstPos i) ∧
      (rowOf targetLogits firstPos i).length = targetLogits.vocab := by
  obtain ⟨-, below⟩ := (lt_usableRows ..).mp usable
  have above : -targetLogits.rows.length ≤ firstPos + i := by omega
  obtain ⟨row, member, found⟩ := rowAt_isSome targetLogits.rows above below
  have own : rowOf targetLogits firstPos i = row := by simp [rowOf, found]
  rw [own]
  exact ⟨found, targetLogits.rectangular row member⟩

omit [LinearOrder R] in
theorem entryAt_probOf (low : -targetLogits.rows.length ≤ firstPos)
    (usable : i < usableRows targetLogits firstPos draftTokens)
    (valid : 0 ≤ draftTokens.getD i 0 ∧ draftTokens.getD i 0 < targetLogits.vocab) :
    (torch.softmax temperature (rowOf targetLogits firstPos i))[(draftTokens.getD i 0).toNat]? =
      some (probOf torch targetLogits temperature firstPos draftTokens i) := by
  have length := (rowAt_rowOf low usable).2
  have inside : (draftTokens.getD i 0).toNat <
      (torch.softmax temperature (rowOf targetLogits firstPos i)).length := by
    rw [torch.length_softmax, length]
    omega
  have entry (l : List ℚ) (n : Nat) (within : n < l.length) : l[n]? = some (l.getD n 0) := by
    simp [List.getD, within]
  exact entry _ _ inside

theorem accepts_greedy_iff (low : -targetLogits.rows.length ≤ firstPos)
    (vocab : 0 < targetLogits.vocab) (greedy : temperature = 0)
    (usable : i < usableRows targetLogits firstPos draftTokens) (draftProb : Option ℚ) :
    Accepts torch targetLogits temperature vocabSize firstPos draftTokens draws i draftProb ↔
      (argmax (rowOf targetLogits firstPos i) : Int) = draftTokens.getD i 0 := by
  unfold Accepts acceptToken
  simp [(rowAt_rowOf low usable).1, greedy, vocab.ne']

variable (torch targetLogits temperature vocabSize firstPos draftTokens) in
/-- The kernel's bound for the draw of a draft token. -/
def acceptanceAt (i : Nat) (draftProb : Option ℚ) : ℚ :=
  match draftProb with
  | some q => acceptanceOf torch (probOf torch targetLogits temperature firstPos draftTokens i) q
  | none => uniformAcceptance torch targetLogits vocabSize
      (probOf torch targetLogits temperature firstPos draftTokens i)

variable (torch targetLogits temperature vocabSize firstPos draftTokens) in
/-- The bound of `acceptToken`. -/
def tokenAcceptanceAt (i : Nat) (draftProb : Option ℚ) : ℚ :=
  let p := probOf torch targetLogits temperature firstPos draftTokens i
  match draftProb with
  | some q => if q ≤ 0 then 0 else min 1 (torch.double (p / q))
  | none => min 1 (torch.double (p * torch.double (vocabSize.getD targetLogits.vocab)))

theorem accepts_sampled_iff (low : -targetLogits.rows.length ≤ firstPos) (sampled : temperature ≠ 0)
    (usable : i < usableRows targetLogits firstPos draftTokens)
    (valid : 0 ≤ draftTokens.getD i 0 ∧ draftTokens.getD i 0 < targetLogits.vocab)
    (draftProb : Option ℚ) :
    Accepts torch targetLogits temperature vocabSize firstPos draftTokens draws i draftProb ↔
      (draws i).1 < tokenAcceptanceAt torch targetLogits temperature vocabSize firstPos draftTokens
        i draftProb := by
  have entry : entryAt (torch.softmax temperature (rowOf targetLogits firstPos i))
      (draftTokens.getD i 0) =
        some (probOf torch targetLogits temperature firstPos draftTokens i) :=
    (if_pos valid.1).trans (entryAt_probOf low usable valid)
  unfold Accepts acceptToken tokenAcceptanceAt
  simp only [(rowAt_rowOf low usable).1, if_neg sampled, entry]
  cases draftProb with
  | none => simp
  | some q =>
    by_cases zero : q ≤ 0
    · -- no draw is below zero
      simp [zero, not_lt.mpr (draws i).2.1]
    · simp [zero]

/-! ### The chain at once -/

variable (targetLogits firstPos draftTokens) in
/-- All tokens that have a row are in the vocabulary. -/
abbrev InVocab : Prop :=
  ∀ i < usableRows targetLogits firstPos draftTokens,
    0 ≤ draftTokens.getD i 0 ∧ draftTokens.getD i 0 < targetLogits.vocab

variable (torch targetLogits temperature firstPos draftTokens) in
abbrev probsOf : List ℚ :=
  (List.range (usableRows targetLogits firstPos draftTokens)).map
    (probOf torch targetLogits temperature firstPos draftTokens)

/-- The probability that the kernel takes for a token: its own, or the only one of the list. -/
def takenProb (draftProbs : Option (List (Option ℚ))) (i : Nat) : Option ℚ :=
  match draftProbs with
  | some [q] => q
  | draftProbs => givenProb draftProbs i

theorem takenProb_of_many (many : given.length ≠ 1) :
    takenProb (some given) i = givenProb (some given) i := by
  match given with
  | [] => rfl
  | [_] => exact absurd rfl many
  | _ :: _ :: _ => rfl

/-- There is a probability for each token that has a row, or a single one for all of them. -/
def Broadcasts (usable : Nat) (given : List (Option ℚ)) : Prop :=
  (∀ entry ∈ given.take usable, entry ≠ none) ∧ (usable ≤ given.length ∨ given.length = 1)

variable (torch targetLogits temperature vocabSize firstPos draftTokens draftProbs draws) in
/-- Up to the first token that the kernel rejects, each draw lies on the same side of its bound, in
the floats of the tensors and for the probability taken, and of the bound of `acceptToken`, in
Python's and for the probability given. -/
def SameSide : Prop :=
  let bound := acceptanceAt torch targetLogits temperature vocabSize firstPos draftTokens
  let tokenBound := tokenAcceptanceAt torch targetLogits temperature vocabSize firstPos draftTokens
  ∀ i < usableRows targetLogits firstPos draftTokens,
    (∀ j < i, (draws j).1 < bound j (takenProb draftProbs j)) →
      ((draws i).1 < bound i (takenProb draftProbs i) ↔
        (draws i).1 < tokenBound i (givenProb draftProbs i))

omit [LinearOrder R] in
/-- In exact arithmetic the two bounds are one, unless one entry is taken for several tokens. -/
theorem sameSide_of_exact (double : torch.double = .exact) (single : torch.single = .exact)
    (own : ∀ i < usableRows targetLogits firstPos draftTokens,
      takenProb draftProbs i = givenProb draftProbs i) :
    SameSide torch targetLogits temperature vocabSize firstPos draftTokens draftProbs draws := by
  intro i usable _
  rw [own i usable]
  cases givenProb draftProbs i with
  | none => simp [acceptanceAt, tokenAcceptanceAt, uniformAcceptance, double, single, min_comm]
  | some q =>
    by_cases zero : q ≤ 0
    · simp [acceptanceAt, tokenAcceptanceAt, acceptanceOf, single, zero, not_lt.mpr zero]
    · simp [acceptanceAt, tokenAcceptanceAt, acceptanceOf, double, single, zero, not_le.mp zero,
        min_comm]

variable (torch targetLogits temperature vocabSize firstPos draftTokens draftProbs draws) in
/-- Where the kernel counts as the chain does token by token: there is no row for the chain; or the
rows are there, and for a sampled chain the tokens are in the vocabulary, the probabilities are as
many as are needed and no draw comes between the bounds. An empty list leaves a single row
undecided: all tokens are accepted if there is one token, and none if there are more. -/
def KernelFits : Prop :=
  let usable := usableRows targetLogits firstPos draftTokens
  usable = 0 ∨
    -targetLogits.rows.length ≤ firstPos ∧ 0 < targetLogits.vocab ∧
      (temperature = 0 ∨
        (∀ i < usable, 0 ≤ draftTokens.getD i 0 ∧ draftTokens.getD i 0 < targetLogits.vocab) ∧
        ((∀ given ∈ draftProbs, Broadcasts usable given) ∧
            SameSide torch targetLogits temperature vocabSize firstPos draftTokens draftProbs
              draws ∨
          draftProbs = some [] ∧ usable = 1 ∧
            (draftTokens.length = 1 ↔ (draws 0).1 <
              tokenAcceptanceAt torch targetLogits temperature vocabSize firstPos draftTokens 0
                none)))

omit [LinearOrder R] in
theorem gather_rows (low : -targetLogits.rows.length ≤ firstPos) :
    ((List.range (usableRows targetLogits firstPos draftTokens)).map fun i : Nat =>
        firstPos + i).mapM (rowAt targetLogits.rows) =
      some ((List.range (usableRows targetLogits firstPos draftTokens)).map
        (rowOf targetLogits firstPos)) := by
  rw [List.mapM_map]
  exact mapM_eq_some_map fun i member => (rowAt_rowOf low (List.mem_range.mp member)).1

variable (torch targetLogits temperature vocabSize firstPos draftTokens draftProbs draws) in
/-- The decisions of the kernel for the rows there are. -/
def decided : Except TensorError (List Bool) :=
  let rows := (List.range (usableRows targetLogits firstPos draftTokens)).map
    (rowOf targetLogits firstPos)
  let ids := draftTokens.take (usableRows targetLogits firstPos draftTokens)
  if temperature = 0 then greedyMatches targetLogits rows ids
  else sampledMatches torch targetLogits temperature vocabSize rows ids draftProbs draws

section

variable (low : -targetLogits.rows.length ≤ firstPos)
  (some : usableRows targetLogits firstPos draftTokens ≠ 0)

include low some

theorem acceptTokensBatched_of_rows :
    acceptTokensBatched torch targetLogits temperature vocabSize firstPos draftTokens draftProbs
        draws =
      (decided torch targetLogits temperature vocabSize firstPos draftTokens draftProbs draws).map
        fun found => ((found ++ List.replicate
          (draftTokens.length - usableRows targetLogits firstPos draftTokens)
          false).findIdx? fun accepted => !accepted).getD draftTokens.length := by
  unfold acceptTokensBatched
  rw [if_neg some, gather_rows low]
  rfl

theorem acceptTokensBatched_of_decided {accepted : Nat → Bool}
    (found : decided torch targetLogits temperature vocabSize firstPos draftTokens draftProbs
      draws = .ok ((List.range (usableRows targetLogits firstPos draftTokens)).map accepted)) :
    acceptTokensBatched torch targetLogits temperature vocabSize firstPos draftTokens draftProbs
        draws = .ok (leading (usableRows targetLogits firstPos draftTokens) accepted) := by
  rw [acceptTokensBatched_of_rows low some, found]
  exact congrArg Except.ok (findIdx?_eq_leading accepted (usableRows_le ..))

end

omit [LinearOrder R] in
theorem draftTokens_take : draftTokens.take (usableRows targetLogits firstPos draftTokens) =
      (List.range (usableRows targetLogits firstPos draftTokens)).map fun i =>
        draftTokens.getD i 0 :=
  take_eq_map_range draftTokens (usableRows_le ..) 0

theorem decided_greedy (greedy : temperature = 0) (vocab : 0 < targetLogits.vocab) :
    decided torch targetLogits temperature vocabSize firstPos draftTokens draftProbs draws =
      .ok ((List.range (usableRows targetLogits firstPos draftTokens)).map fun i =>
        decide ((argmax (rowOf targetLogits firstPos i) : Int) = draftTokens.getD i 0)) := by
  unfold decided greedyMatches
  rw [if_pos greedy, if_neg vocab.ne', draftTokens_take, List.zipWith_map, List.zipWith_self]

section Gathering

omit [LinearOrder R]

theorem gather_probs (low : -targetLogits.rows.length ≤ firstPos)
    (valid : InVocab targetLogits firstPos draftTokens) :
    gather (((List.range (usableRows targetLogits firstPos draftTokens)).map
          (rowOf targetLogits firstPos)).map (torch.softmax temperature))
        (draftTokens.take (usableRows targetLogits firstPos draftTokens)) =
      .ok (probsOf torch targetLogits temperature firstPos draftTokens) := by
  unfold gather
  rw [draftTokens_take, List.map_map, List.zip_map', List.mapM_map, mapM_eq_some_map]
  intro i member
  have usable := List.mem_range.mp member
  exact (if_pos (valid i usable).1).trans (entryAt_probOf low usable (valid i usable))

theorem gather_error (low : -targetLogits.rows.length ≤ firstPos)
    (usable : i < usableRows targetLogits firstPos draftTokens)
    (invalid : ¬(0 ≤ draftTokens.getD i 0 ∧ draftTokens.getD i 0 < targetLogits.vocab)) :
    gather (((List.range (usableRows targetLogits firstPos draftTokens)).map
          (rowOf targetLogits firstPos)).map (torch.softmax temperature))
        (draftTokens.take (usableRows targetLogits firstPos draftTokens)) =
      .error .runtimeError := by
  unfold gather
  rw [draftTokens_take, List.map_map, List.zip_map', List.mapM_map,
    mapM_eq_none (List.mem_range.mpr usable)]
  have length := (rowAt_rowOf low usable).2
  simp only [Function.comp_apply]
  split
  · refine List.getElem?_eq_none ?_
    rw [torch.length_softmax, length]
    omega
  · rfl

end Gathering

section

variable (sampled : temperature ≠ 0) (low : -targetLogits.rows.length ≤ firstPos)

include sampled low

theorem decided_error (usable : i < usableRows targetLogits firstPos draftTokens)
    (invalid : ¬(0 ≤ draftTokens.getD i 0 ∧ draftTokens.getD i 0 < targetLogits.vocab)) :
    decided torch targetLogits temperature vocabSize firstPos draftTokens draftProbs draws =
      .error .runtimeError := by
  unfold decided sampledMatches
  rw [if_neg sampled, gather_error low usable invalid]
  rfl

theorem decided_sampled (valid : InVocab targetLogits firstPos draftTokens) :
    decided torch targetLogits temperature vocabSize firstPos draftTokens draftProbs draws =
      (acceptances torch targetLogits vocabSize (usableRows targetLogits firstPos draftTokens)
        (probsOf torch targetLogits temperature firstPos draftTokens) draftProbs).bind
        fun acceptance => broadcast (fun draw acceptance => decide (draw < acceptance))
          ((List.range (usableRows targetLogits firstPos draftTokens)).map fun i => (draws i).1)
          acceptance := by
  have length : (draftTokens.take (usableRows targetLogits firstPos draftTokens)).length =
      usableRows targetLogits firstPos draftTokens := by
    rw [List.length_take, min_eq_left (usableRows_le ..)]
  unfold decided sampledMatches
  rw [if_neg sampled, gather_probs low valid, length]
  rfl

theorem decided_of_acceptances (valid : InVocab targetLogits firstPos draftTokens)
    {taken : Nat → Option ℚ}
    (found : acceptances torch targetLogits vocabSize (usableRows targetLogits firstPos draftTokens)
        (probsOf torch targetLogits temperature firstPos draftTokens) draftProbs =
      .ok ((List.range (usableRows targetLogits firstPos draftTokens)).map fun i =>
        acceptanceAt torch targetLogits temperature vocabSize firstPos draftTokens i (taken i))) :
    decided torch targetLogits temperature vocabSize firstPos draftTokens draftProbs draws =
      .ok ((List.range (usableRows targetLogits firstPos draftTokens)).map fun i =>
        decide ((draws i).1 < acceptanceAt torch targetLogits temperature vocabSize firstPos
          draftTokens i (taken i))) := by
  rw [decided_sampled sampled low valid, found]
  exact broadcast_map_range ..

end

section

omit [LinearOrder R]

theorem acceptances_none (usable : Nat) (p : Nat → ℚ) :
    acceptances torch targetLogits vocabSize usable ((List.range usable).map p) none =
      .ok ((List.range usable).map fun i =>
        uniformAcceptance torch targetLogits vocabSize (p i)) := by
  unfold acceptances
  rw [List.map_map]
  rfl

theorem acceptances_each (p : Nat → ℚ) {q : Nat → ℚ} (long : usable ≤ given.length)
    (each : ∀ i < usable, given.getD i none = some (q i)) :
    acceptances torch targetLogits vocabSize usable ((List.range usable).map p) (some given) =
      .ok ((List.range usable).map fun i => acceptanceOf torch (p i) (q i)) := by
  have listed : (given.take usable).mapM id = some ((List.range usable).map q) := by
    rw [take_eq_map_range given long none, List.mapM_map]
    exact mapM_eq_some_map fun i member => each i (List.mem_range.mp member)
  simp only [acceptances, listed]
  exact broadcast_map_range ..

theorem acceptances_single (some_ : usable ≠ 0) (p : Nat → ℚ) (q : ℚ) :
    acceptances torch targetLogits vocabSize usable ((List.range usable).map p) (some [some q]) =
      .ok ((List.range usable).map fun i => acceptanceOf torch (p i) q) := by
  obtain ⟨more, rfl⟩ := Nat.exists_eq_succ_of_ne_zero some_
  have listed : ([some q].take (more + 1)).mapM id = some [q] := by simp
  simp only [acceptances, listed]
  rw [broadcast_single, List.map_map]
  rfl

theorem acceptances_missing {p : List ℚ} (missing : none ∈ given.take usable) :
    acceptances torch targetLogits vocabSize usable p (some given) = .error .typeError := by
  simp only [acceptances, mapM_eq_none (f := id) missing rfl]

end

variable (torch targetLogits vocabSize) in
omit [LinearOrder R] in
/-- So does a list that is too short, unless it has one entry, or none for a single row. -/
theorem acceptances_short {p : List ℚ} (rows : p.length = usable)
    (listed : ∀ entry ∈ given.take usable, entry ≠ none) (short : given.length < usable)
    (many : given.length ≠ 1) (rowless : ¬(given = [] ∧ usable = 1)) :
    acceptances torch targetLogits vocabSize usable p (some given) = .error .runtimeError := by
  have known : (given.take usable).mapM id =
      some ((given.take usable).map fun entry => entry.getD 0) := by
    refine mapM_eq_some_map fun entry member => ?_
    obtain ⟨q, rfl⟩ := Option.ne_none_iff_exists'.mp (listed entry member)
    rfl
  have length : ((given.take usable).map fun entry => entry.getD 0).length = given.length := by
    rw [List.length_map, List.length_take, min_eq_right short.le]
  simp only [acceptances, known]
  refine broadcast_error ?_ ?_ ?_
  · rw [length, rows]
    exact short.ne'
  · rw [rows]
    intro one
    exact rowless ⟨List.length_eq_zero_iff.mp (by omega), one⟩
  · rw [length]
    exact many

/-! ### The kernel against the chain -/

/-- What the kernel does with an empty list for a single row: it has no decision to count. -/
theorem acceptTokensBatched_empty (sampled : temperature ≠ 0)
    (low : -targetLogits.rows.length ≤ firstPos)
    (one : usableRows targetLogits firstPos draftTokens = 1)
    (valid : InVocab targetLogits firstPos draftTokens) :
    acceptTokensBatched torch targetLogits temperature vocabSize firstPos draftTokens (some [])
        draws = .ok (if draftTokens.length = 1 then 1 else 0) := by
  have found : decided torch targetLogits temperature vocabSize firstPos draftTokens (some [])
      draws = .ok [] := by
    rw [decided_sampled sampled low valid, probsOf, one]
    rfl
  have within := usableRows_le targetLogits firstPos draftTokens
  rw [acceptTokensBatched_of_rows low (by omega), found, one]
  refine congrArg Except.ok ?_
  by_cases alone : draftTokens.length = 1
  · simp [alone]
  · obtain ⟨more, length⟩ : ∃ more, draftTokens.length = more + 2 :=
      ⟨draftTokens.length - 2, by omega⟩
    simp [length, List.replicate_succ, List.findIdx?_cons]

theorem acceptTokensBatched_error (low : -targetLogits.rows.length ≤ firstPos)
    (some : usableRows targetLogits firstPos draftTokens ≠ 0) {raised : TensorError}
    (raises : decided torch targetLogits temperature vocabSize firstPos draftTokens draftProbs
      draws = .error raised) :
    acceptTokensBatched torch targetLogits temperature vocabSize firstPos draftTokens draftProbs
        draws = .error raised := by
  rw [acceptTokensBatched_of_rows low some, raises]
  rfl

theorem acceptChain_eq : acceptChain torch targetLogits temperature vocabSize firstPos draftProbs
      draws 0 draftTokens = leading (usableRows targetLogits firstPos draftTokens) fun i =>
      decide (Accepts torch targetLogits temperature vocabSize firstPos draftTokens draws i
        (givenProb draftProbs i)) := by
  refine (acceptChain_eq_leading 0 draftTokens.length.zero_le).trans ?_
  simp only [Nat.zero_add, Nat.sub_zero]

variable (torch targetLogits temperature vocabSize firstPos draftTokens draftProbs draws) in
/-- The kernel raises nothing, and counts as the chain does token by token. -/
def CountsRight : Prop :=
  acceptTokensBatched torch targetLogits temperature vocabSize firstPos draftTokens draftProbs
      draws =
    .ok (acceptChain torch targetLogits temperature vocabSize firstPos draftProbs draws 0
      draftTokens)

section Sampled

variable (sampled : temperature ≠ 0) (low : -targetLogits.rows.length ≤ firstPos)
  (some_ : usableRows targetLogits firstPos draftTokens ≠ 0)
  (valid : InVocab targetLogits firstPos draftTokens)

include sampled low some_ valid

/-- The kernel takes some probabilities for the given ones: it counts right iff up to the first
rejection no draw comes between the bounds. -/
theorem countsRight_of_acceptances
    (found : acceptances torch targetLogits vocabSize (usableRows targetLogits firstPos draftTokens)
        (probsOf torch targetLogits temperature firstPos draftTokens) draftProbs =
      .ok ((List.range (usableRows targetLogits firstPos draftTokens)).map fun i =>
        acceptanceAt torch targetLogits temperature vocabSize firstPos draftTokens i
          (takenProb draftProbs i))) :
    CountsRight torch targetLogits temperature vocabSize firstPos draftTokens draftProbs draws ↔
      SameSide torch targetLogits temperature vocabSize firstPos draftTokens draftProbs draws := by
  unfold CountsRight SameSide
  rw [acceptTokensBatched_of_decided low some_ (decided_of_acceptances sampled low valid found),
    acceptChain_eq, Except.ok.injEq, leading_eq_iff]
  refine forall₂_congr fun i usable => ?_
  simp only [decide_eq_true_eq, decide_eq_decide,
    accepts_sampled_iff low sampled usable (valid i usable)]

theorem countsRight_none_iff :
    CountsRight torch targetLogits temperature vocabSize firstPos draftTokens none draws ↔
      SameSide torch targetLogits temperature vocabSize firstPos draftTokens none draws :=
  countsRight_of_acceptances sampled low some_ valid (acceptances_none _ _)

theorem not_countsRight_of_error {raised : TensorError}
    (found : acceptances torch targetLogits vocabSize (usableRows targetLogits firstPos draftTokens)
      (probsOf torch targetLogits temperature firstPos draftTokens) draftProbs = .error raised) :
    ¬ CountsRight torch targetLogits temperature vocabSize firstPos draftTokens draftProbs
      draws := by
  have raises : decided torch targetLogits temperature vocabSize firstPos draftTokens draftProbs
      draws = .error raised := by
    rw [decided_sampled sampled low valid, found]
    rfl
  unfold CountsRight
  rw [acceptTokensBatched_error low some_ raises]
  simp

theorem countsRight_broadcasts_iff
    (fits : Broadcasts (usableRows targetLogits firstPos draftTokens) given) :
    CountsRight torch targetLogits temperature vocabSize firstPos draftTokens (some given) draws ↔
      SameSide torch targetLogits temperature vocabSize firstPos draftTokens (some given)
        draws := by
  apply countsRight_of_acceptances sampled low some_ valid
  obtain ⟨listed, enough⟩ := fits
  by_cases single : given.length = 1
  · obtain ⟨entry, rfl⟩ := List.length_eq_one_iff.mp single
    have reached : entry ∈ [entry].take (usableRows targetLogits firstPos draftTokens) := by
      obtain ⟨more, rows⟩ := Nat.exists_eq_succ_of_ne_zero some_
      simp [rows]
    obtain ⟨q, rfl⟩ := Option.ne_none_iff_exists'.mp (listed entry reached)
    exact acceptances_single some_ _ q
  · have long := enough.resolve_right single
    have each : ∀ i < usableRows targetLogits firstPos draftTokens,
        given.getD i none = some ((given.getD i none).getD 0) := by
      intro i usable
      have inside : i < given.length := usable.trans_le long
      have entry : given.getD i none = given[i] := by simp [List.getD, inside]
      have reached : given[i] ∈ given.take (usableRows targetLogits firstPos draftTokens) :=
        List.mem_take_iff_getElem.mpr ⟨i, by omega, rfl⟩
      obtain ⟨q, known⟩ := Option.ne_none_iff_exists'.mp (listed _ reached)
      rw [entry, known]
      rfl
    rw [acceptances_each _ long each]
    refine congrArg Except.ok (List.map_congr_left fun i member => ?_)
    have own : takenProb (some given) i = some ((given.getD i none).getD 0) := by
      rw [← each i (List.mem_range.mp member), takenProb_of_many single]
      cases found : given[i]? <;> simp [givenProb, List.getD, found]
    rw [own]
    rfl

omit some_ in
theorem countsRight_empty_iff (one : usableRows targetLogits firstPos draftTokens = 1) :
    CountsRight torch targetLogits temperature vocabSize firstPos draftTokens (some []) draws ↔
      (draftTokens.length = 1 ↔ (draws 0).1 <
        tokenAcceptanceAt torch targetLogits temperature vocabSize firstPos draftTokens 0
          none) := by
  have usable : 0 < usableRows targetLogits firstPos draftTokens := by omega
  have nothing : givenProb (some []) 0 = none := rfl
  unfold CountsRight
  rw [acceptTokensBatched_empty sampled low one valid, acceptChain_eq, one, Except.ok.injEq]
  simp only [leading, nothing, accepts_sampled_iff low sampled usable (valid 0 usable),
    decide_eq_true_eq]
  split <;> split <;> simp_all

theorem countsRight_probs_iff (given : List (Option ℚ)) :
    CountsRight torch targetLogits temperature vocabSize firstPos draftTokens (some given) draws ↔
      Broadcasts (usableRows targetLogits firstPos draftTokens) given ∧
          SameSide torch targetLogits temperature vocabSize firstPos draftTokens (some given)
            draws ∨
        given = [] ∧ usableRows targetLogits firstPos draftTokens = 1 ∧
          (draftTokens.length = 1 ↔ (draws 0).1 <
            tokenAcceptanceAt torch targetLogits temperature vocabSize firstPos draftTokens 0
              none) := by
  by_cases rowless : given = [] ∧ usableRows targetLogits firstPos draftTokens = 1
  · obtain ⟨rfl, one⟩ := rowless
    rw [countsRight_empty_iff sampled low valid one]
    simp [one, Broadcasts]
  have others : ¬(given = [] ∧ usableRows targetLogits firstPos draftTokens = 1 ∧
      (draftTokens.length = 1 ↔ (draws 0).1 <
        tokenAcceptanceAt torch targetLogits temperature vocabSize firstPos draftTokens 0 none)) :=
    fun empty => rowless ⟨empty.1, empty.2.1⟩
  rw [or_iff_left others]
  by_cases fits : Broadcasts (usableRows targetLogits firstPos draftTokens) given
  · rw [and_iff_right fits, countsRight_broadcasts_iff sampled low some_ valid fits]
  refine iff_of_false ?_ fun both => fits both.1
  by_cases listed : ∀ entry ∈ given.take (usableRows targetLogits firstPos draftTokens),
      entry ≠ none
  · have rows : (probsOf torch targetLogits temperature firstPos draftTokens).length =
          usableRows targetLogits firstPos draftTokens := by simp
    have few := not_or.mp fun enough => fits ⟨listed, enough⟩
    exact not_countsRight_of_error sampled low some_ valid
      (acceptances_short torch targetLogits vocabSize rows listed (not_le.mp few.1) few.2 rowless)
  · have missing : none ∈ given.take (usableRows targetLogits firstPos draftTokens) := by
      by_contra absent
      exact listed fun entry member equal => absent (equal ▸ member)
    exact not_countsRight_of_error sampled low some_ valid (acceptances_missing missing)

end Sampled

theorem countsRight_of_no_rows (none : usableRows targetLogits firstPos draftTokens = 0) :
    CountsRight torch targetLogits temperature vocabSize firstPos draftTokens draftProbs
      draws := by
  unfold CountsRight acceptTokensBatched
  rw [if_pos none, acceptChain_eq, none]
  rfl

theorem not_countsRight_of_before (before : firstPos < -targetLogits.rows.length)
    (some_ : usableRows targetLogits firstPos draftTokens ≠ 0) :
    ¬ CountsRight torch targetLogits temperature vocabSize firstPos draftTokens draftProbs
      draws := by
  have missing : ((List.range (usableRows targetLogits firstPos draftTokens)).map fun i : Nat =>
      firstPos + i).mapM (rowAt targetLogits.rows) = none := by
    rw [List.mapM_map]
    exact mapM_eq_none (List.mem_range.mpr (Nat.pos_of_ne_zero some_))
      (rowAt_before (by simpa using before))
  unfold CountsRight acceptTokensBatched
  rw [if_neg some_, missing]
  simp

theorem countsRight_greedy_iff (greedy : temperature = 0)
    (low : -targetLogits.rows.length ≤ firstPos)
    (some_ : usableRows targetLogits firstPos draftTokens ≠ 0) :
    CountsRight torch targetLogits temperature vocabSize firstPos draftTokens draftProbs draws ↔
      0 < targetLogits.vocab := by
  by_cases vocab : 0 < targetLogits.vocab
  · refine iff_of_true ?_ vocab
    unfold CountsRight
    rw [acceptTokensBatched_of_decided low some_ (decided_greedy greedy vocab), acceptChain_eq,
      Except.ok.injEq, leading_eq_iff]
    intro i usable _
    exact decide_eq_decide.mpr (accepts_greedy_iff low vocab greedy usable _).symm
  · refine iff_of_false ?_ vocab
    have raises : decided torch targetLogits temperature vocabSize firstPos draftTokens
        draftProbs draws = .error .indexError := by
      unfold decided greedyMatches
      rw [if_pos greedy, if_pos (Nat.eq_zero_of_not_pos vocab)]
    unfold CountsRight
    rw [acceptTokensBatched_error low some_ raises]
    simp

theorem not_countsRight_of_invalid (sampled : temperature ≠ 0)
    (low : -targetLogits.rows.length ≤ firstPos)
    (usable : i < usableRows targetLogits firstPos draftTokens)
    (invalid : ¬(0 ≤ draftTokens.getD i 0 ∧ draftTokens.getD i 0 < targetLogits.vocab)) :
    ¬ CountsRight torch targetLogits temperature vocabSize firstPos draftTokens draftProbs
      draws := by
  unfold CountsRight
  rw [acceptTokensBatched_error low (Nat.ne_zero_of_lt usable)
    (decided_error sampled low usable invalid)]
  simp

theorem countsRight_iff :
    CountsRight torch targetLogits temperature vocabSize firstPos draftTokens draftProbs draws ↔
      KernelFits torch targetLogits temperature vocabSize firstPos draftTokens draftProbs
        draws := by
  unfold KernelFits
  by_cases none : usableRows targetLogits firstPos draftTokens = 0
  · exact iff_of_true (countsRight_of_no_rows none) (.inl none)
  rw [or_iff_right none]
  by_cases low : -targetLogits.rows.length ≤ firstPos
  swap
  · exact iff_of_false (not_countsRight_of_before (not_le.mp low) none) fun fits => low fits.1
  rw [and_iff_right low]
  by_cases greedy : temperature = 0
  · rw [countsRight_greedy_iff greedy low none, and_iff_left (.inl greedy)]
  rw [or_iff_right greedy]
  by_cases valid : InVocab targetLogits firstPos draftTokens
  · have vocab : 0 < targetLogits.vocab := by
      have first := valid 0 (Nat.pos_of_ne_zero none)
      omega
    rw [and_iff_right vocab, and_iff_right valid]
    cases draftProbs with
    | none => simp [countsRight_none_iff greedy low none valid]
    | some given => simp [countsRight_probs_iff greedy low none valid given]
  · refine iff_of_false ?_ fun fits => valid fits.2.1
    unfold InVocab at valid
    push Not at valid
    obtain ⟨i, usable, invalid⟩ := valid
    exact not_countsRight_of_invalid greedy low usable fun inside =>
      absurd inside.2 (not_lt.mpr (invalid inside.1))

end Decisions

def evenTorch : Torch Int where
  softmax _ row := row.map fun _ => 1 / row.length
  length_softmax _ _ := List.length_map _
  double := .exact
  single := .exact

def evenRow : Logits Int := ⟨2, [[0, 0]], by simp⟩

def halfDraw : UnitDraw := ⟨1 / 2, by decide +kernel⟩

end DistLLM.Speculative
