import DistLLM.Library.Continuation
import DistLLM.Library.Prefix
import Mathlib.Order.Lattice

/-!
# Causal targets and greedy decoding

The target model seen from its logits rows, the token-by-token greedy decoding that speculation
has to reproduce, and the verification of a draft against the rows of one forward pass.
-/
namespace DistLLM.Speculative

open Library

abbrev Token := Nat

variable {tokens : List Token} {R : Type} [LinearOrder R] {α σ : Type} [DecidableEq α]

/-- `logits.argmax(dim=-1)`: the first position of the largest logit. -/
def argmax (row : List R) : Token := row.findIdx fun x => row.all (· ≤ x)

/-- `logits[:, i, :]`: a negative index counts from the end, and one out of range raises. -/
def rowAt (rows : List (List R)) (i : Int) : Option (List R) :=
  if 0 ≤ i then rows[i.toNat]?
  else if -rows.length ≤ i then rows[(rows.length + i).toNat]?
  else none

/-- A target forward function: one logits row for each token, and no row depends on a later
token. -/
structure CausalTarget (R : Type) where
  forward : List Token → List (List R)
  length_forward : ∀ tokens, (forward tokens).length = tokens.length
  causal : ∀ (xs ys : List Token) (k : Nat), xs.take (k + 1) = ys.take (k + 1) →
    (forward xs)[k]? = (forward ys)[k]?

def CausalTarget.next (target : CausalTarget R) (tokens : List Token) : Token :=
  argmax (((target.forward tokens).getLast?).getD [])

/-- Plain decoding: one forward pass for each token, up to the first end-of-text token. The first
token of an empty prompt has no logits row. -/
def greedyDecode (target : CausalTarget R) (eosTokenId : Option Token) :
    Nat → List Token → Option (List Token)
  | 0, _ => some []
  | n + 1, tokens =>
    match (target.forward tokens).getLast? with
    | none => none
    | some row =>
      if some (argmax row) = eosTokenId then some [argmax row]
      else (greedyDecode target eosTokenId n (tokens ++ [argmax row])).map (argmax row :: ·)

/-- `eos_cutoff`: the number of tokens up to and including the first end-of-text token. -/
def eosCutoff (tokens : List α) : Option α → Nat
  | none => tokens.length
  | some eos => (cutAfter (· == eos) tokens).length

/-- Truncate the new tokens at the first end-of-text token, if that drops any. -/
def maybeCut (promptLen : Nat) (eosTokenId : Option α) (generated : List α) :
    Option (List α) :=
  let cut := eosCutoff (generated.drop promptLen) eosTokenId
  if cut < generated.length - promptLen then some (generated.take (promptLen + cut)) else none

/-- The greedy verification loop: the leading draft tokens that are the argmax of their rows, the
first of them predicted by row `first`. -/
def acceptFrom (rows : List (List R)) : Int → List Token → Option Nat
  | _, [] => some 0
  | first, draft :: drafts => do
    let row ← rowAt rows first
    if argmax row = draft then
      let more ← acceptFrom rows (first + 1) drafts
      some (more + 1)
    else some 0

/-- The second half of a round: append the accepted draft tokens, and where the draft was longer
the target's own token from the row after them. -/
def verifyAndAppend (rows : List (List R)) (generated drafts : List Token) (numDraft : Int) :
    Option (List Token × Nat) := do
  let accepted ← acceptFrom rows (generated.length - 1) drafts
  let generated := generated ++ drafts.take accepted
  if accepted < numDraft then
    let row ← rowAt rows (generated.length - 1)
    some (generated ++ [argmax row], accepted)
  else some (generated, accepted)

def singleToken (target : CausalTarget R) (generated : List Token) : Option (List Token) := do
  let row ← rowAt (target.forward generated) (-1)
  some (generated ++ [argmax row])

/-- The end of a loop body: return what the end-of-text token leaves, or go on. -/
def passOf (promptLen : Nat) (eosTokenId : Option α) (generated : List α)
    (onReturn onward : σ) : Pass σ α :=
  match maybeCut promptLen eosTokenId generated with
  | some result => .returned result onReturn
  | none => .continued generated onward

def isEos (eosTokenId : Option α) (token : α) : Bool := some token = eosTokenId

/-! ### Greedy decoding as a continuation -/

namespace CausalTarget

variable (target : CausalTarget R)

theorem getLast?_forward (some_ : tokens ≠ []) :
    ∃ row, (target.forward tokens).getLast? = some row ∧ argmax row = target.next tokens := by
  have rows : target.forward tokens ≠ [] := by
    intro none
    have := target.length_forward tokens
    rw [none] at this
    exact some_ (List.length_eq_zero_iff.mp this.symm)
  refine ⟨_, List.getLast?_eq_some_getLast rows, ?_⟩
  simp [next, List.getLast?_eq_some_getLast rows]

theorem rowAt_forward {xs : List Token} (some_ : xs ≠ []) {ys : List Token} {i : Nat}
    (within : i ≤ ys.length) :
    ∃ row, rowAt (target.forward (xs ++ ys)) (xs.length + i - 1) = some row ∧
      argmax row = target.next (xs ++ ys.take i) := by
  have positive : 0 < xs.length := List.length_pos_iff.mpr some_
  have before : xs ++ ys.take i ≠ [] := by simp [some_]
  obtain ⟨row, last, chosen⟩ := target.getLast?_forward before
  refine ⟨row, ?_, chosen⟩
  have index : ((xs.length : Int) + i - 1).toNat = xs.length + i - 1 := by omega
  rw [rowAt, if_pos (by omega), index, ← last, List.getLast?_eq_getElem?, target.length_forward]
  have size : (xs ++ ys.take i).length = xs.length + i := by simp [within]
  rw [size]
  apply target.causal
  rw [Nat.sub_add_cancel (by omega), List.take_length_add_append, ← size, List.take_length]

theorem rowAt_last {xs : List Token} (some_ : xs ≠ []) (ys : List Token) :
    ∃ row, rowAt (target.forward (xs ++ ys)) (xs.length - 1) = some row ∧
      argmax row = target.next xs := by
  obtain ⟨row, found, chosen⟩ := target.rowAt_forward some_ (Nat.zero_le ys.length)
  exact ⟨row, by simpa using found, by simpa using chosen⟩

end CausalTarget

theorem singleToken_eq (target : CausalTarget R) (some_ : tokens ≠ []) :
    singleToken target tokens = some (tokens ++ [target.next tokens]) := by
  obtain ⟨row, last, chosen⟩ := target.getLast?_forward some_
  have positive : 0 < tokens.length := List.length_pos_iff.mpr some_
  have index : ((tokens.length : Int) + -1).toNat = tokens.length - 1 := by omega
  have found : rowAt (target.forward tokens) (-1) = some row := by
    rw [rowAt, target.length_forward, if_neg (by omega), if_pos (by omega), index, ← last,
      List.getLast?_eq_getElem?, target.length_forward]
  simp [singleToken, found, chosen]

theorem greedyDecode_eq (target : CausalTarget R) (eosTokenId : Option Token) (n : Nat)
    (some_ : tokens ≠ []) : greedyDecode target eosTokenId n tokens
      = some (cutAfter (isEos eosTokenId) (continuation target.next n tokens)) := by
  induction n generalizing tokens with
  | zero => simp [greedyDecode, cutAfter]
  | succ n ih =>
    obtain ⟨row, last, chosen⟩ := target.getLast?_forward some_
    simp only [greedyDecode, last, chosen, continuation, cutAfter, isEos, decide_eq_true_eq]
    split
    next => rfl
    next =>
      rw [ih (by simp)]
      simp

theorem greedyDecode_isSome_iff (target : CausalTarget R) (eosTokenId : Option Token) (n : Nat)
    (prompt : List Token) :
    (greedyDecode target eosTokenId n prompt).isSome ↔ prompt ≠ [] ∨ n = 0 := by
  cases n with
  | zero => simp [greedyDecode]
  | succ n =>
    by_cases none : prompt = []
    · have rows : target.forward [] = [] :=
        List.length_eq_zero_iff.mp (target.length_forward [])
      simp [greedyDecode, none, rows]
    · simp [greedyDecode_eq target eosTokenId _ none, none]

theorem eosCutoff_eq (tokens : List α) (eosTokenId : Option α) :
    eosCutoff tokens eosTokenId = (cutAfter (isEos eosTokenId) tokens).length := by
  cases eosTokenId with
  | none => rw [cutAfter_eq_self (by simp [isEos])]; rfl
  | some eos =>
    have same : isEos (some eos) = (· == eos) := by
      funext token
      by_cases here : token = eos <;> simp [isEos, here]
    simp [eosCutoff, same]

variable {target : CausalTarget R}

theorem stopsBefore_iff (eosTokenId : Option Token) (prompt : List Token) (m : Nat) :
    StopsBefore target.next (isEos eosTokenId) prompt m
      ↔ eosCutoff (continuation target.next m prompt) eosTokenId < m := by
  rw [eosCutoff_eq]
  rfl

theorem take_eosCutoff (tokens : List α) (eosTokenId : Option α) :
    tokens.take (eosCutoff tokens eosTokenId) = cutAfter (isEos eosTokenId) tokens := by
  rw [eosCutoff_eq, ← List.prefix_iff_eq_take.mp (cutAfter_isPrefix _ tokens)]

theorem passOf_passTo {kept : σ → Prop} {onReturn onward : σ} (returns : kept onReturn)
    (goesOn : kept onward) (eosTokenId : Option Token) (prompt : List Token) (m : Nat) :
    PassTo target.next (isEos eosTokenId) prompt kept m
      (some (passOf prompt.length eosTokenId (prompt ++ continuation target.next m prompt)
        onReturn onward)) := by
  constructor
  · intro early
    refine ⟨onReturn, returns, ?_⟩
    have cuts := (stopsBefore_iff eosTokenId prompt m).mp early
    simp [passOf, maybeCut, cuts, List.take_length_add_append, take_eosCutoff]
  · intro whole
    refine ⟨onward, goesOn, ?_⟩
    have uncut := (stopsBefore_iff eosTokenId prompt m).not.mp whole
    simp [passOf, maybeCut, uncut]

/-- How many leading tokens of a draft agree with the target's own continuation. -/
def agreement (target : CausalTarget R) (tokens drafts : List Token) : Nat :=
  commonPrefixLength drafts (continuation target.next drafts.length tokens)

theorem agreement_le (target : CausalTarget R) (tokens drafts : List Token) :
    agreement target tokens drafts ≤ drafts.length :=
  commonPrefixBy_le_left _ _ _

theorem take_agreement (target : CausalTarget R) (tokens drafts : List Token) :
    drafts.take (agreement target tokens drafts)
      = continuation target.next (agreement target tokens drafts) tokens := by
  obtain ⟨rest, whole⟩ := Nat.exists_eq_add_of_le (agreement_le target tokens drafts)
  have same := take_commonPrefixLength drafts (continuation target.next drafts.length tokens)
  rw [← agreement] at same
  rw [same]
  conv => lhs; rw [whole]
  exact take_continuation ..

theorem acceptFrom_eq (target : CausalTarget R) (some_ : tokens ≠ []) (drafts more : List Token) :
    acceptFrom (target.forward (tokens ++ (drafts ++ more))) (tokens.length - 1) drafts
      = some (agreement target tokens drafts) := by
  induction drafts generalizing tokens with
  | nil => simp [acceptFrom, agreement, commonPrefixLength, commonPrefixBy]
  | cons draft drafts ih =>
    obtain ⟨row, found, chosen⟩ := target.rowAt_last some_ (draft :: drafts ++ more)
    rw [List.cons_append] at found ⊢
    by_cases agrees : target.next tokens = draft
    · have later := ih (List.append_ne_nil_of_right_ne_nil tokens (List.cons_ne_nil draft []))
      have shift : (tokens.length : Int) - 1 + 1 = (tokens ++ [draft]).length - 1 := by simp
      have joined : tokens ++ (draft :: (drafts ++ more))
          = (tokens ++ [draft]) ++ (drafts ++ more) := by simp
      simp only [acceptFrom, found, chosen, agrees, if_true, Option.bind_eq_bind,
        Option.bind_some, shift]
      rw [joined, later]
      simp [agreement, commonPrefixLength, commonPrefixBy, continuation, agrees]
    · have differs : ¬ draft = target.next tokens := fun same => agrees same.symm
      simp [acceptFrom, found, chosen, agrees, agreement, commonPrefixLength, commonPrefixBy,
        continuation, differs]

/-- The number of tokens a round adds: the accepted ones, and a correction after them where the
draft was longer. -/
def roundLength (accepted drafted : Nat) : Nat :=
  if accepted < drafted then accepted + 1 else accepted

theorem verifyAndAppend_eq (some_ : tokens ≠ []) (drafts : List Token) :
    verifyAndAppend (target.forward (tokens ++ drafts)) tokens drafts drafts.length
      = some (tokens ++ continuation target.next
          (roundLength (agreement target tokens drafts) drafts.length) tokens,
        agreement target tokens drafts) := by
  have accepts := acceptFrom_eq target some_ drafts []
  rw [List.append_nil] at accepts
  have within := agreement_le target tokens drafts
  by_cases shorter : agreement target tokens drafts < drafts.length
  · obtain ⟨row, found, chosen⟩ := target.rowAt_forward some_ within
    have index : ((tokens ++ drafts.take (agreement target tokens drafts)).length : Int) - 1
        = tokens.length + agreement target tokens drafts - 1 := by
      simp [within]
    simp only [verifyAndAppend, accepts, Option.bind_eq_bind, Option.bind_some, Int.ofNat_lt,
      shorter, if_true, index, found, roundLength]
    rw [take_agreement] at chosen ⊢
    simp [continuation_succ, chosen]
  · simp [verifyAndAppend, accepts, shorter, roundLength, take_agreement]

def favour (token : Token) : List Nat := (List.range 4).map fun t => if t = token then 1 else 0

/-- A target whose next token depends on the last one only. -/
def chainTarget (next : Token → Token) : CausalTarget Nat where
  forward tokens := tokens.map fun token => favour (next token)
  length_forward tokens := by simp
  causal xs ys k same := by
    have here : xs[k]? = ys[k]? := by
      have cut := congrArg (·[k]?) same
      simpa [List.getElem?_take] using cut
    simp [here]

end DistLLM.Speculative
