import DistLLM.Library.Dict
import DistLLM.Speculative.Target

/-!
# Prompt-lookup decoding

`PromptLookupStrategy`: drafts are copied from an earlier place of the text that ends with the same
four tokens, found in an n-gram index that outlives the request, and verified against a target
behind a KV cache that is cropped after each rejection.
-/
namespace DistLLM.Speculative

open Library

variable {R V : Type} [LinearOrder R]

/-- What the strategy keeps from one request to the next. -/
structure PromptLookupStrategy where
  ngramIndex : Dict (List Token) (List Nat)
  indexedUpTo : Option Nat

namespace PromptLookupStrategy

/-- A new strategy; `_indexed_up_to` is not set before the first update. -/
def create : PromptLookupStrategy := ⟨∅, none⟩

def maxDraft : Nat := 10

def record (index : Dict (List Token) (List Nat)) (key : List Token) (stop : Nat) :
    Dict (List Token) (List Nat) :=
  index.set key (index.getD key [] ++ [stop])

/-- Record the n-grams that end beyond what has been indexed, whichever text that was. -/
def indexUpdate (p : PromptLookupStrategy) (seq : List Token) (minMatch : Nat) :
    PromptLookupStrategy :=
  let n := seq.length
  let lastIndexed := p.indexedUpTo.getD (minMatch - 1)
  if n ≤ lastIndexed then p
  else
    let start := max minMatch (lastIndexed + 1)
    { ngramIndex := (List.range' start (n + 1 - start)).foldl
        (fun index stop => record index ((seq.take stop).drop (stop - minMatch)) stop) p.ngramIndex
      indexedUpTo := some n }

/-- The positions to try, most recent first: all that are recorded but the suffix itself. -/
def candidates (positions : List Nat) (n : Nat) : List Nat :=
  if positions.getLast? = some n then positions.dropLast.reverse else positions.reverse

/-- `seq[-min_match:]`, which is the whole text for no tokens. -/
def suffixKey (seq : List Token) (minMatch : Nat) : List Token :=
  if minMatch = 0 then seq else seq.drop (seq.length - minMatch)

/-- The nearest recorded place that ends with the last `minMatch` tokens. -/
def findMatch (p : PromptLookupStrategy) (seq : List Token) (minMatch : Nat) :
    Option (Nat × Nat) × PromptLookupStrategy :=
  let n := seq.length
  if n < minMatch + 1 then (none, p)
  else
    let p := p.indexUpdate seq minMatch
    let positions := p.ngramIndex.getD (suffixKey seq minMatch) []
    let found := (candidates positions n).find? (· < n)
    (found.map fun matchEnd => (matchEnd, min (n - matchEnd) maxDraft), p)

def draftList (matched : Option (Nat × Nat)) (genCpu : List Token) : List Token :=
  match matched with
  | none => []
  | some (matchEnd, numDraft) => (genCpu.drop matchEnd).take numDraft

end PromptLookupStrategy

/-- A tensor of a legacy cache: with four dimensions it has an entry for each position. -/
inductive LayerTensor (V : Type) where
  | fourDim (entries : List V)
  | other (entry : V)
deriving DecidableEq

/-- `t[:, :, :keep, :]` where the tensor has four dimensions. -/
def LayerTensor.slice (keep : Nat) : LayerTensor V → LayerTensor V
  | .fourDim entries => .fourDim (entries.take keep)
  | .other entry => .other entry

/-- `past_key_values`: a cache that can be cropped, or tuples of tensors. -/
inductive Past (V : Type) where
  | cropping (entries : List V)
  | legacy (layers : List (List (LayerTensor V)))
deriving DecidableEq

def Past.crop (keep : Nat) : Past V → Past V
  | .cropping entries => .cropping (entries.take keep)
  | .legacy layers => .legacy (layers.map fun layer => layer.map (LayerTensor.slice keep))

/-- A causal target with a KV cache that is a function of the tokens it holds: a call returns the
rows of its own tokens and a cache that holds them as well. -/
structure CachedModel (R V : Type) extends CausalTarget R where
  held : List Token → Past V
  call : List Token → Option (Past V) → List (List R) × Option (Past V)
  call_none : ∀ ids, call ids none = (forward ids, some (held ids))
  call_held : ∀ tokens ids, call ids (some (held tokens))
    = ((forward (tokens ++ ids)).drop tokens.length, some (held (tokens ++ ids)))
  crop_held : ∀ tokens keep, keep ≤ tokens.length →
    (held tokens).crop keep = held (tokens.take keep)

namespace PromptLookupStrategy

/-- The three views of the text that the loop keeps in step. -/
structure Views (R V : Type) where
  genCpu : List Token
  past : Option (Past V)
  pendingLogits : List R
deriving DecidableEq

/-- The leading draft tokens that are the argmax of their rows. -/
def leadingMatches : List (List R) → List Token → Nat
  | row :: rows, draft :: drafts =>
    if argmax row = draft then leadingMatches rows drafts + 1 else 0
  | _, _ => 0

/-- `_accept_drafts` at temperature zero: draft `0` is scored against the pending row, draft
`i + 1` against row `i`. -/
def acceptDrafts (prevLogits : List R) (verifyLogits : List (List R)) (draftIds : List Token) :
    Nat :=
  leadingMatches ((prevLogits :: verifyLogits).take draftIds.length) draftIds

def feed (model : CachedModel R V) (genCpu : List Token) (past : Option (Past V))
    (tokId : Token) : Option (Views R V) := do
  let (logits, past) := model.call [tokId] past
  let pending ← logits.getLast?
  some ⟨genCpu ++ [tokId], past, pending⟩

/-- The row that predicts the token after the accepted drafts. -/
def correctionRow (pendingLogits : List R) (verifyLogits : List (List R)) (accepted : Nat) :
    Option (List R) :=
  if 0 < accepted then verifyLogits[accepted - 1]? else some pendingLogits

/-- Run a draft through the model and keep what it accepts, within the budget. -/
def verifyDrafts (model : CachedModel R V) (targetLen : Int) (v : Views R V)
    (draftList : List Token) : Option (Views R V × List Token) := do
  let (verifyLogits, past) := model.call draftList v.past
  let prefixLen := v.genCpu.length
  let matching := acceptDrafts v.pendingLogits verifyLogits draftList
  let accepted := (min (matching : Int) (targetLen - prefixLen)).toNat
  if accepted = draftList.length then
    let pending ← verifyLogits.getLast?
    some (⟨v.genCpu ++ draftList, past, pending⟩, draftList)
  else
    let past := past.map (Past.crop (prefixLen + accepted))
    let genCpu := v.genCpu ++ draftList.take accepted
    if genCpu.length < targetLen then
      -- the budget has room for the target's own token
      let correction ← correctionRow v.pendingLogits verifyLogits accepted
      let after ← feed model genCpu past (argmax correction)
      some (after, draftList.take accepted ++ [argmax correction])
    else some (⟨genCpu, past, v.pendingLogits⟩, draftList.take accepted)

/-- One round of the loop: the views after it and the tokens it adds. -/
def round (model : CachedModel R V) (targetLen : Int) (v : Views R V)
    (draftList : List Token) : Option (Views R V × List Token) :=
  if draftList = [] then do
    let tokId := argmax v.pendingLogits
    let after ← feed model v.genCpu v.past tokId
    some (after, [tokId])
  else verifyDrafts model targetLen v draftList

/-- The prefill: the last row of an empty prompt does not exist. -/
def prefill (model : CachedModel R V) (inputIds : List Token) : Option (Views R V) := do
  let (logits, past) := model.call inputIds none
  let pending ← logits.getLast?
  some ⟨inputIds, past, pending⟩

/-- The loop, with what it yields and the strategy it leaves; it may raise. -/
def loop (model : CachedModel R V) (eosTokenId : Option Token) (targetLen : Int) :
    Nat → PromptLookupStrategy → Views R V → Option (List Token) × PromptLookupStrategy
  | 0, p, _ => (none, p)
  | fuel + 1, p, v =>
    if v.genCpu.length < targetLen then
      let (matched, p) := p.findMatch v.genCpu 4
      match round model targetLen v (draftList matched v.genCpu) with
      | none => (none, p)
      | some (v, newTokens) =>
        if newTokens.any (isEos eosTokenId) then (some (cutAfter (isEos eosTokenId) newTokens), p)
        else
          let (later, p) := loop model eosTokenId targetLen fuel p v
          (later.map (newTokens ++ ·), p)
    else (some [], p)

/-- `_generate_tokens` at temperature zero: the tokens yielded. Every round adds a token. -/
def generateTokens (model : CachedModel R V) (eosTokenId : Option Token)
    (p : PromptLookupStrategy) (inputIds : List Token) (maxNewTokens : Int) :
    Option (List Token) × PromptLookupStrategy :=
  match prefill model inputIds with
  | none => (none, p)
  | some v =>
    loop model eosTokenId (inputIds.length + maxNewTokens) (maxNewTokens.toNat + 1) p v

/-- A sequence of requests served by one strategy, each with its budget. -/
def serve (model : CachedModel R V) (eosTokenId : Option Token) :
    PromptLookupStrategy → List (List Token × Int) → List (Option (List Token))
  | _, [] => []
  | p, (prompt, maxNewTokens) :: requests =>
    let (yielded, p) := generateTokens model eosTokenId p prompt maxNewTokens
    yielded :: serve model eosTokenId p requests

/-- The views at the heads of a request's loop, for any strategy it is served by. -/
inductive AtHead (model : CachedModel R V) (eosTokenId : Option Token) (prompt : List Token)
    (targetLen : Int) : PromptLookupStrategy → Views R V → Prop
  | first (p : PromptLookupStrategy) {v : Views R V} (filled : prefill model prompt = some v) :
    AtHead model eosTokenId prompt targetLen p v
  | next {p : PromptLookupStrategy} {v v' : Views R V} {newTokens : List Token}
    (before : AtHead model eosTokenId prompt targetLen p v)
    (inside : v.genCpu.length < targetLen)
    (ran : round model targetLen v (draftList (p.findMatch v.genCpu 4).1 v.genCpu)
      = some (v', newTokens))
    (goesOn : newTokens.any (isEos eosTokenId) = false) :
    AtHead model eosTokenId prompt targetLen (p.findMatch v.genCpu 4).2 v'

/-! ### A round keeps the views in step -/

variable {prompt : List Token} {pending : List R}

section Round

variable {model : CachedModel R V} {xs : List Token}

def CacheHolds (model : CachedModel R V) (v : Views R V) : Prop :=
  v.past = some (model.held v.genCpu)

def PendingPredicts (model : CachedModel R V) (v : Views R V) : Prop :=
  (model.forward v.genCpu).getLast? = some v.pendingLogits

theorem getLast?_call (model : CachedModel R V) (xs : List Token) {ids : List Token}
    (some_ : ids ≠ []) : ∃ row, ((model.forward (xs ++ ids)).drop xs.length).getLast? = some row ∧
      (model.forward (xs ++ ids)).getLast? = some row := by
  have whole : xs ++ ids ≠ [] := by simp [some_]
  have positive : 0 < ids.length := List.length_pos_iff.mpr some_
  obtain ⟨row, last, -⟩ := model.toCausalTarget.getLast?_forward whole
  refine ⟨row, ?_, last⟩
  rw [List.getLast?_drop, model.length_forward, if_neg (by simp; omega), last]

theorem feed_eq (model : CachedModel R V) (xs : List Token) (tokId : Token) :
    ∃ v, feed model xs (some (model.held xs)) tokId = some v ∧ v.genCpu = xs ++ [tokId] ∧
      CacheHolds model v ∧ PendingPredicts model v := by
  obtain ⟨row, here, last⟩ := getLast?_call model xs (List.cons_ne_nil tokId [])
  refine ⟨⟨xs ++ [tokId], some (model.held (xs ++ [tokId])), row⟩, ?_, rfl, rfl, last⟩
  simp [feed, model.call_held, here]

theorem predicted_row (predicts : (model.forward xs).getLast? = some pending) (some_ : xs ≠ [])
    {ys : List Token} {i : Nat} (within : i ≤ ys.length) :
    ∃ row, (pending :: (model.forward (xs ++ ys)).drop xs.length)[i]? = some row ∧
      argmax row = model.next (xs ++ ys.take i) := by
  cases i with
  | zero =>
    refine ⟨pending, by simp, ?_⟩
    simp [CausalTarget.next, predicts]
  | succ i =>
    obtain ⟨row, found, chosen⟩ := model.toCausalTarget.rowAt_forward some_ within
    refine ⟨row, ?_, chosen⟩
    have index : ((xs.length : Int) + (i + 1 : Nat) - 1).toNat = xs.length + i := by omega
    rw [rowAt, if_pos (by omega), index] at found
    simpa using found

variable {drafts : List Token}

theorem leadingMatches_eq (target : CausalTarget R) {rows : List (List R)}
    (rows_predict : ∀ i < drafts.length, ∃ row, rows[i]? = some row ∧
      argmax row = target.next (xs ++ drafts.take i)) :
    leadingMatches rows drafts = agreement target xs drafts := by
  induction drafts generalizing xs rows with
  | nil => simp [leadingMatches, agreement, commonPrefixLength, commonPrefixBy]
  | cons draft drafts ih =>
    obtain ⟨row, found, chosen⟩ := rows_predict 0 (by simp)
    cases rows with
    | nil => simp at found
    | cons first rows =>
      obtain rfl : first = row := by simpa using found
      have chosen : argmax first = target.next xs := by simpa using chosen
      by_cases agrees : argmax first = draft
      · -- the rest of the draft is scored after this token
        have later : leadingMatches rows drafts = agreement target (xs ++ [draft]) drafts := by
          apply ih
          intro i inside
          obtain ⟨row, found, chosen⟩ := rows_predict (i + 1) (by simpa using inside)
          exact ⟨row, by simpa using found, by simpa using chosen⟩
        have own : target.next xs = draft := by rw [← chosen, agrees]
        simp [leadingMatches, agrees, later, agreement, commonPrefixLength, commonPrefixBy,
          continuation, own]
      · have differs : ¬ draft = target.next xs := by
          rw [← chosen]
          exact fun same => agrees same.symm
        simp [leadingMatches, agrees, agreement, commonPrefixLength, commonPrefixBy,
          continuation, differs]

theorem acceptDrafts_eq (predicts : (model.forward xs).getLast? = some pending) (some_ : xs ≠ [])
    (drafts : List Token) :
    acceptDrafts pending ((model.forward (xs ++ drafts)).drop xs.length) drafts
      = agreement model.toCausalTarget xs drafts := by
  apply leadingMatches_eq
  intro i inside
  obtain ⟨row, found, chosen⟩ := predicted_row predicts some_ (Nat.le_of_lt inside)
  refine ⟨row, ?_, chosen⟩
  rw [List.getElem?_take_of_lt inside, found]

/-- What a round leaves: the text goes along the target's continuation by `m` tokens within the
budget, the cache follows, and so does the pending row while the budget lasts. -/
structure Advances (model : CachedModel R V) (targetLen : Int) (v v' : Views R V)
    (newTokens : List Token) (m : Nat) : Prop where
  positive : 0 < m
  within : v.genCpu.length + m ≤ targetLen
  added : newTokens = continuation model.next m v.genCpu
  extends_ : v'.genCpu = v.genCpu ++ newTokens
  cache : CacheHolds model v'
  pending : v'.genCpu.length < targetLen → PendingPredicts model v'

theorem take_of_le_agreement {target : CausalTarget R} {j : Nat}
    (agrees : j ≤ agreement target xs drafts) : drafts.take j = continuation target.next j xs := by
  obtain ⟨more, whole⟩ := Nat.exists_eq_add_of_le agrees
  have same := congrArg (List.take j) (take_agreement target xs drafts)
  rw [List.take_take, Nat.min_eq_left agrees, whole, take_continuation] at same
  exact same

theorem correction_row (predicts : (model.forward xs).getLast? = some pending) (some_ : xs ≠ [])
    {ys : List Token} {accepted : Nat} (within : accepted ≤ ys.length) :
    ∃ row, correctionRow pending ((model.forward (xs ++ ys)).drop xs.length) accepted = some row ∧
      argmax row = model.next (xs ++ ys.take accepted) := by
  obtain ⟨row, found, chosen⟩ := predicted_row predicts some_ within
  refine ⟨row, ?_, chosen⟩
  cases accepted with
  | zero => simpa [correctionRow] using found
  | succ accepted => simpa [correctionRow] using found

variable {targetLen : Int} {v : Views R V} (some_ : v.genCpu ≠ []) (holds : CacheHolds model v)
  (predicts : PendingPredicts model v) (inside : v.genCpu.length < targetLen)

include some_ holds predicts inside

theorem verifyDrafts_advances (drafted : drafts ≠ []) :
    ∃ v' newTokens m, verifyDrafts model targetLen v drafts = some (v', newTokens) ∧
      Advances model targetLen v v' newTokens m := by
  have agrees := agreement_le model.toCausalTarget v.genCpu drafts
  have positive : 0 < drafts.length := List.length_pos_iff.mpr drafted
  have cache : v.past = some (model.held v.genCpu) := holds
  simp only [verifyDrafts, cache, model.call_held, acceptDrafts_eq predicts some_]
  generalize accepts : (min (agreement model.toCausalTarget v.genCpu drafts : Int)
    (targetLen - v.genCpu.length)).toNat = accepted
  have own : accepted ≤ agreement model.toCausalTarget v.genCpu drafts := by omega
  have budget : v.genCpu.length + (accepted : Int) ≤ targetLen := by omega
  have taken := take_of_le_agreement own
  by_cases whole : accepted = drafts.length
  · -- every draft token is kept, and so is the cache of the verification
    subst whole
    obtain ⟨row, here, last⟩ := getLast?_call model v.genCpu drafted
    rw [List.take_length] at taken
    refine ⟨⟨v.genCpu ++ drafts, some (model.held (v.genCpu ++ drafts)), row⟩, drafts,
      drafts.length, ?_, positive, budget, taken, rfl, rfl, fun _ => last⟩
    simp [here]
  · obtain ⟨row, found, chosen⟩ := correction_row predicts some_ (Nat.le_trans own agrees)
    have cropped : (model.held (v.genCpu ++ drafts)).crop (v.genCpu.length + accepted)
        = model.held (v.genCpu ++ drafts.take accepted) := by
      rw [model.crop_held _ _ (by simp; omega), List.take_length_add_append]
    have size : (v.genCpu ++ drafts.take accepted).length = v.genCpu.length + accepted := by
      simp only [List.length_append, List.length_take]
      omega
    by_cases room : ((v.genCpu ++ drafts.take accepted).length : Int) < targetLen
    · obtain ⟨v', fed, text, holds', predicts'⟩ :=
        feed_eq model (v.genCpu ++ drafts.take accepted) (argmax row)
      refine ⟨v', drafts.take accepted ++ [argmax row], accepted + 1, ?_, by omega, ?_, ?_, ?_,
        holds', fun _ => predicts'⟩
      · rw [if_neg whole, Option.map_some, cropped, if_pos room, found, Option.bind_eq_bind,
          Option.bind_some, fed, Option.bind_eq_bind, Option.bind_some]
      · rw [size] at room
        omega
      · rw [chosen, taken, continuation_succ]
      · simp [text]
    · -- the budget ends inside the draft
      have some_accepted : 0 < accepted := by
        rw [size] at room
        omega
      refine ⟨⟨v.genCpu ++ drafts.take accepted,
        some (model.held (v.genCpu ++ drafts.take accepted)), v.pendingLogits⟩,
        drafts.take accepted, accepted, ?_, some_accepted, budget, taken, rfl, rfl,
        fun more => absurd more room⟩
      simp only [whole, if_false, Option.map_some, cropped, room]

theorem round_advances (drafts : List Token) :
    ∃ v' newTokens m, round model targetLen v drafts = some (v', newTokens) ∧
      Advances model targetLen v v' newTokens m := by
  by_cases drafted : drafts = []
  · have own : argmax v.pendingLogits = model.next v.genCpu := by
      rw [PendingPredicts] at predicts
      simp [CausalTarget.next, predicts]
    obtain ⟨v', fed, text, holds', predicts'⟩ := feed_eq model v.genCpu (argmax v.pendingLogits)
    refine ⟨v', [argmax v.pendingLogits], 1, ?_, by omega, by omega, ?_, text, holds',
      fun _ => predicts'⟩
    · rw [CacheHolds] at holds
      simp [round, drafted, holds, fed]
    · simp [continuation, own]
  · simpa only [round, drafted, if_false] using
      verifyDrafts_advances some_ holds predicts inside drafted

end Round

/-! ### The loop -/

section Loop

variable {model : CachedModel R V} {eosTokenId : Option Token} {targetLen : Int}

theorem prefill_eq (model : CachedModel R V) (some_ : prompt ≠ []) :
    ∃ v, prefill model prompt = some v ∧ v.genCpu = prompt ∧ CacheHolds model v ∧
      PendingPredicts model v := by
  obtain ⟨row, last, -⟩ := model.toCausalTarget.getLast?_forward some_
  exact ⟨⟨prompt, some (model.held prompt), row⟩, by simp [prefill, model.call_none, last], rfl,
    rfl, last⟩

omit [LinearOrder R] in
theorem prefill_nil (model : CachedModel R V) : prefill model [] = none := by
  have none : model.forward [] = [] := List.length_eq_zero_iff.mp (model.length_forward [])
  simp [prefill, model.call_none, none]

theorem loop_eq {fuel : Nat} {p : PromptLookupStrategy} {v : Views R V} (some_ : v.genCpu ≠ [])
    (holds : CacheHolds model v) (predicts : v.genCpu.length < targetLen → PendingPredicts model v)
    (enough : (targetLen - v.genCpu.length).toNat < fuel) :
    (loop model eosTokenId targetLen fuel p v).1 = some (cutAfter (isEos eosTokenId)
      (continuation model.next (targetLen - v.genCpu.length).toNat v.genCpu)) := by
  induction fuel generalizing p v with
  | zero => omega
  | succ fuel ih =>
    by_cases inside : (v.genCpu.length : Int) < targetLen
    · obtain ⟨v', newTokens, m, ran, goes⟩ := round_advances some_ holds (predicts inside) inside
        (draftList (p.findMatch v.genCpu 4).1 v.genCpu)
      have size : (v'.genCpu.length : Int) = v.genCpu.length + m := by
        rw [goes.extends_, goes.added]
        simp
      have positive := goes.positive
      have within := goes.within
      have parts : (targetLen - v.genCpu.length).toNat
          = m + (targetLen - v'.genCpu.length).toNat := by
        omega
      have still : v'.genCpu ≠ [] := by simp [goes.extends_, some_]
      have later := ih (p := (p.findMatch v.genCpu 4).2) still goes.cache goes.pending (by omega)
      rw [parts, continuation_add, ← goes.added, ← goes.extends_]
      simp only [loop, inside, if_true, ran]
      by_cases ends : newTokens.any (isEos eosTokenId) = true
      · have stops : ∃ token ∈ newTokens, isEos eosTokenId token = true := by simpa using ends
        simp [ends, cutAfter_append stops]
      · have quiet : ∀ token ∈ newTokens, isEos eosTokenId token = false := by simpa using ends
        simp [ends, later, cutAfter_append_of_quiet quiet]
    · have none : (targetLen - v.genCpu.length).toNat = 0 := by omega
      simp [loop, inside, none, cutAfter]

theorem generateTokens_eq (p : PromptLookupStrategy) (some_ : prompt ≠ []) (maxNewTokens : Int) :
    (generateTokens model eosTokenId p prompt maxNewTokens).1
      = greedyDecode model.toCausalTarget eosTokenId maxNewTokens.toNat prompt := by
  obtain ⟨v, filled, rfl, holds, predicts⟩ := prefill_eq model some_
  have budget : ((v.genCpu.length + maxNewTokens) - v.genCpu.length : Int).toNat
      = maxNewTokens.toNat := by omega
  have ran : (loop model eosTokenId (v.genCpu.length + maxNewTokens) (maxNewTokens.toNat + 1)
      p v).1 = _ := loop_eq some_ holds (fun _ => predicts) (by omega)
  rw [budget] at ran
  simp only [generateTokens, filled, ran]
  rw [greedyDecode_eq _ _ _ some_]

theorem AtHead.views {p : PromptLookupStrategy} {v : Views R V}
    (head : AtHead model eosTokenId prompt targetLen p v) : v.genCpu ≠ [] ∧ CacheHolds model v ∧
      (v.genCpu.length < targetLen → PendingPredicts model v) := by
  induction head with
  | first p filled =>
    by_cases none : prompt = []
    · rw [none, prefill_nil] at filled
      cases filled
    · obtain ⟨v, same, text, holds, predicts⟩ := prefill_eq model none
      obtain rfl : _ = v := Option.some.inj (filled.symm.trans same)
      exact ⟨text ▸ none, holds, fun _ => predicts⟩
  | @next p v v' newTokens before inside ran goesOn ih =>
    obtain ⟨some_, holds, predicts⟩ := ih
    obtain ⟨v'', newTokens', m, same, goes⟩ := round_advances some_ holds (predicts inside) inside
      (draftList (p.findMatch v.genCpu 4).1 v.genCpu)
    obtain ⟨rfl, rfl⟩ := Prod.mk.inj (Option.some.inj (ran.symm.trans same))
    exact ⟨by simp [goes.extends_, some_], goes.cache, goes.pending⟩

end Loop

/-- Prompt lookup is lossless over the lifetime of the strategy: whatever requests came before, each
one yields the greedy continuation of its prompt, up to the first end-of-text token and within its
budget (an empty prompt raises). The cache holds exactly the text at every head of the loop and
after every round, and at every head with budget left the pending row is the prediction after it. -/
theorem promptLookup_lossless (model : CachedModel R V) (eosTokenId : Option Token) :
    (∀ (p : PromptLookupStrategy) (requests : List (List Token × Int)),
      serve model eosTokenId p requests = requests.map fun request =>
        if request.1 = [] then none
        else greedyDecode model.toCausalTarget eosTokenId request.2.toNat request.1) ∧
    ∀ (prompt : List Token) (maxNewTokens : Int) (p : PromptLookupStrategy) (v : Views R V),
      AtHead model eosTokenId prompt (prompt.length + maxNewTokens) p v →
      CacheHolds model v ∧ (v.genCpu.length < prompt.length + maxNewTokens →
        PendingPredicts model v ∧ ∃ v' newTokens,
          round model (prompt.length + maxNewTokens) v
            (draftList (p.findMatch v.genCpu 4).1 v.genCpu) = some (v', newTokens) ∧
          CacheHolds model v') := by
  refine ⟨?requests, ?heads⟩
  case requests =>
    intro p requests
    induction requests generalizing p with
    | nil => simp [serve]
    | cons request requests ih =>
      obtain ⟨prompt, maxNewTokens⟩ := request
      simp only [serve, ih, List.map_cons, List.cons.injEq, and_true]
      by_cases none : prompt = []
      · simp [none, generateTokens, prefill_nil]
      · simp [none, generateTokens_eq p none]
  case heads =>
    intro prompt maxNewTokens p v head
    obtain ⟨some_, holds, predicts⟩ := head.views
    refine ⟨holds, ?_⟩
    intro inside
    obtain ⟨v', newTokens, m, ran, goes⟩ := round_advances some_ holds (predicts inside) inside
      (draftList (p.findMatch v.genCpu 4).1 v.genCpu)
    exact ⟨predicts inside, v', newTokens, ran, goes.cache⟩

def recording (target : CausalTarget R) : CachedModel R Token where
  toCausalTarget := target
  held tokens := .cropping tokens
  call ids past :=
    match past with
    | some (.cropping tokens) =>
      ((target.forward (tokens ++ ids)).drop tokens.length, some (.cropping (tokens ++ ids)))
    | _ => (target.forward ids, some (.cropping ids))
  call_none _ := rfl
  call_held _ _ := rfl
  crop_held _ _ _ := rfl

/-- A budget of one token cuts a draft of four that all agree: the cache is cropped, but the
pending row is still the one before the round when the loop ends. -/
theorem promptLookup_pending_stale :
    ¬ ∀ (model : CachedModel Nat Token) (eosTokenId : Option Token) (prompt : List Token)
      (maxNewTokens : Int) (p : PromptLookupStrategy) (v : Views Nat Token),
      AtHead model eosTokenId prompt (prompt.length + maxNewTokens) p v →
      CacheHolds model v ∧ PendingPredicts model v := by
  intro always
  let prompt := [0, 1, 2, 3, 0, 1, 2, 3]
  let model := recording (chainTarget fun token => (token + 1) % 4)
  have start : prefill model prompt = some ⟨prompt, some (.cropping prompt), favour 0⟩ := by
    decide
  have ran : round model (prompt.length + 1) ⟨prompt, some (.cropping prompt), favour 0⟩
      (draftList (create.findMatch prompt 4).1 prompt)
      = some (⟨prompt ++ [0], some (.cropping (prompt ++ [0])), favour 0⟩, [0]) := by
    decide
  have head : AtHead model none prompt (prompt.length + 1) _ _ :=
    .next (.first create start) (by decide) ran (by decide)
  have stale := (always model none prompt 1 _ _ head).2
  revert stale
  simp only [PendingPredicts]
  decide

end PromptLookupStrategy

end DistLLM.Speculative
