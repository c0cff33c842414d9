import DistLLM.Speculative.Target
import Mathlib.Data.Rat.Floor

/-!
# Greedy speculative decoding

The draft-and-verify decoders at temperature zero: `SpeculativeDecoder` with its optional dynamic
speculation length, `SelfSpeculativeDecoder` and `MultiDraftSpeculativeDecoder`. Whatever the drafts
propose, each returns what plain greedy decoding of the target returns.
-/
namespace DistLLM.Speculative

open Library

variable {R : Type} [LinearOrder R]

/-- Python's `round`: to the nearest integer, and from the middle to the even one. -/
def roundHalfEven (x : ℚ) : Int :=
  let part := x - x.floor
  if part < 1 / 2 then x.floor
  else if 1 / 2 < part then x.floor + 1
  else if x.floor % 2 = 0 then x.floor else x.floor + 1

/-- A proportional controller of the speculation length. -/
structure DynamicSpeculationController where
  current : Int
  min : Int
  max : Int
  target : ℚ
  windowSize : Nat
  kp : ℚ
  delay : Nat
  window : List (Int × Int)
  steps : Nat
deriving DecidableEq

namespace DynamicSpeculationController

/-- A new controller, with the defaults of its constructor for what the decoder does not pass. -/
def create (initial min max : Int) (target : ℚ) : DynamicSpeculationController :=
  { current := initial, min := min, max := max, target := target, windowSize := 10,
    kp := 3 / 10, delay := 5, window := [], steps := 0 }

/-- The change of the speculation length at an acceptance rate: at least one where the rate is
clearly off. -/
def adjustment (c : DynamicSpeculationController) (rate : ℚ) : Int :=
  let error := rate - c.target
  let proportional := roundHalfEven (c.kp * error * c.current)
  if |error| > 1 / 10 ∧ proportional = 0 then if error > 0 then 1 else -1 else proportional

/-- Slide the window over a finished round and adapt once it has enough rounds. -/
def update (c : DynamicSpeculationController) (accepted proposed : Int) :
    DynamicSpeculationController :=
  let window := c.window ++ [(accepted, proposed)]
  let c := { c with steps := c.steps + 1, window := window.drop (window.length - c.windowSize) }
  if c.steps < c.delay then c
  else
    let totalAccepted := (c.window.map Prod.fst).sum
    let totalProposed := (c.window.map Prod.snd).sum
    let rate : ℚ := totalAccepted / (Max.max totalProposed 1 : Int)
    { c with current := Max.max c.min (Min.min c.max (c.current + c.adjustment rate)) }

/-- The controller asks for at least one token, now and after every update. -/
def Proposes (c : DynamicSpeculationController) : Prop := 1 ≤ c.current ∧ 1 ≤ c.min

theorem Proposes.update {c : DynamicSpeculationController} (proposes : c.Proposes)
    (accepted proposed : Int) : (c.update accepted proposed).Proposes := by
  simp only [DynamicSpeculationController.update]
  split
  next => exact proposes
  next => exact ⟨le_max_of_le_left proposes.2, proposes.2⟩

end DynamicSpeculationController

/-! ### `SpeculativeDecoder` -/

/-- A target and a draft model over tokens `α`, with the speculation length. -/
structure SpeculativeDecoder (τ δ α : Type) where
  target : τ
  draft : δ
  numCandidates : Int
  eosTokenId : Option α
  specCtrl : Option DynamicSpeculationController

/-- At temperature zero the target is seen through its logits rows, and the draft model through the
logits row of the next token. -/
abbrev GreedyDecoder (R : Type) : Type :=
  SpeculativeDecoder (CausalTarget R) (List Token → List R) Token

namespace SpeculativeDecoder

section Length

variable {τ δ α : Type}

/-- The constructor: the speculation length is dynamic where both bounds are given and differ. -/
def create (target : τ) (draft : δ) (numCandidates : Int) (dynamicMin dynamicMax : Option Int)
    (dynamicTargetRate : ℚ) (numAssistantTokens : Option Int) (eosTokenId : Option α) :
    SpeculativeDecoder τ δ α :=
  let numCandidates := numAssistantTokens.getD numCandidates
  { target := target, draft := draft, numCandidates := numCandidates, eosTokenId := eosTokenId
    specCtrl := do
      let low ← dynamicMin
      let high ← dynamicMax
      if high > low then some (.create numCandidates low high dynamicTargetRate) else none }

def adapt (d : SpeculativeDecoder τ δ α) (accepted : Nat) (numDraft : Int) :
    SpeculativeDecoder τ δ α :=
  match d.specCtrl with
  | none => d
  | some ctrl =>
    let ctrl := ctrl.update accepted numDraft
    { d with specCtrl := some ctrl, numCandidates := ctrl.current }

/-- The decoder drafts at least one token in every round. -/
def Proposes (d : SpeculativeDecoder τ δ α) : Prop :=
  1 ≤ d.numCandidates ∧ ∀ ctrl, d.specCtrl = some ctrl → ctrl.Proposes

theorem Proposes.adapt {d : SpeculativeDecoder τ δ α} (proposes : d.Proposes)
    (accepted : Nat) (numDraft : Int) : (d.adapt accepted numDraft).Proposes := by
  simp only [SpeculativeDecoder.adapt]
  split
  next => exact proposes
  next ctrl running =>
    have updated := (proposes.2 ctrl running).update accepted numDraft
    refine ⟨updated.1, ?_⟩
    intro ctrl' same
    obtain rfl := Option.some.inj same
    exact updated

/-- A decoder built with at least one candidate, and with at least one as its lower bound where
the length is dynamic, proposes. -/
theorem create_proposes (target : τ) (draft : δ) {numCandidates : Int}
    {low high assistant : Option Int} (rate : ℚ) (eos : Option α)
    (some_ : 1 ≤ assistant.getD numCandidates) (bounded : ∀ l, low = some l → 1 ≤ l) :
    (create target draft numCandidates low high rate assistant eos).Proposes := by
  refine ⟨some_, ?_⟩
  intro ctrl running
  cases low with
  | none => simp [create] at running
  | some l =>
    cases high with
    | none => simp [create] at running
    | some h =>
      simp only [create, Option.bind_eq_bind, Option.bind_some] at running
      split at running
      next =>
        obtain rfl := Option.some.inj running
        exact ⟨some_, bounded l rfl⟩
      next => cases running

theorem adapt_models (d : SpeculativeDecoder τ δ α) (accepted : Nat) (numDraft : Int) :
    (d.adapt accepted numDraft).target = d.target ∧ (d.adapt accepted numDraft).draft = d.draft := by
  simp only [adapt]
  split <;> exact ⟨rfl, rfl⟩

end Length

/-- Draft tokens one after another, each from the tokens before it. -/
def draftForward (d : GreedyDecoder R) (generated : List Token) (numTokens : Int) :
    List Token :=
  continuation (fun current => argmax (d.draft current)) numTokens.toNat generated

/-- One round: draft, verify, append, stop at the end of text, adapt. -/
def round (promptLen targetLen : Nat) (eosTokenId : Option Token) (d : GreedyDecoder R)
    (generated : List Token) : Option (Pass (GreedyDecoder R) Token) := do
  let remaining : Int := targetLen - generated.length
  let numDraft := min d.numCandidates remaining
  let draftTokens := d.draftForward generated numDraft
  let targetLogits := d.target.forward (generated ++ draftTokens)
  let (generated, accepted) ← verifyAndAppend targetLogits generated draftTokens numDraft
  some (passOf promptLen eosTokenId generated d (d.adapt accepted numDraft))

def generate (d : GreedyDecoder R) (fuel : Nat) (inputIds : List Token) (maxNewTokens : Nat)
    (eosTokenId : Option Token) : Option (List Token × GreedyDecoder R) :=
  let targetLen := inputIds.length + maxNewTokens
  let eosTokenId := eosTokenId.or d.eosTokenId
  whileShorter (round inputIds.length targetLen eosTokenId) targetLen fuel d inputIds

end SpeculativeDecoder

/-- A target with a head on its hidden states, which gives the logits of all candidates at once. -/
structure SelfSpeculativeDecoder (R : Type) where
  target : CausalTarget R
  headLogits : List Token → List R
  numCandidates : Int
  eosTokenId : Option Token

namespace SelfSpeculativeDecoder

/-- One token from each slice of the head's logits. -/
def draftForward (d : SelfSpeculativeDecoder R) (generated : List Token) (numTokens : Int) :
    List Token :=
  let logits := d.headLogits generated
  let vocab := logits.length / d.numCandidates.toNat
  let logits := logits.take (numTokens.toNat * vocab)
  (List.range numTokens.toNat).map fun i => argmax ((logits.drop (i * vocab)).take vocab)

def round (promptLen targetLen : Nat) (eosTokenId : Option Token) (d : SelfSpeculativeDecoder R)
    (generated : List Token) : Option (Pass (SelfSpeculativeDecoder R) Token) := do
  let remaining : Int := targetLen - generated.length
  let numDraft := min d.numCandidates remaining
  let draftTokens := d.draftForward generated numDraft
  let targetLogits := d.target.forward (generated ++ draftTokens)
  let (generated, _) ← verifyAndAppend targetLogits generated draftTokens numDraft
  some (passOf promptLen eosTokenId generated d d)

def generate (d : SelfSpeculativeDecoder R) (fuel : Nat) (inputIds : List Token)
    (maxNewTokens : Nat) (eosTokenId : Option Token) :
    Option (List Token × SelfSpeculativeDecoder R) :=
  let targetLen := inputIds.length + maxNewTokens
  let eosTokenId := eosTokenId.or d.eosTokenId
  whileShorter (round inputIds.length targetLen eosTokenId) targetLen fuel d inputIds

end SelfSpeculativeDecoder

/-- A target and at least two draft models. -/
structure MultiDraftSpeculativeDecoder (R : Type) where
  target : CausalTarget R
  draftForwards : List (List Token → List R)
  two_le : 2 ≤ draftForwards.length
  numCandidates : Int
  eosTokenId : Option Token

namespace MultiDraftSpeculativeDecoder

/-- Draft while all models propose the same token. -/
def generateConsensusDraft (d : MultiDraftSpeculativeDecoder R) : Nat → List Token → List Token
  | 0, _ => []
  | n + 1, shared =>
    match d.draftForwards.map fun draft => argmax (draft shared) with
    | [] => []
    | first :: others =>
      if others.all (· == first) then first :: d.generateConsensusDraft n (shared ++ [first])
      else []

/-- One round; without any consensus it takes a single token from the target. -/
def round (promptLen targetLen : Nat) (eosTokenId : Option Token)
    (d : MultiDraftSpeculativeDecoder R) (generated : List Token) :
    Option (Pass (MultiDraftSpeculativeDecoder R) Token) := do
  let remaining : Int := targetLen - generated.length
  let numDraft := min d.numCandidates remaining
  let consensus := d.generateConsensusDraft numDraft.toNat generated
  if consensus.length = 0 then
    let generated ← singleToken d.target generated
    some (passOf promptLen eosTokenId generated d d)
  else
    let targetLogits := d.target.forward (generated ++ consensus)
    let (generated, _) ← verifyAndAppend targetLogits generated consensus consensus.length
    some (passOf promptLen eosTokenId generated d d)

def generate (d : MultiDraftSpeculativeDecoder R) (fuel : Nat) (inputIds : List Token)
    (maxNewTokens : Nat) (eosTokenId : Option Token) :
    Option (List Token × MultiDraftSpeculativeDecoder R) :=
  let targetLen := inputIds.length + maxNewTokens
  let eosTokenId := eosTokenId.or d.eosTokenId
  whileShorter (round inputIds.length targetLen eosTokenId) targetLen fuel d inputIds

end MultiDraftSpeculativeDecoder

variable {k : Nat}

section Rounds

variable {σ : Type} {kept : σ → Prop} {target : CausalTarget R} {prompt : List Token} {n : Nat}

theorem drafted_passTo (some_ : prompt ≠ []) (eosTokenId : Option Token) {drafts : List Token}
    (positive : 0 < drafts.length) (within : k + drafts.length ≤ n) {onReturn : σ}
    (onward : Nat → σ) (returns : kept onReturn) (goesOn : ∀ a, kept (onward a)) :
    ∃ m, k < m ∧ m ≤ n ∧ PassTo target.next (isEos eosTokenId) prompt kept m
      ((verifyAndAppend (target.forward (prompt ++ continuation target.next k prompt ++ drafts))
        (prompt ++ continuation target.next k prompt) drafts drafts.length).bind fun appended =>
          some (passOf prompt.length eosTokenId appended.1 onReturn (onward appended.2))) := by
  have still : prompt ++ continuation target.next k prompt ≠ [] := by simp [some_]
  rw [verifyAndAppend_eq still, Option.bind_some, List.append_assoc, ← continuation_add]
  have accepted := agreement_le target
    (prompt ++ continuation target.next k prompt) drafts
  refine ⟨k + roundLength (agreement target _ drafts) drafts.length, ?_, ?_,
    passOf_passTo returns (goesOn _) eosTokenId prompt _⟩
  · simp only [roundLength]
    split <;> omega
  · simp only [roundLength]
    split <;> omega

theorem numDraft_bounds (target : CausalTarget R) (prompt : List Token) {c : Int} (proposes : 1 ≤ c)
    (inside : k < n) :
    0 < min c ((prompt.length + n : Nat) - (prompt ++ continuation target.next k prompt).length) ∧
      k + min c ((prompt.length + n : Nat)
        - (prompt ++ continuation target.next k prompt).length) ≤ n := by
  simp only [List.length_append, length_continuation]
  omega

end Rounds

/-- What a decoder returns: the prompt followed by what plain greedy decoding of the target
produces, wherever the target can be decoded. -/
def Lossless (target : CausalTarget R) (eosTokenId : Option Token)
    (generate : Nat → List Token → Nat → Option (List Token)) : Prop :=
  ∀ prompt maxNewTokens decoded,
    greedyDecode target eosTokenId maxNewTokens prompt = some decoded →
    ∀ fuel > maxNewTokens, generate fuel prompt maxNewTokens = some (prompt ++ decoded)

variable {eosTokenId : Option Token}

theorem lossless_of_rounds {σ : Type} {target : CausalTarget R} (kept : σ → Prop)
    (round : Nat → Nat → σ → List Token → Option (Pass σ Token))
    (rounds : ∀ (prompt : List Token) (n : Nat), prompt ≠ [] → ∀ s k, kept s → k < n →
      ∃ m, k < m ∧ m ≤ n ∧ PassTo target.next (isEos eosTokenId) prompt kept m
        (round prompt.length (prompt.length + n) s (prompt ++ continuation target.next k prompt)))
    {s : σ} (holds : kept s) : Lossless target eosTokenId fun fuel prompt maxNewTokens =>
      (whileShorter (round prompt.length (prompt.length + maxNewTokens))
        (prompt.length + maxNewTokens) fuel s prompt).map Prod.fst := by
  intro prompt maxNewTokens decoded decodes fuel enough
  by_cases none : prompt = []
  · -- an empty prompt has no continuation, so no token was asked for
    obtain rfl : maxNewTokens = 0 := by
      have defined := (greedyDecode_isSome_iff target eosTokenId maxNewTokens prompt).mp
        (by simp [decodes])
      simpa [none] using defined
    cases fuel with
    | zero => omega
    | succ fuel =>
      have stopped : [] = decoded := by simpa [greedyDecode] using decodes
      simp [whileShorter, none, ← stopped]
  · obtain ⟨s', _, ends⟩ := whileShorter_eq
      (rounds prompt maxNewTokens none) enough holds
    rw [greedyDecode_eq target eosTokenId maxNewTokens none] at decodes
    obtain rfl := Option.some.inj decodes
    simp [ends]

/-! ### The decoders are lossless -/

variable {prompt : List Token}

theorem SpeculativeDecoder.round_passTo (eosTokenId : Option Token) (some_ : prompt ≠ []) {n : Nat}
    (inside : k < n) {d : GreedyDecoder R}
    (proposes : d.Proposes) : ∃ m, k < m ∧ m ≤ n ∧ PassTo d.target.next (isEos eosTokenId) prompt
      (fun d' => d'.target = d.target ∧ d'.Proposes) m
      (round prompt.length (prompt.length + n) eosTokenId d
        (prompt ++ continuation d.target.next k prompt)) := by
  obtain ⟨positive, within⟩ := numDraft_bounds d.target prompt proposes.1 inside
  simp only [round]
  generalize min d.numCandidates _ = numDraft at positive within ⊢
  have size : ((d.draftForward (prompt ++ continuation d.target.next k prompt) numDraft).length
      : Int) = numDraft := by
    simp only [draftForward, length_continuation]
    omega
  generalize d.draftForward _ _ = drafts at size ⊢
  subst size
  have some_draft : 0 < drafts.length := by omega
  have fits : k + drafts.length ≤ n := by omega
  apply drafted_passTo some_ eosTokenId some_draft fits
    (fun accepted => d.adapt accepted drafts.length)
  · exact ⟨rfl, proposes⟩
  · exact fun accepted => ⟨(d.adapt_models accepted _).1, proposes.adapt accepted _⟩

theorem SelfSpeculativeDecoder.round_passTo (some_ : prompt ≠ []) {n : Nat} (inside : k < n)
    {d : SelfSpeculativeDecoder R} (proposes : 1 ≤ d.numCandidates) :
    ∃ m, k < m ∧ m ≤ n ∧ PassTo d.target.next (isEos eosTokenId) prompt (· = d) m
      (round prompt.length (prompt.length + n) eosTokenId d
        (prompt ++ continuation d.target.next k prompt)) := by
  obtain ⟨positive, within⟩ := numDraft_bounds d.target prompt proposes inside
  simp only [round]
  generalize min d.numCandidates _ = numDraft at positive within ⊢
  have size : ((d.draftForward (prompt ++ continuation d.target.next k prompt) numDraft).length
      : Int) = numDraft := by
    simp only [draftForward, List.length_map, List.length_range]
    omega
  generalize d.draftForward _ _ = drafts at size ⊢
  subst size
  have some_draft : 0 < drafts.length := by omega
  have fits : k + drafts.length ≤ n := by omega
  apply drafted_passTo some_ eosTokenId some_draft fits fun _ => d
  · rfl
  · exact fun _ => rfl

theorem MultiDraftSpeculativeDecoder.length_consensus_le (d : MultiDraftSpeculativeDecoder R)
    (n : Nat) (shared : List Token) : (d.generateConsensusDraft n shared).length ≤ n := by
  induction n generalizing shared with
  | zero => simp [generateConsensusDraft]
  | succ n ih =>
    simp only [generateConsensusDraft]
    split
    next => simp
    next =>
      split
      next => simpa using ih _
      next => simp

theorem MultiDraftSpeculativeDecoder.round_passTo (some_ : prompt ≠ []) {n : Nat} (inside : k < n)
    {d : MultiDraftSpeculativeDecoder R} (proposes : 1 ≤ d.numCandidates) :
    ∃ m, k < m ∧ m ≤ n ∧ PassTo d.target.next (isEos eosTokenId) prompt (· = d) m
      (round prompt.length (prompt.length + n) eosTokenId d
        (prompt ++ continuation d.target.next k prompt)) := by
  obtain ⟨positive, within⟩ := numDraft_bounds d.target prompt proposes inside
  simp only [round]
  generalize min d.numCandidates _ = numDraft at positive within ⊢
  have size := d.length_consensus_le numDraft.toNat
    (prompt ++ continuation d.target.next k prompt)
  generalize d.generateConsensusDraft _ _ = consensus at size ⊢
  by_cases none : consensus.length = 0
  · -- no consensus: one token of the target
    have still : prompt ++ continuation d.target.next k prompt ≠ [] := by simp [some_]
    simp only [none, if_true, singleToken_eq d.target still, Option.bind_eq_bind,
      Option.bind_some, List.append_assoc, ← continuation_succ]
    refine ⟨k + 1, by omega, by omega, ?_⟩
    apply passOf_passTo
    · rfl
    · rfl
  · have some_draft : 0 < consensus.length := by omega
    have fits : k + consensus.length ≤ n := by omega
    simp only [none, if_false]
    apply drafted_passTo some_ eosTokenId some_draft fits fun _ => d
    · rfl
    · exact fun _ => rfl

/-- Greedy speculative decoding is lossless: whatever the drafts propose, the three decoders return
the prompt followed by the target's own greedy tokens, cut after the first end-of-text token or at
the budget. -/
theorem generate_lossless (eosTokenId : Option Token) : (∀ d : GreedyDecoder R, d.Proposes →
      Lossless d.target (eosTokenId.or d.eosTokenId) fun fuel prompt maxNewTokens =>
        (d.generate fuel prompt maxNewTokens eosTokenId).map Prod.fst) ∧
    (∀ d : SelfSpeculativeDecoder R, 1 ≤ d.numCandidates →
      Lossless d.target (eosTokenId.or d.eosTokenId) fun fuel prompt maxNewTokens =>
        (d.generate fuel prompt maxNewTokens eosTokenId).map Prod.fst) ∧
    ∀ d : MultiDraftSpeculativeDecoder R, 1 ≤ d.numCandidates →
      Lossless d.target (eosTokenId.or d.eosTokenId) fun fuel prompt maxNewTokens =>
        (d.generate fuel prompt maxNewTokens eosTokenId).map Prod.fst := by
  refine ⟨?speculative, ?self, ?multi⟩
  case speculative =>
    intro d proposes
    apply lossless_of_rounds (fun d' => d'.target = d.target ∧ d'.Proposes)
      (fun promptLen targetLen =>
        SpeculativeDecoder.round promptLen targetLen (eosTokenId.or d.eosTokenId))
    · intro prompt n some_ d' k ⟨same, proposes'⟩ inside
      have goes := SpeculativeDecoder.round_passTo (eosTokenId.or d.eosTokenId) some_ inside
        proposes'
      rwa [same] at goes
    · exact ⟨rfl, proposes⟩
  case self =>
    intro d proposes
    apply lossless_of_rounds (· = d) (fun promptLen targetLen =>
      SelfSpeculativeDecoder.round promptLen targetLen (eosTokenId.or d.eosTokenId))
    · rintro prompt n some_ _ k rfl inside
      exact SelfSpeculativeDecoder.round_passTo some_ inside proposes
    · rfl
  case multi =>
    intro d proposes
    apply lossless_of_rounds (· = d) (fun promptLen targetLen =>
      MultiDraftSpeculativeDecoder.round promptLen targetLen (eosTokenId.or d.eosTokenId))
    · rintro prompt n some_ _ k rfl inside
      exact MultiDraftSpeculativeDecoder.round_passTo some_ inside proposes
    · rfl

/-- Decoders of the target that counts to three, with a draft model that always proposes two. -/
theorem counting_lossless :
    ((SpeculativeDecoder.create (chainTarget (· + 1)) (fun _ => favour 2) 2 none none 0 none
        none).generate 6 [0] 5 (some 3)).map Prod.fst = some [0, 1, 2, 3] ∧
      ((SelfSpeculativeDecoder.mk (chainTarget (· + 1)) (fun _ => favour 2 ++ favour 2) 2
        (some 3)).generate 6 [0] 5 none).map Prod.fst = some [0, 1, 2, 3] ∧
      ((MultiDraftSpeculativeDecoder.mk (chainTarget (· + 1)) [fun _ => favour 2, fun _ => favour 2]
        (by decide) 2 none).generate 6 [0] 5 (some 3)).map Prod.fst = some [0, 1, 2, 3] :=
  ⟨(generate_lossless (some 3)).1 _
      (SpeculativeDecoder.create_proposes _ _ 0 none (by decide) (by simp))
      [0] 5 [1, 2, 3] (by decide) 6 (by decide),
    (generate_lossless none).2.1 _ (by decide) [0] 5 [1, 2, 3] (by decide) 6 (by decide),
    (generate_lossless (some 3)).2.2 _ (by decide) [0] 5 [1, 2, 3] (by decide) 6 (by decide)⟩

end DistLLM.Speculative
