import DistLLM.Library.Law
import DistLLM.Speculative.Decoders

/-!
# Sampled speculative decoding

`SpeculativeDecoder` at a temperature above zero with `top_k = 0`: draft tokens are accepted against
the ratio of the target's and the draft model's probabilities, and a rejected one is replaced by a
draw from the target itself. The law of what this generates, and when it is the target's own.
-/
namespace DistLLM.Speculative

open Library

variable {V : Type} [Fintype V] [DecidableEq V]

/-- Above temperature zero both models give the distribution of the next token after some tokens:
the softmax of the last logits row at that temperature. -/
abbrev SamplingDecoder (V : Type) [Fintype V] : Type :=
  SpeculativeDecoder (List V → Dist ℚ V) (List V → Dist ℚ V) V

/-- Row `k` of a forward pass: the distribution after the first `k + 1` tokens. A negative index
counts from the end. -/
def rowDist (target : List V → Dist ℚ V) (full : List V) (k : Int) : Dist ℚ V :=
  target (full.take ((if k < 0 then full.length + k else k) + 1).toNat)

/-- The rejection sampling loop: the number of accepted draft tokens, each given with its draft
probability. -/
def verifySampled (target : List V → Dist ℚ V) (full : List V) (prefixLen : Nat) :
    Nat → List (V × ℚ) → Law ℚ Nat
  | i, [] => pure i
  | i, (token, q) :: rest =>
    if q ≤ 0 then pure i
    else do
      let accept ← Law.below ((rowDist target full (prefixLen + i - 1)).mass token / q)
      if accept then verifySampled target full prefixLen (i + 1) rest else pure i

/-- Append the accepted draft tokens, and a token drawn from the target where the draft was
longer. -/
def appendSampled (target : List V → Dist ℚ V) (full generated tokens : List V) (numDraft : Int)
    (accepted : Nat) : Law ℚ (List V × Nat) :=
  let generated := generated ++ tokens.take accepted
  if accepted < numDraft then do
    let token ← Law.draw (rowDist target full (generated.length - 1))
    pure (generated ++ [token], accepted)
  else pure (generated, accepted)

/-- The second half of a round: verify the draft and append. -/
def verifyAndAppendSampled (target : List V → Dist ℚ V) (generated : List V)
    (drafts : List (V × ℚ)) (numDraft : Int) : Law ℚ (List V × Nat) := do
  let tokens := drafts.map Prod.fst
  let accepted ← verifySampled target (generated ++ tokens) generated.length 0 drafts
  appendSampled target (generated ++ tokens) generated tokens numDraft accepted

/-- The loop around the rounds, as for the plain decoders. -/
def sampledWhileShorter {σ α : Type} (body : σ → List α → Law ℚ (Pass σ α)) (goal : Nat) :
    Nat → σ → List α → Law ℚ (Option (List α × σ))
  | 0, _, _ => pure none
  | fuel + 1, s, xs =>
    if xs.length < goal then do
      match ← body s xs with
      | .returned result s' => pure (some (result, s'))
      | .continued grown s' => sampledWhileShorter body goal fuel s' grown
    else pure (some (xs, s))

namespace SpeculativeDecoder

/-- Draft tokens one after another, each with its probability in the distribution it was drawn
from. -/
def sampledDraft (d : SamplingDecoder V) : Nat → List V → Law ℚ (List (V × ℚ))
  | 0, _ => pure []
  | n + 1, current => do
    let token ← Law.draw (d.draft current)
    let rest ← d.sampledDraft n (current ++ [token])
    pure ((token, (d.draft current).mass token) :: rest)

def verifyRound (d : SamplingDecoder V) (numDraft : Int) (generated : List V) :
    Law ℚ (List V × Nat) := do
  let drafts ← d.sampledDraft numDraft.toNat generated
  verifyAndAppendSampled d.target generated drafts numDraft

def sampledRound (promptLen targetLen : Nat) (eosTokenId : Option V) (d : SamplingDecoder V)
    (generated : List V) : Law ℚ (Pass (SamplingDecoder V) V) := do
  let remaining : Int := targetLen - generated.length
  let numDraft := min d.numCandidates remaining
  let (generated, accepted) ← d.verifyRound numDraft generated
  pure (passOf promptLen eosTokenId generated d (d.adapt accepted numDraft))

def sampledGenerate (d : SamplingDecoder V) (fuel : Nat) (inputIds : List V) (maxNewTokens : Nat)
    (eosTokenId : Option V) : Law ℚ (Option (List V × SamplingDecoder V)) :=
  let targetLen := inputIds.length + maxNewTokens
  let eosTokenId := eosTokenId.or d.eosTokenId
  sampledWhileShorter (sampledRound inputIds.length targetLen eosTokenId) targetLen fuel d inputIds

end SpeculativeDecoder

/-- Plain sampling of at most `n` tokens, up to the first end-of-text token. -/
def plainSample (next : List V → Dist ℚ V) (eosTokenId : Option V) : Nat → List V → Law ℚ (List V)
  | 0, _ => pure []
  | n + 1, tokens => do
    let token ← Law.draw (next tokens)
    if some token = eosTokenId then pure [token]
    else do
      let rest ← plainSample next eosTokenId n (tokens ++ [token])
      pure (token :: rest)

/-! ### A round, one token at a time -/

variable {generated : List V}

section Round

omit [DecidableEq V] in
theorem rowDist_append (target : List V → Dist ℚ V) (some_ : generated ≠ [])
    (more : List V) : rowDist target (generated ++ more) (generated.length - 1) = target generated := by
  have positive : 0 < generated.length := List.length_pos_iff.mpr some_
  have index : ((generated.length : Int) - 1 + 1).toNat = generated.length := by omega
  rw [rowDist, if_neg (by omega), index, List.take_left]

omit [DecidableEq V] in
theorem verifySampled_succ (target : List V → Dist ℚ V) (full : List V) (prefixLen i : Nat)
    (drafts : List (V × ℚ)) (f : Nat → ℚ) :
    (verifySampled target full prefixLen (i + 1) drafts).expect f
      = (verifySampled target full (prefixLen + 1) i drafts).expect fun a => f (a + 1) := by
  induction drafts generalizing i with
  | nil => rfl
  | cons draft rest ih =>
    have index : (prefixLen : Int) + (i + 1 : Nat) - 1 = (prefixLen + 1 : Nat) + i - 1 := by
      omega
    simp only [verifySampled, index]
    split
    next => rfl
    next => simp [ih]

/-- A draw from the target in place of a draft token. -/
def correct (target : List V → Dist ℚ V) (generated : List V) : Law ℚ (List V × Nat) := do
  let token ← Law.draw (target generated)
  pure (generated ++ [token], 0)

section

omit [DecidableEq V]

variable (target : List V → Dist ℚ V)

include target

theorem appendSampled_zero (some_ : generated ≠ []) (tokens : List V) (k : Nat) :
    appendSampled target (generated ++ tokens) generated tokens (k + 1 : Nat) 0
      = correct target generated := by
  have rejects : ((0 : Nat) : Int) < (k + 1 : Nat) := by omega
  simp only [appendSampled, rejects, if_true, List.take_zero, List.append_nil,
    rowDist_append target some_, correct]

theorem appendSampled_succ (full generated : List V) (token : V) (tokens : List V)
    (k accepted : Nat) (f : List V × Nat → ℚ) :
    (appendSampled target full generated (token :: tokens) (k + 1 : Nat) (accepted + 1)).expect f
      = (appendSampled target full (generated ++ [token]) tokens k accepted).expect
          fun out => f (out.1, out.2 + 1) := by
  have joined : generated ++ token :: tokens.take accepted
      = generated ++ [token] ++ tokens.take accepted := by simp
  have same : ((accepted + 1 : Nat) : Int) < (k + 1 : Nat) ↔ (accepted : Int) < k := by omega
  simp only [appendSampled, same, List.take_succ_cons, joined]
  split
  next => rfl
  next => rfl

theorem verifyAndAppendSampled_cons (some_ : generated ≠ []) (token : V) (q : ℚ)
    (rest : List (V × ℚ)) (k : Nat) (f : List V × Nat → ℚ) :
    (verifyAndAppendSampled target generated ((token, q) :: rest) (k + 1 : Nat)).expect f
      = if q ≤ 0 then (correct target generated).expect f
        else (Law.below ((target generated).mass token / q)).expect fun accept =>
          if accept then (verifyAndAppendSampled target (generated ++ [token]) rest k).expect
            fun out => f (out.1, out.2 + 1)
          else (correct target generated).expect f := by
  have first : rowDist target (generated ++ token :: rest.map Prod.fst)
      ((generated.length : Int) + (0 : Nat) - 1) = target generated := by
    simpa using rowDist_append target some_ (token :: rest.map Prod.fst)
  have none := appendSampled_zero target some_ (token :: rest.map Prod.fst) k
  have size : (generated ++ [token]).length = generated.length + 1 := by simp
  have joined : generated ++ [token] ++ rest.map Prod.fst
      = generated ++ token :: rest.map Prod.fst := by simp
  simp only [verifyAndAppendSampled, verifySampled, List.map_cons, first]
  by_cases never : q ≤ 0
  · simp only [never, if_true, Law.expect_bind, Law.expect_pure, none]
  · simp only [never, if_false, Law.expect_bind, Law.expect_below, Law.expect_pure, if_true,
      Bool.false_eq_true, none, verifySampled_succ, appendSampled_succ, size, joined]

end

/-- A round that verifies each draft token before it drafts the next. -/
def interleavedRound (d : SamplingDecoder V) : Nat → List V → Law ℚ (List V × Nat)
  | 0, generated => pure (generated, 0)
  | k + 1, generated => do
    let token ← Law.draw (d.draft generated)
    let accept ← Law.below ((d.target generated).mass token / (d.draft generated).mass token)
    if accept then do
      let out ← interleavedRound d k (generated ++ [token])
      pure (out.1, out.2 + 1)
    else correct d.target generated

omit [DecidableEq V] in
theorem verifyRound_eq (d : SamplingDecoder V) (k : Nat)
    (some_ : generated ≠ []) : d.verifyRound k generated = interleavedRound d k generated := by
  induction k generalizing generated with
  | zero => ext f; simp [SpeculativeDecoder.verifyRound, SpeculativeDecoder.sampledDraft,
      verifyAndAppendSampled, verifySampled, appendSampled, interleavedRound]
  | succ k ih =>
    ext f
    have tail : ∀ token (g : List V × Nat → ℚ),
        (d.sampledDraft k (generated ++ [token])).expect (fun rest =>
          (verifyAndAppendSampled d.target (generated ++ [token]) rest k).expect g)
        = (interleavedRound d k (generated ++ [token])).expect g := by
      intro token g
      rw [← ih (List.append_ne_nil_of_right_ne_nil generated (List.cons_ne_nil token []))]
      rfl
    have size : ((k + 1 : Nat) : Int).toNat = k + 1 := by omega
    simp only [SpeculativeDecoder.verifyRound, size, SpeculativeDecoder.sampledDraft,
      interleavedRound, Law.expect_bind, Law.expect_draw, Law.expect_pure,
      verifyAndAppendSampled_cons d.target some_]
    apply Finset.sum_congr rfl
    intro token _
    by_cases never : (d.draft generated).mass token ≤ 0
    · simp [le_antisymm never ((d.draft generated).nonneg token)]
    · simp only [never, if_false, Law.expect_below, if_true, Bool.false_eq_true,
        Law.expect_add, Law.expect_mul, Law.expect_const, tail, Law.expect_bind, Law.expect_pure]

/-- The distribution of the next token that rounds emit: accepted drafts, and draws from the target
for the rejected ones. -/
def SpeculativeDecoder.emitted (d : SamplingDecoder V) (tokens : List V) : Dist ℚ V :=
  Dist.resampled (d.target tokens) (d.draft tokens)

omit [DecidableEq V] in
/-- A value that is the mean of its values one emitted token later is the mean of its values one
round later. -/
theorem interleavedRound_expect (d : SamplingDecoder V) (k : Nat) (generated : List V)
    {W : List V → ℚ} (mean : ∀ more : List V, more.length < k → W (generated ++ more)
        = ∑ x, (d.emitted (generated ++ more)).mass x * W (generated ++ more ++ [x])) :
    (interleavedRound d k generated).expect (fun out => W out.1) = W generated := by
  induction k generalizing generated with
  | zero => simp [interleavedRound]
  | succ k ih =>
    have tail : ∀ token, (interleavedRound d k (generated ++ [token])).expect (fun out => W out.1)
        = W (generated ++ [token]) := by
      intro token
      apply ih
      intro more short
      have := mean (token :: more) (by simpa using short)
      simpa using this
    have law := congrArg (fun m => m.expect fun x => W (generated ++ [x]))
      (Dist.resample_eq (d.target generated) (d.draft generated))
    have here := mean [] (by simp)
    simp only [List.append_nil, SpeculativeDecoder.emitted] at here
    simp only [Dist.resample, Law.expect_bind, Law.expect_draw, Law.expect_below, if_true,
      Bool.false_eq_true, if_false, Law.expect_pure, ← here] at law
    simpa [interleavedRound, correct, tail] using law

omit [DecidableEq V] in
theorem interleavedRound_sure (d : SamplingDecoder V) (k : Nat) (generated : List V) :
    Law.Sure (interleavedRound d k generated) fun out =>
      ∃ more, out.1 = generated ++ more ∧ more.length ≤ k ∧ (0 < k → 0 < more.length) := by
  induction k generalizing generated with
  | zero => exact Law.Sure.pure ⟨[], by simp⟩
  | succ k ih =>
    apply Law.Sure.bind
    intro token
    apply Law.Sure.bind
    intro accept
    cases accept with
    | true =>
      intro f g same
      apply ih
      rintro ⟨out, count⟩ ⟨more, rfl, short, -⟩
      exact same _ ⟨token :: more, by simp, by simpa using short, by simp⟩
    | false =>
      apply Law.Sure.bind
      intro other
      exact Law.Sure.pure ⟨[other], by simp, by simp, by simp⟩

end Round

/-! ### The law of what is generated -/

section Generation

variable (emit : List V → Dist ℚ V) (eosTokenId : Option V) (prompt : List V) (n : Nat)
  (f : List V → ℚ)

/-- The expectation over plain sampling that goes on after some new tokens, cut at the end of
text. -/
def value (new : List V) : ℚ :=
  if ∃ x ∈ new, isEos eosTokenId x = true then f (cutAfter (isEos eosTokenId) new)
  else (plainSample emit eosTokenId (n - new.length) (prompt ++ new)).expect fun rest =>
    f (new ++ rest)

theorem value_mean (new : List V) (short : new.length < n) : value emit eosTokenId prompt n f new
      = ∑ x, (emit (prompt ++ new)).mass x * value emit eosTokenId prompt n f (new ++ [x]) := by
  by_cases stopped : ∃ x ∈ new, isEos eosTokenId x = true
  · have still : ∀ x, value emit eosTokenId prompt n f (new ++ [x])
        = f (cutAfter (isEos eosTokenId) new) := by
      intro x
      have later : ∃ y ∈ new ++ [x], isEos eosTokenId y = true := by
        obtain ⟨y, inside, halts⟩ := stopped
        exact ⟨y, by simp [inside], halts⟩
      simp only [value, later, if_true, cutAfter_append stopped]
    simp only [still, ← Finset.sum_mul, (emit (prompt ++ new)).total, one_mul]
    simp only [value, stopped, if_true]
  · obtain ⟨rest, left⟩ := Nat.exists_eq_add_of_lt short
    have quiet : ∀ x ∈ new, isEos eosTokenId x = false := by simpa using stopped
    have remaining : n - new.length = rest + 1 := by omega
    simp only [value, stopped, if_false, remaining, plainSample, Law.expect_bind, Law.expect_draw]
    apply Finset.sum_congr rfl
    intro x _
    by_cases halts : some x = eosTokenId
    · have now : ∃ y ∈ new ++ [x], isEos eosTokenId y = true := ⟨x, by simp, by simp [isEos, halts]⟩
      have cut : cutAfter (isEos eosTokenId) (new ++ [x]) = new ++ [x] := by
        rw [cutAfter_append_of_quiet quiet]
        simp [cutAfter]
      simp only [halts, if_true, Law.expect_pure, now, cut]
    · have goesOn : ¬ ∃ y ∈ new ++ [x], isEos eosTokenId y = true := by
        simpa [isEos, halts] using quiet
      have fewer : n - (new ++ [x]).length = rest := by
        simp only [List.length_append, List.length_singleton]
        omega
      simp only [halts, if_false, Law.expect_bind, Law.expect_pure, goesOn, fewer,
        List.append_assoc, List.singleton_append]

theorem value_of_reached {new : List V} (reached : n ≤ new.length)
    (uncut : cutAfter (isEos eosTokenId) new = new) :
    value emit eosTokenId prompt n f new = f new := by
  have nothing : n - new.length = 0 := by omega
  simp only [value, uncut, nothing, plainSample, Law.expect_pure, List.append_nil, ite_self]

theorem value_of_cut {new : List V} (shorter : eosCutoff new eosTokenId < new.length) :
    value emit eosTokenId prompt n f new = f (new.take (eosCutoff new eosTokenId)) := by
  have stopped : ∃ x ∈ new, isEos eosTokenId x = true := by
    apply stops_of_cutAfter_lt
    rwa [← eosCutoff_eq]
  rw [take_eosCutoff]
  simp only [value, stopped, if_true]

end Generation

/-- The models of a decoder, whatever its speculation length has become. -/
def SpeculativeDecoder.SameModels (d s : SamplingDecoder V) : Prop :=
  s.target = d.target ∧ s.draft = d.draft ∧ s.Proposes

theorem sampledLoop_expect (d : SamplingDecoder V) (eosTokenId : Option V) {prompt : List V}
    (some_ : prompt ≠ []) (n : Nat) (f : Option (List V) → ℚ) {fuel : Nat}
    {s : SamplingDecoder V} (same : d.SameModels s) (new : List V) (within : new.length ≤ n)
    (enough : n - new.length < fuel) (uncut : cutAfter (isEos eosTokenId) new = new) :
    (sampledWhileShorter (SpeculativeDecoder.sampledRound prompt.length (prompt.length + n)
        eosTokenId) (prompt.length + n) fuel s (prompt ++ new)).expect
      (fun out => f (out.map Prod.fst))
      = value d.emitted eosTokenId prompt n (fun new => f (some (prompt ++ new))) new := by
  -- a round leaves other counters in the decoder, so the induction is over every decoder of
  -- the same two models
  induction fuel generalizing s new with
  | zero => omega
  | succ fuel ih =>
    by_cases reached : n ≤ new.length
    · have leaves : ¬ (prompt ++ new).length < prompt.length + n := by
        simp only [List.length_append]
        omega
      rw [value_of_reached _ _ _ _ _ reached uncut]
      simp only [sampledWhileShorter, leaves, if_false, Law.expect_pure, Option.map_some]
    · have enters : (prompt ++ new).length < prompt.length + n := by
        simp only [List.length_append]
        omega
      have remains : (((prompt.length + n : Nat) : Int) - (prompt ++ new).length)
          = ((n - new.length : Nat) : Int) := by
        simp only [List.length_append]
        omega
      have proposes := same.2.2.1
      obtain ⟨k, drafts⟩ : ∃ k : Nat, min s.numCandidates ((n - new.length : Nat) : Int) = k :=
        ⟨_, (Int.toNat_of_nonneg (by omega)).symm⟩
      have still : prompt ++ new ≠ [] := by simp [some_]
      simp only [sampledWhileShorter, enters, if_true, SpeculativeDecoder.sampledRound, remains,
        drafts, Law.expect_bind, Law.expect_pure, verifyRound_eq s k still]
      -- the value of a sequence is read off behind the prompt
      let W : List V → ℚ := fun generated => value d.emitted eosTokenId prompt n
        (fun new => f (some (prompt ++ new))) (generated.drop prompt.length)
      have here : W (prompt ++ new) = value d.emitted eosTokenId prompt n
          (fun new => f (some (prompt ++ new))) new := by
        simp [W]
      rw [← here, ← interleavedRound_expect s k (prompt ++ new) (W := W)]
      · -- every result of the round has the value of what it has generated
        apply interleavedRound_sure s k (prompt ++ new)
        rintro ⟨out, accepted⟩ ⟨more, rfl, fits, grows⟩
        have size : (new ++ more).length = new.length + more.length := by simp
        simp only [W, List.append_assoc, List.drop_left, passOf, maybeCut, List.length_append,
          Nat.add_sub_cancel_left, List.take_length_add_append]
        by_cases cut : eosCutoff (new ++ more) eosTokenId < new.length + more.length
        · simp only [cut, if_true, Law.expect_pure, Option.map_some]
          rw [value_of_cut _ _ _ _ _ (by omega)]
        · have adapted := s.adapt_models accepted k
          have kept : d.SameModels (s.adapt accepted k) :=
            ⟨adapted.1.trans same.1, adapted.2.trans same.2.1, same.2.2.adapt accepted k⟩
          have whole : cutAfter (isEos eosTokenId) (new ++ more) = new ++ more := by
            apply cutAfter_eq_of_length
            rw [← eosCutoff_eq]
            omega
          simp only [cut, if_false]
          exact ih kept (new ++ more) (by omega) (by omega) whole
      · intro more short
        have emits : s.emitted = d.emitted := by
          funext tokens
          simp only [SpeculativeDecoder.emitted, same.1, same.2.1]
        have mean := value_mean d.emitted eosTokenId prompt n
          (fun new => f (some (prompt ++ new))) (new ++ more)
          (by simp only [List.length_append]; omega)
        simpa [W, emits] using mean

theorem sampledGenerate_eq (d : SamplingDecoder V) (proposes : d.Proposes) {prompt : List V}
    (some_ : prompt ≠ []) (n : Nat) (eosTokenId : Option V) {fuel : Nat} (enough : n < fuel) :
    Option.map Prod.fst <$> d.sampledGenerate fuel prompt n eosTokenId
      = (fun new => some (prompt ++ new)) <$>
          plainSample d.emitted (eosTokenId.or d.eosTokenId) n prompt := by
  ext f
  have loop := sampledLoop_expect d (eosTokenId.or d.eosTokenId) some_ n f (s := d)
    ⟨rfl, rfl, proposes⟩ [] (Nat.zero_le n) enough rfl
  simpa [SpeculativeDecoder.sampledGenerate, value] using loop

/-- The tokens that plain sampling can have after `k` more of them, with text still to come. -/
inductive Reached (next : List V → Dist ℚ V) (eosTokenId : Option V) :
    Nat → List V → List V → Prop
  | here (tokens : List V) : Reached next eosTokenId 0 tokens tokens
  | after {k : Nat} {tokens last : List V} (x : V) (possible : 0 < (next tokens).mass x)
      (goesOn : some x ≠ eosTokenId) (later : Reached next eosTokenId k (tokens ++ [x]) last) :
      Reached next eosTokenId (k + 1) tokens last

section Agreement

variable {emit next : List V → Dist ℚ V} {eosTokenId : Option V} {n : Nat} {tokens : List V}

section

variable
  (same : plainSample emit eosTokenId (n + 1) tokens = plainSample next eosTokenId (n + 1) tokens)

include same

theorem mass_of_plainSample_eq (x : V) :
    (emit tokens).mass x = (next tokens).mass x := by
  have first : ∀ sampler : List V → Dist ℚ V,
      (plainSample sampler eosTokenId (n + 1) tokens).expect
        (fun new => if new.head? = some x then 1 else 0) = (sampler tokens).mass x := by
    intro sampler
    have each : ∀ y, (if some y = eosTokenId then pure [y]
        else do
          let rest ← plainSample sampler eosTokenId n (tokens ++ [y])
          pure (y :: rest) : Law ℚ (List V)).expect
          (fun new => if new.head? = some x then 1 else 0) = if y = x then 1 else 0 := by
      intro y
      split <;> simp [Law.expect_const]
    simp only [plainSample, Law.expect_bind, Law.expect_draw, each]
    simp
  rw [← first, same, first]

theorem plainSample_tail_eq {x : V} (possible : 0 < (next tokens).mass x)
    (goesOn : some x ≠ eosTokenId) :
    plainSample emit eosTokenId n (tokens ++ [x]) = plainSample next eosTokenId n (tokens ++ [x]) := by
  ext f
  have rest : ∀ sampler : List V → Dist ℚ V,
      (plainSample sampler eosTokenId (n + 1) tokens).expect
        (fun new => if new.head? = some x then f new.tail else 0)
        = (sampler tokens).mass x
          * (plainSample sampler eosTokenId n (tokens ++ [x])).expect f := by
    intro sampler
    simp only [plainSample, Law.expect_bind, Law.expect_draw]
    rw [Finset.sum_eq_single x]
    · simp [goesOn]
    · intro y _ other
      split <;> simp [other, Law.expect_const]
    · intro absent
      exact absurd (Finset.mem_univ x) absent
  have scaled := rest emit
  rw [same, rest, mass_of_plainSample_eq same x] at scaled
  exact (mul_left_cancel₀ possible.ne' scaled).symm

end

/-- Two samplers have the same law exactly if they have the same next token wherever the second can
be. -/
theorem plainSample_eq_iff (emit next : List V → Dist ℚ V) (eosTokenId : Option V) (n : Nat)
    (tokens : List V) :
    plainSample emit eosTokenId n tokens = plainSample next eosTokenId n tokens ↔
      ∀ k < n, ∀ last, Reached next eosTokenId k tokens last →
        ∀ x, (emit last).mass x = (next last).mass x := by
  induction n generalizing tokens with
  | zero => simp [plainSample]
  | succ n ih =>
    constructor
    · intro same k inside last reached
      cases reached with
      | here => exact mass_of_plainSample_eq same
      | after x possible goesOn later =>
        have tail := plainSample_tail_eq same possible goesOn
        exact (ih _).mp tail _ (by omega) last later
    · intro agree
      have first := agree 0 (by omega) tokens (.here tokens)
      ext f
      simp only [plainSample, Law.expect_bind, Law.expect_draw, first]
      apply Finset.sum_congr rfl
      intro x _
      rcases ((next tokens).nonneg x).eq_or_lt with never | possible
      · simp [← never]
      · split
        next => rfl
        next goesOn =>
          have tail := (ih (tokens ++ [x])).mpr fun k inside last later =>
            agree (k + 1) (by omega) last (.after x possible goesOn later)
          rw [tail]

end Agreement

omit [DecidableEq V] in
theorem verifyRound_first (d : SamplingDecoder V) (some_ : generated ≠ []) {k : Nat}
    (drafts : 0 < k) : (fun out => out.1[generated.length]?) <$> d.verifyRound k generated
      = some <$> Law.draw (d.emitted generated) := by
  ext f
  let W : List V → ℚ := fun out =>
    if out.length ≤ generated.length then ∑ x, (d.emitted generated).mass x * f (some x)
    else f out[generated.length]?
  have grows : (interleavedRound d k generated).expect (fun out => f out.1[generated.length]?)
      = (interleavedRound d k generated).expect fun out => W out.1 := by
    apply interleavedRound_sure
    rintro ⟨out, accepted⟩ ⟨more, rfl, -, positive⟩
    have longer : ¬ more.length = 0 := (positive drafts).ne'
    simp [W, longer]
  have mean := interleavedRound_expect d k generated (W := W) fun more _ => by
    cases more with
    | nil => simp [W]
    | cons token more =>
      simp [W, ← Finset.sum_mul, (d.emitted _).total]
  rw [Law.expect_map, verifyRound_eq d k some_, grows, mean]
  simp [W]

/-- Sampled speculative decoding preserves the target's distribution exactly where the draft model
is proportional to the target on the tokens that the target can emit: for the next token of every
round, and for all that is generated. -/
theorem sampled_speculation_iff (d : SamplingDecoder V) (proposes : d.Proposes) :
    (∀ generated ≠ [], ∀ k > 0,
      ((fun out => out.1[generated.length]?) <$> d.verifyRound (k : Nat) generated
          = some <$> Law.draw (d.target generated) ↔
        Dist.ProportionalOn (d.target generated) (d.draft generated))) ∧
    ∀ prompt ≠ [], ∀ n eosTokenId, ∀ fuel > n,
      (Option.map Prod.fst <$> d.sampledGenerate fuel prompt n eosTokenId
          = (fun new => some (prompt ++ new)) <$>
              plainSample d.target (eosTokenId.or d.eosTokenId) n prompt ↔
        ∀ k < n, ∀ tokens, Reached d.target (eosTokenId.or d.eosTokenId) k prompt tokens →
          Dist.ProportionalOn (d.target tokens) (d.draft tokens)) := by
  constructor
  · intro generated some_ k drafts
    rw [verifyRound_first d some_ drafts, ← Dist.resampled_eq_iff, ← Law.draw_eq_iff]
    exact Law.map_eq_map_iff (fun token => token.getD (generated.head some_)) fun _ => rfl
  · intro prompt some_ n eosTokenId fuel enough
    rw [sampledGenerate_eq d proposes some_ n eosTokenId enough,
      Law.map_eq_map_iff (fun out => (out.getD []).drop prompt.length) (by simp),
      plainSample_eq_iff]
    simp only [← Dist.resampled_eq_iff, SpeculativeDecoder.emitted]

def fairToken : Dist ℚ Bool where
  mass _ := 1 / 2
  nonneg _ := by norm_num
  total := by norm_num

def sureToken : Dist ℚ Bool where
  mass x := if x then 1 else 0
  nonneg x := by cases x <;> norm_num
  total := by norm_num

def fairDecoder (draft : Dist ℚ Bool) : SamplingDecoder Bool :=
  .create (fun _ => fairToken) (fun _ => draft) 1 none none 0 none none

/-- A draft model that is sure of one token makes it come out three times in four, where the target
emits it every other time. -/
theorem sure_draft_distorts :
    ((fairDecoder sureToken).verifyRound 1 [true]).expect
        (fun out => if out.1[1]? = some true then 1 else 0) = 3 / 4 ∧
      (Law.draw fairToken).expect (fun token => if token = true then 1 else 0) = 1 / 2 := by
  decide +kernel

/-- A draft model that is the target itself preserves its distribution. -/
theorem same_draft_preserves :
    Option.map Prod.fst <$> (fairDecoder fairToken).sampledGenerate 4 [true] 3 none
      = (fun new => some ([true] ++ new)) <$> plainSample (fun _ => fairToken) none 3 [true] :=
  ((sampled_speculation_iff (fairDecoder fairToken)
    (SpeculativeDecoder.create_proposes _ _ 0 none (by decide) (by simp))).2 [true] (by simp) 3
      none 4 (by decide)).mpr fun _ _ _ _ => ⟨1, fun _ _ => (one_mul _).symm⟩

end DistLLM.Speculative
