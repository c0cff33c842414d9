import DistLLM.Speculative.Target
import Mathlib.Data.List.Forall2

/-!
# Batch verification and the tokens it appends

`verify_batch` checks the drafts of a batch against the target's logits, and the request pipeline
appends what a result says. Exactly when the two agree on who adds the target's own token.
-/
namespace DistLLM.Speculative

open Library

variable {R : Type} [LinearOrder R]

/-- Target logits of one sequence: a matrix of rows, a batch of which the first matrix is read, or a
tensor of another rank. -/
inductive TargetLogits (R : Type) where
  | flat (rows : List (List R))
  | batched (rows : List (List R))
  | other

/-- What verification reports of a sequence. -/
structure Verification where
  acceptedCount : Nat
  acceptedTokens : List Token
  nextToken : Int
deriving DecidableEq

structure BatchMetrics where
  totalDraftTokens : Nat
  totalAccepted : Nat
  totalSequences : Nat
  steps : Nat
deriving DecidableEq

inductive LoopExit where
  | mismatch (accepted : List Token) (next : Token)
  | endOfText
  | exhausted (accepted : List Token)

/-- The acceptance loop: accept draft tokens while they are the argmax of their rows; an accepted
end-of-text token breaks out. -/
def acceptLoop (eosTokenId : Option Token) :
    List Token → List (List R) → List Token → LoopExit
  | token :: draft, row :: rows, accepted =>
    if argmax row ≠ token then .mismatch accepted (argmax row)
    else if some token = eosTokenId then .endOfText
    else acceptLoop eosTokenId draft rows (accepted ++ [token])
  | _, _, accepted => .exhausted accepted

/-- Verify one sequence against its rows: what is appended to the results, if anything, and what the
totals of draft tokens and of accepted ones grow by. -/
def verifyRows (eosTokenId : Option Token) (draft : List Token) (rows : List (List R)) :
    Option (Option Verification × Nat × Nat) :=
  if draft = [] then
    (rowAt rows (-1)).map fun row => (some ⟨0, [], argmax row⟩, 0, 0)
  else
    match acceptLoop eosTokenId draft rows [] with
    | .mismatch accepted next =>
      some (some ⟨accepted.length, accepted ++ [next], next⟩, draft.length, accepted.length)
    | .endOfText => some (none, 0, 0)
    | .exhausted accepted =>
      (rowAt rows (min draft.length (rows.length - 1))).map fun row =>
        (some ⟨accepted.length, accepted, argmax row⟩, draft.length, accepted.length)

def verifySequence (eosTokenId : Option Token) (draft : List Token) :
    TargetLogits R → Option (Option Verification × Nat × Nat)
  | .flat rows => verifyRows eosTokenId draft rows
  | .batched rows => verifyRows eosTokenId draft rows
  | .other => some (some ⟨0, [], 0⟩, 0, 0)

def verifyAll (eosTokenId : Option Token) :
    List (List Token × TargetLogits R) → Option (List Verification × Nat × Nat)
  | [] => some ([], 0, 0)
  | (draft, logits) :: rest => do
    let (result, drafted, accepted) ← verifySequence eosTokenId draft logits
    let (results, totalDraft, totalAccepted) ← verifyAll eosTokenId rest
    some (result.toList ++ results, drafted + totalDraft, accepted + totalAccepted)

/-- `verify_batch`, with the end-of-text token of the tokenizer if there is one. -/
def verifyBatch (eosTokenId : Option Token) (draftTokensList : List (List Token))
    (targetLogitsList : List (TargetLogits R)) (metrics : BatchMetrics) :
    Option (List Verification × BatchMetrics) :=
  if draftTokensList = [] then some ([], metrics)
  else do
    let (results, totalDraft, totalAccepted) ←
      verifyAll eosTokenId (draftTokensList.zip targetLogitsList)
    some (results,
      { totalDraftTokens := metrics.totalDraftTokens + totalDraft
        totalAccepted := metrics.totalAccepted + totalAccepted
        totalSequences := metrics.totalSequences + results.length
        steps := metrics.steps + 1 })

/-- The positions the appender takes for verified: of a plain matrix all but the last row. -/
def TargetLogits.verificationSteps : TargetLogits R → Nat
  | .batched rows => rows.length
  | .flat rows => rows.length - 1
  | .other => 1

/-- `_speculative_tokens_to_append` of the request pipeline. -/
def speculativeTokensToAppend (logits : TargetLogits R) (result : Verification) : List Token :=
  if result.acceptedCount < logits.verificationSteps ∧ 0 ≤ result.nextToken then
    result.acceptedTokens ++ [result.nextToken.toNat]
  else if result.acceptedTokens = [] ∧ 0 ≤ result.nextToken then [result.nextToken.toNat]
  else result.acceptedTokens

/-- How many leading draft tokens are the argmax of their rows. -/
def agreed (draft : List Token) (rows : List (List R)) : Nat :=
  commonPrefixBy (fun token row => argmax row = token) draft rows

/-- The accepted draft prefix, up to an end-of-text token. -/
def acceptedDraft (eosTokenId : Option Token) (draft : List Token) (rows : List (List R)) :
    List Token :=
  cutAfter (isEos eosTokenId) (draft.take (agreed draft rows))

/-- The accepted draft prefix and at most one more token, the target's own from the row after it;
none after an end-of-text token. -/
def Emits (eosTokenId : Option Token) (draft : List Token) (rows : List (List R))
    (tokens : List Token) : Prop :=
  tokens = acceptedDraft eosTokenId draft rows ∨
    (∀ token ∈ draft.take (agreed draft rows), isEos eosTokenId token = false) ∧
      ∃ row, rows[agreed draft rows]? = some row ∧
        tokens = acceptedDraft eosTokenId draft rows ++ [argmax row]

def TargetLogits.rows : TargetLogits R → List (List R)
  | .flat rows => rows
  | .batched rows => rows
  | .other => []

/-- One logits matrix: a row for each draft token, and possibly one more. -/
def Shaped (draft : List Token) (logits : TargetLogits R) : Prop :=
  (logits = .flat logits.rows ∨ logits = .batched logits.rows) ∧
    (logits.rows.length = draft.length ∨ logits.rows.length = draft.length + 1)

/-- The sequences on which verification and appending agree: no end-of-text token is accepted, an
empty draft has a row, and the draft is accepted whole; or all of it but the last token, from a plain
matrix without an extra row. -/
def Consistent (eosTokenId : Option Token) (draft : List Token) (logits : TargetLogits R) : Prop :=
  (∀ token ∈ draft.take (agreed draft logits.rows), isEos eosTokenId token = false) ∧
    (draft = [] → logits.rows ≠ []) ∧
    (agreed draft logits.rows < draft.length →
      logits = .flat logits.rows ∧ logits.rows.length = draft.length ∧
        agreed draft logits.rows + 1 = draft.length)

section Loop

variable (eosTokenId : Option Token) {draft : List Token} {rows : List (List R)}

omit [LinearOrder R] in
theorem agreed_le [LinearOrder R] (draft : List Token) (rows : List (List R)) :
    agreed draft rows ≤ draft.length :=
  commonPrefixBy_le_left _ _ _

theorem acceptLoop_of_eos (stops : ∃ token ∈ draft.take (agreed draft rows),
    isEos eosTokenId token = true) (accepted : List Token) :
    acceptLoop eosTokenId draft rows accepted = .endOfText := by
  induction draft generalizing rows accepted with
  | nil => simp at stops
  | cons token draft ih =>
    cases rows with
    | nil => simp [agreed, commonPrefixBy] at stops
    | cons row rows =>
      by_cases same : argmax row = token
      · by_cases ends : some token = eosTokenId
        · simp [acceptLoop, same, ends]
        · have later : ∃ token ∈ draft.take (agreed draft rows),
              isEos eosTokenId token = true := by
            simpa [agreed, commonPrefixBy, same, isEos, ends] using stops
          simp [acceptLoop, same, ends, ih later]
      · simp [agreed, commonPrefixBy, same] at stops

theorem acceptLoop_of_quiet (quiet : ∀ token ∈ draft.take (agreed draft rows),
    isEos eosTokenId token = false) (accepted : List Token) :
    acceptLoop eosTokenId draft rows accepted
      = match draft[agreed draft rows]?, rows[agreed draft rows]? with
        | some _, some row => .mismatch (accepted ++ draft.take (agreed draft rows)) (argmax row)
        | _, _ => .exhausted (accepted ++ draft.take (agreed draft rows)) := by
  induction draft generalizing rows accepted with
  | nil => simp [acceptLoop, agreed, commonPrefixBy]
  | cons token draft ih =>
    cases rows with
    | nil => simp [acceptLoop, agreed, commonPrefixBy]
    | cons row rows =>
      by_cases same : argmax row = token
      · have step : agreed (token :: draft) (row :: rows) = agreed draft rows + 1 := by
          simp [agreed, commonPrefixBy, same]
        rw [step] at quiet ⊢
        simp only [List.take_succ_cons, List.mem_cons, forall_eq_or_imp] at quiet
        have goesOn : ¬ some token = eosTokenId := by simpa [isEos] using quiet.1
        simp [acceptLoop, same, goesOn, ih quiet.2]
      · have none : agreed (token :: draft) (row :: rows) = 0 := by
          simp [agreed, commonPrefixBy, same]
        simp [acceptLoop, same, none]

variable {eosTokenId}

theorem acceptedDraft_of_quiet (quiet : ∀ token ∈ draft.take (agreed draft rows),
    isEos eosTokenId token = false) :
    acceptedDraft eosTokenId draft rows = draft.take (agreed draft rows) :=
  cutAfter_eq_self quiet

theorem verifyRows_of_eos (stops : ∃ token ∈ draft.take (agreed draft rows),
    isEos eosTokenId token = true) : verifyRows eosTokenId draft rows = some (none, 0, 0) := by
  have some_ : draft ≠ [] := by
    rintro rfl
    simp at stops
  simp [verifyRows, some_, acceptLoop_of_eos eosTokenId stops]

variable (quiet : ∀ token ∈ draft.take (agreed draft rows), isEos eosTokenId token = false)

include quiet

theorem verifyRows_of_mismatch (differs : agreed draft rows < draft.length)
    (covered : draft.length ≤ rows.length) : ∃ row, rows[agreed draft rows]? = some row ∧
      verifyRows eosTokenId draft rows
        = some (some ⟨agreed draft rows, draft.take (agreed draft rows) ++ [argmax row], argmax row⟩,
          draft.length, agreed draft rows) := by
  have some_ : draft ≠ [] := by
    rintro rfl
    simp at differs
  have token := List.getElem?_eq_getElem differs
  have row := List.getElem?_eq_getElem (Nat.lt_of_lt_of_le differs covered)
  refine ⟨_, row, ?_⟩
  simp [verifyRows, some_, acceptLoop_of_quiet eosTokenId quiet, token, row,
    Nat.min_eq_left (Nat.le_of_lt differs)]

theorem verifyRows_of_whole (whole : agreed draft rows = draft.length) (some_ : draft ≠ [])
    (covered : draft.length ≤ rows.length) :
    ∃ row, (∀ extra, rows[draft.length]? = some extra → extra = row) ∧
      verifyRows eosTokenId draft rows
        = some (some ⟨draft.length, draft, argmax row⟩, draft.length, draft.length) := by
  have positive : 0 < draft.length := List.length_pos_iff.mpr some_
  have inside : (min (draft.length : Int) (rows.length - 1)).toNat < rows.length := by omega
  obtain ⟨row, last⟩ : ∃ row, rows[(min (draft.length : Int) (rows.length - 1)).toNat]? = some row :=
    ⟨_, List.getElem?_eq_getElem inside⟩
  have found : rowAt rows (min draft.length (rows.length - 1)) = some row := by
    rw [rowAt, if_pos (by omega), last]
  refine ⟨row, ?_, ?_⟩
  · intro extra there
    obtain ⟨within, -⟩ := List.getElem?_eq_some_iff.mp there
    have index : (min (draft.length : Int) (rows.length - 1)).toNat = draft.length := by omega
    rw [index, there] at last
    exact Option.some.inj last
  · simp [verifyRows, some_, acceptLoop_of_quiet eosTokenId quiet, whole, found]

end Loop

/-! ### One sequence -/

section Sequence

variable {eosTokenId : Option Token} {draft : List Token} {logits : TargetLogits R}

theorem verifySequence_eq (shaped : Shaped draft logits) :
    verifySequence eosTokenId draft logits = verifyRows eosTokenId draft logits.rows := by
  rcases shaped.1 with same | same <;> rw [same] <;> rfl

section

omit [LinearOrder R]

theorem append_of_ne_nil (count : Nat) {tokens : List Token} (some_ : tokens ≠ []) (next : Token) :
    speculativeTokensToAppend logits ⟨count, tokens, next⟩
      = if count < logits.verificationSteps then tokens ++ [next] else tokens := by
  simp [speculativeTokensToAppend, some_]

theorem append_of_nil (count : Nat) (next : Token) :
    speculativeTokensToAppend logits ⟨count, [], next⟩ = [next] := by
  simp [speculativeTokensToAppend]

theorem verificationSteps_le (logits : TargetLogits R) (shaped : Shaped draft logits) :
    logits.verificationSteps ≤ draft.length + 1 ∧
      (draft.length < logits.verificationSteps → logits.rows.length = draft.length + 1) := by
  obtain ⟨matrix, size⟩ := shaped
  cases logits with
  | flat rows =>
    simp only [TargetLogits.verificationSteps, TargetLogits.rows] at size ⊢
    omega
  | batched rows =>
    simp only [TargetLogits.verificationSteps, TargetLogits.rows] at size ⊢
    omega
  | other => simp at matrix

/-- After a mismatch the appender leaves the result alone only at the last draft token of a plain
matrix without an extra row. -/
theorem not_verified_iff (shaped : Shaped draft logits) {count : Nat}
    (differs : count < draft.length) : ¬ count < logits.verificationSteps ↔
      logits = .flat logits.rows ∧ logits.rows.length = draft.length ∧ count + 1 = draft.length := by
  obtain ⟨matrix, size⟩ := shaped
  cases logits with
  | flat rows =>
    simp only [TargetLogits.verificationSteps, TargetLogits.rows, true_and] at size ⊢
    omega
  | batched rows =>
    simp only [TargetLogits.verificationSteps, TargetLogits.rows, reduceCtorEq, false_and,
      iff_false, not_not] at size ⊢
    omega
  | other => simp at matrix

end

def Agrees (eosTokenId : Option Token) (draft : List Token) (logits : TargetLogits R)
    (result : Verification) : Prop :=
  Emits eosTokenId draft logits.rows (speculativeTokensToAppend logits result)

theorem agrees_of_nil (shaped : Shaped [] logits) : (∃ result drafted accepted,
      verifySequence eosTokenId [] logits = some (some result, drafted, accepted) ∧
        Agrees eosTokenId [] logits result) ↔ logits.rows ≠ [] := by
  rw [verifySequence_eq shaped]
  have size := shaped.2
  generalize same : logits.rows = rows at size
  match rows with
  | [] => simp [verifyRows, rowAt]
  | [row] =>
    have found : rowAt [row] (-1) = some row := rfl
    simp [verifyRows, found, Agrees, append_of_nil, Emits, same, agreed, commonPrefixBy,
      acceptedDraft, cutAfter]
  | _ :: _ :: _ => simp at size

variable (shaped : Shaped draft logits)

include shaped

theorem agrees_of_whole (some_ : draft ≠ [])
    (quiet : ∀ token ∈ draft.take (agreed draft logits.rows), isEos eosTokenId token = false)
    (whole : agreed draft logits.rows = draft.length) : ∃ result drafted accepted,
      verifySequence eosTokenId draft logits = some (some result, drafted, accepted) ∧
        Agrees eosTokenId draft logits result := by
  have covered : draft.length ≤ logits.rows.length := by
    rcases shaped.2 with size | size <;> omega
  obtain ⟨row, extra, verified⟩ := verifyRows_of_whole quiet whole some_ covered
  refine ⟨_, _, _, (verifySequence_eq shaped).trans verified, ?_⟩
  have accepted : acceptedDraft eosTokenId draft logits.rows = draft := by
    rw [acceptedDraft_of_quiet quiet, whole, List.take_length]
  rw [Agrees, append_of_ne_nil _ some_, Emits, accepted]
  split
  next further =>
    right
    refine ⟨quiet, ?_⟩
    have size := (verificationSteps_le logits shaped).2 further
    have there : draft.length < logits.rows.length := by omega
    have found := List.getElem?_eq_getElem there
    rw [whole]
    exact ⟨_, found, by rw [extra _ found]⟩
  next => exact Or.inl rfl

theorem agrees_of_mismatch
    (quiet : ∀ token ∈ draft.take (agreed draft logits.rows), isEos eosTokenId token = false)
    (differs : agreed draft logits.rows < draft.length) : (∃ result drafted accepted,
      verifySequence eosTokenId draft logits = some (some result, drafted, accepted) ∧
        Agrees eosTokenId draft logits result) ↔
      ¬ agreed draft logits.rows < logits.verificationSteps := by
  have covered : draft.length ≤ logits.rows.length := by
    rcases shaped.2 with size | size <;> omega
  obtain ⟨row, found, verified⟩ := verifyRows_of_mismatch quiet differs covered
  rw [verifySequence_eq shaped, verified]
  simp only [Option.some.injEq, Prod.mk.injEq]
  constructor
  · rintro ⟨result, _, _, ⟨rfl, -, -⟩, agrees⟩ further
    -- the target's own token stands twice
    rw [Agrees, append_of_ne_nil _ (by simp), if_pos further, Emits, acceptedDraft_of_quiet quiet]
      at agrees
    rcases agrees with same | ⟨-, other, -, same⟩
    · simpa using congrArg List.length same
    · simpa using congrArg List.length same
  · intro last
    refine ⟨_, _, _, ⟨rfl, rfl, rfl⟩, ?_⟩
    rw [Agrees, append_of_ne_nil _ (by simp), if_neg last, Emits, acceptedDraft_of_quiet quiet]
    exact Or.inr ⟨quiet, row, found, rfl⟩

theorem agrees_iff : (∃ result drafted accepted,
      verifySequence eosTokenId draft logits = some (some result, drafted, accepted) ∧
        Agrees eosTokenId draft logits result) ↔ Consistent eosTokenId draft logits := by
  by_cases quiet : ∀ token ∈ draft.take (agreed draft logits.rows), isEos eosTokenId token = false
  · by_cases none : draft = []
    · subst none
      rw [agrees_of_nil shaped]
      simp [Consistent]
    · rcases Nat.eq_or_lt_of_le (agreed_le draft logits.rows) with whole | differs
      · have consistent : Consistent eosTokenId draft logits :=
          ⟨quiet, fun empty => absurd empty none, fun differs => by omega⟩
        exact iff_of_true (agrees_of_whole shaped none quiet whole) consistent
      · rw [agrees_of_mismatch shaped quiet differs, not_verified_iff shaped differs]
        simp only [Consistent, none, differs, false_implies, true_implies, true_and]
        exact ⟨fun last => ⟨quiet, last⟩, fun consistent => consistent.2⟩
  · -- no result at all
    have stops : ∃ token ∈ draft.take (agreed draft logits.rows), isEos eosTokenId token = true := by
      simpa using quiet
    simp only [verifySequence_eq shaped, verifyRows_of_eos stops, Consistent, quiet, false_and]
    simp

end Sequence

section Batch

variable (eosTokenId : Option Token)

theorem length_of_verifyAll {batch : List (List Token × TargetLogits R)}
    {results : List Verification} {drafted accepted : Nat}
    (verified : verifyAll eosTokenId batch = some (results, drafted, accepted)) :
    results.length ≤ batch.length := by
  induction batch generalizing results drafted accepted with
  | nil =>
    obtain ⟨rfl, -⟩ : [] = results ∧ _ := by simpa [verifyAll] using verified
    simp
  | cons sequence rest ih =>
    simp only [verifyAll, Option.bind_eq_bind, Option.bind_eq_some_iff, Option.some.injEq,
      Prod.mk.injEq] at verified
    obtain ⟨⟨result, _, _⟩, -, ⟨later, _, _⟩, others, rfl, -⟩ := verified
    have fewer := ih others
    cases result with
    | none =>
      simp only [Option.toList_none, List.nil_append, List.length_cons]
      omega
    | some result => simpa using fewer

theorem verifyAll_iff (kind : List Token × TargetLogits R → Verification → Prop)
    (batch : List (List Token × TargetLogits R)) :
    (∃ results drafted accepted, verifyAll eosTokenId batch = some (results, drafted, accepted) ∧
        List.Forall₂ kind batch results) ↔ ∀ sequence ∈ batch, ∃ result drafted accepted,
        verifySequence eosTokenId sequence.1 sequence.2 = some (some result, drafted, accepted) ∧
          kind sequence result := by
  induction batch with
  | nil => simp [verifyAll]
  | cons sequence rest ih =>
    simp only [List.mem_cons, forall_eq_or_imp, ← ih]
    constructor
    · rintro ⟨results, drafted, accepted, verified, kinds⟩
      simp only [verifyAll, Option.bind_eq_bind, Option.bind_eq_some_iff, Option.some.injEq,
        Prod.mk.injEq] at verified
      obtain ⟨⟨result, _, _⟩, first, ⟨later, _, _⟩, others, rfl, -⟩ := verified
      cases result with
      | none =>
        -- a sequence without a result leaves too few of them
        have fewer := length_of_verifyAll eosTokenId others
        have as_many := List.Forall₂.length_eq kinds
        simp only [Option.toList_none, List.nil_append, List.length_cons] at as_many
        omega
      | some result =>
        cases kinds with
        | cons here there => exact ⟨⟨result, _, _, first, here⟩, later, _, _, others, there⟩
    · rintro ⟨⟨result, drafted, accepted, first, here⟩, later, moreDrafted, moreAccepted, others,
        there⟩
      exact ⟨result :: later, drafted + moreDrafted, accepted + moreAccepted,
        by simp [verifyAll, first, others], .cons here there⟩

theorem verifyBatch_iff (draftTokensList : List (List Token))
    (targetLogitsList : List (TargetLogits R)) (metrics : BatchMetrics)
    (P : List Verification → Prop) : (∃ results metrics',
      verifyBatch eosTokenId draftTokensList targetLogitsList metrics = some (results, metrics') ∧
        P results) ↔ ∃ results drafted accepted,
        verifyAll eosTokenId (draftTokensList.zip targetLogitsList)
          = some (results, drafted, accepted) ∧ P results := by
  by_cases none : draftTokensList = []
  · simp [verifyBatch, verifyAll, none]
  · simp only [verifyBatch, none, if_false, Option.bind_eq_bind]
    cases verifyAll eosTokenId (draftTokensList.zip targetLogitsList) with
    | none => simp
    | some verified =>
      obtain ⟨results, drafted, accepted⟩ := verified
      simp

/-- Batch verification returns one result for each sequence in order, each of which appends the
accepted draft prefix and at most the target's own next token, exactly if every sequence is
consistent. -/
theorem verifyBatch_emits_iff {draftTokensList : List (List Token)}
    {targetLogitsList : List (TargetLogits R)} (metrics : BatchMetrics)
    (shaped : List.Forall₂ Shaped draftTokensList targetLogitsList) : (∃ results metrics',
      verifyBatch eosTokenId draftTokensList targetLogitsList metrics = some (results, metrics') ∧
        List.Forall₂ (fun sequence result => Agrees eosTokenId sequence.1 sequence.2 result)
          (draftTokensList.zip targetLogitsList) results) ↔
      ∀ sequence ∈ draftTokensList.zip targetLogitsList,
        Consistent eosTokenId sequence.1 sequence.2 := by
  have each : ∀ sequence ∈ draftTokensList.zip targetLogitsList, Shaped sequence.1 sequence.2 :=
    fun sequence member => (List.forall₂_iff_zip.mp shaped).2 member
  rw [verifyBatch_iff, verifyAll_iff]
  exact forall₂_congr fun sequence member => agrees_iff (each sequence member)

/-- The logits of a target that predicts given tokens, as the local pipeline passes them. -/
def predicts (tokens : List Token) : TargetLogits Nat := .batched (tokens.map favour)

/-- A mismatch emits the target's own token twice, and an accepted end-of-text token leaves its
sequence without a result: the batch has one result for two sequences. -/
theorem correction_twice_and_result_lost :
    (verifyBatch none [[1, 2]] [predicts [1, 3, 0]] ⟨0, 0, 0, 0⟩).map Prod.fst
        = some [⟨1, [1, 3], 3⟩] ∧
      speculativeTokensToAppend (predicts [1, 3, 0]) ⟨1, [1, 3], 3⟩ = [1, 3, 3] ∧
      (verifyBatch (some 2) [[1, 2], [1]] [predicts [1, 2, 0], predicts [1, 0]]
        ⟨0, 0, 0, 0⟩).map Prod.fst = some [⟨1, [1], 0⟩] :=
  ⟨rfl, rfl, rfl⟩

/-- Two drafts the target predicts, one of them empty. -/
theorem whole_drafts_emitted : ∃ results metrics',
      verifyBatch (some 3) [[1, 2], []] [predicts [1, 2, 0], predicts [1]] ⟨0, 0, 0, 0⟩
          = some (results, metrics') ∧
        List.Forall₂ (fun sequence result => Agrees (some 3) sequence.1 sequence.2 result)
          ([[1, 2], []].zip [predicts [1, 2, 0], predicts [1]]) results :=
  (verifyBatch_emits_iff (some 3) ⟨0, 0, 0, 0⟩
    (.cons ⟨Or.inr rfl, Or.inr rfl⟩ (.cons ⟨Or.inr rfl, Or.inr rfl⟩ .nil))).mpr (by
      have whole : agreed [1, 2] [favour 1, favour 2, favour 0] = 2 := rfl
      simp [Consistent, whole, isEos, predicts, TargetLogits.rows])

end Batch

end DistLLM.Speculative
