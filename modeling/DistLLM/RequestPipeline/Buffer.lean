import Mathlib.Data.List.Basic
import Mathlib.Data.Int.Order.Basic

/-!
# The buffer of a generation

The loop of `RequestPipeline.generate` over several nodes, with what drafting, the pipeline, the
verification and the sampling give back in a round as the round's data. The buffer ends where the
context does, and the loop only counts the tokens that were asked for.
-/
namespace DistLLM.RequestPipeline

/-- What is read of a non-empty `model_info`. -/
structure ModelInfo where
  maxPositionEmbeddings : Option Int

structure Request where
  inputIds : List Int
  maxNewTokens : Int
  modelInfo : Option ModelInfo
  maxContextLength : Int
  eosTokenId : Option Int

/-- What the calls of one round give. The last field of a round says whether
`record_generated_tokens` returns. -/
inductive Round
  | raised
  | drafted (targetShape : List Nat) (acceptedCount : Nat) (acceptedTokens : List Int)
      (nextToken : Int) (recorded : Bool)
  | sampled (nextToken : Int) (recorded : Bool)

inductive Status
  | looping
  | ended
  | raised
  deriving DecidableEq

structure Generation where
  /-- The one row of the tensor. -/
  generatedIds : List Int
  genPos : Nat
  step : Nat
  status : Status
  /-- The positions written to so far, whether the row has them or not. -/
  writes : List Nat

def speculativeTokensToAppend (targetShape : List Nat) (acceptedCount : Nat)
    (acceptedTokens : List Int) (nextToken : Int) : List Int :=
  let verificationSteps :=
    match targetShape with
    | [_, steps, _] => steps
    | [rows, _] => rows - 1
    | _ => 1
  if acceptedCount < verificationSteps ∧ 0 ≤ nextToken then acceptedTokens ++ [nextToken]
  else if acceptedTokens = [] ∧ 0 ≤ nextToken then acceptedTokens ++ [nextToken]
  else acceptedTokens

namespace Request

variable (request : Request)

/-- `max_new_tokens`, capped to the model's context window. -/
def newTokens : Int :=
  match request.modelInfo with
  | none => request.maxNewTokens
  | some info =>
    let maxPos := info.maxPositionEmbeddings.getD 4096
    if maxPos ≤ request.maxNewTokens then maxPos - 1 else request.maxNewTokens

def promptLen : Nat := request.inputIds.length

def totalCapacity : Int := min (request.promptLen + request.newTokens) request.maxContextLength

/-- Up to the loop: the row of zeros, and the prompt in front. One token is broadcast, which is how
it fits into no columns, and then nothing is written. -/
def start : Generation :=
  if request.totalCapacity < 0 then
    { generatedIds := [], genPos := 0, step := 0, status := .raised, writes := [] }
  else
    let row := List.replicate request.totalCapacity.toNat 0
    let columns := min request.promptLen row.length
    { generatedIds :=
        if columns = request.promptLen then request.inputIds ++ row.drop columns else row
      genPos := request.promptLen
      step := 0
      status := if columns = request.promptLen ∨ request.promptLen = 1 then .looping else .raised
      writes := List.range (if request.promptLen = 1 then columns else request.promptLen) }

end Request

namespace Generation

variable (request : Request) (g : Generation)

/-- `generated_ids[:, gen_pos] = token_id`, and the position behind it. -/
def write (token : Int) : Generation :=
  let g := { g with writes := g.writes ++ [g.genPos] }
  if g.genPos < g.generatedIds.length then
    { g with generatedIds := g.generatedIds.set g.genPos token, genPos := g.genPos + 1 }
  else { g with status := .raised }

/-- The tokens one after the other, up to the end-of-sequence token. -/
def appendTokens (eosTokenId : Option Int) : Generation → List Int → Generation
  | g, [] => g
  | g, token :: rest =>
    let g := g.write token
    if g.status = .raised then g
    else if some token = eosTokenId then { g with status := .ended }
    else appendTokens eosTokenId g rest

def Loops : Prop := g.status = .looping ∧ (g.step : Int) < request.newTokens

instance : Decidable (g.Loops request) := inferInstanceAs (Decidable (_ ∧ _))

def drafted (tokens : List Int) (recorded : Bool) : Generation :=
  let tokens := tokens.take (request.newTokens - g.step).toNat
  let g := g.appendTokens request.eosTokenId tokens
  if g.status = .looping then
    { g with step := g.step + tokens.length, status := if recorded then .looping else .raised }
  else g

def sampled (token : Int) (recorded : Bool) : Generation :=
  let g := g.write token
  if g.status = .raised then g
  else
    let g := { g with step := g.step + 1 }
    if some token = request.eosTokenId then { g with status := .ended }
    else { g with status := if recorded then .looping else .raised }

def round : Round → Generation
  | .raised => { g with status := .raised }
  | .drafted targetShape acceptedCount acceptedTokens nextToken recorded =>
    g.drafted request
      (speculativeTokensToAppend targetShape acceptedCount acceptedTokens nextToken) recorded
  | .sampled nextToken recorded => g.sampled request nextToken recorded

end Generation

/-- The generation behind so many rounds, or where the loop has stopped before. -/
def Request.run (request : Request) (rounds : Nat → Round) : Nat → Generation
  | 0 => request.start
  | n + 1 =>
    let g := request.run rounds n
    if g.Loops request then g.round request (rounds n) else g

/-! ### Appending -/

def Free (eosTokenId : Option Int) (tokens : List Int) : Prop :=
  ∀ token ∈ tokens, some token ≠ eosTokenId

theorem Free.take {eos : Option Int} {tokens : List Int} (free : Free eos tokens) (n : Nat) :
    Free eos (tokens.take n) :=
  fun token member => free token (List.mem_of_mem_take member)

theorem free_append {eos : Option Int} {left right : List Int} :
    Free eos (left ++ right) ↔ Free eos left ∧ Free eos right := List.forall_mem_append

namespace Generation

variable {request : Request} {g : Generation} {eos : Option Int} {tokens : List Int} {token : Int}

theorem write_inside (inside : g.genPos < g.generatedIds.length) :
    g.write token = { g with
      writes := g.writes ++ [g.genPos], genPos := g.genPos + 1
      generatedIds := g.generatedIds.set g.genPos token } := if_pos inside

theorem write_outside (outside : ¬ g.genPos < g.generatedIds.length) :
    g.write token = { g with writes := g.writes ++ [g.genPos], status := .raised } := if_neg outside

theorem write_writes : (g.write token).writes = g.writes ++ [g.genPos] := by
  by_cases inside : g.genPos < g.generatedIds.length
  · rw [write_inside inside]
  · rw [write_outside inside]

@[simp] theorem write_step : (g.write token).step = g.step := by
  by_cases inside : g.genPos < g.generatedIds.length
  · rw [write_inside inside]
  · rw [write_outside inside]

theorem write_status (looping : g.status = .looping) (unraised : (g.write token).status ≠ .raised) :
    (g.write token).status = .looping := by
  by_cases inside : g.genPos < g.generatedIds.length
  · rw [write_inside inside]
    exact looping
  · rw [write_outside inside] at unraised
    exact absurd rfl unraised

theorem write_genPos (unraised : (g.write token).status ≠ .raised) :
    (g.write token).genPos = g.genPos + 1 := by
  by_cases inside : g.genPos < g.generatedIds.length
  · rw [write_inside inside]
  · rw [write_outside inside] at unraised
    exact absurd rfl unraised

theorem appendTokens_fit (looping : g.status = .looping)
    (fits : g.genPos + tokens.length ≤ g.generatedIds.length) (free : Free eos tokens) :
    (g.appendTokens eos tokens).status = .looping ∧
      (g.appendTokens eos tokens).genPos = g.genPos + tokens.length ∧
      (g.appendTokens eos tokens).step = g.step ∧
      (g.appendTokens eos tokens).generatedIds.length = g.generatedIds.length := by
  induction tokens generalizing g with
  | nil => exact ⟨looping, rfl, rfl, rfl⟩
  | cons token rest ih =>
    rw [List.length_cons] at fits
    have inside : g.genPos < g.generatedIds.length := by omega
    have going : (g.write token).status = .looping := by rw [write_inside inside]; exact looping
    obtain ⟨status, genPos, step, length⟩ := ih (g := g.write token) going
      (by simp only [write_inside inside, List.length_set]; omega)
      fun later member => free later (List.mem_cons_of_mem _ member)
    simp only [appendTokens, going, if_neg (free token List.mem_cons_self), reduceCtorEq, if_false]
    refine ⟨status, genPos.trans ?_, step.trans write_step, length.trans ?_⟩
    · simp only [write_inside inside, List.length_cons]
      omega
    · simp only [write_inside inside, List.length_set]

theorem appendTokens_overflow {j : Nat} (looping : g.status = .looping) (later : j < tokens.length)
    (full : g.genPos + j = g.generatedIds.length) (free : Free eos (tokens.take j)) :
    g.generatedIds.length ∈ (g.appendTokens eos tokens).writes := by
  induction tokens generalizing g j with
  | nil => exact absurd later (Nat.not_lt_zero j)
  | cons token rest ih =>
    cases j with
    | zero =>
      have outside : ¬ g.genPos < g.generatedIds.length := by omega
      simp [appendTokens, write_outside outside, ← full]
    | succ j =>
      have inside : g.genPos < g.generatedIds.length := by omega
      have going : (g.write token).status = .looping := by rw [write_inside inside]; exact looping
      rw [List.take_succ_cons] at free
      have written := ih (g := g.write token) (j := j) going (by simpa using later)
        (by simp only [write_inside inside, List.length_set]; omega)
        fun later member => free later (List.mem_cons_of_mem _ member)
      simp only [appendTokens, going, if_neg (free token List.mem_cons_self), reduceCtorEq,
        if_false]
      simpa only [write_inside inside, List.length_set] using written

theorem appendTokens_first (outside : g.generatedIds.length ≤ g.genPos) (some : tokens ≠ []) :
    g.genPos ∈ (g.appendTokens eos tokens).writes := by
  obtain ⟨token, rest, rfl⟩ := List.exists_cons_of_ne_nil some
  simp [appendTokens, write_outside (Nat.not_lt.mpr outside)]

theorem appendTokens_writes {position : Nat}
    (member : position ∈ (g.appendTokens eos tokens).writes) : position ∈ g.writes ∨
      ∃ j < tokens.length, position = g.genPos + j ∧ Free eos (tokens.take j) := by
  induction tokens generalizing g with
  | nil => exact .inl member
  | cons token rest ih =>
    have first : ∀ {position}, position ∈ (g.write token).writes → position ∈ g.writes ∨
        ∃ j < (token :: rest).length, position = g.genPos + j ∧
          Free eos ((token :: rest).take j) := by
      intro position written
      rw [write_writes, List.mem_append, List.mem_singleton] at written
      refine written.imp_right fun here => ⟨0, by simp, here, ?_⟩
      simp [Free]
    unfold appendTokens at member
    simp only at member
    split_ifs at member with raised ends
    · exact first member
    · exact first member
    · rcases ih member with before | ⟨j, later, rfl, free⟩
      · exact first before
      · refine .inr ⟨j + 1, by simpa using later, ?_, ?_⟩
        · rw [write_genPos raised]
          omega
        · rw [List.take_succ_cons]
          exact List.forall_mem_cons.mpr ⟨ends, free⟩

theorem appendTokens_looping (going : (g.appendTokens eos tokens).status = .looping) :
    Free eos tokens ∧ (g.appendTokens eos tokens).genPos = g.genPos + tokens.length ∧
      (g.appendTokens eos tokens).step = g.step := by
  induction tokens generalizing g with
  | nil => exact ⟨by simp [Free], rfl, rfl⟩
  | cons token rest ih =>
    unfold appendTokens at going ⊢
    simp only at going ⊢
    split_ifs at going ⊢ with raised ends
    · exact absurd (raised.symm.trans going) (by simp)
    · obtain ⟨free, genPos, step⟩ := ih going
      refine ⟨List.forall_mem_cons.mpr ⟨ends, free⟩, genPos.trans ?_, step.trans write_step⟩
      rw [write_genPos raised, List.length_cons]
      omega

end Generation

/-! ### Rounds -/

namespace Round

def tokens : Round → List Int
  | raised => []
  | drafted targetShape acceptedCount acceptedTokens nextToken _ =>
    speculativeTokensToAppend targetShape acceptedCount acceptedTokens nextToken
  | sampled nextToken _ => [nextToken]

def survives : Round → Bool
  | raised => false
  | drafted _ _ _ _ recorded => recorded
  | sampled _ recorded => recorded

end Round

namespace Generation

variable {request : Request} {g : Generation} {r : Round}

/-- The tokens of the round that are still asked for. -/
def wanted (request : Request) (g : Generation) (tokens : List Int) : List Int :=
  tokens.take (request.newTokens - g.step).toNat

theorem wanted_length (tokens : List Int) :
    (g.wanted request tokens).length = min (request.newTokens - g.step).toNat tokens.length :=
  List.length_take

variable {tokens : List Int}

theorem wanted_all
    (later : ((g.step + (g.wanted request tokens).length : Nat) : Int) < request.newTokens) :
    g.wanted request tokens = tokens := by
  rw [wanted_length] at later
  exact List.take_of_length_le (by omega)

/-- Sampling is drafting a single token, but for the count of a token that ends the sequence. -/
theorem sampled_drafted (loops : g.Loops request) (token : Int) (recorded : Bool) :
    (g.sampled request token recorded).writes = (g.drafted request [token] recorded).writes ∧
      ((g.sampled request token recorded).status = .looping ∨
          (g.drafted request [token] recorded).status = .looping →
        g.sampled request token recorded = g.drafted request [token] recorded) := by
  have asked : [token].take (request.newTokens - g.step).toNat = [token] :=
    List.take_of_length_le (by have := loops.2; simp; omega)
  unfold sampled drafted
  simp only [asked, appendTokens]
  by_cases raised : (g.write token).status = .raised
  · simp [raised]
  · have going : (g.write token).status = .looping := write_status loops.1 raised
    by_cases ends : some token = request.eosTokenId
    · simp [going, ends]
    · simp [going, ends]

theorem round_drafted (loops : g.Loops request) (unraised : r ≠ .raised) :
    (g.round request r).writes = (g.drafted request r.tokens r.survives).writes ∧
      ((g.round request r).status = .looping ∨
          (g.drafted request r.tokens r.survives).status = .looping →
        g.round request r = g.drafted request r.tokens r.survives) := by
  cases r with
  | raised => exact absurd rfl unraised
  | drafted shape count accepted next recorded => exact ⟨rfl, fun _ => rfl⟩
  | sampled token recorded => exact sampled_drafted loops token recorded

theorem drafted_writes (tokens : List Int) (recorded : Bool) :
    (g.drafted request tokens recorded).writes =
      (g.appendTokens request.eosTokenId (g.wanted request tokens)).writes := by
  unfold drafted
  simp only
  split <;> rfl

theorem drafted_looping {recorded : Bool}
    (going : (g.drafted request tokens recorded).status = .looping) :
    recorded = true ∧ Free request.eosTokenId (g.wanted request tokens) ∧
      (g.drafted request tokens recorded).genPos = g.genPos + (g.wanted request tokens).length ∧
      (g.drafted request tokens recorded).step = g.step + (g.wanted request tokens).length := by
  unfold drafted at going ⊢
  simp only at going ⊢
  split at going
  next appended =>
    obtain ⟨free, genPos, step⟩ := appendTokens_looping appended
    have kept : recorded = true := by
      cases recorded with
      | true => rfl
      | false => cases going
    rw [if_pos appended]
    exact ⟨kept, free, genPos, congrArg (· + _) step⟩
  next stopped => exact absurd going stopped

theorem round_looping (loops : g.Loops request) (going : (g.round request r).status = .looping) :
    r.survives = true ∧ Free request.eosTokenId (g.wanted request r.tokens) ∧
      (g.round request r).genPos = g.genPos + (g.wanted request r.tokens).length ∧
      (g.round request r).step = g.step + (g.wanted request r.tokens).length := by
  have unraised : r ≠ .raised := by
    rintro rfl
    cases going
  have same := (round_drafted loops unraised).2 (.inl going)
  rw [same] at going ⊢
  exact drafted_looping going

theorem drafted_fit (looping : g.status = .looping)
    (fits : g.genPos + (g.wanted request tokens).length ≤ g.generatedIds.length)
    (free : Free request.eosTokenId (g.wanted request tokens)) :
    (g.drafted request tokens true).status = .looping ∧
      (g.drafted request tokens true).generatedIds.length = g.generatedIds.length := by
  obtain ⟨status, -, -, length⟩ := appendTokens_fit looping fits free
  have moves : g.drafted request tokens true =
      { g.appendTokens request.eosTokenId (g.wanted request tokens) with
        step := (g.appendTokens request.eosTokenId (g.wanted request tokens)).step +
          (g.wanted request tokens).length
        status := .looping } := if_pos status
  rw [moves]
  exact ⟨rfl, length⟩

theorem round_fit (loops : g.Loops request) (survives : r.survives = true)
    (fits : g.genPos + (g.wanted request r.tokens).length ≤ g.generatedIds.length)
    (free : Free request.eosTokenId (g.wanted request r.tokens)) :
    (g.round request r).status = .looping ∧
      (g.round request r).generatedIds.length = g.generatedIds.length := by
  have unraised : r ≠ .raised := by
    rintro rfl
    cases survives
  have fit := drafted_fit loops.1 fits free
  rw [← survives] at fit
  rw [(round_drafted loops unraised).2 (.inr fit.1)]
  exact fit

theorem round_idle (loops : g.Loops request) (survives : r.survives = true) (none : r.tokens = []) :
    g.round request r = g := by
  have unraised : r ≠ .raised := by
    rintro rfl
    cases survives
  have idle : g.drafted request [] true = g := by
    simp only [drafted, List.take_nil, appendTokens, loops.1, if_true, List.length_nil, Nat.add_zero]
    rw [← loops.1]
  rw [(round_drafted loops unraised).2 (.inr (by rw [none, survives, idle]; exact loops.1)), none,
    survives, idle]

theorem round_outside (loops : g.Loops request) (outside : g.generatedIds.length ≤ g.genPos)
    (some : r.tokens ≠ []) : g.genPos ∈ (g.round request r).writes := by
  have unraised : r ≠ .raised := by
    rintro rfl
    exact some rfl
  rw [(round_drafted loops unraised).1, drafted_writes]
  refine appendTokens_first outside fun empty => ?_
  have left := loops.2
  rcases List.take_eq_nil_iff.mp empty with none | none
  · omega
  · exact some none

theorem round_overflow (loops : g.Loops request) {j : Nat}
    (later : j < (g.wanted request r.tokens).length) (full : g.genPos + j = g.generatedIds.length)
    (free : Free request.eosTokenId (r.tokens.take j)) :
    g.generatedIds.length ∈ (g.round request r).writes := by
  have unraised : r ≠ .raised := by
    rintro rfl
    simp [wanted, Round.tokens] at later
  rw [(round_drafted loops unraised).1, drafted_writes]
  refine appendTokens_overflow loops.1 later full ?_
  rw [wanted_length] at later
  rwa [wanted, List.take_take, Nat.min_eq_left (by omega)]

theorem round_writes (loops : g.Loops request) {position : Nat}
    (member : position ∈ (g.round request r).writes) : position ∈ g.writes ∨
      ∃ j < (g.wanted request r.tokens).length, position = g.genPos + j ∧
        Free request.eosTokenId (r.tokens.take j) := by
  by_cases raised : r = .raised
  · subst raised
    exact .inl member
  · rw [(round_drafted loops raised).1, drafted_writes] at member
    refine (appendTokens_writes member).imp_right ?_
    rintro ⟨j, later, here, free⟩
    refine ⟨j, later, here, ?_⟩
    rwa [wanted, List.take_take, Nat.min_eq_left] at free
    rw [wanted_length] at later
    omega

end Generation

/-! ### Runs -/

def offered (rounds : Nat → Round) (n : Nat) : List Int :=
  (List.range n).flatMap fun i => (rounds i).tokens

variable (rounds : Nat → Round) {n : Nat}

@[simp] theorem offered_zero : offered rounds 0 = [] := rfl

theorem offered_succ (n : Nat) :
    offered rounds (n + 1) = offered rounds n ++ (rounds n).tokens := by
  simp [offered, List.range_succ]

namespace Request

variable (request : Request) (rounds : Nat → Round)

/-- Every position written to is below the capacity, and at the end of the row the loop stops. -/
structure StaysInside : Prop where
  inside : ∀ n, ∀ position ∈ (request.run rounds n).writes, (position : Int) < request.totalCapacity
  stops : ∀ n, ((request.run rounds n).genPos : Int) = request.totalCapacity →
    ¬ (request.run rounds n).Loops request

/-- The tokens between the prompt and the end of the context. -/
def room : Nat := (request.maxContextLength - request.promptLen).toNat

/-- The tokens of the rounds go beyond the context: without an end of the sequence or a call that
raises, a round begins behind as many tokens as there is room for, or has one more. -/
def Overruns : Prop :=
  ∃ n, (∀ i < n, (rounds i).survives = true) ∧
    Free request.eosTokenId ((offered rounds (n + 1)).take request.room) ∧
    (request.room ≤ (offered rounds n).length ∨ request.room < (offered rounds (n + 1)).length)

/-- The one token of the prompt is broadcast to no columns. -/
def Vanishes : Prop := request.promptLen = 1 ∧ request.totalCapacity = 0

/-- Tokens are asked for, and a round gives one before a call raises. -/
def Appends : Prop :=
  0 < request.newTokens ∧ ∃ n, (∀ i < n, (rounds i).survives = true) ∧ offered rounds (n + 1) ≠ []

variable {request rounds}

theorem run_succ (loops : (request.run rounds n).Loops request) :
    request.run rounds (n + 1) = (request.run rounds n).round request (rounds n) := if_pos loops

theorem run_stopped (stopped : ¬ (request.run rounds n).Loops request) :
    request.run rounds (n + 1) = request.run rounds n := if_neg stopped

theorem start_spec (made : 0 ≤ request.totalCapacity) :
    request.start.genPos = request.promptLen ∧ request.start.step = 0 := by
  unfold start
  rw [if_neg (by omega)]
  exact ⟨rfl, rfl⟩

theorem start_writes (made : 0 ≤ request.totalCapacity) (kept : ¬ request.Vanishes) :
    request.start.writes = List.range request.promptLen := by
  unfold start
  rw [if_neg (by omega)]
  simp only [List.length_replicate]
  split
  next one =>
    have some : request.totalCapacity ≠ 0 := fun zero => kept ⟨one, zero⟩
    rw [Nat.min_eq_left (by omega)]
  next => rfl

theorem start_vanishes (vanishes : request.Vanishes) : request.start.status = .looping ∧
    request.start.generatedIds = [] ∧ request.start.writes = [] := by
  obtain ⟨one, zero⟩ := vanishes
  simp [start, one, zero]

theorem start_raised (unmade : request.totalCapacity < 0) :
    request.start.status = .raised ∧ request.start.writes = [] := by
  unfold start
  rw [if_pos unmade]
  exact ⟨rfl, rfl⟩

theorem loops_spec (loops : (request.run rounds n).Loops request) :
    (request.run rounds n).step = (offered rounds n).length ∧
      (request.run rounds n).genPos = request.promptLen + (offered rounds n).length ∧
      Free request.eosTokenId (offered rounds n) ∧ ∀ i < n, (rounds i).survives = true := by
  induction n with
  | zero =>
    have made : 0 ≤ request.totalCapacity := by
      by_contra unmade
      have raised := (start_raised (Int.not_le.mp unmade)).1
      exact absurd (raised.symm.trans loops.1) (by simp)
    obtain ⟨genPos, step⟩ := start_spec made
    exact ⟨step, genPos, by simp [Free], by simp⟩
  | succ n ih =>
    by_cases before : (request.run rounds n).Loops request
    · rw [run_succ before] at loops ⊢
      obtain ⟨step, genPos, free, survive⟩ := ih before
      obtain ⟨kept, free', genPos', step'⟩ := Generation.round_looping before loops.1
      -- the loop goes on, so nothing of the round was cut off
      have all := Generation.wanted_all (step' ▸ loops.2)
      rw [all] at free' genPos' step'
      rw [genPos', step', offered_succ, List.length_append]
      refine ⟨by omega, by omega, free_append.mpr ⟨free, free'⟩, fun i earlier => ?_⟩
      rcases Nat.lt_succ_iff_lt_or_eq.mp earlier with earlier | rfl
      · exact survive i earlier
      · exact kept
    · rw [run_stopped before] at loops
      exact absurd loops before

theorem writes_spec {n position : Nat} (member : position ∈ (request.run rounds n).writes) :
    position ∈ request.start.writes ∨
      ∃ k m, position = request.promptLen + k ∧ (k : Int) < request.newTokens ∧
        k < (offered rounds (m + 1)).length ∧
        Free request.eosTokenId ((offered rounds (m + 1)).take k) ∧
        ∀ i < m, (rounds i).survives = true := by
  induction n with
  | zero => exact .inl member
  | succ n ih =>
    by_cases loops : (request.run rounds n).Loops request
    · rw [run_succ loops] at member
      rcases Generation.round_writes loops member with before | ⟨j, later, rfl, free⟩
      · exact ih before
      · obtain ⟨step, genPos, free', survive⟩ := loops_spec loops
        have := loops.2
        rw [Generation.wanted_length] at later
        refine .inr ⟨(offered rounds n).length + j, n, by omega, by omega, ?_, ?_, survive⟩
        · rw [offered_succ, List.length_append]
          omega
        · rw [offered_succ, List.take_length_add_append]
          exact free_append.mpr ⟨free', free⟩
    · rw [run_stopped loops] at member
      exact ih member

theorem staysInside_unmade (unmade : request.totalCapacity < 0) : request.StaysInside rounds := by
  obtain ⟨raised, writes⟩ := start_raised unmade
  have stopped : ¬ request.start.Loops request := fun loops => by
    exact absurd (raised.symm.trans loops.1) (by simp)
  have same : ∀ n, request.run rounds n = request.start := by
    intro n
    induction n with
    | zero => rfl
    | succ n ih => exact (run_stopped (ih ▸ stopped)).trans ih
  refine ⟨fun n position member => ?_, fun n _ => ?_⟩
  · rw [same n, writes] at member
    exact absurd member List.not_mem_nil
  · rw [same n]
    exact stopped

/-- With room for what is asked for, or rounds that stay within the room, no position is outside. -/
theorem staysInside_of (asked : 0 ≤ request.newTokens)
    (fits : (request.promptLen : Int) ≤ request.maxContextLength)
    (room : request.promptLen + request.newTokens ≤ request.maxContextLength ∨
      ¬ request.Overruns rounds) : request.StaysInside rounds := by
  have space : (request.room : Int) = request.maxContextLength - request.promptLen :=
    Int.toNat_of_nonneg (by omega)
  have kept : ¬ request.Vanishes := by
    rintro ⟨one, zero⟩
    rw [totalCapacity] at zero
    omega
  refine ⟨fun n position member => ?_, fun n full loops => ?_⟩
  · rcases writes_spec member with prompt | ⟨k, m, rfl, wanted, later, free, survive⟩ <;>
      rw [totalCapacity]
    · rw [start_writes (by rw [totalCapacity]; omega) kept, List.mem_range] at prompt
      omega
    · rcases room with room | within
      · omega
      · -- a token behind the context would be the rounds' own overrun
        by_contra outside
        have beyond : request.room ≤ k := by omega
        refine within ⟨m, survive, ?_, .inr (by omega)⟩
        have cut := free.take request.room
        rwa [List.take_take, Nat.min_eq_left beyond] at cut
  · obtain ⟨step, genPos, free, survive⟩ := loops_spec loops
    have wanted := loops.2
    rw [totalCapacity] at full
    rcases room with room | within
    · omega
    · refine within ⟨n, survive, ?_, .inl (by omega)⟩
      rw [offered_succ, List.take_append_of_le_length (by omega)]
      exact free.take _

/-- Without columns there is nothing inside, so the rounds may not append. -/
theorem staysInside_vanishes (vanishes : request.Vanishes) :
    request.StaysInside rounds ↔ ¬ request.Appends rounds := by
  obtain ⟨looping, row, writes⟩ := start_vanishes vanishes
  obtain ⟨one, zero⟩ := vanishes
  obtain ⟨genPos, step⟩ := start_spec (Int.le_of_eq zero.symm)
  constructor
  · rintro ⟨inside, -⟩ ⟨asked, n, survive, given⟩
    have loops : request.start.Loops request := ⟨looping, by rw [step]; exact asked⟩
    -- up to the first round that gives a token nothing changes
    have idle : ∀ m ≤ n, offered rounds m = [] → request.run rounds m = request.start := by
      intro m
      induction m with
      | zero => exact fun _ _ => rfl
      | succ m ih =>
        intro before nothing
        obtain ⟨earlier, none⟩ := List.append_eq_nil_iff.mp (offered_succ rounds m ▸ nothing)
        have same := ih (by omega) earlier
        rw [run_succ (same ▸ loops), same,
          Generation.round_idle loops (survive m (by omega)) none]
    have first : ∃ m ≤ n, offered rounds m = [] ∧ (rounds m).tokens ≠ [] := by
      by_contra none
      push Not at none
      have all : ∀ m ≤ n + 1, offered rounds m = [] := by
        intro m
        induction m with
        | zero => exact fun _ => rfl
        | succ m ih =>
          intro before
          have nothing := ih (by omega)
          rw [offered_succ, nothing, none m (by omega) nothing, List.append_nil]
      exact given (all _ (Nat.le_refl _))
    obtain ⟨m, before, nothing, some⟩ := first
    have written := Generation.round_outside loops (by simp [row]) some
    rw [← idle m before nothing] at written
    have := inside (m + 1) _ (run_succ (idle m before nothing ▸ loops) ▸ written)
    omega
  · intro silent
    refine ⟨fun n position member => ?_, fun n full loops => ?_⟩
    · rcases writes_spec member with prompt | ⟨k, m, rfl, wanted, later, -, survive⟩
      · rw [writes] at prompt
        cases prompt
      · exact absurd ⟨by omega, m, survive, List.ne_nil_of_length_pos (by omega)⟩ silent
    · obtain ⟨-, genPos, -, -⟩ := loops_spec loops
      omega

theorem start_fits (fits : (request.promptLen : Int) ≤ request.maxContextLength)
    (short : request.maxContextLength < request.promptLen + request.newTokens) :
    request.start.Loops request ∧
      (request.start.generatedIds.length : Int) = request.totalCapacity := by
  have capacity : request.totalCapacity = request.maxContextLength := by
    rw [totalCapacity]
    omega
  have columns : min request.promptLen (List.replicate request.totalCapacity.toNat (0 : Int)).length
      = request.promptLen := by
    rw [List.length_replicate]
    omega
  unfold start
  rw [if_neg (by omega)]
  simp only [columns, if_true]
  refine ⟨⟨by simp, ?_⟩, ?_⟩
  · simp only
    omega
  · rw [List.length_append, List.length_drop, List.length_replicate]
    have : request.inputIds.length = request.promptLen := rfl
    omega

section
variable (fits : (request.promptLen : Int) ≤ request.maxContextLength)
  (short : request.maxContextLength < request.promptLen + request.newTokens)
include fits short

theorem round_leaves (loops : (request.run rounds n).Loops request)
    (row : ((request.run rounds n).generatedIds.length : Int) = request.totalCapacity)
    (before : (offered rounds n).length ≤ request.room)
    (behind : request.room < (offered rounds (n + 1)).length)
    (free : Free request.eosTokenId ((offered rounds (n + 1)).take request.room)) :
    request.totalCapacity.toNat ∈ (request.run rounds (n + 1)).writes := by
  obtain ⟨step, genPos, -, -⟩ := loops_spec loops
  have space : (request.room : Int) = request.maxContextLength - request.promptLen :=
    Int.toNat_of_nonneg (by omega)
  have full : (request.run rounds n).genPos + (request.room - (offered rounds n).length) =
      (request.run rounds n).generatedIds.length := by
    rw [totalCapacity] at row
    omega
  have wanted := loops.2
  rw [offered_succ] at behind free
  rw [List.length_append] at behind
  have capacity : request.totalCapacity.toNat = (request.run rounds n).generatedIds.length := by
    omega
  rw [capacity, run_succ loops]
  refine Generation.round_overflow loops ?_ full ?_
  · rw [Generation.wanted_length]
    omega
  · rw [List.take_append, List.take_of_length_le before] at free
    exact (free_append.mp free).2

theorem run_fills (survive : ∀ i < n, (rounds i).survives = true)
    (free : Free request.eosTokenId ((offered rounds n).take request.room)) :
    (∃ k, request.totalCapacity.toNat ∈ (request.run rounds k).writes) ∨
      (offered rounds n).length ≤ request.room ∧ (request.run rounds n).Loops request ∧
        ((request.run rounds n).generatedIds.length : Int) = request.totalCapacity := by
  induction n with
  | zero => exact .inr ⟨Nat.zero_le _, start_fits fits short⟩
  | succ n ih =>
    have free' := free
    rw [offered_succ, List.take_append] at free'
    rcases ih (fun i earlier => survive i (by omega)) (free_append.mp free').1 with
      left | ⟨before, loops, row⟩
    · exact .inl left
    · by_cases behind : request.room < (offered rounds (n + 1)).length
      · exact .inl ⟨n + 1, round_leaves fits short loops row before behind free⟩
      · obtain ⟨step, genPos, -, -⟩ := loops_spec loops
        have space : (request.room : Int) = request.maxContextLength - request.promptLen :=
          Int.toNat_of_nonneg (by omega)
        have whole := Nat.not_lt.mp behind
        rw [offered_succ, List.length_append] at behind
        have all : (request.run rounds n).wanted request (rounds n).tokens = (rounds n).tokens :=
          List.take_of_length_le (by omega)
        have tokens : Free request.eosTokenId (rounds n).tokens := by
          rw [List.take_of_length_le whole, offered_succ] at free
          exact (free_append.mp free).2
        have survives := survive n (Nat.lt_succ_self n)
        obtain ⟨status, length⟩ := Generation.round_fit loops survives
          (by rw [totalCapacity] at row; rw [all]; omega) (by rwa [all])
        obtain ⟨-, -, -, step'⟩ := Generation.round_looping loops status
        rw [all] at step'
        rw [run_succ loops, offered_succ, List.length_append]
        refine .inr ⟨by omega, ⟨status, ?_⟩, ?_⟩
        · omega
        · rw [length, row]

theorem overruns_leaves (overruns : request.Overruns rounds) : ¬ request.StaysInside rounds := by
  rintro ⟨inside, stops⟩
  obtain ⟨n, survive, free, more⟩ := overruns
  have free' := free
  rw [offered_succ, List.take_append] at free'
  have outside : ∀ k, request.totalCapacity.toNat ∉ (request.run rounds k).writes := by
    intro k member
    have := inside k _ member
    omega
  rcases run_fills fits short survive (free_append.mp free').1 with ⟨k, left⟩ | ⟨before, loops, row⟩
  · exact outside k left
  · by_cases behind : request.room < (offered rounds (n + 1)).length
    · exact outside (n + 1) (round_leaves fits short loops row before behind free)
    · -- the row is full, and the loop goes on
      obtain ⟨-, genPos, -, -⟩ := loops_spec loops
      have space : (request.room : Int) = request.maxContextLength - request.promptLen :=
        Int.toNat_of_nonneg (by omega)
      refine stops n ?_ loops
      rw [totalCapacity]
      omega

end

end Request

/-- **The buffer of a generation.** Every position written to is below the capacity and the loop
stops at the end of the row if and only if the buffer cannot be made at all, or the prompt fits into
the context and either the tokens asked for do as well or the rounds do not go beyond it, or the
prompt vanishes in a buffer without columns and nothing is appended. -/
theorem generate_staysInside_iff (request : Request) (rounds : Nat → Round) :
    request.StaysInside rounds ↔
      (request.promptLen + request.newTokens < 0 ∨ request.maxContextLength < 0) ∨
        (0 ≤ request.newTokens ∧ (request.promptLen : Int) ≤ request.maxContextLength ∧
          (request.promptLen + request.newTokens ≤ request.maxContextLength ∨
            ¬ request.Overruns rounds)) ∨
        request.Vanishes ∧ ¬ request.Appends rounds := by
  constructor
  · intro stays
    by_cases vanishes : request.Vanishes
    · exact .inr (.inr ⟨vanishes, (Request.staysInside_vanishes vanishes).mp stays⟩)
    by_cases made : request.totalCapacity < 0
    · rw [Request.totalCapacity] at made
      exact .inl (by omega)
    · refine .inr (.inl ?_)
      -- the prompt is copied to the positions below its length
      have copied : (request.promptLen : Int) ≤ request.totalCapacity := by
        by_contra long
        have last := stays.inside 0 request.totalCapacity.toNat (by
          rw [Request.run, Request.start_writes (Int.not_lt.mp made) vanishes, List.mem_range]
          omega)
        omega
      rw [Request.totalCapacity] at copied
      refine ⟨by omega, by omega, Classical.or_iff_not_imp_left.mpr fun short overruns => ?_⟩
      exact Request.overruns_leaves (by omega) (by omega) overruns stays
  · rintro (unmade | ⟨asked, fits, room⟩ | ⟨vanishes, silent⟩)
    · have negative : request.totalCapacity < 0 := by
        rw [Request.totalCapacity]
        omega
      exact Request.staysInside_unmade negative
    · exact Request.staysInside_of asked fits room
    · exact (Request.staysInside_vanishes vanishes).mpr silent

/-- Two tokens fit into the context, and four are asked for with the prompt. -/
theorem context_overrun :
    ¬ Request.StaysInside ⟨[5], 3, none, 2, some 0⟩ fun _ => .sampled 7 true :=
  Request.overruns_leaves (by decide) (by decide)
    ⟨1, fun _ _ => rfl, List.forall_mem_singleton.mpr (by decide), .inl (by decide)⟩

end DistLLM.RequestPipeline
