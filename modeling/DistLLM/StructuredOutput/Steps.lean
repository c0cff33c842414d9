import DistLLM.StructuredOutput.Phases

/-!
# One character

From each phase every character leads to a phase, or is not valid there.
-/
namespace DistLLM.StructuredOutput

open Library JSONSchemaConstraint

section

variable {k : List Marker} {c : Char} {L : List Char → Prop}

theorem spelled_cons {next : Char} {rest s : List Char} :
    Before (Spelled (next :: rest)) L s ↔ Starts next (Before (Spelled rest) L) s := by
  rw [starts_iff]
  constructor
  · rintro ⟨t, rfl, behind⟩
    exact ⟨rest ++ t, rfl, t, rfl, behind⟩
  · rintro ⟨_, rfl, t, rfl, behind⟩
    exact ⟨t, rfl, behind⟩

abbrev Awaits (state : State) : Prop :=
  state ∈ [.objectStart, .afterColon, .arrayStart, .afterArrayComma]

variable {state : State}

theorem value_begins (awaits : Awaits state) (starts : isValueStart c = true) :
    ∃ q : Phase, transition { state := state, stack := k } c = q.config ∧
      Quoting.outside.next c = q.quoting ∧ ∀ s, ValueIn k (c :: s) ↔ q.expects s := by
  have outside : state = .objectStart ∨ state = .afterColon ∨ state = .arrayStart ∨
      state = .afterArrayComma := by simpa [Awaits] using awaits
  simp only [isValueStart, Bool.or_eq_true, decide_eq_true_eq] at starts
  obtain starts | number := starts
  · have letter : c = '"' ∨ c = '[' ∨ c = '{' ∨ c = 't' ∨ c = 'f' ∨ c = 'n' := by
      simpa using starts
    obtain rfl | rfl | rfl | rfl | rfl | rfl := letter
    · refine ⟨.string false k, ?_, rfl, fun s => ?_⟩
      · obtain rfl | rfl | rfl | rfl := outside <;> rfl
      · exact (valueIn_of_closed rfl).trans closed_quote
    · refine ⟨.arrayStart k, ?_, rfl, fun s => ?_⟩
      · obtain rfl | rfl | rfl | rfl := outside <;> rfl
      · refine (valueIn_of_closed rfl).trans (closed_bracket.trans (before_congr fun t => ?_))
        exact or_congr_right valueIn_array.symm
    · refine ⟨.afterOpenBrace k, ?_, rfl, fun s => ?_⟩
      · obtain rfl | rfl | rfl | rfl := outside <;> rfl
      · refine (valueIn_of_closed rfl).trans (closed_brace.trans (before_congr fun t => ?_))
        exact or_congr_right starts_key.symm
    · refine ⟨.literal 'r' ['u', 'e'] k (by decide), ?_, rfl, fun s => ?_⟩
      · obtain rfl | rfl | rfl | rfl := outside <;> rfl
      · exact (valueIn_of_closed rfl).trans ((closed_literal .true).trans spelled_cons)
    · refine ⟨.literal 'a' ['l', 's', 'e'] k (by decide), ?_, rfl, fun s => ?_⟩
      · obtain rfl | rfl | rfl | rfl := outside <;> rfl
      · exact (valueIn_of_closed rfl).trans ((closed_literal .false).trans spelled_cons)
    · refine ⟨.literal 'u' ['l', 'l'] k (by decide), ?_, rfl, fun s => ?_⟩
      · obtain rfl | rfl | rfl | rfl := outside <;> rfl
      · exact (valueIn_of_closed rfl).trans ((closed_literal .null).trans spelled_cons)
  · -- none of the characters that open, close or separate anything begins a number
    have plain : isWs c = false ∧
        c ∉ ['"', '{', '}', ':', ',', '[', ']', 't', 'f', 'n'] := by
      apply numberStart_ne number
      decide
    simp only [List.mem_cons, List.not_mem_nil, or_false, not_or] at plain
    refine ⟨.number k, ?_, ?_, fun s => valueIn_of_number number⟩
    · obtain rfl | rfl | rfl | rfl := outside <;>
        simp [transition, structural, plain, number, Phase.config]
    · simp [Quoting.next, Phase.quoting, plain]

/-! ### Between the tokens -/

theorem token_step {p : Phase} (token : Char → Bool)
    (config : p.config = { state := state, stack := k }) (moves : state ≠ .done ∧ state ≠ .inNumber)
    (valid : p.config.validNextChars c = (token c || isWs c)) (outside : p.quoting = .outside)
    (expects : p.expects = Before Ws L) (apart : [' ', '\t', '\n', '\r'].all (!token ·) = true)
    (each : token c = true → ∃ q : Phase, transition { state := state, stack := k } c = q.config ∧
      Quoting.outside.next c = q.quoting ∧ ∀ s, L (c :: s) ↔ q.expects s)
    (other : token c = false → ∀ s, ¬ L (c :: s)) : (∃ q, Advances p c q) ∨ Stuck p c := by
  cases space : isWs c with
  | true =>
    -- whitespace leaves the phase as it is
    refine .inl ⟨p, by simp [valid, space], ?_, ?_, fun s => ?_⟩
    · simp [config, transition, structural, space, moves]
    · rw [outside]
      obtain rfl | rfl | rfl | rfl := isWs_iff.mp space <;> rfl
    · have untaken : token c = false := by
        simpa using List.all_eq_true.mp apart c (of_decide_eq_true space)
      rw [expects]
      exact before_skips_cons space (other untaken s)
  | false =>
    have next (s : List Char) : p.expects (c :: s) ↔ L (c :: s) := by
      rw [expects]
      exact before_skips_cons_of_not space
    cases taken : token c with
    | true =>
      obtain ⟨q, transition, quoting, same⟩ := each taken
      refine .inl ⟨q, by simp [valid, taken], by rw [config, transition], ?_, fun s => ?_⟩
      · rw [outside, quoting]
      · exact (next s).trans (same s)
    | false =>
      refine .inr ⟨by simp [valid, taken, space], fun s => ?_⟩
      rw [next]
      exact other taken s

theorem value_step {p : Phase} (awaits : Awaits state)
    (config : p.config = { state := state, stack := k })
    (valid : p.config.validNextChars c = (isValueStart c || isWs c))
    (outside : p.quoting = .outside) (expects : p.expects = Before Ws (ValueIn k)) :
    (∃ q, Advances p c q) ∨ Stuck p c := by
  have moves : state ≠ .done ∧ state ≠ .inNumber := by
    constructor <;> rintro rfl <;> simp [Awaits] at awaits
  exact token_step isValueStart config moves valid outside expects (by decide)
    (value_begins awaits) fun other s => not_valueIn other

theorem start_step : (∃ q, Advances .start c q) ∨ Stuck .start c :=
  value_step (by decide) rfl rfl rfl rfl

theorem afterColon_step : (∃ q, Advances (.afterColon k) c q) ∨ Stuck (.afterColon k) c :=
  value_step (by decide) rfl rfl rfl rfl

theorem afterArrayComma_step :
    (∃ q, Advances (.afterArrayComma k) c q) ∨ Stuck (.afterArrayComma k) c :=
  value_step (by decide) rfl rfl rfl rfl

theorem arrayStart_step : (∃ q, Advances (.arrayStart k) c q) ∨ Stuck (.arrayStart k) c := by
  refine token_step (fun d => isValueStart d || decide (d = ']')) rfl (by decide)
    rfl rfl rfl (by decide) ?_ ?_
  · intro token
    cases starts : isValueStart c with
    | true =>
      obtain ⟨q, transition, quoting, same⟩ :=
        value_begins (k := .array :: k) (by decide : Awaits .arrayStart) starts
      refine ⟨q, transition, quoting, fun s => ?_⟩
      have bracket : c ≠ ']' := by
        rintro rfl
        exact absurd starts (by decide)
      simp [bracket, same]
    | false =>
      obtain rfl : c = ']' := by simpa [starts] using token
      exact ⟨.ended k, rfl, rfl, fun s => by simp [not_valueIn starts, Phase.expects]⟩
  · intro other s
    simp only [Bool.or_eq_false_iff, decide_eq_false_iff_not] at other
    simp [other.2, not_valueIn other.1]

theorem afterOpenBrace_step :
    (∃ q, Advances (.afterOpenBrace k) c q) ∨ Stuck (.afterOpenBrace k) c := by
  refine token_step (fun d => decide (d ∈ ['"', '}'])) rfl (by decide)
    rfl rfl rfl (by decide) ?_ ?_
  · intro token
    obtain rfl | rfl : c = '"' ∨ c = '}' := by simpa using token
    · exact ⟨.key false k, rfl, rfl, fun s => by simp [Phase.expects]⟩
    · exact ⟨.ended k, rfl, rfl, fun s => by simp [Phase.expects]⟩
  · intro other s
    simp only [List.mem_cons, List.not_mem_nil, or_false, not_or, decide_eq_false_iff_not] at other
    simp [other]

theorem afterComma_step : (∃ q, Advances (.afterComma k) c q) ∨ Stuck (.afterComma k) c := by
  refine token_step (fun d => decide (d = '"')) rfl (by decide)
    rfl rfl rfl (by decide) ?_ ?_
  · intro token
    obtain rfl : c = '"' := by simpa using token
    exact ⟨.key false k, rfl, rfl, fun s => by simp [Phase.expects]⟩
  · intro other s
    simp only [decide_eq_false_iff_not] at other
    simp [other]

theorem afterKey_step : (∃ q, Advances (.afterKey k) c q) ∨ Stuck (.afterKey k) c := by
  refine token_step (fun d => decide (d = ':')) rfl (by decide)
    rfl rfl rfl (by decide) ?_ ?_
  · intro token
    obtain rfl : c = ':' := by simpa using token
    exact ⟨.afterColon k, rfl, rfl, fun s => by simp [Phase.expects]⟩
  · intro other s
    simp only [decide_eq_false_iff_not] at other
    simp [other]

theorem more_elements {s : List Char} :
    Before Ws (Before (Json .elements) (After k)) s ↔ (Phase.afterArrayComma k).expects s :=
  before_congr fun _ => valueIn_array.symm

theorem more_members {s : List Char} :
    Before Ws (Before (Json .members) (After k)) s ↔ (Phase.afterComma k).expects s :=
  before_congr fun _ => starts_key.symm

theorem ended_step : (∃ q, Advances (.ended k) c q) ∨ Stuck (.ended k) c := by
  match k with
  | [] =>
    -- the document is complete: nothing may follow
    exact .inr ⟨rfl, fun s => List.cons_ne_nil c s⟩
  | .array :: k =>
    refine token_step (fun d => decide (d ∈ [',', ']'])) rfl
      (by simp [enclosingAfterValue]) rfl rfl rfl (by decide) ?_ ?_
    · intro token
      obtain rfl | rfl : c = ',' ∨ c = ']' := by simpa using token
      · exact ⟨.afterArrayComma k, rfl, rfl, fun s => by simp [GoesOn, more_elements]⟩
      · exact ⟨.ended k, rfl, rfl, fun s => by simp [GoesOn, Phase.expects]⟩
    · intro other s
      simp only [List.mem_cons, List.not_mem_nil, or_false, not_or, decide_eq_false_iff_not]
        at other
      simp [GoesOn, other]
  | .object :: k =>
    refine token_step (fun d => decide (d ∈ [',', '}'])) rfl
      (by simp [enclosingAfterValue]) rfl rfl rfl (by decide) ?_ ?_
    · intro token
      obtain rfl | rfl : c = ',' ∨ c = '}' := by simpa using token
      · exact ⟨.afterComma k, rfl, rfl, fun s => by simp [GoesOn, more_members]⟩
      · exact ⟨.ended k, rfl, rfl, fun s => by simp [GoesOn, Phase.expects]⟩
    · intro other s
      simp only [List.mem_cons, List.not_mem_nil, or_false, not_or, decide_eq_false_iff_not]
        at other
      simp [GoesOn, other]

theorem numberChar_ne {P : Char → Prop} [DecidablePred P] (digit : isNumberChar c = true)
    (each : ['0', '1', '2', '3', '4', '5', '6', '7', '8', '9', '.', 'e', 'E', '+', '-'].all
      (decide <| P ·) = true) : P c :=
  of_decide_eq_true (List.all_eq_true.mp each c (of_decide_eq_true digit))

theorem digit_step (digit : isNumberChar c = true) : Advances (.number k) c (.number k) := by
  have plain : isWs c = false ∧ c ∉ ['"', '{', '}', ':', ',', '[', ']'] := by
    apply numberChar_ne digit
    decide
  simp only [List.mem_cons, List.not_mem_nil, or_false, not_or] at plain
  refine ⟨?_, ?_, ?_, fun s => before_skips_cons digit ?_⟩
  · simp [Phase.config, validNextChars, digit]
  · simp [Phase.config, transition, structural, plain]
  · simp [Phase.quoting, Quoting.next, plain]
  · match k with
    | [] => simp [AfterNumber, plain]
    | .array :: k => simp [AfterNumber, After, before_skips_cons_of_not, GoesOn, plain]
    | .object :: k => simp [AfterNumber, After, before_skips_cons_of_not, GoesOn, plain]

theorem number_ends {marker : Marker} (other : isNumberChar c = false) :
    (∃ q, Advances (.number (marker :: k)) c q) ∨ Stuck (.number (marker :: k)) c := by
  have expects (s : List Char) :
      (Phase.number (marker :: k)).expects (c :: s)
        ↔ (Phase.ended (marker :: k)).expects (c :: s) :=
    before_skips_cons_of_not other
  have valid : (Phase.number (marker :: k)).config.validNextChars c
      = (Phase.ended (marker :: k)).config.validNextChars c := by
    cases marker <;>
      simp [Phase.config, validNextChars, enclosingAfterValue, other, Bool.or_comm]
  obtain ⟨q, advances⟩ | stuck := ended_step (k := marker :: k) (c := c)
  · refine .inl ⟨q, by rw [valid, advances.valid], ?_, advances.quoting, fun s => ?_⟩
    · rw [← advances.transition]
      have token := advances.valid
      cases marker with
      | array =>
        have letter : (c = ',' ∨ c = ']') ∨ isWs c = true := by
          simpa [Phase.config, validNextChars, enclosingAfterValue] using token
        obtain (rfl | rfl) | space := letter
        · rfl
        · rfl
        · simp [Phase.config, transition, structural, valueEnded, enclosingAfterValue, space]
      | object =>
        have letter : (c = ',' ∨ c = '}') ∨ isWs c = true := by
          simpa [Phase.config, validNextChars, enclosingAfterValue] using token
        obtain (rfl | rfl) | space := letter
        · rfl
        · rfl
        · simp [Phase.config, transition, structural, valueEnded, enclosingAfterValue, space]
    · rw [expects, advances.expects]
  · exact .inr ⟨by rw [valid, stuck.valid], fun s => by rw [expects]; exact stuck.expects s⟩

theorem number_step : (∃ q, Advances (.number k) c q) ∨ Stuck (.number k) c := by
  cases digit : isNumberChar c with
  | true => exact .inl ⟨_, digit_step digit⟩
  | false =>
    match k with
    | marker :: k => exact number_ends digit
    | [] =>
      have next (s : List Char) : (Phase.number []).expects (c :: s) ↔ AfterNumber [] (c :: s) :=
        before_skips_cons_of_not digit
      cases space : isWs c with
      | true =>
        refine .inl ⟨.ended [], ?_, ?_, ?_, fun s => ?_⟩
        · simp [Phase.config, validNextChars, space]
        · simp [Phase.config, transition, structural, valueEnded, space]
        · obtain rfl | rfl | rfl | rfl := isWs_iff.mp space <;> rfl
        · rw [next]
          simp [AfterNumber, Phase.expects, After, space]
      | false =>
        refine .inr ⟨by simp [Phase.config, validNextChars, digit, space], fun s => ?_⟩
        rw [next]
        simp [AfterNumber, space]

theorem literal_step {next : Char} {rest : List Char} (letters : '"' ∉ next :: rest) :
    (∃ q, Advances (.literal next rest k letters) c q) ∨
      Stuck (.literal next rest k letters) c := by
  by_cases same : c = next
  · subst same
    simp only [List.mem_cons, not_or] at letters
    left
    match rest with
    | [] =>
      exact ⟨.ended k, by simp [Phase.config, validNextChars],
        by simp [Phase.config, transition],
        by simp [Phase.quoting, Quoting.next, Ne.symm letters.1],
        fun s => by simp [Phase.expects, Before, Spelled]⟩
    | d :: rest =>
      exact ⟨.literal d rest k letters.2, by simp [Phase.config, validNextChars],
        by simp [Phase.config, transition],
        by simp [Phase.quoting, Quoting.next, Ne.symm letters.1],
        fun s => by simp [Phase.expects, spelled_cons]⟩
  · exact .inr ⟨by simp [Phase.config, validNextChars, same],
      fun s => by simp [Phase.expects, same]⟩

/-- Of the characters a text may consist of, a string admits those that JSON admits and the tab. -/
theorem isStringChar_eq (letter : isAscii c = true ∨ isWs c = true) (tab : c ≠ '\t') :
    isStringChar c = isUnescaped c := by
  obtain ascii | space := letter
  · have low : ' ' ≤ c := (of_decide_eq_true ascii).1
    simp [isStringChar, ascii, isUnescaped, low]
  · obtain rfl | rfl | rfl | rfl := isWs_iff.mp space
    · rfl
    · exact absurd rfl tab
    · rfl
    · rfl

theorem inString_step (p : Bool → Phase) (behind : Phase)
    (config : ∀ escaped, (p escaped).config =
      { state := state, stack := k, inString := true, escapeNext := escaped })
    (inside : (p false).quoting = .inside) (escaping : (p true).quoting = .escaped)
    (moves : state ≠ .done) (expects : ∀ escaped, (p escaped).expects = InString escaped L)
    (closes : (p false).config.transition '"' = behind.config) (outside : behind.quoting = .outside)
    (rest : behind.expects = L) (letter : isAscii c = true ∨ isWs c = true) (tab : c ≠ '\t')
    (escaped : Bool) :
    (∃ q, Advances (p escaped) c q) ∨ Stuck (p escaped) c := by
  have valid : (p escaped).config.validNextChars c = isUnescaped c := by
    simp [config, validNextChars, isStringChar_eq letter tab]
  cases escaped with
  | true =>
    cases unescaped : isUnescaped c with
    | true =>
      refine .inl ⟨p false, by rw [valid, unescaped], ?_, ?_, fun s => ?_⟩
      · simp [config, transition, moves]
      · rw [inside, escaping]
        rfl
      · simp [expects, InString, unescaped]
    | false =>
      exact .inr ⟨by rw [valid, unescaped], fun s => by simp [expects, InString, unescaped]⟩
  | false =>
    by_cases quote : c = '"'
    · subst quote
      refine .inl ⟨behind, valid, closes, ?_, fun s => ?_⟩
      · rw [inside, outside]
        rfl
      · rw [expects, rest, inString_quote]
    · by_cases backslash : c = '\\'
      · subst backslash
        refine .inl ⟨p true, valid, ?_, ?_, fun s => ?_⟩
        · simp [config, transition, moves]
        · rw [inside, escaping]
          rfl
        · rw [expects, expects, inString_backslash]
      · cases unescaped : isUnescaped c with
        | true =>
          refine .inl ⟨p false, by rw [valid, unescaped], ?_, ?_, fun s => ?_⟩
          · simp [config, transition, moves, quote, backslash]
          · rw [inside]
            simp [Quoting.next, quote, backslash]
          · simp [expects, inString_plain quote backslash, unescaped]
        | false =>
          refine .inr ⟨by rw [valid, unescaped], fun s => ?_⟩
          simp [expects, inString_plain quote backslash, unescaped]

section

variable (letter : isAscii c = true ∨ isWs c = true) (tab : c ≠ '\t') (escaped : Bool)

include letter tab escaped

theorem string_step :
    (∃ q, Advances (.string escaped k) c q) ∨ Stuck (.string escaped k) c :=
  inString_step (.string · k) (.ended k) (fun _ => rfl) rfl rfl nofun (fun _ => rfl) rfl rfl rfl
    letter tab escaped

theorem key_step :
    (∃ q, Advances (.key escaped k) c q) ∨ Stuck (.key escaped k) c :=
  inString_step (.key · k) (.afterKey k) (fun _ => rfl) rfl rfl nofun (fun _ => rfl) rfl rfl rfl
    letter tab escaped

end

theorem phase_step (p : Phase) (letter : isAscii c = true ∨ isWs c = true)
    (tab : p.quoting = .outside ∨ c ≠ '\t') : (∃ q, Advances p c q) ∨ Stuck p c := by
  cases p with
  | start => exact start_step
  | afterColon k => exact afterColon_step
  | afterArrayComma k => exact afterArrayComma_step
  | arrayStart k => exact arrayStart_step
  | afterOpenBrace k => exact afterOpenBrace_step
  | afterComma k => exact afterComma_step
  | key escaped k =>
    exact key_step letter (tab.resolve_left (by cases escaped <;> nofun)) escaped
  | afterKey k => exact afterKey_step
  | string escaped k =>
    exact string_step letter (tab.resolve_left (by cases escaped <;> nofun)) escaped
  | literal next rest k letters => exact literal_step letters
  | number k => exact number_step
  | ended k => exact ended_step

end

end DistLLM.StructuredOutput
