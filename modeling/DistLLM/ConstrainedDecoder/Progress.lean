import DistLLM.ConstrainedDecoder.Soundness

/-!
# A way out of every state

What the states reached by allowed bytes have in common, and for each of them a text of allowed
bytes that ends the value it is in. A number is left by a sign: the bytes that could follow it in
JSON are not among those allowed in it.
-/
namespace DistLLM.ConstrainedDecoder

variable {text : List Char}

namespace JSONSchemaFSM

variable {fsm : JSONSchemaFSM} {b : Char}

/-- What `_start_value` sets `_literal_target` to. -/
def literals : List (List Char) := ["true".toList, "false".toList, "null".toList]

def Begun (fsm : JSONSchemaFSM) : Prop :=
  fsm.state = .inLiteral → fsm.literalBuf ≠ [] ∧ fsm.literalTarget ∈ literals

/-- The invariant of the runs of allowed bytes. -/
structure Underway (fsm : JSONSchemaFSM) : Prop where
  consistent : fsm.Consistent
  begun : fsm.Begun

theorem number_signed (sign : b = '+' ∨ b = '-') :
    fsm.number b =
      if fsm.numberStageVal = 3 then fsm else fsm.finishValue.structural b := by
  rcases sign with rfl | rfl <;> simp [number, isDigit]

theorem number_sign (sign : b = '+' ∨ b = '-') (early : fsm.numberStageVal ≠ 3)
    (inside : fsm.stack ≠ []) : fsm.number b = fsm.finishValue := by
  rw [number_signed sign, if_neg early]
  obtain ⟨state, stack, buf, target, esc, generated, stage⟩ := fsm
  cases stack with
  | nil => exact absurd rfl inside
  | cons container stack => cases container <;> rcases sign with rfl | rfl <;> rfl

theorem number_goes (mark : isNumberByte b = true)
    (unsigned : b = '+' ∨ b = '-' → fsm.numberStageVal = 3) :
    ∃ stage, fsm.number b = { fsm with numberStageVal := stage } := by
  simp only [isNumberByte, Bool.or_eq_true, List.mem_cons, List.not_mem_nil, or_false,
    decide_eq_true_eq] at mark
  rcases mark with digit | rfl | rfl | rfl | rfl | rfl
  · rw [number, if_pos (isDigit_of_byte digit)]
    split
    · exact ⟨1, rfl⟩
    · exact ⟨fsm.numberStageVal, rfl⟩
  · exact ⟨2, rfl⟩
  · exact ⟨3, rfl⟩
  · exact ⟨3, rfl⟩
  · exact ⟨fsm.numberStageVal, by rw [number_signed (.inl rfl), if_pos (unsigned (.inl rfl))]⟩
  · exact ⟨fsm.numberStageVal, by rw [number_signed (.inr rfl), if_pos (unsigned (.inr rfl))]⟩

theorem number_cases (here : fsm.state = .inNumber) (inside : fsm.stack ≠ [])
    (allowed : fsm.getAllowedBytes b = true) :
    (∃ stage, fsm.transition b =
        { fsm with generated := fsm.generated ++ [b], numberStageVal := stage }) ∨
      fsm.transition b = finishValue { fsm with generated := fsm.generated ++ [b] } := by
  have mark : isNumberByte b = true := by simpa [getAllowedBytes, here, isNumberByte] using allowed
  have moves : fsm.transition b = number { fsm with generated := fsm.generated ++ [b] } b := by
    simp only [transition, here]
  rw [moves]
  by_cases sign : (b = '+' ∨ b = '-') ∧ fsm.numberStageVal ≠ 3
  · exact .inr (number_sign sign.1 sign.2 inside)
  · refine .inl (number_goes mark fun letter => ?_)
    exact Classical.not_not.mp fun early => sign ⟨letter, early⟩

theorem start_underway : Underway {} := ⟨start_consistent, nofun⟩

theorem Begun.of_other (other : fsm.state ≠ .inLiteral) : fsm.Begun :=
  fun here => absurd here other

theorem finishValue_state (fsm : JSONSchemaFSM) : fsm.finishValue.state ≠ .inLiteral := by
  unfold finishValue
  split <;> simp

theorem startLiteral_begun (target : List Char) (one : target ∈ literals) :
    (fsm.startLiteral target).Begun := by
  refine fun _ => ⟨?_, one⟩
  simp only [literals, List.mem_cons, List.not_mem_nil, or_false] at one
  rcases one with rfl | rfl | rfl <;> simp [startLiteral]

section

variable (other : fsm.state ≠ .inLiteral)

include other

theorem startValue_begun : (fsm.startValue b).Begun := by
  unfold startValue
  -- three of the values are literals
  split_ifs <;>
    first
    | exact startLiteral_begun _ (by simp [literals])
    | exact .of_other other
    | exact .of_other (by simp)

theorem structural_begun : (fsm.structural b).Begun := by
  have stays : fsm.Begun := .of_other other
  have closed : fsm.closeContainer.Begun := .of_other (finishValue_state _)
  have started : (fsm.startValue b).Begun := startValue_begun other
  unfold structural
  split
  · exact stays
  · split <;> (try split_ifs) <;>
      first | exact stays | exact closed | exact started | exact .of_other (by simp)

theorem quoted_begun : (fsm.quoted b).Begun := by
  unfold quoted
  split_ifs <;> exact .of_other (by simp [other])

end

theorem literal_begun (here : fsm.state = .inLiteral) (begun : fsm.Begun) :
    (fsm.literal b).Begun := by
  unfold literal
  simp only
  split
  · exact .of_other (finishValue_state _)
  · exact fun _ => ⟨by simp, (begun here).2⟩

theorem transition_begun (other : fsm.state ≠ .inNumber) (begun : fsm.Begun) :
    (fsm.transition b).Begun := by
  unfold transition
  simp only
  split
  case h_1 here => exact quoted_begun (by simp [here])
  case h_2 here => exact quoted_begun (by simp [here])
  case h_3 here => exact literal_begun here begun
  case h_4 here => exact absurd here other
  case h_5 literal _ => exact structural_begun literal

theorem startsNumber_consistent (consistent : fsm.Consistent) (starts : fsm.StartsNumber b) :
    (fsm.transition b).Consistent := by
  obtain ⟨state, stack, escape⟩ := startsNumber_moves starts
  simp only [Consistent, state, stack, escape]
  rcases starts.1 with here | here <;> simp only [Consistent, here] at consistent <;>
    obtain ⟨⟨stack, opened⟩, unescaped⟩ := consistent <;>
    exact ⟨by simp [opened], unescaped⟩

theorem Underway.step (underway : fsm.Underway) (allowed : fsm.getAllowedBytes b = true) :
    (fsm.transition b).Underway := by
  obtain ⟨consistent, begun⟩ := underway
  by_cases here : fsm.state = .inNumber
  · have context : fsm.stack ≠ [] ∧ fsm.escapeNext = false := by
      simpa only [Consistent, here] using consistent
    rcases number_cases here context.1 allowed with ⟨stage, moves⟩ | moves
    · rw [moves]
      exact ⟨by simpa only [Consistent, here] using context, .of_other (by simp [here])⟩
    · rw [moves]
      exact ⟨(finishValue_spec { fsm with generated := fsm.generated ++ [b] } context.2).1,
        .of_other (finishValue_state _)⟩
  · refine ⟨?_, transition_begun here begun⟩
    by_cases starts : fsm.StartsNumber b
    · exact startsNumber_consistent consistent starts
    · exact (Steps.of_allowed (w := []) consistent here allowed starts).consistent

theorem Underway.feed {text : List Char} (underway : fsm.Underway) (allowed : fsm.Allows text) :
    (fsm.feed text).Underway := by
  induction text generalizing fsm with
  | nil => exact underway
  | cons b text ih => exact ih (underway.step allowed.1) allowed.2

theorem byte_mem {marks : List Char} (member : b ∈ marks) (small : ∀ c ∈ marks, c.toNat < 256) :
    b.toNat < 256 :=
  small b member

theorem byte_blank (blank : isWs b = true) : b.toNat < 256 :=
  byte_mem (of_decide_eq_true blank) (by simp)

theorem byte_mark {marks : List Char} (small : ∀ c ∈ marks, c.toNat < 256)
    (allowed : (decide (b ∈ marks) || isWs b) = true) : b.toNat < 256 :=
  (Bool.or_eq_true_iff.mp allowed).elim (fun mark => small b (of_decide_eq_true mark)) byte_blank

theorem byte_digit (digit : isDigitByte b = true) : b.toNat < 256 := by
  simp only [isDigitByte, Bool.and_eq_true, decide_eq_true_eq] at digit
  omega

theorem byte_letter {escape : Bool}
    (letter : (if escape then isEscapeChar b else isPrintable b) = true) : b.toNat < 256 := by
  cases escape with
  | true => exact byte_mem (of_decide_eq_true letter) (by simp)
  | false =>
    simp only [Bool.false_eq_true, if_false, isPrintable, Bool.and_eq_true,
      decide_eq_true_eq] at letter
    omega

theorem byte_literal {target : List Char} (one : target ∈ literals) (member : b ∈ target) :
    b.toNat < 256 := by
  simp only [literals, List.mem_cons, List.not_mem_nil, or_false] at one
  rcases one with rfl | rfl | rfl <;> exact byte_mem member (by simp)

theorem allowed_byte (underway : fsm.Underway) (allowed : fsm.getAllowedBytes b = true) :
    b.toNat < 256 := by
  obtain ⟨state, stack, buf, target, esc, generated, stage⟩ := fsm
  cases state with
  | start => exact byte_mark (by simp) allowed
  | expectKey => exact byte_mark (by simp) allowed
  | afterValue => exact byte_mark (by simp) allowed
  | afterArrayValue => exact byte_mark (by simp) allowed
  | afterKey =>
    rcases Bool.or_eq_true_iff.mp allowed with colon | blank
    · exact byte_mem (List.mem_singleton.mpr (of_decide_eq_true colon)) (by simp)
    · exact byte_blank blank
  | afterColon =>
    rcases Bool.or_eq_true_iff.mp allowed with mark | digit
    · exact byte_mark (by simp) mark
    · exact byte_digit digit
  | inArray =>
    rcases Bool.or_eq_true_iff.mp allowed with mark | digit
    · exact byte_mark (by simp) mark
    · exact byte_digit digit
  | inNumber =>
    rcases Bool.or_eq_true_iff.mp allowed with digit | mark
    · exact byte_digit digit
    · exact byte_mem (of_decide_eq_true mark) (by simp)
  | inKey => exact byte_letter allowed
  | inString => exact byte_letter allowed
  | inLiteral =>
    have next := (of_decide_eq_true allowed).2.2
    exact byte_literal (underway.begun rfl).2 (List.mem_of_getElem? next)
  | done => exact byte_blank allowed

/-! ### The way out -/

/-- The quotation mark that closes a string, behind what an escape still has to get. -/
def closing (fsm : JSONSchemaFSM) : List Char := if fsm.escapeNext then ['"', '"'] else ['"']

/-- A text that ends the value of the state. -/
def wayOut (fsm : JSONSchemaFSM) : List Char :=
  match fsm.state with
  | .start => ['[', ']']
  | .expectKey => ['\x7d']
  | .inKey => fsm.closing ++ [':', '"', '"']
  | .afterKey => [':', '"', '"']
  | .afterColon => ['"', '"']
  | .inString => fsm.closing
  | .inNumber => ['.', '+']
  | .inArray => [']']
  | .inLiteral => fsm.literalTarget.drop fsm.literalBuf.length
  | .afterValue | .afterArrayValue | .done => []

def LeadsOut (fsm : JSONSchemaFSM) (text : List Char) : Prop :=
  fsm.Allows text ∧ (fsm.feed text).isAccepting = true

theorem finishValue_accepting (fsm : JSONSchemaFSM) : fsm.finishValue.isAccepting = true := by
  unfold finishValue
  split <;> rfl

theorem LeadsOut.cons (allowed : fsm.getAllowedBytes b = true)
    (later : (fsm.transition b).LeadsOut text) : fsm.LeadsOut (b :: text) :=
  ⟨⟨allowed, later.1⟩, later.2⟩

theorem LeadsOut.last (allowed : fsm.getAllowedBytes b = true)
    (ends : (fsm.transition b).isAccepting = true) : fsm.LeadsOut [b] :=
  ⟨⟨allowed, trivial⟩, ends⟩

theorem leadsOut_quote (here : fsm.state = .inString) (unescaped : fsm.escapeNext = false) :
    fsm.LeadsOut ['"'] := by
  obtain ⟨state, stack, buf, target, esc, generated, stage⟩ := fsm
  cases here
  cases unescaped
  refine .last rfl ?_
  -- what is around the string decides which of the two states behind a value it is
  cases stack with
  | nil => rfl
  | cons container stack => cases container <;> rfl

theorem leadsOut_inString (here : fsm.state = .inString) : fsm.LeadsOut fsm.closing := by
  obtain ⟨state, stack, buf, target, esc, generated, stage⟩ := fsm
  cases here
  cases esc with
  | false => exact leadsOut_quote rfl rfl
  | true => exact .cons rfl (leadsOut_quote rfl rfl)

theorem leadsOut_afterColon (here : fsm.state = .afterColon) (unescaped : fsm.escapeNext = false) :
    fsm.LeadsOut ['"', '"'] := by
  obtain ⟨state, stack, buf, target, esc, generated, stage⟩ := fsm
  cases here
  cases unescaped
  exact .cons rfl (leadsOut_quote rfl rfl)

theorem leadsOut_afterKey (here : fsm.state = .afterKey) (unescaped : fsm.escapeNext = false) :
    fsm.LeadsOut [':', '"', '"'] := by
  obtain ⟨state, stack, buf, target, esc, generated, stage⟩ := fsm
  cases here
  cases unescaped
  exact .cons rfl (leadsOut_afterColon rfl rfl)

theorem leadsOut_inKey (here : fsm.state = .inKey) :
    fsm.LeadsOut (fsm.closing ++ [':', '"', '"']) := by
  obtain ⟨state, stack, buf, target, esc, generated, stage⟩ := fsm
  cases here
  cases esc with
  | false => exact .cons rfl (leadsOut_afterKey rfl rfl)
  | true => exact .cons rfl (.cons rfl (leadsOut_afterKey rfl rfl))

theorem leadsOut_inNumber (here : fsm.state = .inNumber) (inside : fsm.stack ≠ []) :
    fsm.LeadsOut ['.', '+'] := by
  obtain ⟨state, stack, buf, target, esc, generated, stage⟩ := fsm
  cases here
  refine .cons rfl (.last rfl ?_)
  -- behind a point a sign ends the number
  have ends : transition ⟨.inNumber, stack, buf, target, esc, generated ++ ['.'], 2⟩ '+' =
      finishValue ⟨.inNumber, stack, buf, target, esc, generated ++ ['.'] ++ ['+'], 2⟩ :=
    number_sign (.inl rfl) (by simp) inside
  exact (congrArg isAccepting ends).trans (finishValue_accepting _)

theorem leadsOut_inLiteral (stack : List Container) (buf : List Char) (rest : List Char)
    (esc : Bool) (generated : List Char) (stage : Nat) (begun : buf ≠ []) :
    LeadsOut ⟨.inLiteral, stack, buf, buf ++ b :: rest, esc, generated, stage⟩ (b :: rest) := by
  have allowed : getAllowedBytes ⟨.inLiteral, stack, buf, buf ++ b :: rest, esc, generated, stage⟩
      b = true := by
    simp [getAllowedBytes, begun]
  induction rest generalizing buf b generated with
  | nil =>
    have moves : transition ⟨.inLiteral, stack, buf, buf ++ [b], esc, generated, stage⟩ b =
        finishValue ⟨.inLiteral, stack, buf ++ [b], buf ++ [b], esc, generated ++ [b], stage⟩ := by
      simp [transition, literal]
    refine .last allowed ?_
    rw [moves]
    exact finishValue_accepting _
  | cons later rest ih =>
    have moves : transition ⟨.inLiteral, stack, buf, buf ++ b :: later :: rest, esc, generated,
        stage⟩ b = ⟨.inLiteral, stack, buf ++ [b], buf ++ [b] ++ later :: rest, esc,
          generated ++ [b], stage⟩ := by
      simp [transition, literal]
    refine .cons allowed ?_
    rw [moves]
    exact ih (buf ++ [b]) (generated ++ [b]) (by simp) (by simp [getAllowedBytes])

theorem wayOut_leadsOut (underway : fsm.Underway) : fsm.LeadsOut fsm.wayOut := by
  obtain ⟨state, stack, buf, target, esc, generated, stage⟩ := fsm
  obtain ⟨consistent, begun⟩ := underway
  cases state with
  | start =>
    obtain ⟨rfl, rfl⟩ := consistent
    exact .cons rfl (.last rfl rfl)
  | expectKey =>
    obtain ⟨⟨stack, rfl⟩, rfl⟩ := consistent
    exact .last rfl (finishValue_accepting _)
  | inKey => exact leadsOut_inKey rfl
  | afterKey => exact leadsOut_afterKey rfl consistent.2
  | afterColon => exact leadsOut_afterColon rfl consistent.2
  | inString => exact leadsOut_inString rfl
  | inNumber => exact leadsOut_inNumber rfl consistent.1
  | inArray =>
    exact .last rfl (finishValue_accepting _)
  | inLiteral =>
    obtain ⟨-, -, next, rest, spelled⟩ := consistent
    simp only at spelled
    subst spelled
    simp only [wayOut, List.drop_left]
    exact leadsOut_inLiteral stack buf rest esc generated stage (begun rfl).1
  | afterValue => exact ⟨trivial, rfl⟩
  | afterArrayValue => exact ⟨trivial, rfl⟩
  | done => exact ⟨trivial, rfl⟩

theorem Allows.bytes (underway : fsm.Underway) (allowed : fsm.Allows text) :
    ∀ b ∈ text, b.toNat < 256 := by
  induction text generalizing fsm with
  | nil => simp
  | cons first text ih =>
    rw [List.forall_mem_cons]
    exact ⟨allowed_byte underway allowed.1, ih (underway.step allowed.1) allowed.2⟩

theorem LeadsOut.live (underway : fsm.Underway) (out : fsm.LeadsOut text) :
    (∃ b : Char, b.toNat < 256 ∧ fsm.getAllowedBytes b = true) ∨ fsm.isAccepting = true := by
  cases text with
  | nil => exact .inr out.2
  | cons b text => exact .inl ⟨b, allowed_byte underway out.1.1, out.1.1⟩

end JSONSchemaFSM

open JSONSchemaFSM

/-- **Decoding cannot get stuck.** Behind every text of allowed bytes some byte is allowed or the
machine accepts, and some text of allowed bytes leads to a state that accepts. -/
theorem decoding_progress (text : List Char) (allowed : Allows {} text) :
    ((∃ b : Char, b.toNat < 256 ∧ (feed {} text).getAllowedBytes b = true) ∨
        (feed {} text).isAccepting = true) ∧
      ∃ more : List Char, (∀ b ∈ more, b.toNat < 256) ∧ (feed {} text).Allows more ∧
        ((feed {} text).feed more).isAccepting = true := by
  have underway := start_underway.feed allowed
  have out := wayOut_leadsOut underway
  exact ⟨out.live underway, _, out.1.bytes underway, out.1, out.2⟩

/-- In the middle of a number. -/
theorem decoding_progress_number : ∃ more : List Char, (∀ b ∈ more, b.toNat < 256) ∧
      (feed {} "\x7b\"a\": [-1".toList).Allows more ∧
      ((feed {} "\x7b\"a\": [-1".toList).feed more).isAccepting = true :=
  (decoding_progress _ (by decide +kernel)).2

end DistLLM.ConstrainedDecoder
