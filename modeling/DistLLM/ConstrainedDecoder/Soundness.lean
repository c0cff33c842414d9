import DistLLM.ConstrainedDecoder.Fsm
import DistLLM.Library.Json

/-!
# The texts of the JSON machine

What has to follow in each state for the text to become JSON. A byte that the machine allows leads
to the state that expects the rest, but for the bytes it takes without looking: in a number, behind
a comma, behind the `u` of an escape, and a bracket behind a member.
-/
namespace DistLLM.ConstrainedDecoder

open DistLLM.Library DistLLM.Library.Json
open DistLLM.Library.Json (IsText Follows Form FourHex nextMark Solid)

namespace JSONSchemaFSM

open DistLLM.Library.Json.Symbol DistLLM.Library.Sym

variable {fsm : JSONSchemaFSM} {b : Char} {w : List Char}

/-- Behind a value, with these containers open. -/
def behind : List Container → Form
  | [] => [nt ws]
  | .object :: stack => nt ws :: nt moreMembers :: behind stack
  | .array :: stack => nt ws :: nt moreElements :: behind stack

/-- The rest of a string, with or without a backslash before it. -/
def inQuotes (escapeNext : Bool) : Sym Json.Symbol Char := if escapeNext then nt escape else nt chars

/-- What has to follow in a state. The number state is not among them: no text that leaves it is
JSON. -/
def expects (fsm : JSONSchemaFSM) : Form :=
  match fsm.state with
  | .start => [nt ws, nt value, nt ws]
  | .expectKey => nt ws :: nt objectBody :: behind fsm.stack.tail
  | .inKey => inQuotes fsm.escapeNext :: nt ws :: chr ':' :: nt ws :: nt value :: behind fsm.stack
  | .afterKey => nt ws :: chr ':' :: nt ws :: nt value :: behind fsm.stack
  | .afterColon => nt ws :: nt value :: behind fsm.stack
  | .inString => inQuotes fsm.escapeNext :: behind fsm.stack
  | .inArray => nt ws :: nt arrayBody :: behind fsm.stack.tail
  | .inLiteral => spell (fsm.literalTarget.drop fsm.literalBuf.length) ++ behind fsm.stack
  | .afterValue | .afterArrayValue | .done | .inNumber => behind fsm.stack

def Consistent (fsm : JSONSchemaFSM) : Prop :=
  match fsm.state with
  | .start | .done => fsm.stack = [] ∧ fsm.escapeNext = false
  | .expectKey | .afterKey | .afterColon | .afterValue =>
    (∃ stack, fsm.stack = .object :: stack) ∧ fsm.escapeNext = false
  | .inArray | .afterArrayValue => (∃ stack, fsm.stack = .array :: stack) ∧ fsm.escapeNext = false
  | .inKey => ∃ stack, fsm.stack = .object :: stack
  | .inString => fsm.stack ≠ []
  | .inNumber => fsm.stack ≠ [] ∧ fsm.escapeNext = false
  | .inLiteral => fsm.stack ≠ [] ∧ fsm.escapeNext = false ∧
    ∃ b rest, fsm.literalTarget = fsm.literalBuf ++ b :: rest

def StartsNumber (fsm : JSONSchemaFSM) (b : Char) : Prop :=
  (fsm.state = .afterColon ∨ fsm.state = .inArray) ∧ (b = '-' ∨ isDigitByte b = true)

/-- No number begins, no bracket closes an object, no closing bracket is next behind a comma, and
four hexadecimal digits are next behind `\u`. -/
structure Careful (fsm : JSONSchemaFSM) (b : Char) (w : List Char) : Prop where
  numberless : ¬ fsm.StartsNumber b
  straight : fsm.state = .afterValue → b ≠ ']'
  memberNext : fsm.state = .afterValue → b = ',' → nextMark w ≠ some '}'
  elementNext : fsm.state = .afterArrayValue → b = ',' → nextMark w ≠ some ']'
  hexNext : fsm.escapeNext = true → b = 'u' → FourHex w

instance (fsm : JSONSchemaFSM) (b : Char) : Decidable (fsm.StartsNumber b) :=
  inferInstanceAs (Decidable ((_ ∨ _) ∧ (_ ∨ _)))

instance (fsm : JSONSchemaFSM) (b : Char) (w : List Char) : Decidable (fsm.Careful b w) :=
  decidable_of_iff (¬ fsm.StartsNumber b ∧ (fsm.state = .afterValue → b ≠ ']') ∧
      (fsm.state = .afterValue → b = ',' → nextMark w ≠ some '}') ∧
      (fsm.state = .afterArrayValue → b = ',' → nextMark w ≠ some ']') ∧
      (fsm.escapeNext = true → b = 'u' → FourHex w))
    ⟨fun ⟨a, b, c, d, e⟩ => ⟨a, b, c, d, e⟩, fun ⟨a, b, c, d, e⟩ => ⟨a, b, c, d, e⟩⟩

def CarefulRun : JSONSchemaFSM → List Char → Prop
  | _, [] => True
  | fsm, b :: rest => fsm.Careful b rest ∧ CarefulRun (fsm.transition b) rest

instance CarefulRun.decidable : ∀ (fsm : JSONSchemaFSM) text, Decidable (fsm.CarefulRun text)
  | _, [] => .isTrue trivial
  | fsm, b :: rest =>
    have := CarefulRun.decidable (fsm.transition b) rest
    inferInstanceAs (Decidable (fsm.Careful b rest ∧ CarefulRun (fsm.transition b) rest))

theorem solid_behind (stack : List Container) : ∃ form, behind stack = nt ws :: form ∧ Solid form := by
  cases stack with
  | nil => exact ⟨_, rfl, solid_nil⟩
  | cons container stack =>
    cases container with
    | object => exact ⟨_, rfl, solid_moreMembers⟩
    | array => exact ⟨_, rfl, solid_moreElements⟩

/-- Outside of strings, numbers and literals whitespace changes nothing. -/
def Between (fsm : JSONSchemaFSM) : Prop :=
  fsm.state ≠ .inString ∧ fsm.state ≠ .inKey ∧ fsm.state ≠ .inNumber ∧ fsm.state ≠ .inLiteral

theorem Between.expects (between : fsm.Between) :
    ∃ form, fsm.expects = nt ws :: form ∧ Solid form := by
  obtain ⟨state, stack, buf, target, esc, generated, stage⟩ := fsm
  obtain ⟨string, key, number, literal⟩ := between
  cases state with
  | start => exact ⟨_, rfl, solid_value⟩
  | expectKey => exact ⟨_, rfl, solid_objectBody⟩
  | afterKey => exact ⟨_, rfl, solid_chr rfl⟩
  | afterColon => exact ⟨_, rfl, solid_value⟩
  | inArray => exact ⟨_, rfl, solid_arrayBody⟩
  | afterValue => exact solid_behind stack
  | afterArrayValue => exact solid_behind stack
  | done => exact solid_behind stack
  | inKey => exact absurd rfl key
  | inString => exact absurd rfl string
  | inNumber => exact absurd rfl number
  | inLiteral => exact absurd rfl literal

theorem Between.transition (between : fsm.Between) :
    fsm.transition b = { fsm with generated := fsm.generated ++ [b] }.structural b := by
  obtain ⟨state, stack, buf, target, esc, generated, stage⟩ := fsm
  obtain ⟨string, key, number, literal⟩ := between
  cases state <;> first | rfl | contradiction

/-! ### One byte -/

/-- The byte leads to a state that expects the rest. -/
structure Steps (fsm : JSONSchemaFSM) (b : Char) (w : List Char) : Prop where
  consistent : (fsm.transition b).Consistent
  numberless : (fsm.transition b).state ≠ .inNumber
  follows : Follows fsm.expects (b :: w) ↔ fsm.Careful b w ∧ Follows (fsm.transition b).expects w

theorem Careful.of_plain (numberless : ¬ fsm.StartsNumber b) (value : fsm.state ≠ .afterValue)
    (element : fsm.state ≠ .afterArrayValue) (unescaped : fsm.escapeNext = false) :
    fsm.Careful b w :=
  ⟨numberless, fun here => absurd here value, fun here => absurd here value,
    fun here => absurd here element, fun escaped => absurd (unescaped.symm.trans escaped) nofun⟩

theorem finishValue_spec (fsm : JSONSchemaFSM) (unescaped : fsm.escapeNext = false) :
    fsm.finishValue.Consistent ∧ fsm.finishValue.state ≠ .inNumber ∧
      fsm.finishValue.expects = behind fsm.stack := by
  obtain ⟨state, stack, buf, target, esc, generated, stage⟩ := fsm
  simp only at unescaped
  subst unescaped
  match stack with
  | [] => exact ⟨⟨rfl, rfl⟩, nofun, rfl⟩
  | .object :: stack => exact ⟨⟨⟨stack, rfl⟩, rfl⟩, nofun, rfl⟩
  | .array :: stack => exact ⟨⟨⟨stack, rfl⟩, rfl⟩, nofun, rfl⟩

theorem startValue_spec (fsm : JSONSchemaFSM) (inside : fsm.stack ≠ [])
    (unescaped : fsm.escapeNext = false) (opening : b ∈ ['"', '{', '[', 't', 'f', 'n']) :
    (fsm.startValue b).Consistent ∧ (fsm.startValue b).state ≠ .inNumber ∧
      (Follows (nt value :: behind fsm.stack) (b :: w) ↔ Follows (fsm.startValue b).expects w) := by
  obtain ⟨state, stack, buf, target, esc, generated, stage⟩ := fsm
  simp only at unescaped inside
  subst unescaped
  simp only [List.mem_cons, List.not_mem_nil, or_false] at opening
  rcases opening with rfl | rfl | rfl | rfl | rfl | rfl <;>
    rw [value_mark (by decide) (by decide)]
  · exact ⟨inside, nofun, by simp [startValue, expects, inQuotes]⟩
  · exact ⟨⟨⟨stack, rfl⟩, rfl⟩, nofun, by simp [startValue, expects]⟩
  · exact ⟨⟨⟨stack, rfl⟩, rfl⟩, nofun, by simp [startValue, expects]⟩
  · exact ⟨⟨inside, rfl, 'r', ['u', 'e'], rfl⟩, nofun, by simp [startValue, startLiteral, expects]⟩
  · exact ⟨⟨inside, rfl, 'a', ['l', 's', 'e'], rfl⟩, nofun,
      by simp [startValue, startLiteral, expects]⟩
  · exact ⟨⟨inside, rfl, 'u', ['l', 'l'], rfl⟩, nofun, by simp [startValue, startLiteral, expects]⟩

theorem Careful.of_blank (blank : isWs b = true) (unescaped : fsm.escapeNext = false) :
    fsm.Careful b w := by
  simp only [isWs, List.mem_cons, List.not_mem_nil, or_false, decide_eq_true_eq] at blank
  refine ⟨?_, fun _ => ?_, fun _ comma => ?_, fun _ comma => ?_,
    fun escaped => absurd (unescaped.symm.trans escaped) nofun⟩
  · rintro ⟨-, number⟩
    rcases blank with rfl | rfl | rfl | rfl <;> revert number <;> decide
  · rcases blank with rfl | rfl | rfl | rfl <;> decide
  · rcases blank with rfl | rfl | rfl | rfl <;> cases comma
  · rcases blank with rfl | rfl | rfl | rfl <;> cases comma

theorem Consistent.unescaped (consistent : fsm.Consistent) (between : fsm.Between) :
    fsm.escapeNext = false := by
  obtain ⟨state, stack, buf, target, esc, generated, stage⟩ := fsm
  obtain ⟨string, key, number, literal⟩ := between
  cases state <;> first | exact consistent.2 | contradiction

theorem steps_blank (consistent : fsm.Consistent) (between : fsm.Between) (blank : isWs b = true) :
    fsm.Steps b w := by
  obtain ⟨form, expected, solid⟩ := between.expects
  have stays : fsm.transition b = { fsm with generated := fsm.generated ++ [b] } := by
    rw [between.transition, structural, if_pos blank]
  have same : (fsm.transition b).expects = fsm.expects := by
    rw [stays]
    rfl
  have careful : fsm.Careful b w := .of_blank blank (consistent.unescaped between)
  refine ⟨?_, ?_, ?_⟩
  · rw [stays]
    exact consistent
  · rw [stays]
    exact between.2.2.1
  · rw [same, expected, ws_blank solid blank]
    exact (and_iff_right careful).symm

section

variable {form : Form} (mark : isWs b = false) (expected : fsm.expects = nt ws :: form)

include mark expected

theorem steps_mark (next : (fsm.transition b).Consistent ∧ (fsm.transition b).state ≠ .inNumber)
    (follows : Follows form (b :: w) ↔ fsm.Careful b w ∧ Follows (fsm.transition b).expects w) :
    fsm.Steps b w :=
  ⟨next.1, next.2, by rw [expected, ws_solid mark]; exact follows⟩

theorem steps_close (closed : JSONSchemaFSM) (moves : fsm.transition b = closed.finishValue)
    (unescaped : closed.escapeNext = false) (careful : fsm.Careful b w)
    (follows : Follows form (b :: w) ↔ Follows (behind closed.stack) w) : fsm.Steps b w := by
  obtain ⟨consistent, numberless, expects⟩ := finishValue_spec closed unescaped
  rw [← moves] at consistent numberless expects
  refine steps_mark mark expected ⟨consistent, numberless⟩ ?_
  rw [expects]
  exact follows.trans (and_iff_right careful).symm

end

theorem mark_of_allowed {marks : List Char} (blank : isWs b = false)
    (allowed : (decide (b ∈ marks) || isWs b) = true) : b ∈ marks := by
  simpa [blank] using allowed

theorem steps_start (consistent : fsm.Consistent) (here : fsm.state = .start)
    (allowed : fsm.getAllowedBytes b = true) (blank : isWs b = false) : fsm.Steps b w := by
  obtain ⟨state, stack, buf, target, esc, generated, stage⟩ := fsm
  cases here
  obtain ⟨rfl, rfl⟩ := consistent
  have opening := mark_of_allowed blank allowed
  have careful : Careful ⟨.start, [], buf, target, false, generated, stage⟩ b w :=
    .of_plain (by simp [StartsNumber]) nofun nofun rfl
  simp only [List.mem_cons, List.not_mem_nil, or_false] at opening
  rcases opening with rfl | rfl
  · refine steps_mark rfl rfl ⟨⟨⟨[], rfl⟩, rfl⟩, nofun⟩ (.trans ?_ (and_iff_right careful).symm)
    rw [value_mark (by decide) (by decide)]
    simp [transition, structural, isWs, expects, behind]
  · refine steps_mark rfl rfl ⟨⟨⟨[], rfl⟩, rfl⟩, nofun⟩ (.trans ?_ (and_iff_right careful).symm)
    rw [value_mark (by decide) (by decide)]
    simp [transition, structural, isWs, expects, behind]

theorem steps_expectKey (consistent : fsm.Consistent) (here : fsm.state = .expectKey)
    (allowed : fsm.getAllowedBytes b = true) (blank : isWs b = false) : fsm.Steps b w := by
  obtain ⟨state, stack, buf, target, esc, generated, stage⟩ := fsm
  cases here
  obtain ⟨⟨stack, rfl⟩, rfl⟩ := consistent
  have marks := mark_of_allowed blank allowed
  have careful : Careful ⟨.expectKey, .object :: stack, buf, target, false, generated, stage⟩ b w :=
    .of_plain (by simp [StartsNumber]) nofun nofun rfl
  simp only [List.mem_cons, List.not_mem_nil, or_false] at marks
  rcases marks with rfl | rfl
  · -- a key
    refine steps_mark rfl rfl ⟨⟨stack, rfl⟩, nofun⟩ (.trans ?_ (and_iff_right careful).symm)
    rw [objectBody_cons, members_cons]
    simp [transition, structural, isWs, expects, behind, inQuotes]
  · -- the object is empty
    refine steps_close rfl rfl
      ⟨.expectKey, stack, buf, target, false, generated ++ ['}'], stage⟩ rfl rfl careful ?_
    rw [objectBody_cons, members_cons]
    simp

theorem steps_afterKey (consistent : fsm.Consistent) (here : fsm.state = .afterKey)
    (allowed : fsm.getAllowedBytes b = true) (blank : isWs b = false) : fsm.Steps b w := by
  obtain ⟨state, stack, buf, target, esc, generated, stage⟩ := fsm
  cases here
  obtain ⟨⟨stack, rfl⟩, rfl⟩ := consistent
  obtain rfl : b = ':' := by simpa [getAllowedBytes, blank] using allowed
  have careful : Careful ⟨.afterKey, .object :: stack, buf, target, false, generated, stage⟩ ':' w :=
    .of_plain (by simp [StartsNumber]) nofun nofun rfl
  refine steps_mark rfl rfl ⟨⟨⟨stack, rfl⟩, rfl⟩, nofun⟩ (.trans ?_ (and_iff_right careful).symm)
  rw [chr_cons]
  simp [transition, structural, isWs, expects]

theorem opening_of_allowed {marks : List Char} (blank : isWs b = false)
    (allowed : (decide (b ∈ marks) || isWs b || isDigitByte b) = true)
    (numberless : ¬ (b = '-' ∨ isDigitByte b = true)) : b ∈ marks ∧ b ≠ '-' := by
  obtain ⟨sign, digit⟩ := not_or.mp numberless
  exact ⟨by simpa [blank, digit] using allowed, sign⟩

section

variable (consistent : fsm.Consistent)

include consistent

theorem steps_afterColon (here : fsm.state = .afterColon) (allowed : fsm.getAllowedBytes b = true)
    (blank : isWs b = false) (numberless : ¬ fsm.StartsNumber b) : fsm.Steps b w := by
  have careful := Careful.of_plain (w := w) numberless (by simp [here]) (by simp [here])
    (consistent.unescaped (by simp [Between, here]))
  obtain ⟨state, stack, buf, target, esc, generated, stage⟩ := fsm
  cases here
  obtain ⟨⟨stack, rfl⟩, rfl⟩ := consistent
  obtain ⟨opening, sign⟩ := opening_of_allowed blank allowed fun number => numberless ⟨.inl rfl, number⟩
  have started := startValue_spec (b := b) (w := w)
    ⟨.afterColon, .object :: stack, buf, target, false, generated ++ [b], stage⟩ nofun rfl
    (by simpa [sign] using opening)
  have moves : transition ⟨.afterColon, .object :: stack, buf, target, false, generated, stage⟩ b =
      startValue ⟨.afterColon, .object :: stack, buf, target, false, generated ++ [b], stage⟩ b := by
    simp [transition, structural, blank]
  refine steps_mark blank rfl ?_ ?_
  · rw [moves]
    exact ⟨started.1, started.2.1⟩
  · rw [moves]
    exact started.2.2.trans (and_iff_right careful).symm

theorem steps_inArray (here : fsm.state = .inArray) (allowed : fsm.getAllowedBytes b = true)
    (blank : isWs b = false) (numberless : ¬ fsm.StartsNumber b) : fsm.Steps b w := by
  have careful := Careful.of_plain (w := w) numberless (by simp [here]) (by simp [here])
    (consistent.unescaped (by simp [Between, here]))
  obtain ⟨state, stack, buf, target, esc, generated, stage⟩ := fsm
  cases here
  obtain ⟨⟨stack, rfl⟩, rfl⟩ := consistent
  obtain ⟨opening, sign⟩ := opening_of_allowed blank allowed fun number => numberless ⟨.inr rfl, number⟩
  by_cases close : b = ']'
  · subst close
    refine steps_close rfl rfl
      ⟨.inArray, stack, buf, target, false, generated ++ [']'], stage⟩ rfl rfl careful ?_
    rw [arrayBody_cons, value_mark (by decide) (by decide)]
    simp
  · have started := startValue_spec (b := b) (w := w)
      ⟨.inArray, .array :: stack, buf, target, false, generated ++ [b], stage⟩ nofun rfl
      (by simpa [sign, close] using opening)
    have moves : transition ⟨.inArray, .array :: stack, buf, target, false, generated, stage⟩ b =
        startValue ⟨.inArray, .array :: stack, buf, target, false, generated ++ [b], stage⟩ b := by
      simp [transition, structural, blank, close]
    refine steps_mark blank rfl ?_ ?_
    · rw [moves]
      exact ⟨started.1, started.2.1⟩
    · rw [moves, arrayBody_cons]
      simp only [close, false_and, false_or]
      exact started.2.2.trans (and_iff_right careful).symm

theorem steps_afterValue (here : fsm.state = .afterValue) (allowed : fsm.getAllowedBytes b = true)
    (blank : isWs b = false) : fsm.Steps b w := by
  obtain ⟨state, stack, buf, target, esc, generated, stage⟩ := fsm
  cases here
  obtain ⟨⟨stack, rfl⟩, rfl⟩ := consistent
  have marks := mark_of_allowed blank allowed
  simp only [List.mem_cons, List.not_mem_nil, or_false] at marks
  rcases marks with rfl | rfl | rfl
  · -- a comma, behind which a member has to come
    refine steps_mark rfl rfl ⟨⟨⟨stack, rfl⟩, rfl⟩, nofun⟩ ?_
    have careful : Careful ⟨.afterValue, .object :: stack, buf, target, false, generated, stage⟩
        ',' w ↔ nextMark w ≠ some '}' :=
      ⟨fun careful => careful.memberNext rfl rfl, fun next =>
        ⟨by simp [StartsNumber], fun _ => by decide, fun _ _ => next, nofun, nofun⟩⟩
    rw [moreMembers_cons, careful]
    simp [transition, structural, isWs, expects, ws_members, and_comm]
  · refine steps_close rfl rfl
      ⟨.afterValue, stack, buf, target, false, generated ++ ['}'], stage⟩ rfl rfl
      ⟨by simp [StartsNumber], fun _ => by decide, nofun, nofun, nofun⟩ ?_
    rw [moreMembers_cons]
    simp
  · -- the machine ignores the bracket
    refine steps_mark rfl rfl ⟨⟨⟨stack, rfl⟩, rfl⟩, nofun⟩ ?_
    rw [moreMembers_cons]
    constructor
    · rintro (⟨wrong, -⟩ | ⟨wrong, -⟩) <;> cases wrong
    · rintro ⟨careful, -⟩
      exact absurd rfl (careful.straight rfl)

theorem steps_afterArrayValue (here : fsm.state = .afterArrayValue)
    (allowed : fsm.getAllowedBytes b = true) (blank : isWs b = false) : fsm.Steps b w := by
  obtain ⟨state, stack, buf, target, esc, generated, stage⟩ := fsm
  cases here
  obtain ⟨⟨stack, rfl⟩, rfl⟩ := consistent
  have marks := mark_of_allowed blank allowed
  simp only [List.mem_cons, List.not_mem_nil, or_false] at marks
  rcases marks with rfl | rfl
  · refine steps_mark rfl rfl ⟨⟨⟨stack, rfl⟩, rfl⟩, nofun⟩ ?_
    have careful : Careful ⟨.afterArrayValue, .array :: stack, buf, target, false, generated, stage⟩
        ',' w ↔ nextMark w ≠ some ']' :=
      ⟨fun careful => careful.elementNext rfl rfl, fun next =>
        ⟨by simp [StartsNumber], nofun, nofun, fun _ _ => next, nofun⟩⟩
    rw [moreElements_cons, careful]
    simp [transition, structural, isWs, expects, ws_elements, and_comm]
  · refine steps_close rfl rfl
      ⟨.afterArrayValue, stack, buf, target, false, generated ++ [']'], stage⟩ rfl rfl
      ⟨by simp [StartsNumber], nofun, nofun, nofun, nofun⟩ ?_
    rw [moreElements_cons]
    simp

end

/-! ### Strings and literals -/

theorem printable_plain (printable : isPrintable b = true) (quote : b ≠ '"') (backslash : b ≠ '\\') :
    isPlain b = true := by
  have above : ' ' ≤ b := by
    simp only [isPrintable, Bool.and_eq_true, decide_eq_true_eq] at printable
    exact printable.1
  simp [isPlain, above, quote, backslash]

theorem quoted_follows (allowed : (if fsm.escapeNext then isEscapeChar b else isPrintable b) = true)
    (form : Form) (unclosed : b ≠ '"' ∨ fsm.escapeNext = true) :
    Follows (inQuotes fsm.escapeNext :: form) (b :: w) ↔
      (fsm.escapeNext = true → b = 'u' → FourHex w) ∧
        Follows (inQuotes (!fsm.escapeNext && decide (b = '\\')) :: form) w := by
  cases escaped : fsm.escapeNext with
  | true =>
    simp only [escaped, if_true, isEscapeChar, List.mem_cons, List.not_mem_nil, or_false,
      decide_eq_true_eq] at allowed
    simp only [inQuotes, if_true, Bool.not_true, Bool.false_and, Bool.false_eq_true, if_false,
      true_implies]
    rw [escape_cons]
    rcases allowed with rfl | rfl | rfl | rfl | rfl | rfl | rfl | rfl | rfl <;> simp [isEscaped]
  | false =>
    simp only [escaped, Bool.false_eq_true, if_false] at allowed
    have quote : b ≠ '"' := unclosed.resolve_right (by simp [escaped])
    simp only [inQuotes, Bool.not_false, Bool.true_and, Bool.false_eq_true, if_false, false_implies,
      true_and]
    by_cases backslash : b = '\\'
    · subst backslash
      simp [chars_backslash]
    · simp only [backslash, decide_false, Bool.false_eq_true, if_false]
      exact chars_plain (printable_plain allowed quote backslash)

theorem careful_quoted (here : fsm.state = .inString ∨ fsm.state = .inKey) :
    fsm.Careful b w ↔ (fsm.escapeNext = true → b = 'u' → FourHex w) := by
  constructor
  · exact fun careful => careful.hexNext
  · intro hex
    refine ⟨?_, ?_, ?_, ?_, hex⟩ <;> rcases here with here | here <;> simp [StartsNumber, here]

theorem transition_quoted (here : fsm.state = .inString ∨ fsm.state = .inKey)
    (unclosed : b ≠ '"' ∨ fsm.escapeNext = true) :
    fsm.transition b = { fsm with
      generated := fsm.generated ++ [b]
      escapeNext := !fsm.escapeNext && decide (b = '\\') } := by
  obtain ⟨state, stack, buf, target, esc, generated, stage⟩ := fsm
  cases esc with
  | true => rcases here with rfl | rfl <;> simp [transition, quoted]
  | false =>
    have quote : b ≠ '"' := unclosed.resolve_right nofun
    by_cases backslash : b = '\\' <;> rcases here with rfl | rfl <;>
      simp [transition, quoted, quote, backslash]

theorem steps_inString (consistent : fsm.Consistent) (here : fsm.state = .inString)
    (allowed : fsm.getAllowedBytes b = true) : fsm.Steps b w := by
  have letter : (if fsm.escapeNext then isEscapeChar b else isPrintable b) = true := by
    simpa [getAllowedBytes, here] using allowed
  by_cases unclosed : b ≠ '"' ∨ fsm.escapeNext = true
  · have moves := transition_quoted (.inl here) unclosed
    refine ⟨?_, ?_, ?_⟩
    · rw [moves]
      simpa only [Consistent, here] using consistent
    · simp [moves, here]
    · rw [careful_quoted (.inl here), moves]
      simp only [expects, here]
      exact quoted_follows letter _ unclosed
  · -- the quote ends the value
    obtain ⟨rfl, unescaped⟩ := not_or.mp unclosed |>.imp not_not.mp id
    obtain ⟨state, stack, buf, target, esc, generated, stage⟩ := fsm
    cases here
    cases esc with
    | true => exact absurd rfl unescaped
    | false =>
      have careful : Careful ⟨.inString, stack, buf, target, false, generated, stage⟩ '"' w :=
        (careful_quoted (.inl rfl)).mpr nofun
      have ends : Follows (expects ⟨.inString, stack, buf, target, false, generated, stage⟩)
          ('"' :: w) ↔ Follows (behind stack) w := chars_quote
      match stack with
      | [] => exact absurd rfl consistent
      | .object :: stack =>
        exact ⟨⟨⟨stack, rfl⟩, rfl⟩, nofun, ends.trans (and_iff_right careful).symm⟩
      | .array :: stack =>
        exact ⟨⟨⟨stack, rfl⟩, rfl⟩, nofun, ends.trans (and_iff_right careful).symm⟩

theorem steps_inKey (consistent : fsm.Consistent) (here : fsm.state = .inKey)
    (allowed : fsm.getAllowedBytes b = true) : fsm.Steps b w := by
  have letter : (if fsm.escapeNext then isEscapeChar b else isPrintable b) = true := by
    simpa [getAllowedBytes, here] using allowed
  by_cases unclosed : b ≠ '"' ∨ fsm.escapeNext = true
  · have moves := transition_quoted (.inr here) unclosed
    refine ⟨?_, ?_, ?_⟩
    · rw [moves]
      simpa only [Consistent, here] using consistent
    · simp [moves, here]
    · rw [careful_quoted (.inr here), moves]
      simp only [expects, here]
      exact quoted_follows letter _ unclosed
  · obtain ⟨rfl, unescaped⟩ := not_or.mp unclosed |>.imp not_not.mp id
    obtain ⟨state, stack, buf, target, esc, generated, stage⟩ := fsm
    cases here
    obtain ⟨stack, rfl⟩ := consistent
    cases esc with
    | true => exact absurd rfl unescaped
    | false =>
      have careful : Careful ⟨.inKey, .object :: stack, buf, target, false, generated, stage⟩ '"' w :=
        (careful_quoted (.inr rfl)).mpr nofun
      exact ⟨⟨⟨stack, rfl⟩, rfl⟩, nofun, chars_quote.trans (and_iff_right careful).symm⟩

theorem steps_inLiteral (consistent : fsm.Consistent) (here : fsm.state = .inLiteral)
    (allowed : fsm.getAllowedBytes b = true) : fsm.Steps b w := by
  obtain ⟨state, stack, buf, target, esc, generated, stage⟩ := fsm
  cases here
  obtain ⟨inside, rfl, next, rest, spelled⟩ := consistent
  simp only at inside spelled
  subst spelled
  -- only the next byte of the literal is allowed
  obtain rfl : next = b := by
    simp only [getAllowedBytes, decide_eq_true_eq] at allowed
    simpa using allowed.2.2
  have careful : Careful ⟨.inLiteral, stack, buf, buf ++ next :: rest, false, generated, stage⟩
      next w := .of_plain (by simp [StartsNumber]) nofun nofun rfl
  cases rest with
  | nil =>
    have moves : transition ⟨.inLiteral, stack, buf, buf ++ [next], false, generated, stage⟩ next =
        finishValue ⟨.inLiteral, stack, buf ++ [next], buf ++ [next], false,
          generated ++ [next], stage⟩ := by
      simp [transition, literal]
    have ended := finishValue_spec ⟨.inLiteral, stack, buf ++ [next], buf ++ [next], false,
      generated ++ [next], stage⟩ rfl
    rw [← moves] at ended
    refine ⟨ended.1, ended.2.1, ?_⟩
    rw [ended.2.2, and_iff_right careful]
    simp [expects, spell]
  | cons later rest =>
    have moves : transition ⟨.inLiteral, stack, buf, buf ++ next :: later :: rest, false, generated,
        stage⟩ next = ⟨.inLiteral, stack, buf ++ [next], buf ++ next :: later :: rest, false,
          generated ++ [next], stage⟩ := by
      simp [transition, literal]
    refine ⟨?_, ?_, ?_⟩
    · rw [moves]
      exact ⟨inside, rfl, later, rest, by simp⟩
    · simp [moves]
    · rw [moves, and_iff_right careful]
      simp [expects, spell]

def isNumberByte (b : Char) : Bool := isDigitByte b || b ∈ ['.', 'e', 'E', '+', '-']

theorem isDigit_of_byte (digit : isDigitByte b = true) : isDigit b = true := by
  simp only [isDigitByte, Bool.and_eq_true, decide_eq_true_eq] at digit
  have inside : b.isDigit = true := by
    simp only [Char.isDigit, Bool.and_eq_true, decide_eq_true_eq]
    exact ⟨digit.1, Nat.le_of_lt_succ digit.2⟩
  simp [isDigit, inside]

theorem json_isDigit_of_byte (digit : isDigitByte b = true) : Json.isDigit b = true := by
  simp only [isDigitByte, Bool.and_eq_true, decide_eq_true_eq] at digit
  have low : '0' ≤ b := digit.1
  have high : b ≤ '9' := Nat.le_of_lt_succ digit.2
  simp [Json.isDigit, low, high]

theorem behind_ends {stack : List Container} (inside : stack ≠ []) (number : isNumberByte b = true) :
    ¬ Follows (behind stack) (b :: w) := by
  have apart : ∀ mark ∈ [' ', '\t', '\n', '\r', ',', '}', ']'], b ≠ mark := by
    rintro mark member rfl
    simp only [List.mem_cons, List.not_mem_nil, or_false] at member
    rcases member with rfl | rfl | rfl | rfl | rfl | rfl | rfl <;> revert number <;> decide
  have mark : isWs b = false := by
    simp [isWs, apart ' ' (by decide), apart '\t' (by decide), apart '\n' (by decide),
      apart '\r' (by decide)]
  match stack with
  | [] => exact absurd rfl inside
  | .object :: stack =>
    rw [behind, ws_solid mark, moreMembers_cons]
    simp [apart ',' (by decide), apart '}' (by decide)]
  | .array :: stack =>
    rw [behind, ws_solid mark, moreElements_cons]
    simp [apart ',' (by decide), apart ']' (by decide)]

theorem number_stays (here : fsm.state = .inNumber) (number : isNumberByte b = true)
    (signed : b = '+' ∨ b = '-' → fsm.numberStageVal = 3) :
    (fsm.transition b).state = .inNumber ∧ (fsm.transition b).stack = fsm.stack ∧
      (b = 'e' ∨ b = 'E' → (fsm.transition b).numberStageVal = 3) := by
  obtain ⟨state, stack, buf, target, esc, generated, stage⟩ := fsm
  cases here
  simp only [isNumberByte, Bool.or_eq_true, List.mem_cons, List.not_mem_nil, or_false,
    decide_eq_true_eq] at number
  rcases number with digit | rfl | rfl | rfl | rfl | rfl
  · have notLetter : ¬ (b = 'e' ∨ b = 'E') := by
      rintro (rfl | rfl) <;> revert digit <;> decide
    simp only [transition, JSONSchemaFSM.number, isDigit_of_byte digit, if_true]
    split <;> exact ⟨rfl, rfl, fun letter => absurd letter notLetter⟩
  · exact ⟨rfl, rfl, by simp⟩
  · exact ⟨rfl, rfl, fun _ => rfl⟩
  · exact ⟨rfl, rfl, fun _ => rfl⟩
  · obtain rfl := signed (.inl rfl)
    exact ⟨rfl, rfl, by simp⟩
  · obtain rfl := signed (.inr rfl)
    exact ⟨rfl, rfl, by simp⟩

/-- A number that has begun either goes on, or is ended by a sign that JSON has no place for. -/
theorem number_dead {symbol : Json.Symbol} (here : fsm.state = .inNumber) (inside : fsm.stack ≠ [])
    (number : InNumber symbol) (sign : symbol = expSign → fsm.numberStageVal = 3)
    (allowed : fsm.Allows w) (accepting : (fsm.feed w).isAccepting = true) :
    ¬ Follows (nt symbol :: behind fsm.stack) w := by
  induction w generalizing fsm symbol with
  | nil => simp [isAccepting, here] at accepting
  | cons b w ih =>
    intro follows
    obtain ⟨byte, later⟩ := allowed
    have letter : isNumberByte b = true := by
      simpa [getAllowedBytes, here, isNumberByte] using byte
    obtain ⟨next, number', rest, expLetter, signed⟩ :=
      inNumber_cons number (fun w => behind_ends inside letter) follows
    -- a sign is only taken where the exponent has just begun, and there the machine goes on too
    obtain ⟨here', stack, exponent⟩ := number_stays here letter fun mark => sign (signed mark)
    rw [← stack] at inside rest
    exact ih here' inside number' (fun begins => exponent (expLetter begins)) later accepting rest

/-! ### Runs -/

theorem numberStart_apart (begins : b = '-' ∨ isDigitByte b = true) :
    ∀ mark ∈ [' ', '\t', '\n', '\r', ']', '"', '{', '[', 't', 'f', 'n'], b ≠ mark := by
  rintro mark member rfl
  simp only [List.mem_cons, List.not_mem_nil, or_false] at member
  rcases member with rfl | rfl | rfl | rfl | rfl | rfl | rfl | rfl | rfl | rfl | rfl <;>
    revert begins <;> decide

theorem numberStart_mark (begins : b = '-' ∨ isDigitByte b = true) : isWs b = false := by
  have apart := numberStart_apart begins
  simp [isWs, apart ' ' (by decide), apart '\t' (by decide), apart '\n' (by decide),
    apart '\r' (by decide)]

theorem startsNumber_moves (starts : fsm.StartsNumber b) :
    (fsm.transition b).state = .inNumber ∧ (fsm.transition b).stack = fsm.stack ∧
      (fsm.transition b).escapeNext = fsm.escapeNext := by
  obtain ⟨here, begins⟩ := starts
  have apart := numberStart_apart begins
  have started : ∀ fsm : JSONSchemaFSM, (fsm.startValue b).state = .inNumber ∧
      (fsm.startValue b).stack = fsm.stack ∧
      (fsm.startValue b).escapeNext = fsm.escapeNext := by
    intro fsm
    simp only [startValue, apart '"' (by decide), apart '{' (by decide), apart '[' (by decide),
      apart 't' (by decide), apart 'f' (by decide), apart 'n' (by decide), if_false]
    rcases begins with rfl | digit
    · exact ⟨rfl, rfl, rfl⟩
    · split
      · exact ⟨rfl, rfl, rfl⟩
      · rw [if_pos (isDigit_of_byte digit)]
        exact ⟨rfl, rfl, rfl⟩
  have mark := numberStart_mark begins
  rcases here with here | here
  · simp only [transition, here, structural, mark, Bool.false_eq_true, if_false]
    exact started _
  · simp only [transition, here, structural, mark, Bool.false_eq_true, if_false,
      apart ']' (by decide)]
    exact started _

theorem startsNumber_dead (consistent : fsm.Consistent) (starts : fsm.StartsNumber b)
    (allowed : fsm.Allows (b :: w)) (accepting : (fsm.feed (b :: w)).isAccepting = true) :
    ¬ Follows fsm.expects (b :: w) := by
  have moves := startsNumber_moves starts
  obtain ⟨here, begins⟩ := starts
  have first : b = '-' ∨ Json.isDigit b = true := begins.imp_right json_isDigit_of_byte
  have mark := numberStart_mark begins
  have open' : b ≠ ']' := numberStart_apart begins ']' (by decide)
  have opened : fsm.stack ≠ [] ∧
      (Follows fsm.expects (b :: w) → Follows (nt value :: behind fsm.stack) (b :: w)) := by
    obtain ⟨state, stack, buf, target, esc, generated, stage⟩ := fsm
    rcases here with rfl | rfl <;> obtain ⟨⟨stack, rfl⟩, -⟩ := consistent
    · exact ⟨nofun, (ws_solid mark).mp⟩
    · refine ⟨nofun, fun follows => ?_⟩
      have body := (ws_solid mark).mp follows
      rw [arrayBody_cons] at body
      exact body.resolve_left fun close => open' close.1
  intro follows
  obtain ⟨symbol, number, unsigned, rest⟩ := value_number first (opened.2 follows)
  rw [← moves.2.1] at rest
  exact number_dead moves.1 (moves.2.1 ▸ opened.1) number (fun sign => absurd sign unsigned)
    allowed.2 accepting rest

theorem Steps.of_allowed (consistent : fsm.Consistent) (here : fsm.state ≠ .inNumber)
    (allowed : fsm.getAllowedBytes b = true) (numberless : ¬ fsm.StartsNumber b) :
    fsm.Steps b w := by
  by_cases between : fsm.Between
  · cases blank : isWs b with
    | true => exact steps_blank consistent between blank
    | false =>
      obtain ⟨string, key, number, literal⟩ := between
      cases state : fsm.state with
      | start => exact steps_start consistent state allowed blank
      | expectKey => exact steps_expectKey consistent state allowed blank
      | afterKey => exact steps_afterKey consistent state allowed blank
      | afterColon => exact steps_afterColon consistent state allowed blank numberless
      | afterValue => exact steps_afterValue consistent state allowed blank
      | inArray => exact steps_inArray consistent state allowed blank numberless
      | afterArrayValue => exact steps_afterArrayValue consistent state allowed blank
      | done =>
        rw [getAllowedBytes, state] at allowed
        exact absurd (allowed.symm.trans blank) nofun
      | inKey => exact absurd state key
      | inString => exact absurd state string
      | inNumber => exact absurd state number
      | inLiteral => exact absurd state literal
  · have inside : fsm.state = .inString ∨ fsm.state = .inKey ∨ fsm.state = .inLiteral := by
      simp only [Between, here, ne_eq, not_false_eq_true, true_and] at between
      tauto
    rcases inside with string | key | literal
    · exact steps_inString consistent string allowed
    · exact steps_inKey consistent key allowed
    · exact steps_inLiteral consistent literal allowed

theorem start_consistent : Consistent {} := ⟨rfl, rfl⟩

/-- From any state: an accepted run leaves what JSON expects exactly if it is careful and leaves no
container open. -/
theorem follows_iff (consistent : fsm.Consistent) (here : fsm.state ≠ .inNumber)
    (allowed : fsm.Allows w) (accepting : (fsm.feed w).isAccepting = true) :
    Follows fsm.expects w ↔ fsm.CarefulRun w ∧ (fsm.feed w).stack = [] := by
  induction w generalizing fsm with
  | nil =>
    have expects : fsm.expects = behind fsm.stack := by
      simp only [feed_nil, isAccepting, Bool.or_eq_true] at accepting
      rcases accepting with (state | state) | state <;>
        simp only [JSONSchemaFSM.expects, of_decide_eq_true state]
    rw [expects]
    -- an open container has to be closed
    match fsm.stack with
    | [] => simp [behind, ws_nil, Follows, CarefulRun]
    | .object :: stack => simp [behind, ws_nil, Follows, derives_nt moreMembers, rules]
    | .array :: stack => simp [behind, ws_nil, Follows, derives_nt moreElements, rules]
  | cons b w ih =>
    by_cases starts : fsm.StartsNumber b
    · apply iff_of_false (startsNumber_dead consistent starts allowed accepting)
      rintro ⟨⟨careful, -⟩, -⟩
      exact careful.numberless starts
    · have steps := Steps.of_allowed (w := w) consistent here allowed.1 starts
      rw [steps.follows, ih steps.consistent steps.numberless allowed.2 accepting, CarefulRun,
        feed_cons, and_assoc]

end JSONSchemaFSM

open JSONSchemaFSM

/-- **The JSON machine.** A text of allowed bytes that the machine accepts is JSON if and only if no
container is open, no number begins in it, no bracket stands behind a member of an object, no
closing bracket is next behind a comma, and four hexadecimal digits follow each `\u`. -/
theorem accepted_isText_iff (text : List Char) (allowed : Allows {} text)
    (accepting : (feed {} text).isAccepting = true) :
    IsText text ↔ CarefulRun {} text ∧ (feed {} text).stack = [] := by
  rw [isText_iff]
  exact follows_iff start_consistent nofun allowed accepting

/-- A text with keys, an escape, literals and containers in each other. -/
theorem accepted_isText_nested :
    IsText "\x7b\"a\\u0041\": [true, \x7b\x7d], \"b\": null\x7d".toList :=
  (accepted_isText_iff _ (by decide +kernel) (by decide +kernel)).mpr
    ⟨by decide +kernel, by decide +kernel⟩

/-- The machine accepts an object that is still open. -/
theorem open_object_accepted :
    ¬ ∀ text, Allows {} text → (feed {} text).isAccepting = true → IsText text := by
  intro all
  have json := all ['\x7b', '"', 'a', '"', ':', '"', 'b', '"'] (by decide +kernel)
    (by decide +kernel)
  have closed := (follows_iff start_consistent nofun (by decide +kernel) (by decide +kernel)).mp
    (isText_iff.mp json)
  revert closed
  decide +kernel

end DistLLM.ConstrainedDecoder
