import DistLLM.Library.Remainder
import DistLLM.StructuredOutput.Constraint

/-!
# JSON texts

The grammar the constraint is measured by, with numbers and escapes spelled loosely: each symbol
relates a text to what remains behind it.
-/
namespace DistLLM.StructuredOutput

open Library

abbrev Ws : List Char → List Char → Prop := Skips isWs

/-- What a string may contain, or follow a backslash in it: no control character. -/
def isUnescaped (c : Char) : Bool := decide (' ' ≤ c)

/-- The rest of a string, up to its closing quote. -/
inductive StringTail : List Char → List Char → Prop
  | close (s : List Char) : StringTail ('"' :: s) s
  | plain {c : Char} {s t : List Char} : isUnescaped c = true → c ≠ '"' → c ≠ '\\' →
      StringTail s t → StringTail (c :: s) t
  | escape {c : Char} {s t : List Char} : isUnescaped c = true →
      StringTail s t → StringTail ('\\' :: c :: s) t

def Number : List Char → List Char → Prop
  | [], _ => False
  | c :: s, t => isNumberStart c = true ∧ Skips isNumberChar s t

/-- The literals, by their first character. -/
inductive Literal : Char → List Char → Prop
  | true : Literal 't' ['r', 'u', 'e']
  | false : Literal 'f' ['a', 'l', 's', 'e']
  | null : Literal 'n' ['u', 'l', 'l']

def Spelled (rest s t : List Char) : Prop := s = rest ++ t

inductive Symbol
  /-- A container, a string or a literal. -/
  | closed
  | value
  /-- The elements of an array, with the bracket behind them. -/
  | elements
  /-- The members of an object, with the brace behind them. -/
  | members

inductive Json : Symbol → List Char → List Char → Prop
  | string {s t} : StringTail s t → Json .closed ('"' :: s) t
  | literal {c rest s t} : Literal c rest → Spelled rest s t → Json .closed (c :: s) t
  | emptyArray {s t} : Ws s (']' :: t) → Json .closed ('[' :: s) t
  | array {s t u} : Ws s t → Json .elements t u → Json .closed ('[' :: s) u
  | emptyObject {s t} : Ws s ('}' :: t) → Json .closed ('{' :: s) t
  | object {s t u} : Ws s t → Json .members t u → Json .closed ('{' :: s) u
  | closed {s t} : Json .closed s t → Json .value s t
  | number {s t} : Number s t → Json .value s t
  | lastElement {s t u} : Json .value s t → Ws t (']' :: u) → Json .elements s u
  | nextElement {s t u v w} : Json .value s t → Ws t (',' :: u) → Ws u v →
      Json .elements v w → Json .elements s w
  | lastMember {s t u v w x} : StringTail s t → Ws t (':' :: u) → Ws u v → Json .value v w →
      Ws w ('}' :: x) → Json .members ('"' :: s) x
  | nextMember {s t u v w x y z} : StringTail s t → Ws t (':' :: u) → Ws u v → Json .value v w →
      Ws w (',' :: x) → Ws x y → Json .members y z → Json .members ('"' :: s) z

/-- A JSON text that is complete: a number needs whitespace behind it. -/
def CompleteText (text : List Char) : Prop :=
  ∃ s, Ws text s ∧
    ((∃ t, Json .closed s t ∧ Ws t []) ∨ ∃ c t, Number s (c :: t) ∧ isWs c = true ∧ Ws t [])

/-- Where a text stands with respect to strings. -/
inductive Quoting
  | outside
  | inside
  | escaped
  deriving DecidableEq, Repr

def Quoting.next : Quoting → Char → Quoting
  | .outside, c => if c = '"' then .inside else .outside
  | .inside, c => if c = '"' then .outside else if c = '\\' then .escaped else .inside
  | .escaped, _ => .inside

def rawTab : Quoting → List Char → Bool
  | _, [] => false
  | quoting, c :: s => decide (quoting ≠ .outside ∧ c = '\t') || rawTab (quoting.next c) s

/-! ### Behind the first character -/

section

variable {L : List Char → Prop} {c : Char} {s : List Char}

/-- What may follow a value that has ended: the bracket that closes the container, or a comma with
more of it. -/
def GoesOn (close : Char) (more : Symbol) (L : List Char → Prop) (s : List Char) : Prop :=
  Starts close L s ∨ Starts ',' (Before Ws (Before (Json more) L)) s

theorem before_elements :
    Before (Json .elements) L s ↔ Before (Json .value) (Before Ws (GoesOn ']' .elements L)) s := by
  constructor
  · rintro ⟨t, elements, rest⟩
    cases elements with
    | lastElement value space => exact ⟨_, value, _, space, .inl ⟨rfl, rest⟩⟩
    | nextElement value space gap more =>
      exact ⟨_, value, _, space, .inr ⟨rfl, _, gap, _, more, rest⟩⟩
  · rintro ⟨t, value, u, space, last | next⟩
    · obtain ⟨v, rfl, rest⟩ := starts_iff.mp last
      exact ⟨v, .lastElement value space, rest⟩
    · obtain ⟨v, rfl, w, gap, x, more, rest⟩ := starts_iff.mp next
      exact ⟨x, .nextElement value space gap more, rest⟩

def Member (L : List Char → Prop) : List Char → Prop :=
  Before StringTail (Before Ws (Starts ':' (Before Ws (Before (Json .value) L))))

theorem before_members :
    Before (Json .members) L s ↔ Starts '"' (Member (Before Ws (GoesOn '}' .members L))) s := by
  constructor
  · rintro ⟨t, members, rest⟩
    cases members with
    | lastMember key colon gap value space =>
      exact ⟨rfl, _, key, _, colon, rfl, _, gap, _, value, _, space, .inl ⟨rfl, rest⟩⟩
    | nextMember key colon gap value space comma more =>
      exact ⟨rfl, _, key, _, colon, rfl, _, gap, _, value, _, space,
        .inr ⟨rfl, _, comma, _, more, rest⟩⟩
  · intro starts
    obtain ⟨t, rfl, u, key, v, colon, behind⟩ := starts_iff.mp starts
    obtain ⟨w, rfl, x, gap, y, value, z, space, last | next⟩ := starts_iff.mp behind
    · obtain ⟨end', rfl, rest⟩ := starts_iff.mp last
      exact ⟨end', .lastMember key colon gap value space, rest⟩
    · obtain ⟨next, rfl, inner, comma, end', more, rest⟩ := starts_iff.mp next
      exact ⟨end', .nextMember key colon gap value space comma more, rest⟩

theorem before_value :
    Before (Json .value) L s ↔ Before (Json .closed) L s ∨ Before Number L s := by
  constructor
  · rintro ⟨t, value, rest⟩
    cases value with
    | closed closed => exact .inl ⟨t, closed, rest⟩
    | number number => exact .inr ⟨t, number, rest⟩
  · rintro (⟨t, closed, rest⟩ | ⟨t, number, rest⟩)
    · exact ⟨t, .closed closed, rest⟩
    · exact ⟨t, .number number, rest⟩

theorem before_number :
    Before Number L (c :: s) ↔ isNumberStart c = true ∧ Before (Skips isNumberChar) L s := by
  simp only [Before, Number, and_assoc, exists_and_left]

theorem closed_quote : Before (Json .closed) L ('"' :: s) ↔ Before StringTail L s := by
  constructor
  · rintro ⟨t, closed, rest⟩
    cases closed with
    | string tail => exact ⟨t, tail, rest⟩
    | literal literal => cases literal
  · rintro ⟨t, tail, rest⟩
    exact ⟨t, .string tail, rest⟩

theorem closed_bracket : Before (Json .closed) L ('[' :: s)
      ↔ Before Ws (fun t => Starts ']' L t ∨ Before (Json .elements) L t) s := by
  constructor
  · rintro ⟨t, closed, rest⟩
    cases closed with
    | literal literal => cases literal
    | emptyArray gap => exact ⟨_, gap, .inl ⟨rfl, rest⟩⟩
    | array gap elements => exact ⟨_, gap, .inr ⟨t, elements, rest⟩⟩
  · rintro ⟨t, gap, empty | ⟨u, elements, rest⟩⟩
    · obtain ⟨u, rfl, rest⟩ := starts_iff.mp empty
      exact ⟨u, .emptyArray gap, rest⟩
    · exact ⟨u, .array gap elements, rest⟩

theorem closed_brace : Before (Json .closed) L ('{' :: s)
      ↔ Before Ws (fun t => Starts '}' L t ∨ Before (Json .members) L t) s := by
  constructor
  · rintro ⟨t, closed, rest⟩
    cases closed with
    | literal literal => cases literal
    | emptyObject gap => exact ⟨_, gap, .inl ⟨rfl, rest⟩⟩
    | object gap members => exact ⟨_, gap, .inr ⟨t, members, rest⟩⟩
  · rintro ⟨t, gap, empty | ⟨u, members, rest⟩⟩
    · obtain ⟨u, rfl, rest⟩ := starts_iff.mp empty
      exact ⟨u, .emptyObject gap, rest⟩
    · exact ⟨u, .object gap members, rest⟩

theorem closed_literal {rest : List Char} (literal : Literal c rest) :
    Before (Json .closed) L (c :: s) ↔ Before (Spelled rest) L s := by
  constructor
  · rintro ⟨t, closed, behind⟩
    -- the first character tells the literals apart, from each other and from the other values
    cases literal <;> cases closed with
    | literal same spelled => cases same; exact ⟨t, spelled, behind⟩
  · rintro ⟨t, spelled, behind⟩
    exact ⟨t, .literal literal spelled, behind⟩

theorem not_closed (other : c ∉ ['"', '[', '{', 't', 'f', 'n']) :
    ¬ Before (Json .closed) L (c :: s) := by
  rintro ⟨t, closed, -⟩
  cases closed with
  | literal literal => cases literal <;> simp at other
  | _ => simp at other

/-- The rest of a string, with or without a backslash before it, and the language behind it. -/
def InString : Bool → (List Char → Prop) → List Char → Prop
  | false, L, s => Before StringTail L s
  | true, _, [] => False
  | true, L, c :: s => isUnescaped c = true ∧ Before StringTail L s

theorem inString_quote : InString false L ('"' :: s) ↔ L s := by
  constructor
  · rintro ⟨t, tail, rest⟩
    cases tail with
    | close => exact rest
    | plain _ quote => exact absurd rfl quote
  · intro rest
    exact ⟨s, .close s, rest⟩

theorem inString_backslash : InString false L ('\\' :: s) ↔ InString true L s := by
  constructor
  · rintro ⟨t, tail, rest⟩
    cases tail with
    | plain _ _ backslash => exact absurd rfl backslash
    | escape letter later => exact ⟨letter, t, later, rest⟩
  · intro escaped
    cases s with
    | nil => exact escaped.elim
    | cons c s =>
      obtain ⟨letter, t, later, rest⟩ := escaped
      exact ⟨t, .escape letter later, rest⟩

theorem inString_plain (quote : c ≠ '"') (backslash : c ≠ '\\') :
    InString false L (c :: s) ↔ isUnescaped c = true ∧ InString false L s := by
  constructor
  · rintro ⟨t, tail, rest⟩
    cases tail with
    | close => exact absurd rfl quote
    | plain letter _ _ later => exact ⟨letter, t, later, rest⟩
    | escape => exact absurd rfl backslash
  · rintro ⟨letter, t, later, rest⟩
    exact ⟨t, .plain letter quote backslash later, rest⟩

end

end DistLLM.StructuredOutput
