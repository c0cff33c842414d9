import DistLLM.Library.Grammar

/-!
# JSON texts

The grammar of JSON, with whitespace behind each token, and what each symbol derives behind its
first character.
-/
namespace DistLLM.Library.Json

variable (c : Char)

def isWs : Bool := c ∈ [' ', '\t', '\n', '\r']

def isDigit : Bool := decide ('0' ≤ c) && decide (c ≤ '9')

def isHex : Bool :=
  isDigit c || decide ('a' ≤ c) && decide (c ≤ 'f') || decide ('A' ≤ c) && decide (c ≤ 'F')

def hexValue (digits : List Char) : Nat :=
  digits.foldl (fun n c => 16 * n + (if isDigit c then c.toNat - 48 else (c.toNat - 55) % 32)) 0

/-- No control character, no quote and no backslash. -/
def isPlain : Bool := decide (' ' ≤ c) && decide (c ≠ '"') && decide (c ≠ '\\')

/-- What may follow a backslash, hexadecimal escapes apart. -/
def isEscaped : Bool := c ∈ ['"', '\\', '/', 'b', 'f', 'n', 'r', 't']

inductive Symbol
  | text
  | ws
  | value
  /-- Behind the opening brace. -/
  | objectBody
  | members
  /-- Behind a member. -/
  | moreMembers
  | arrayBody
  /-- Behind an element. -/
  | moreElements
  /-- Behind the opening quote. -/
  | chars
  /-- Behind a backslash. -/
  | escape
  | number
  | int
  | digits
  | frac
  | fracDigits
  | moreFracDigits
  | exp
  | expSign
  | expDigits
  | moreExpDigits
  deriving DecidableEq

open DistLLM.Library.Json.Symbol DistLLM.Library.Sym

abbrev Form := List (Sym Symbol Char)

def rules : Rules Symbol Char
  | text => [[nt ws, nt value, nt ws]]
  | ws => [[], [one isWs, nt ws]]
  | value => [[chr '{', nt ws, nt objectBody], [chr '[', nt ws, nt arrayBody], [chr '"', nt chars],
      spell "true".toList, spell "false".toList, spell "null".toList, [nt number]]
  | objectBody => [[chr '}'], [nt members]]
  | members => [[chr '"', nt chars, nt ws, chr ':', nt ws, nt value, nt ws, nt moreMembers]]
  | moreMembers => [[chr '}'], [chr ',', nt ws, nt members]]
  | arrayBody => [[chr ']'], [nt value, nt ws, nt moreElements]]
  | moreElements => [[chr ']'], [chr ',', nt ws, nt value, nt ws, nt moreElements]]
  | chars => [[chr '"'], [one isPlain, nt chars], [chr '\\', nt escape]]
  | escape => [[one isEscaped, nt chars],
      [chr 'u', one isHex, one isHex, one isHex, one isHex, nt chars]]
  | number => [[chr '-', nt int], [nt int]]
  | int => [[chr '0', nt frac], [one fun c => isDigit c && decide (c ≠ '0'), nt digits]]
  | digits => [[one isDigit, nt digits], [nt frac]]
  | frac => [[chr '.', nt fracDigits], [nt exp]]
  | fracDigits => [[one isDigit, nt moreFracDigits]]
  | moreFracDigits => [[one isDigit, nt moreFracDigits], [nt exp]]
  | exp => [[], [one fun c => c ∈ ['e', 'E'], nt expSign]]
  | expSign => [[one fun c => c ∈ ['+', '-'], nt expDigits], [nt expDigits]]
  | expDigits => [[one isDigit, nt moreExpDigits]]
  | moreExpDigits => [[one isDigit, nt moreExpDigits], []]

abbrev Follows (form : Form) (w : List Char) : Prop := Derives rules form w

def IsText (w : List Char) : Prop := Follows [nt text] w

theorem isText_iff {w : List Char} : IsText w ↔ Follows [nt ws, nt value, nt ws] w := by
  rw [IsText, Follows, derives_nt]
  simp [rules]

section

variable {form : Form} {c : Char} {w : List Char}

def Solid (form : Form) : Prop := ∀ c w, isWs c = true → ¬ Follows form (c :: w)

theorem ws_nil : Follows (nt ws :: form) [] ↔ Follows form [] := by
  simp [Follows, derives_nt, rules]

theorem ws_cons : Follows (nt ws :: form) (c :: w) ↔
    Follows form (c :: w) ∨ (isWs c = true ∧ Follows (nt ws :: form) w) := by
  conv_lhs => rw [Follows, derives_nt]
  simp [rules]

theorem ws_blank (solid : Solid form) (blank : isWs c = true) :
    Follows (nt ws :: form) (c :: w) ↔ Follows (nt ws :: form) w := by
  rw [ws_cons]
  simp [solid c w blank, blank]

theorem ws_solid (mark : isWs c = false) :
    Follows (nt ws :: form) (c :: w) ↔ Follows form (c :: w) := by
  rw [ws_cons]
  simp [mark]

/-! ### Behind the first character -/

theorem chr_cons (a : Char) : Follows (chr a :: form) (c :: w) ↔ c = a ∧ Follows form w :=
  derives_chr_cons a c

theorem value_cons : Follows (nt value :: form) (c :: w) ↔
    (c = '{' ∧ Follows (nt ws :: nt objectBody :: form) w) ∨
    (c = '[' ∧ Follows (nt ws :: nt arrayBody :: form) w) ∨
    (c = '"' ∧ Follows (nt chars :: form) w) ∨
    (c = 't' ∧ Follows (spell "rue".toList ++ form) w) ∨
    (c = 'f' ∧ Follows (spell "alse".toList ++ form) w) ∨
    (c = 'n' ∧ Follows (spell "ull".toList ++ form) w) ∨
    Follows (nt number :: form) (c :: w) := by
  rw [Follows, derives_nt]
  simp [rules, spell]

theorem objectBody_cons : Follows (nt objectBody :: form) (c :: w) ↔
    (c = '}' ∧ Follows form w) ∨ Follows (nt members :: form) (c :: w) := by
  rw [Follows, derives_nt]
  simp [rules]

theorem members_cons : Follows (nt members :: form) (c :: w) ↔
    c = '"' ∧ Follows (nt chars :: nt ws :: chr ':' :: nt ws :: nt value :: nt ws ::
      nt moreMembers :: form) w := by
  rw [Follows, derives_nt]
  simp [rules]

theorem moreMembers_cons : Follows (nt moreMembers :: form) (c :: w) ↔
    (c = '}' ∧ Follows form w) ∨ (c = ',' ∧ Follows (nt ws :: nt members :: form) w) := by
  rw [Follows, derives_nt]
  simp [rules]

theorem arrayBody_cons : Follows (nt arrayBody :: form) (c :: w) ↔ (c = ']' ∧ Follows form w) ∨
      Follows (nt value :: nt ws :: nt moreElements :: form) (c :: w) := by
  rw [Follows, derives_nt]
  simp [rules]

theorem moreElements_cons : Follows (nt moreElements :: form) (c :: w) ↔
    (c = ']' ∧ Follows form w) ∨
      (c = ',' ∧ Follows (nt ws :: nt value :: nt ws :: nt moreElements :: form) w) := by
  rw [Follows, derives_nt]
  simp [rules]

theorem chars_cons : Follows (nt chars :: form) (c :: w) ↔
    (c = '"' ∧ Follows form w) ∨ (isPlain c = true ∧ Follows (nt chars :: form) w) ∨
      (c = '\\' ∧ Follows (nt escape :: form) w) := by
  conv_lhs => rw [Follows, derives_nt]
  simp [rules]

theorem chars_quote : Follows (nt chars :: form) ('"' :: w) ↔ Follows form w := by
  rw [chars_cons]
  simp [isPlain]

theorem chars_backslash :
    Follows (nt chars :: form) ('\\' :: w) ↔ Follows (nt escape :: form) w := by
  rw [chars_cons]
  simp [isPlain]

theorem chars_plain (plain : isPlain c = true) :
    Follows (nt chars :: form) (c :: w) ↔ Follows (nt chars :: form) w := by
  have quote : c ≠ '"' := by
    rintro rfl
    simp [isPlain] at plain
  have backslash : c ≠ '\\' := by
    rintro rfl
    simp [isPlain] at plain
  rw [chars_cons]
  simp [plain, quote, backslash]

namespace CharLists

/-- What holds of all characters of a list is decided along the list, and not over all characters
there are. -/
scoped instance (priority := 2000) decidableForall (p : Char → Prop) [DecidablePred p]
    (l : List Char) : Decidable (∀ c ∈ l, p c) :=
  List.decidableBAll p l

end CharLists

open CharLists

def FourHex (w : List Char) : Prop := 4 ≤ w.length ∧ ∀ c ∈ w.take 4, isHex c = true

instance (w : List Char) : Decidable (FourHex w) :=
  inferInstanceAs (Decidable (_ ∧ _))

theorem plain_of_hex (hex : isHex c = true) : isPlain c = true := by
  have apart : c ≠ '"' ∧ c ≠ '\\' := by
    constructor <;>
    · rintro rfl
      revert hex
      decide
  have above : ' ' ≤ c := by
    simp only [isHex, isDigit, Bool.or_eq_true, Bool.and_eq_true, decide_eq_true_eq] at hex
    rcases hex with (⟨low, -⟩ | ⟨low, -⟩) | ⟨low, -⟩ <;> exact Char.le_trans (by decide) low
  simp [isPlain, apart, above]

theorem escape_cons : Follows (nt escape :: form) (c :: w) ↔
    (isEscaped c = true ∧ Follows (nt chars :: form) w) ∨
      (c = 'u' ∧ FourHex w ∧ Follows (nt chars :: form) w) := by
  rw [Follows, derives_nt]
  simp only [rules, List.mem_cons, List.not_mem_nil, or_false, exists_eq_or_imp, exists_eq_left,
    List.cons_append, List.nil_append, derives_one_cons, derives_chr_cons]
  apply or_congr_right
  apply and_congr_right
  intro _
  rcases w with _ | ⟨a, _ | ⟨b, _ | ⟨c, _ | ⟨d, w⟩⟩⟩⟩
  · simp [FourHex]
  · simp [FourHex]
  · simp [FourHex]
  · simp [FourHex]
  · simp only [derives_one_cons, FourHex]
    constructor
    · rintro ⟨ha, hb, hc, hd, rest⟩
      refine ⟨⟨by simp, by simp [ha, hb, hc, hd]⟩, ?_⟩
      rwa [chars_plain (plain_of_hex ha), chars_plain (plain_of_hex hb),
        chars_plain (plain_of_hex hc), chars_plain (plain_of_hex hd)]
    · rintro ⟨⟨-, hex⟩, rest⟩
      simp only [List.take_succ_cons, List.take_zero, List.mem_cons, List.not_mem_nil, or_false,
        forall_eq_or_imp, forall_eq] at hex
      obtain ⟨ha, hb, hc, hd⟩ := hex
      rw [chars_plain (plain_of_hex ha), chars_plain (plain_of_hex hb),
        chars_plain (plain_of_hex hc), chars_plain (plain_of_hex hd)] at rest
      exact ⟨ha, hb, hc, hd, rest⟩

/-! ### Numbers -/

theorem number_cons : Follows (nt number :: form) (c :: w) ↔
    (c = '-' ∧ Follows (nt int :: form) w) ∨ Follows (nt int :: form) (c :: w) := by
  rw [Follows, derives_nt]
  simp [rules]

theorem int_cons : Follows (nt int :: form) (c :: w) ↔ (c = '0' ∧ Follows (nt frac :: form) w) ∨
      ((isDigit c = true ∧ c ≠ '0') ∧ Follows (nt digits :: form) w) := by
  rw [Follows, derives_nt]
  simp [rules]

theorem value_mark (sign : c ≠ '-') (digit : isDigit c = false) :
    Follows (nt value :: form) (c :: w) ↔
      (c = '{' ∧ Follows (nt ws :: nt objectBody :: form) w) ∨
      (c = '[' ∧ Follows (nt ws :: nt arrayBody :: form) w) ∨
      (c = '"' ∧ Follows (nt chars :: form) w) ∨
      (c = 't' ∧ Follows (spell "rue".toList ++ form) w) ∨
      (c = 'f' ∧ Follows (spell "alse".toList ++ form) w) ∨
      (c = 'n' ∧ Follows (spell "ull".toList ++ form) w) := by
  have zero : c ≠ '0' := by
    rintro rfl
    revert digit
    decide
  rw [value_cons, number_cons, int_cons]
  simp [sign, digit, zero]

/-- What may stand inside a number, behind its first character. -/
def InNumber (symbol : Symbol) : Prop :=
  symbol ∈ [int, digits, frac, fracDigits, moreFracDigits, exp, expSign, expDigits, moreExpDigits]

theorem value_number (begins : c = '-' ∨ isDigit c = true)
    (follows : Follows (nt value :: form) (c :: w)) :
    ∃ symbol, InNumber symbol ∧ symbol ≠ expSign ∧ Follows (nt symbol :: form) w := by
  have number : Follows (nt number :: form) (c :: w) := by
    rw [value_cons] at follows
    rcases follows with ⟨rfl, -⟩ | ⟨rfl, -⟩ | ⟨rfl, -⟩ | ⟨rfl, -⟩ | ⟨rfl, -⟩ | ⟨rfl, -⟩ | number
    · exact absurd begins (by decide)
    · exact absurd begins (by decide)
    · exact absurd begins (by decide)
    · exact absurd begins (by decide)
    · exact absurd begins (by decide)
    · exact absurd begins (by decide)
    · exact number
  rw [number_cons, int_cons] at number
  rcases number with ⟨-, rest⟩ | ⟨-, rest⟩ | ⟨-, rest⟩
  · exact ⟨int, by simp [InNumber], nofun, rest⟩
  · exact ⟨frac, by simp [InNumber], nofun, rest⟩
  · exact ⟨digits, by simp [InNumber], nofun, rest⟩

theorem exp_cons (ends : ∀ w, ¬ Follows form (c :: w)) : Follows (nt exp :: form) (c :: w) ↔
      (c = 'e' ∨ c = 'E') ∧ Follows (nt expSign :: form) w := by
  rw [Follows, derives_nt]
  simp [rules, ends w]

theorem frac_cons (ends : ∀ w, ¬ Follows form (c :: w)) :
    Follows (nt frac :: form) (c :: w) ↔ (c = '.' ∧ Follows (nt fracDigits :: form) w) ∨
      (c = 'e' ∨ c = 'E') ∧ Follows (nt expSign :: form) w := by
  rw [Follows, derives_nt]
  simp [rules, exp_cons ends]

/-- A further character of a number leaves the rest of one. A sign is only right behind the letter
of the exponent. -/
def GoesOn (symbol : Symbol) (form : Form) (c : Char) (w : List Char) : Prop :=
  ∃ next, InNumber next ∧ Follows (nt next :: form) w ∧
    (next = expSign → c = 'e' ∨ c = 'E') ∧ (c = '+' ∨ c = '-' → symbol = expSign)

theorem inNumber_cons {symbol : Symbol} (inside : InNumber symbol)
    (ends : ∀ w, ¬ Follows form (c :: w)) (follows : Follows (nt symbol :: form) (c :: w)) :
    GoesOn symbol form c w := by
  have digit_unsigned : isDigit c = true → ¬ (c = '+' ∨ c = '-') := by
    rintro digit (rfl | rfl) <;> revert digit <;> decide
  have letter_unsigned : c = 'e' ∨ c = 'E' → ¬ (c = '+' ∨ c = '-') := by
    rintro (rfl | rfl) <;> decide
  -- a digit leaves the digits that go on
  have ofDigit : ∀ next, InNumber next → next ≠ expSign → isDigit c = true →
      Follows (nt next :: form) w → GoesOn symbol form c w :=
    fun next number apart digit rest => ⟨next, number, rest, fun same => absurd same apart,
      fun sign => absurd sign (digit_unsigned digit)⟩
  have ofLetter : (c = 'e' ∨ c = 'E') ∧ Follows (nt expSign :: form) w →
      GoesOn symbol form c w := by
    rintro ⟨letter, rest⟩
    exact ⟨expSign, by simp [InNumber], rest, fun _ => letter,
      fun sign => absurd sign (letter_unsigned letter)⟩
  have ofFrac : Follows (nt frac :: form) (c :: w) → GoesOn symbol form c w := by
    intro fraction
    rcases (frac_cons ends).mp fraction with ⟨rfl, rest⟩ | letter
    · exact ⟨fracDigits, by simp [InNumber], rest, by simp, by simp⟩
    · exact ofLetter letter
  simp only [InNumber, List.mem_cons, List.not_mem_nil, or_false] at inside
  rcases inside with rfl | rfl | rfl | rfl | rfl | rfl | rfl | rfl | rfl
  case inr.inr.inl => exact ofFrac follows
  case inl =>
    rcases int_cons.mp follows with ⟨rfl, rest⟩ | ⟨⟨digit, -⟩, rest⟩
    · exact ofDigit frac (by simp [InNumber]) (by decide) (by decide) rest
    · exact ofDigit digits (by simp [InNumber]) (by decide) digit rest
  case inr.inr.inr.inr.inr.inl => exact ofLetter ((exp_cons ends).mp follows)
  all_goals
    rw [Follows, derives_nt] at follows
    simp only [rules, List.mem_cons, List.not_mem_nil, or_false, exists_eq_or_imp, exists_eq_left,
      List.cons_append, List.nil_append, derives_one_cons] at follows
  · rcases follows with ⟨digit, rest⟩ | fraction
    · exact ofDigit digits (by simp [InNumber]) (by decide) digit rest
    · exact ofFrac fraction
  · exact ofDigit moreFracDigits (by simp [InNumber]) (by decide) follows.1 follows.2
  · rcases follows with ⟨digit, rest⟩ | letter
    · exact ofDigit moreFracDigits (by simp [InNumber]) (by decide) digit rest
    · exact ofLetter ((exp_cons ends).mp letter)
  · rcases follows with ⟨sign, rest⟩ | unsigned
    · exact ⟨expDigits, by simp [InNumber], rest, by simp, fun _ => rfl⟩
    · rw [derives_nt] at unsigned
      simp only [rules, List.mem_singleton, exists_eq_left, List.cons_append, List.nil_append,
        derives_one_cons] at unsigned
      exact ofDigit moreExpDigits (by simp [InNumber]) (by decide) unsigned.1 unsigned.2
  · exact ofDigit moreExpDigits (by simp [InNumber]) (by decide) follows.1 follows.2
  · rcases follows with ⟨digit, rest⟩ | ended
    · exact ofDigit moreExpDigits (by simp [InNumber]) (by decide) digit rest
    · exact absurd ended (ends w)

/-! ### Forms that begin with a token -/

omit c w in
theorem solid_nil : Solid [] := by
  intro c w _ follows
  simp [Follows] at follows

theorem solid_chr (mark : isWs c = false) : Solid (chr c :: form) := by
  intro c' w blank follows
  obtain ⟨rfl, -⟩ := (chr_cons c).mp follows
  rw [mark] at blank
  cases blank

section

omit c w

theorem solid_of_marks (none_blank : ∀ c ∈ [' ', '\t', '\n', '\r'], ∀ w, ¬ Follows form (c :: w)) :
    Solid form := by
  intro c w blank
  exact none_blank c (by simpa [isWs] using blank) w

theorem solid_value : Solid (nt value :: form) := by
  apply solid_of_marks
  intro c blank w
  simp only [List.mem_cons, List.not_mem_nil, or_false] at blank
  rcases blank with rfl | rfl | rfl | rfl <;>
    simp [value_cons, number_cons, int_cons, isDigit]

theorem solid_members : Solid (nt members :: form) := by
  apply solid_of_marks
  intro c blank w
  simp only [List.mem_cons, List.not_mem_nil, or_false] at blank
  rcases blank with rfl | rfl | rfl | rfl <;> simp [members_cons]

theorem solid_objectBody : Solid (nt objectBody :: form) := by
  intro c w blank
  rw [objectBody_cons]
  rintro (⟨rfl, -⟩ | follows)
  · revert blank
    decide
  · exact solid_members c w blank follows

theorem solid_arrayBody : Solid (nt arrayBody :: form) := by
  intro c w blank
  rw [arrayBody_cons]
  rintro (⟨rfl, -⟩ | follows)
  · revert blank
    decide
  · exact solid_value c w blank follows

theorem solid_moreMembers : Solid (nt moreMembers :: form) := by
  apply solid_of_marks
  intro c blank w
  simp only [List.mem_cons, List.not_mem_nil, or_false] at blank
  rcases blank with rfl | rfl | rfl | rfl <;> simp [moreMembers_cons]

theorem solid_moreElements : Solid (nt moreElements :: form) := by
  apply solid_of_marks
  intro c blank w
  simp only [List.mem_cons, List.not_mem_nil, or_false] at blank
  rcases blank with rfl | rfl | rfl | rfl <;> simp [moreElements_cons]

end

def nextMark (w : List Char) : Option Char := (w.dropWhile isWs).head?

omit c in
theorem ws_congr_mark {form' : Form} {close : Char} (solid : Solid form) (solid' : Solid form')
    (empty : ¬ Follows form []) (empty' : ¬ Follows form' [])
    (mark : ∀ c w, Follows form (c :: w) ↔ Follows form' (c :: w) ∧ c ≠ close) :
    Follows (nt ws :: form) w ↔ Follows (nt ws :: form') w ∧ nextMark w ≠ some close := by
  induction w with
  | nil => simp [ws_nil, empty, empty']
  | cons c w ih =>
    by_cases blank : isWs c = true
    · rw [ws_blank solid blank, ws_blank solid' blank, ih]
      simp [nextMark, blank]
    · have marks : isWs c = false := by simpa using blank
      rw [ws_solid marks, ws_solid marks, mark]
      simp [nextMark, blank]

omit c in
theorem ws_members : Follows (nt ws :: nt members :: form) w ↔
    Follows (nt ws :: nt objectBody :: form) w ∧ nextMark w ≠ some '}' := by
  apply ws_congr_mark solid_members solid_objectBody
  · simp [Follows, derives_nt, rules]
  · simp [Follows, derives_nt, rules]
  · intro c w
    rw [objectBody_cons, members_cons]
    constructor
    · rintro ⟨rfl, rest⟩
      exact ⟨.inr ⟨rfl, rest⟩, by decide⟩
    · rintro ⟨⟨rfl, -⟩ | member, apart⟩
      · exact absurd rfl apart
      · exact member

omit c in
theorem ws_elements : Follows (nt ws :: nt value :: nt ws :: nt moreElements :: form) w ↔
      Follows (nt ws :: nt arrayBody :: form) w ∧ nextMark w ≠ some ']' := by
  apply ws_congr_mark solid_value solid_arrayBody
  · simp [Follows, derives_nt, rules, spell]
  · simp [Follows, derives_nt, rules, spell]
  · intro c w
    rw [arrayBody_cons]
    constructor
    · intro element
      refine ⟨.inr element, ?_⟩
      rintro rfl
      simp [value_cons, number_cons, int_cons, isDigit] at element
    · rintro ⟨⟨rfl, -⟩ | element, apart⟩
      · exact absurd rfl apart
      · exact element

end

end DistLLM.Library.Json
