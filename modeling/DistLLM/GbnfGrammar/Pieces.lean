import DistLLM.GbnfGrammar.Conformance
import DistLLM.Library.GbnfReading

/-!
# The pieces of a generated grammar

Whatever is written for a property leaves quotes, classes and brackets closed and has no line break,
so a property never ends the rule it stands in. A string between the quotes of a literal can only
mean the string itself, without the quotes that JSON wants around it.
-/
namespace DistLLM.GbnfGrammar

open Library Library.Json.CharLists
open Gbnf (Quoted Scan ScanMode Framed Blanks IsName LitText Escape framed_singleton)
open Json (isWs)

theorem blanks : Blanks isWs where
  space := by decide
  mark := by decide
  name c named := by
    have other : ∀ c ∈ [' ', '\t', '\n', '\r'], Gbnf.isNameChar c = false := by decide
    refine (Bool.not_eq_true _).mp fun blank => ?_
    rw [other c (of_decide_eq_true blank)] at named
    cases named

/-! ### Strings -/

theorem hexValue_unit {n : Nat} (small : n < 0x10000) :
    Json.hexValue [hexDigit (n / 4096), hexDigit (n / 256 % 16), hexDigit (n / 16 % 16),
      hexDigit (n % 16)] = n := by
  have digits : ∀ n < 16, (if Json.isDigit (hexDigit n) then (hexDigit n).toNat - 48
      else ((hexDigit n).toNat - 55) % 32) = n := by decide
  simp only [Json.hexValue, List.foldl_cons, List.foldl_nil, digits (n / 4096) (by omega),
    digits (n / 256 % 16) (by omega), digits (n / 16 % 16) (by omega), digits (n % 16) (by omega)]
  omega

/-- What stands for a character: itself, an escape of two characters, or one with a code. -/
theorem dumpsChar_cases (c : Char) : (dumpsChar c = [c] ∧ c ≠ '"' ∧ c ≠ '\\' ∧ c ≠ '\n') ∨
      (∃ d, dumpsChar c = ['\\', d] ∧ d ∈ ['"', '\\', 'n', 'r', 't', 'f', 'b'] ∧
        ∀ c', Gbnf.unescape d = some c' → c' = c) ∨
      (dumpsChar c = unitEscape c.toNat ∧ c.toNat < 0x10000) ∨
      ∃ high rest, dumpsChar c = unitEscape high ++ unitEscape rest ∧ 0xD800 ≤ high ∧
        high < 0xDC00 ∧ rest < 0x10000 := by
  have short (d : Char) (listed : d ∈ ['"', '\\', 'n', 'r', 't', 'f', 'b'])
      (means : ∀ c', Gbnf.unescape d = some c' → c' = c) (text : dumpsChar c = ['\\', d]) :
      ∃ d, dumpsChar c = ['\\', d] ∧ d ∈ ['"', '\\', 'n', 'r', 't', 'f', 'b'] ∧
        ∀ c', Gbnf.unescape d = some c' → c' = c := ⟨d, text, listed, means⟩
  by_cases quote : c = '"'
  · subst c
    exact .inr (.inl (short '"' (by decide) (fun _ means => (Option.some.inj means).symm) rfl))
  by_cases backslash : c = '\\'
  · subst c
    exact .inr (.inl (short '\\' (by decide) (fun _ means => (Option.some.inj means).symm) rfl))
  by_cases newline : c = '\n'
  · subst c
    exact .inr (.inl (short 'n' (by decide) (fun _ means => (Option.some.inj means).symm) rfl))
  by_cases return_ : c = '\r'
  · subst c
    exact .inr (.inl (short 'r' (by decide) (fun _ means => (Option.some.inj means).symm) rfl))
  by_cases tab : c = '\t'
  · subst c
    exact .inr (.inl (short 't' (by decide) (fun _ means => (Option.some.inj means).symm) rfl))
  by_cases feed : c = '\x0c'
  · subst c
    exact .inr (.inl (short 'f' (by decide) nofun rfl))
  by_cases back : c = '\x08'
  · subst c
    exact .inr (.inl (short 'b' (by decide) nofun rfl))
  by_cases printable : ' ' ≤ c ∧ c ≤ '~'
  · exact .inl ⟨by simp [dumpsChar, quote, backslash, newline, return_, tab, feed, back, printable],
      quote, backslash, newline⟩
  by_cases basic : c.toNat < 0x10000
  · refine .inr (.inr (.inl ⟨?_, basic⟩))
    simp only [dumpsChar, quote, backslash, newline, return_, tab, feed, back, printable, basic,
      if_false, if_true]
  · have valid : c.toNat < 0xD800 ∨ (0xDFFF < c.toNat ∧ c.toNat < 0x110000) := c.valid
    refine .inr (.inr (.inr ⟨0xD800 + (c.toNat - 0x10000) / 0x400,
      0xDC00 + (c.toNat - 0x10000) % 0x400, ?_, by omega, by omega, by omega⟩))
    simp only [dumpsChar, quote, backslash, newline, return_, tab, feed, back, printable, basic,
      if_false]

theorem quoted_unit {n : Nat} (small : n < 0x10000) : Quoted (unitEscape n) := by
  have hex (digit : Nat) (small : digit < 16) : hexDigit digit ≠ '"' ∧ hexDigit digit ≠ '\\' := by
    have digits : ∀ n < 16, hexDigit n ≠ '"' ∧ hexDigit n ≠ '\\' := by decide
    exact digits digit small
  refine .escaped (.of_raw fun c member => ?_)
  simp only [List.mem_cons, List.not_mem_nil, or_false] at member
  rcases member with rfl | rfl | rfl | rfl
  all_goals exact hex _ (by omega)

theorem quoted_dumps (s : Text) : Quoted (s.flatMap dumpsChar) := by
  induction s with
  | nil => exact .nil
  | cons c s ih =>
    refine Quoted.append ?_ ih
    rcases dumpsChar_cases c with ⟨text, quote, backslash, _⟩ | ⟨d, text, _, _⟩ | ⟨text, small⟩ |
      ⟨high, low, text, _, small, small'⟩
    · rw [text]
      exact .raw quote backslash .nil
    · rw [text]
      exact .escaped .nil
    · rw [text]
      exact quoted_unit small
    · rw [text]
      exact (quoted_unit (by omega)).append (quoted_unit small')

theorem oneLine_dumps (s : Text) : '\n' ∉ s.flatMap dumpsChar := by
  have unit {n : Nat} (small : n < 0x10000) : '\n' ∉ unitEscape n := by
    have digits : ∀ n < 16, '\n' ≠ hexDigit n := by decide
    simp [unitEscape, digits (n / 4096) (by omega), digits (n / 256 % 16) (by omega),
      digits (n / 16 % 16) (by omega), digits (n % 16) (by omega)]
  intro member
  obtain ⟨c, -, inside⟩ := List.mem_flatMap.mp member
  rcases dumpsChar_cases c with ⟨text, _, _, other⟩ | ⟨d, text, listed, _⟩ | ⟨text, small⟩ |
    ⟨high, low, text, _, small, small'⟩
  · rw [text, List.mem_singleton] at inside
    exact other inside.symm
  · rw [text] at inside
    rcases List.mem_pair.mp inside with same | rfl
    · cases same
    · revert listed
      decide
  · rw [text] at inside
    exact unit small inside
  · rw [text] at inside
    rcases List.mem_append.mp inside with inside | inside
    · exact unit (by omega) inside
    · exact unit small' inside

variable {t s : Text}

theorem litText_plain {c : Char} (backslash : c ≠ '\\') (text : LitText s (c :: t)) :
    ∃ s', s = c :: s' ∧ LitText s' t := by
  generalize whole : c :: t = w at text
  cases text with
  | nil => cases whole
  | raw _ _ _ rest =>
    obtain ⟨rfl, rfl⟩ := List.cons.inj whole
    exact ⟨_, rfl, rest⟩
  | escape escape _ => cases escape <;> exact absurd (List.cons.inj whole).1 backslash

theorem litText_short {d : Char} (marker : d ∉ ['x', 'u', 'U'])
    (text : LitText s ('\\' :: d :: t)) :
    ∃ c s', s = c :: s' ∧ Gbnf.unescape d = some c ∧ LitText s' t := by
  generalize whole : '\\' :: d :: t = w at text
  cases text with
  | nil => cases whole
  | raw _ backslash _ _ => exact absurd (List.cons.inj whole).1.symm backslash
  | @escape c x s t' escape rest =>
    cases escape with
    | short means =>
      obtain ⟨-, whole⟩ := List.cons.inj whole
      obtain ⟨rfl, rfl⟩ := List.cons.inj whole
      exact ⟨c, s, rfl, means, rest⟩
    | code marked _ _ =>
      obtain ⟨-, whole⟩ := List.cons.inj whole
      obtain ⟨rfl, -⟩ := List.cons.inj whole
      simp only [List.mem_cons, Prod.mk.injEq, List.not_mem_nil, or_false] at marked
      rcases marked with ⟨rfl, _⟩ | ⟨rfl, _⟩ | ⟨rfl, _⟩ <;> exact absurd (by decide) marker

theorem litText_unit {n : Nat} (small : n < 0x10000)
    (text : LitText s (unitEscape n ++ t)) : ∃ c s', s = c :: s' ∧ c.toNat = n ∧ LitText s' t := by
  generalize whole : unitEscape n ++ t = w at text
  cases text with
  | nil => cases whole
  | raw _ backslash _ _ => exact absurd (List.cons.inj whole).1.symm backslash
  | @escape c x s t' escape rest =>
    cases escape with
    | short means =>
      obtain ⟨-, whole⟩ := List.cons.inj whole
      obtain ⟨rfl, -⟩ := List.cons.inj whole
      cases means
    | @code marker digits marked hex value =>
      obtain ⟨-, behind⟩ := List.cons.inj whole
      obtain ⟨rfl, codes⟩ := List.cons.inj behind
      have four : digits.length = 4 := by simpa using marked
      obtain ⟨rfl, rfl⟩ := List.append_inj codes four.symm
      exact ⟨c, s, rfl, value.trans (hexValue_unit small), rest⟩

theorem litText_dumps {s' : Text} (text : LitText s (s'.flatMap dumpsChar)) : s = s' := by
  induction s' generalizing s with
  | nil =>
    generalize empty : ([] : Text).flatMap dumpsChar = w at text
    cases text with
    | nil => rfl
    | raw _ _ _ _ => cases empty
    | escape escape _ => cases escape <;> cases empty
  | cons c s' ih =>
    rw [List.flatMap_cons] at text
    rcases dumpsChar_cases c with ⟨raw, quote, backslash, _⟩ | ⟨d, short, listed, means⟩ |
      ⟨unit, small⟩ | ⟨high, low, pair, least, less, small⟩
    · rw [raw] at text
      obtain ⟨s, rfl, rest⟩ := litText_plain backslash text
      rw [ih rest]
    · rw [short] at text
      have marker : d ∉ ['x', 'u', 'U'] := by
        intro marked
        have other : ∀ d ∈ ['"', '\\', 'n', 'r', 't', 'f', 'b'], d ∉ ['x', 'u', 'U'] := by decide
        exact other d listed marked
      obtain ⟨c', s, rfl, meant, rest⟩ := litText_short marker text
      rw [ih rest, means c' meant]
    · rw [unit] at text
      obtain ⟨c', s, rfl, code, rest⟩ := litText_unit small text
      rw [ih rest, Char.ext (UInt32.toNat_inj.mp code)]
    · rw [pair, List.append_assoc] at text
      obtain ⟨c', s, rfl, code, rest⟩ := litText_unit (by omega) text
      have valid : c'.toNat < 0xD800 ∨ (0xDFFF < c'.toNat ∧ c'.toNat < 0x110000) := c'.valid
      omega

/-! ### Pieces -/

/-- The scan is back where it was behind the text, or has met a colon. -/
def Passes (depth : Nat) (t : Text) : Prop :=
  ∀ bar, Scan.scan ⟨.out, depth, bar⟩ t = none ∨
    Scan.scan ⟨.out, depth, bar⟩ t = some ⟨.out, depth, bar⟩

theorem Passes.append {depth : Nat} (first : Passes depth s)
    (second : Passes depth t) : Passes depth (s ++ t) := by
  intro bar
  rw [Scan.scan_append]
  rcases first bar with stops | goes
  · rw [stops]
    exact .inl rfl
  · rw [goes]
    exact second bar

theorem Passes.blank {b : Text} (blank : b.all isWs = true) (depth : Nat) : Passes depth b :=
  fun bar => .inr (Gbnf.scan_blank blanks blank depth bar)

/-- What is written for a property: it passes the scan, on one line. -/
structure Piece (t : Text) : Prop where
  passes : ∀ depth, Passes depth t
  framed : Framed isWs t
  oneLine : '\n' ∉ t

namespace Piece

theorem append (first : Piece s) (b : Text) (blank : ∀ c ∈ b, c = ' ')
    (second : Piece t) : Piece (s ++ b ++ t) where
  passes depth := by
    have spaces : b.all isWs = true := by
      rw [List.all_eq_true]
      intro c member
      rw [blank c member]
      rfl
    exact ((first.passes depth).append (.blank spaces depth)).append (second.passes depth)
  framed := first.framed.append b second.framed
  oneLine member := by
    rcases List.mem_append.mp member with member | member
    · rcases List.mem_append.mp member with member | member
      · exact first.oneLine member
      · cases blank _ member
    · exact second.oneLine member

theorem between {a b : Char} (solid : isWs a = false ∧ isWs b = false)
    (passes : ∀ depth, Passes depth (a :: t ++ [b])) (oneLine : '\n' ∉ t) :
    Piece (a :: t ++ [b]) where
  passes := passes
  framed := (framed_singleton solid.1).append t (framed_singleton solid.2)
  oneLine := by
    have other : a ≠ '\n' ∧ b ≠ '\n' := by
      constructor
      · rintro rfl
        cases solid.1
      · rintro rfl
        cases solid.2
    simp [oneLine, Ne.symm other.1, Ne.symm other.2]

theorem literal {x : Text} (quoted : Quoted x) (oneLine : '\n' ∉ x) :
    Piece ('"' :: x ++ ['"']) := by
  refine between ⟨rfl, rfl⟩ (fun depth bar => .inr ?_) oneLine
  rw [List.cons_append, Scan.scan_cons]
  show Scan.scan ⟨.lit, depth, bar⟩ _ = _
  rw [Scan.scan_append, quoted.scan]
  rfl

theorem name {name : Text} (isName : IsName name) : Piece name where
  passes depth bar := .inr (isName.scan depth bar)
  framed := (Gbnf.Spells.ref isName).atom_framed blanks
  oneLine := isName.one_line

theorem group (passes : ∀ depth, Passes (depth + 1) t) (oneLine : '\n' ∉ t) :
    Piece ('(' :: t ++ [')']) := by
  refine between ⟨rfl, rfl⟩ (fun depth bar => ?_) oneLine
  rw [List.cons_append, Scan.scan_cons]
  show Scan.scan ⟨.out, depth + 1, bar⟩ _ = none ∨ Scan.scan ⟨.out, depth + 1, bar⟩ _ = _
  rw [Scan.scan_append]
  rcases passes depth bar with stops | goes
  · rw [stops]
    exact .inl rfl
  · rw [goes]
    exact .inr rfl

end Piece

theorem alternatives_piece {parts : List Text} (pieces : ∀ p ∈ parts, Piece p) :
    Piece (alternatives parts) := by
  have inner : (∀ depth, Passes (depth + 1) (" | ".toList.intercalate parts)) ∧
      '\n' ∉ " | ".toList.intercalate parts := by
    induction parts with
    | nil => exact ⟨fun depth => Passes.blank rfl _, List.not_mem_nil⟩
    | cons p parts ih =>
      have first := pieces p List.mem_cons_self
      cases parts with
      | nil => simpa [List.intercalate] using ⟨fun depth => first.passes _, first.oneLine⟩
      | cons q parts =>
        obtain ⟨passes, oneLine⟩ := ih fun p member => pieces p (List.mem_cons_of_mem _ member)
        have joined : " | ".toList.intercalate (p :: q :: parts) =
            p ++ " | ".toList ++ " | ".toList.intercalate (q :: parts) := by
          simp [List.intercalate]
        rw [joined]
        constructor
        · intro depth
          -- inside of parentheses a bar does not end the alternative
          have bar : Passes (depth + 1) " | ".toList := fun bar => .inr (by cases bar <;> rfl)
          exact ((first.passes _).append bar).append (passes depth)
        · simpa [first.oneLine] using oneLine
  have group := Piece.group (t := ' ' :: " | ".toList.intercalate parts ++ [' '])
    (fun depth => ((Passes.blank (b := [' ']) rfl _).append (inner.1 depth)).append (.blank rfl _))
    (by simpa using inner.2)
  simpa [alternatives] using group

theorem primitiveRule_piece (propType : Text) : Piece (primitiveRule propType) := by
  have quoted : Piece ('"' :: "\\\"\" ([^\"\\\\] | \"\\\\\" .)* \"\\\"".toList ++ ['"']) :=
    .between ⟨rfl, rfl⟩ (fun depth bar => .inr (by cases bar <;> rfl)) (by decide)
  have integer : Piece ('(' :: "\"-\"? [0-9]+".toList ++ [')']) :=
    .between ⟨rfl, rfl⟩ (fun depth bar => .inr (by cases bar <;> rfl)) (by decide)
  have number : Piece ('(' :: "\"-\"? ([0-9]+ \".\"[0-9]+ | [0-9]+)".toList ++ [')']) :=
    .between ⟨rfl, rfl⟩ (fun depth bar => .inr (by cases bar <;> rfl)) (by decide)
  have boolean : Piece ('(' :: "\"true\" | \"false\"".toList ++ [')']) :=
    .between ⟨rfl, rfl⟩ (fun depth bar => .inr (by cases bar <;> rfl)) (by decide)
  have null : Piece ('"' :: "null".toList ++ ['"']) :=
    .between ⟨rfl, rfl⟩ (fun depth bar => .inr (by cases bar <;> rfl)) (by decide)
  unfold primitiveRule
  split_ifs
  · exact quoted
  · exact integer
  · exact number
  · exact boolean
  · exact null

/-! ### Types -/

theorem withoutEnds_dumpsStr (s : Text) : withoutEnds (dumpsStr s) = s.flatMap dumpsChar := by
  rw [withoutEnds, dumpsStr, List.cons_append, List.drop_one, List.tail_cons, List.dropLast_concat]

theorem numeral_plain (n : JsonValue.Numeral) : ∀ c ∈ n.text, c ∉ ['"', '\\', '\n'] := by
  have digits {t : Text} (all : t.all Json.isDigit = true) : ∀ c ∈ t, c ∉ ['"', '\\', '\n'] := by
    intro c member marked
    have other : ∀ c ∈ ['"', '\\', '\n'], Json.isDigit c = false := by decide
    have digit := List.all_eq_true.mp all c member
    rw [other c marked] at digit
    cases digit
  intro c member
  simp only [JsonValue.Numeral.text, List.mem_append] at member
  rcases member with ((member | member) | member) | member
  · cases sign : n.negative with
    | false => simp [sign] at member
    | true =>
      obtain rfl : c = '-' := by simpa [sign] using member
      decide
  · exact digits n.digital.2.1 c member
  · split at member
    · cases member
    · rcases List.mem_cons.mp member with rfl | member
      · decide
      · exact digits n.digital.2.2 c member
  · cases exponent : n.exponent with
    | none => simp [exponent] at member
    | some e =>
      simp only [exponent, Option.map_some, Option.getD_some, JsonValue.Exponent.text,
        List.cons_append, List.mem_cons, List.mem_append] at member
      rcases member with rfl | member | member
      · have marks : ∀ c ∈ ['e', 'E'], c ∉ ['"', '\\', '\n'] := by decide
        exact marks _ e.marked
      · have signs : ∀ s ∈ [[], ['+'], ['-']], ∀ c ∈ s, c ∉ ['"', '\\', '\n'] := by decide
        exact signs _ e.signed c member
      · exact digits e.digital.2 c member

theorem scalar_piece (v : Scalar) : Piece ('"' :: withoutEnds v.dumps ++ ['"']) := by
  have plain {t : Text} (all : ∀ c ∈ t, c ∉ ['"', '\\', '\n']) :
      Piece ('"' :: withoutEnds t ++ ['"']) := by
    have kept (c : Char) (member : c ∈ withoutEnds t) : c ∉ ['"', '\\', '\n'] :=
      all c (List.mem_of_mem_drop (List.mem_of_mem_dropLast member))
    refine .literal (.of_raw fun c member => ?_) fun member => kept '\n' member (by decide)
    have other := kept c member
    simp only [List.mem_cons, not_or] at other
    exact ⟨other.1, other.2.1⟩
  cases v with
  | null => exact plain (by decide)
  | bool b => cases b <;> exact plain (by decide)
  | num n => exact plain (numeral_plain n)
  | str s =>
    show Piece ('"' :: withoutEnds (dumpsStr s) ++ ['"'])
    rw [withoutEnds_dumpsStr]
    exact .literal (quoted_dumps s) (oneLine_dumps s)

section

variable {name : Text} (isName : IsName name)
include isName

theorem scan_definition (depth : Nat) (bar : Bool) :
    Scan.scan ⟨.out, depth, bar⟩ (name ++ " ::= value".toList) = none := by
  rw [Scan.scan_append, isName.scan]
  rfl

theorem definition_piece : Piece (name ++ " ::= value".toList) where
  passes depth bar := .inl (scan_definition isName depth bar)
  framed := by
    have last : isWs 'e' = false := rfl
    have sign : Framed isWs "::= value".toList :=
      (framed_singleton rfl).append ":= valu".toList (framed_singleton last)
    have framed := (Piece.name isName).framed.append [' '] sign
    rw [List.append_assoc] at framed
    exact framed
  oneLine := by simp [isName.one_line]

theorem generateRuleForRef_piece : Piece (generateRuleForRef ("#/$defs/".toList ++ name)) := by
  have part : (("#/$defs/".toList ++ name).splitOn '/').getLastD [] = name := by
    have noSlash : '/' ∉ name := by
      intro member
      cases isName.2 _ member
    have whole : "#/$defs/".toList ++ name = "#/$defs".toList ++ '/' :: name := rfl
    rw [whole, List.splitOn_append_cons_self, List.splitOn_eq_singleton noSlash]
    simp
  rw [generateRuleForRef, part]
  exact definition_piece isName

end

theorem typesToRules_eq (schemas : List PropSchema) :
    typesToRules schemas = schemas.map typeToRule := by
  induction schemas with
  | nil => rfl
  | cons s rest ih => rw [typesToRules, ih, List.map_cons]

theorem typeToRule_piece {names : List Text} (isNames : ∀ name ∈ names, IsName name)
    {s : PropSchema} (known : KnownRefs names s) : Piece (typeToRule s) := by
  induction known with
  | @mk s refs below ih =>
    obtain ⟨type, enum, oneOf, ref, properties⟩ := s
    rw [typeToRule.eq_def]
    dsimp only
    split
    · next values =>
      refine alternatives_piece fun p member => ?_
      obtain ⟨v, -, rfl⟩ := List.mem_map.mp member
      exact scalar_piece v
    · split
      · next schemas =>
        rw [typesToRules_eq]
        refine alternatives_piece fun p member => ?_
        obtain ⟨branch, inside, rfl⟩ := List.mem_map.mp member
        exact ih schemas rfl branch inside
      · split
        · next path =>
          obtain ⟨name, member, rfl⟩ := refs path rfl
          exact generateRuleForRef_piece (isNames name member)
        · exact primitiveRule_piece _

end DistLLM.GbnfGrammar
