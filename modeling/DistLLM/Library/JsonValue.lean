import Mathlib.Algebra.Field.Rat
import DistLLM.Library.Json

/-!
# JSON values

The values that JSON texts stand for, and the texts of a value. Keys are read off before the first
colon of a text: the characters of a key leave no fewer characters in its string.
-/
namespace DistLLM.Library.JsonValue

open Json (isWs isDigit isHex hexValue isPlain)

def digitsValue (digits : List Char) : Nat := digits.foldl (fun n c => 10 * n + (c.toNat - 48)) 0

structure Exponent where
  mark : Char
  sign : List Char
  digits : List Char
  marked : mark ∈ ['e', 'E']
  signed : sign ∈ [[], ['+'], ['-']]
  digital : digits ≠ [] ∧ digits.all isDigit = true

structure Numeral where
  negative : Bool
  whole : List Char
  /-- The digits behind the point, if there is one. -/
  fraction : List Char := []
  exponent : Option Exponent := none
  digital : whole ≠ [] ∧ whole.all isDigit = true ∧ fraction.all isDigit = true
  /-- No leading zeros. -/
  leading : whole.head? = some '0' → whole = ['0']

namespace Exponent

variable (e : Exponent)

def text : List Char := e.mark :: e.sign ++ e.digits

def value : Int := if e.sign = ['-'] then -digitsValue e.digits else digitsValue e.digits

end Exponent

namespace Numeral

variable (n : Numeral)

def text : List Char :=
  (if n.negative then ['-'] else []) ++ n.whole ++
    (if n.fraction = [] then [] else '.' :: n.fraction) ++ (n.exponent.map Exponent.text).getD []

def value : ℚ :=
  (if n.negative then -1 else 1) * digitsValue (n.whole ++ n.fraction) *
    10 ^ ((n.exponent.map Exponent.value).getD 0 - n.fraction.length)

end Numeral

inductive Value
  | null
  | bool (b : Bool)
  | num (q : ℚ)
  | str (s : List Char)
  | arr (vs : List Value)
  | obj (es : List (List Char × Value))

/-- Four hexadecimal digits with their value. -/
def IsUnit (unit : Nat) (digits : List Char) : Prop :=
  digits.length = 4 ∧ digits.all isHex = true ∧ hexValue digits = unit

inductive CharText : Char → List Char → Prop
  | plain {c} : isPlain c = true → CharText c [c]
  | short {c d} : (d, c) ∈ [('"', '"'), ('\\', '\\'), ('/', '/'), ('b', '\x08'), ('f', '\x0c'),
      ('n', '\n'), ('r', '\r'), ('t', '\t')] → CharText c ['\\', d]
  | unit {c x} : IsUnit c.toNat x → CharText c ('\\' :: 'u' :: x)
  /-- A surrogate pair. -/
  | pair {c high low x y} : 0xD800 ≤ high → high < 0xDC00 → 0xDC00 ≤ low → low < 0xE000 →
      IsUnit high x → IsUnit low y →
      c.toNat = 0x10000 + (high - 0xD800) * 0x400 + (low - 0xDC00) →
      CharText c ('\\' :: 'u' :: x ++ '\\' :: 'u' :: y)

/-- The characters of a string between its quotes. -/
inductive CharsText : List Char → List Char → Prop
  | nil : CharsText [] []
  | cons {c x s t} : CharText c x → CharsText s t → CharsText (c :: s) (x ++ t)

mutual

/-- A text of a value, without whitespace around it. -/
inductive ValueText : Value → List Char → Prop
  | null : ValueText .null "null".toList
  | bool (b) : ValueText (.bool b) (if b then "true".toList else "false".toList)
  | num (n : Numeral) : ValueText (.num n.value) n.text
  | str {s t} : CharsText s t → ValueText (.str s) ('"' :: t ++ ['"'])
  | empty {b} : b.all isWs = true → ValueText (.arr []) ('[' :: b ++ [']'])
  | arr {vs t} : ElementsText vs t → ValueText (.arr vs) ('[' :: t ++ [']'])
  | none {b} : b.all isWs = true → ValueText (.obj []) ('{' :: b ++ ['}'])
  | obj {es t} : MembersText es t → ValueText (.obj es) ('{' :: t ++ ['}'])

inductive ElementsText : List Value → List Char → Prop
  | one {v b t d} : b.all isWs = true → ValueText v t → d.all isWs = true →
      ElementsText [v] (b ++ t ++ d)
  | cons {v vs b t d t'} : b.all isWs = true → ValueText v t → d.all isWs = true →
      ElementsText vs t' → ElementsText (v :: vs) (b ++ t ++ d ++ ',' :: t')

inductive MembersText : List (List Char × Value) → List Char → Prop
  | one {k v t} : MemberText k v t → MembersText [(k, v)] t
  | cons {k v es t t'} : MemberText k v t → MembersText es t' →
      MembersText ((k, v) :: es) (t ++ ',' :: t')

/-- A key with its value, and whitespace around all of them. -/
inductive MemberText : List Char → Value → List Char → Prop
  | mk {k v b x d d' t u} : b.all isWs = true → CharsText k x → d.all isWs = true →
      d'.all isWs = true → ValueText v t → u.all isWs = true →
      MemberText k v (b ++ '"' :: x ++ '"' :: d ++ ':' :: d' ++ t ++ u)

end

def IsTextOf (v : Value) (w : List Char) : Prop :=
  ∃ b t d, b.all isWs = true ∧ ValueText v t ∧ d.all isWs = true ∧ w = b ++ t ++ d

/-! ### Before the first colon -/

def beforeColon (t : List Char) : List Char :=
  (t.takeWhile fun c => c ≠ ':').filter fun c => !isWs c

theorem beforeColon_append {s : List Char} (absent : ':' ∉ s) (t : List Char) :
    beforeColon (s ++ t) = s.filter (fun c => !isWs c) ++ beforeColon t := by
  have all : ∀ c ∈ s, decide (c ≠ ':') = true := by
    intro c member
    rw [decide_eq_true_eq]
    rintro rfl
    exact absent member
  rw [beforeColon, List.takeWhile_append_of_pos all, List.filter_append]
  rfl

theorem beforeColon_blank {b : List Char} (blank : b.all isWs = true) (t : List Char) :
    beforeColon (b ++ t) = beforeColon t := by
  have all := List.all_eq_true.mp blank
  have absent : ':' ∉ b := by
    intro member
    cases all ':' member
  have filtered : b.filter (fun c => !isWs c) = [] := by
    rw [List.filter_eq_nil_iff]
    intro c member
    simp [all c member]
  rw [beforeColon_append absent, filtered, List.nil_append]

theorem beforeColon_cons {c : Char} (solid : isWs c = false) (other : c ≠ ':') (t : List Char) :
    beforeColon (c :: t) = c :: beforeColon t := by
  have absent : ':' ∉ [c] := by simpa using Ne.symm other
  have apart := beforeColon_append absent t
  rw [List.singleton_append] at apart
  rw [apart]
  simp [solid]

theorem length_beforeColon_le (k : List Char) {b : List Char} (blank : b.all isWs = true)
    (t : List Char) : (beforeColon (k ++ (b ++ ':' :: t))).length ≤ (beforeColon k).length := by
  induction k with
  | nil =>
    rw [List.nil_append, beforeColon_blank blank]
    exact le_rfl
  | cons c k ih =>
    by_cases colon : c = ':'
    · subst c
      exact Nat.zero_le _
    · have single : ':' ∉ [c] := by simpa using Ne.symm colon
      have before := beforeColon_append single
      have here := before (k ++ (b ++ ':' :: t))
      have there := before k
      simp only [List.singleton_append] at here there
      rw [List.cons_append, here, there, List.length_append, List.length_append]
      omega

theorem CharText.noColon {c : Char} {x : List Char} (text : CharText c x) (other : c ≠ ':') :
    ':' ∉ x := by
  have digits {n : Nat} {x : List Char} (unit : IsUnit n x) : ':' ∉ x := by
    intro member
    cases List.all_eq_true.mp unit.2.1 ':' member
  cases text with
  | plain _ => simpa using Ne.symm other
  | short listed =>
    simp only [List.mem_cons, Prod.mk.injEq, List.not_mem_nil, or_false] at listed
    rcases listed with ⟨rfl, _⟩ | ⟨rfl, _⟩ | ⟨rfl, _⟩ | ⟨rfl, _⟩ | ⟨rfl, _⟩ | ⟨rfl, _⟩ | ⟨rfl, _⟩ |
      ⟨rfl, _⟩
    all_goals decide
  | unit unit => simp [digits unit]
  | pair _ _ _ _ unit unit' _ => simp [digits unit, digits unit']

theorem CharText.solid {c : Char} {x : List Char} (text : CharText c x) :
    ([c].filter fun c => !isWs c).length ≤ (x.filter fun c => !isWs c).length := by
  have most : ([c].filter fun c => !isWs c).length ≤ 1 := List.length_filter_le ..
  cases text with
  | plain _ => exact le_rfl
  | short _ => exact most.trans (by simp [isWs])
  | unit _ => exact most.trans (by simp [isWs])
  | pair _ _ _ _ _ _ _ => exact most.trans (by simp [isWs])

theorem CharsText.length_le {s t : List Char} (text : CharsText s t) (rest : List Char) :
    (beforeColon s).length ≤ (beforeColon (t ++ rest)).length := by
  induction text with
  | nil => exact Nat.zero_le _
  | @cons c x s t char _ ih =>
    by_cases colon : c = ':'
    · subst c
      exact Nat.zero_le _
    · have single : ':' ∉ [c] := by simpa using Ne.symm colon
      have here := beforeColon_append single s
      rw [List.singleton_append] at here
      rw [here, List.append_assoc, beforeColon_append (char.noColon colon), List.length_append,
        List.length_append]
      exact Nat.add_le_add char.solid ih

theorem IsTextOf.length_le {k : List Char} {v : Value} {es : List (List Char × Value)}
    {w : List Char} (text : IsTextOf (.obj ((k, v) :: es)) w) :
    (beforeColon k).length + 2 ≤ (beforeColon w).length := by
  obtain ⟨b, t, d, blank, value, _, rfl⟩ := text
  have member {t : List Char} (member : MemberText k v t) (rest : List Char) :
      (beforeColon k).length + 1 ≤ (beforeColon (t ++ rest)).length := by
    cases member with
    | @mk _ _ b x d d' t u blank chars _ _ _ _ =>
      have kept := chars.length_le ('"' :: d ++ ':' :: d' ++ t ++ u ++ rest)
      have text : b ++ '"' :: x ++ '"' :: d ++ ':' :: d' ++ t ++ u ++ rest =
          b ++ '"' :: (x ++ ('"' :: d ++ ':' :: d' ++ t ++ u ++ rest)) := by simp
      rw [text, beforeColon_blank blank, beforeColon_cons rfl (by decide), List.length_cons]
      omega
  have braced {t : List Char} (members : MembersText ((k, v) :: es) t) :
      (beforeColon k).length + 1 ≤ (beforeColon (t ++ ('}' :: d))).length := by
    cases members with
    | one first => exact member first ('}' :: d)
    | @cons _ _ _ t t' first _ =>
      rw [List.append_assoc]
      exact member first _
  cases value with
  | @obj _ t members =>
    have text : b ++ ('{' :: t ++ ['}']) ++ d = b ++ '{' :: (t ++ '}' :: d) := by simp
    have inside := braced members
    rw [text, beforeColon_blank blank, beforeColon_cons rfl (by decide), List.length_cons]
    omega

end DistLLM.Library.JsonValue
