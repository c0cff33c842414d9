import Mathlib.Computability.Language

/-!
# Regular expressions and their texts

Regular expressions over classes of characters, and a reader of the usual notation: characters,
escapes, classes, groups without capture, alternation and repetition. What a piece of text adds to
the expression read so far tells which language it stands for.
-/
namespace DistLLM.Library

open Computability

/-- A set of characters, or all others. A range without an upper end is one character. -/
structure CharClass where
  negated : Bool
  ranges : List (Char × Option Char)
  deriving DecidableEq, Repr

variable {c : Char} {cs : List Char}

namespace CharClass

def Contains (cls : CharClass) (c : Char) : Prop :=
  (∃ r ∈ cls.ranges, r.1 ≤ c ∧ c ≤ r.2.getD r.1) ↔ cls.negated = false

def lang (cls : CharClass) : Language Char := {w | ∃ c, w = [c] ∧ cls.Contains c}

def ofChars (negated : Bool) (cs : List Char) : CharClass := ⟨negated, cs.map fun c => (c, none)⟩

theorem contains_ofChars {negated : Bool} :
    (ofChars negated cs).Contains c ↔ (c ∈ cs ↔ negated = false) := by
  have inside : (∃ r ∈ (ofChars negated cs).ranges, r.1 ≤ c ∧ c ≤ r.2.getD r.1) ↔ c ∈ cs := by
    simp only [ofChars, List.mem_map, exists_exists_and_eq_and, Option.getD_none]
    constructor
    · rintro ⟨a, member, low, high⟩
      rwa [← Char.le_antisymm low high]
    · intro member
      exact ⟨c, member, Char.le_refl c, Char.le_refl c⟩
  unfold Contains
  rw [inside]
  rfl

theorem lang_congr {cls cls' : CharClass} (same : ∀ c, cls.Contains c ↔ cls'.Contains c) :
    cls.lang = cls'.lang := by
  ext w
  show (∃ c, w = [c] ∧ cls.Contains c) ↔ ∃ c, w = [c] ∧ cls'.Contains c
  simp only [same]

theorem lang_chr (c : Char) : (ofChars false [c]).lang = {[c]} := by
  ext w
  show (∃ a, w = [a] ∧ (ofChars false [c]).Contains a) ↔ w = [c]
  simp only [contains_ofChars, List.mem_singleton, iff_true, exists_eq_right]

end CharClass

inductive Regex
  | zero
  | eps
  | cls (cls : CharClass)
  | seq (r s : Regex)
  | alt (r s : Regex)
  | star (r : Regex)
  | plus (r : Regex)
  | opt (r : Regex)
  deriving DecidableEq, Repr

namespace Regex

def lang : Regex → Language Char
  | zero => 0
  | eps => 1
  | cls c => c.lang
  | seq r s => r.lang * s.lang
  | alt r s => r.lang + s.lang
  | star r => r.lang∗
  | plus r => r.lang * r.lang∗
  | opt r => 1 + r.lang

/-! ### Reading -/

/-- A group while it is read: the alternatives that are complete, the items of the one being read,
and the last item, as long as a repetition can be put on it. -/
structure Frame where
  done : Regex := .zero
  items : Regex := .eps
  last : Option Regex := none
  deriving DecidableEq, Repr

namespace Frame

variable (fr : Frame)

def current : Regex :=
  match fr.last with
  | none => fr.items
  | some r => .seq fr.items r

def value : Regex := .alt fr.done fr.current

def push (r : Regex) : Frame := { fr with items := fr.current, last := some r }

def bar : Frame := { done := fr.value }

def repeatLast (f : Regex → Regex) : Option Frame :=
  fr.last.map fun r => { fr with items := .seq fr.items (f r), last := none }

end Frame

/-- A class while it is read, with the last range first. A single character can become the lower
end of a range. -/
structure OpenClass where
  negated : Bool := false
  ranges : List (Char × Option Char) := []
  single : Bool := false
  dash : Bool := false
  escaped : Bool := false
  deriving DecidableEq, Repr

inductive Mode
  | plain
  | escaped
  /-- Behind an opening bracket of a group. -/
  | opened
  | openedMark
  /-- Behind the opening bracket of a class. -/
  | clsStart
  | cls (c : OpenClass)
  deriving DecidableEq, Repr

structure Reader where
  mode : Mode := .plain
  frame : Frame := {}
  outer : List Frame := []
  deriving DecidableEq, Repr

/-- The character behind a backslash: a letter for a control character, or no letter or digit. -/
def unescape (c : Char) : Option Char :=
  if c = 'n' then some '\n'
  else if c = 't' then some '\t'
  else if c = 'r' then some '\r'
  else if c.isAlphanum then none
  else some c

namespace OpenClass

/-- A character of a class, which ends a range that is open. -/
def char (cl : OpenClass) (c : Char) : OpenClass :=
  match cl.dash, cl.ranges with
  | true, (low, _) :: rest =>
    { cl with ranges := (low, some c) :: rest, single := false, dash := false, escaped := false }
  | _, ranges =>
    { cl with ranges := (c, none) :: ranges, single := true, dash := false, escaped := false }

/-- The class at its closing bracket. A dash before it is a character. -/
def close (cl : OpenClass) : CharClass :=
  ⟨cl.negated, if cl.dash then ('-', none) :: cl.ranges else cl.ranges⟩

end OpenClass

namespace Reader

def step (rd : Reader) (c : Char) : Option Reader :=
  match rd.mode with
  | .plain =>
    if c = '\\' then some { rd with mode := .escaped }
    else if c = '[' then some { rd with mode := .clsStart }
    else if c = '(' then some { rd with mode := .opened }
    else if c = ')' then
      match rd.outer with
      | [] => none
      | fr :: outer => some { rd with frame := fr.push rd.frame.value, outer }
    else if c = '|' then some { rd with frame := rd.frame.bar }
    else if c = '*' then (rd.frame.repeatLast .star).map fun frame => { rd with frame }
    else if c = '+' then (rd.frame.repeatLast .plus).map fun frame => { rd with frame }
    else if c = '?' then (rd.frame.repeatLast .opt).map fun frame => { rd with frame }
    else if c ∈ ['.', '^', '$', '{', '}', ']'] then none
    else some { rd with frame := rd.frame.push (.cls (.ofChars false [c])) }
  | .escaped => (unescape c).map fun c =>
      { rd with mode := .plain, frame := rd.frame.push (.cls (.ofChars false [c])) }
  | .opened => if c = '?' then some { rd with mode := .openedMark } else none
  | .openedMark =>
    if c = ':' then some { mode := .plain, frame := {}, outer := rd.frame :: rd.outer } else none
  | .clsStart =>
    if c = '^' then some { rd with mode := .cls { negated := true } }
    else if c = '\\' then some { rd with mode := .cls { escaped := true } }
    else if c = ']' then none
    else some { rd with mode := .cls (OpenClass.char {} c) }
  | .cls cl =>
    if cl.escaped then (unescape c).map fun c => { rd with mode := .cls (cl.char c) }
    else if c = '\\' then some { rd with mode := .cls { cl with escaped := true } }
    else if c = ']' then
      if cl.ranges = [] then none
      else some { rd with mode := .plain, frame := rd.frame.push (.cls cl.close) }
    else if c = '-' ∧ cl.single = true ∧ cl.dash = false then
      some { rd with mode := .cls { cl with dash := true } }
    else some { rd with mode := .cls (cl.char c) }

/-- Reading goes on, unless the text is not an expression. -/
def feed (rd : Reader) (text : List Char) : Option Reader := text.foldlM step rd

end Reader

def read (text : List Char) : Option Regex :=
  (Reader.feed {} text).bind fun rd =>
    if rd.mode = .plain ∧ rd.outer = [] then some rd.frame.value else none

open Reader

theorem Reader.feed_append (rd : Reader) (s t : List Char) :
    rd.feed (s ++ t) = (rd.feed s).bind fun rd => rd.feed t := List.foldlM_append ..

theorem Reader.feed_cons (rd : Reader) (c : Char) (t : List Char) :
    rd.feed (c :: t) = (rd.step c).bind fun rd => rd.feed t := rfl

@[simp] theorem Reader.feed_nil (rd : Reader) : rd.feed [] = some rd := rfl

/-- The text is one item, which a repetition can be put on. -/
def AtomText (text : List Char) (L : Language Char) : Prop :=
  ∀ fr outer, ∃ r : Regex, r.lang = L ∧
    Reader.feed ⟨.plain, fr, outer⟩ text = some ⟨.plain, fr.push r, outer⟩

/-- The text goes on with the alternative that is being read. -/
def SeqText (text : List Char) (L : Language Char) : Prop :=
  ∀ fr outer, ∃ fr' : Frame, fr'.done = fr.done ∧ fr'.current.lang = fr.current.lang * L ∧
    Reader.feed ⟨.plain, fr, outer⟩ text = some ⟨.plain, fr', outer⟩

def AltText (text : List Char) (L : Language Char) : Prop :=
  ∀ done outer, ∃ fr' : Frame, fr'.value.lang = done.lang + L ∧
    Reader.feed ⟨.plain, { done }, outer⟩ text = some ⟨.plain, fr', outer⟩

section

variable {s t : List Char} {L M : Language Char}

theorem AtomText.seq (atom : AtomText s L) : SeqText s L := by
  intro fr outer
  obtain ⟨r, lang, feed⟩ := atom fr outer
  exact ⟨fr.push r, rfl, by simp [Frame.push, Frame.current, Regex.lang, lang], feed⟩

theorem SeqText.nil : SeqText [] 1 := by
  intro fr outer
  exact ⟨fr, rfl, (mul_one _).symm, rfl⟩

theorem SeqText.append (first : SeqText s L) (second : SeqText t M) : SeqText (s ++ t) (L * M) := by
  intro fr outer
  obtain ⟨fr', done, lang, feed⟩ := first fr outer
  obtain ⟨fr'', done', lang', feed'⟩ := second fr' outer
  refine ⟨fr'', done'.trans done, ?_, ?_⟩
  · rw [lang', lang, mul_assoc]
  · rw [feed_append, feed, Option.bind_some, feed']

theorem SeqText.alt (seq : SeqText s L) : AltText s L := by
  intro done outer
  obtain ⟨fr', done', lang, feed⟩ := seq { done } outer
  refine ⟨fr', ?_, feed⟩
  rw [Frame.value, Regex.lang, lang, done']
  simp [Frame.current, Regex.lang]

theorem AltText.bar (first : AltText s L) (second : AltText t M) :
    AltText (s ++ '|' :: t) (L + M) := by
  intro done outer
  obtain ⟨fr', lang, feed⟩ := first done outer
  obtain ⟨fr'', lang', feed'⟩ := second fr'.value outer
  refine ⟨fr'', by rw [lang', lang, add_assoc], ?_⟩
  rw [feed_append, feed, Option.bind_some, feed_cons]
  exact feed'

theorem AltText.group (alts : AltText s L) : AtomText ("(?:".toList ++ s ++ [')']) L := by
  intro fr outer
  obtain ⟨fr', lang, feed⟩ := alts .zero (fr :: outer)
  refine ⟨fr'.value, by rw [lang, Regex.lang, zero_add], ?_⟩
  show (Reader.feed ⟨.plain, {}, fr :: outer⟩ (s ++ [')'])) = _
  rw [feed_append, feed]
  rfl

theorem AtomText.repeat {f : Regex → Regex} {op : Char} {F : Language Char → Language Char}
    (means : ∀ r : Regex, (f r).lang = F r.lang)
    (takes : ∀ fr outer, Reader.step ⟨.plain, fr, outer⟩ op =
      (fr.repeatLast f).map fun frame => ⟨.plain, frame, outer⟩)
    (atom : AtomText s L) : SeqText (s ++ [op]) (F L) := by
  intro fr outer
  obtain ⟨r, lang, feed⟩ := atom fr outer
  refine ⟨⟨fr.done, .seq fr.current (f r), none⟩, rfl, ?_, ?_⟩
  · simp [Frame.current, Regex.lang, means, lang]
  · rw [feed_append, feed, Option.bind_some, feed_cons, takes]
    rfl

theorem AtomText.star (atom : AtomText s L) : SeqText (s ++ ['*']) L∗ :=
  atom.repeat (f := .star) (F := fun L => L∗) (fun _ => rfl) fun _ _ => rfl

theorem AtomText.plus (atom : AtomText s L) : SeqText (s ++ ['+']) (L * L∗) :=
  atom.repeat (f := .plus) (F := fun L => L * L∗) (fun _ => rfl) fun _ _ => rfl

theorem AtomText.opt (atom : AtomText s L) : SeqText (s ++ ['?']) (1 + L) :=
  atom.repeat (f := .opt) (F := fun L => 1 + L) (fun _ => rfl) fun _ _ => rfl

theorem AltText.read (alts : AltText s L) : ∃ r, Regex.read s = some r ∧ r.lang = L := by
  obtain ⟨fr, lang, feed⟩ := alts .zero []
  refine ⟨fr.value, ?_, by rw [lang, Regex.lang, zero_add]⟩
  rw [Regex.read]
  have fed : Reader.feed {} s = some ⟨.plain, fr, []⟩ := feed
  rw [fed]
  rfl

/-- Characters that a backslash takes their meaning from. -/
def isSpecial (c : Char) : Bool :=
  c ∈ ['\\', '[', '(', ')', '|', '*', '+', '?', '.', '^', '$', '{', '}', ']']

theorem AtomText.chr (plain : isSpecial c = false) : AtomText [c] {[c]} := by
  intro fr outer
  refine ⟨.cls (.ofChars false [c]), CharClass.lang_chr c, ?_⟩
  simp only [isSpecial, List.mem_cons, List.not_mem_nil, or_false, decide_eq_false_iff_not,
    not_or] at plain
  rw [feed_cons]
  simp [step, plain]

theorem AtomText.escaped {c' : Char} (means : unescape c = some c') :
    AtomText ['\\', c] {[c']} := by
  intro fr outer
  refine ⟨.cls (.ofChars false [c']), CharClass.lang_chr c', ?_⟩
  simp [step, feed_cons, means]

/-- The text is the character itself inside a class. -/
def ClassItem (text : List Char) (c : Char) : Prop :=
  (text = [c] ∧ c ∉ ['\\', ']', '-', '^']) ∨ ∃ d, text = ['\\', d] ∧ unescape d = some c

theorem ClassItem.feed {text : List Char} (item : ClassItem text c) (cl : OpenClass)
    (dash : cl.dash = false) (escaped : cl.escaped = false) (fr : Frame) (outer : List Frame) :
    Reader.feed ⟨.cls cl, fr, outer⟩ text =
      some ⟨.cls { cl with ranges := (c, none) :: cl.ranges, single := true }, fr, outer⟩ := by
  obtain ⟨negated, ranges, single, dash', escaped'⟩ := cl
  cases dash
  cases escaped
  rcases item with ⟨rfl, plain⟩ | ⟨d, rfl, means⟩
  · simp only [List.mem_cons, List.not_mem_nil, or_false, not_or] at plain
    simp [feed_cons, step, plain, OpenClass.char]
  · simp [feed_cons, step, means, OpenClass.char]

theorem feed_classItems {texts : List (List Char)} (items : List.Forall₂ ClassItem texts cs)
    (cl : OpenClass) (dash : cl.dash = false) (escaped : cl.escaped = false) (fr : Frame)
    (outer : List Frame) :
    ∃ cl' : OpenClass, cl'.negated = cl.negated ∧ cl'.dash = false ∧ cl'.escaped = false ∧
      cl'.ranges = (cs.map fun c => (c, none)).reverse ++ cl.ranges ∧
      Reader.feed ⟨.cls cl, fr, outer⟩ texts.flatten = some ⟨.cls cl', fr, outer⟩ := by
  induction items generalizing cl with
  | nil => exact ⟨cl, rfl, dash, escaped, rfl, rfl⟩
  | cons item _ ih =>
    obtain ⟨cl', negated, dash', escaped', ranges, feed⟩ :=
      ih { cl with ranges := (_, _) :: cl.ranges, single := true } dash escaped
    refine ⟨cl', negated, dash', escaped', by simpa using ranges, ?_⟩
    rw [List.flatten_cons, feed_append, item.feed cl dash escaped, Option.bind_some]
    exact feed

theorem ClassItem.feed_start {text rest : List Char} (item : ClassItem text c) (fr : Frame)
    (outer : List Frame) : Reader.feed ⟨.clsStart, fr, outer⟩ (text ++ rest) =
      Reader.feed ⟨.cls {}, fr, outer⟩ (text ++ rest) := by
  rcases item with ⟨rfl, plain⟩ | ⟨d, rfl, means⟩
  · simp only [List.mem_cons, List.not_mem_nil, or_false, not_or] at plain
    simp [feed_cons, step, plain]
  · simp [feed_cons, step]

theorem AtomText.cls {negated : Bool} {texts : List (List Char)}
    (items : List.Forall₂ ClassItem texts cs) (nonempty : cs ≠ []) :
    AtomText ('[' :: (if negated then ['^'] else []) ++ texts.flatten ++ [']'])
      (CharClass.ofChars negated cs).lang := by
  intro fr outer
  obtain ⟨cl, isNegated, dash, escaped, ranges, feed⟩ :=
    feed_classItems items { negated } rfl rfl fr outer
  have close : cl.close.lang = (CharClass.ofChars negated cs).lang := by
    apply CharClass.lang_congr
    intro c
    rw [CharClass.Contains, CharClass.Contains, OpenClass.close, dash, ranges, isNegated]
    simp [CharClass.ofChars]
  have some_ranges : cl.ranges ≠ [] := by
    rw [ranges]
    simpa using nonempty
  have ended : Reader.feed ⟨.cls cl, fr, outer⟩ [']'] =
      some ⟨.plain, fr.push (.cls cl.close), outer⟩ := by
    simp [feed_cons, step, escaped, some_ranges]
  have opened : Reader.feed ⟨.plain, fr, outer⟩
      ('[' :: (if negated then ['^'] else []) ++ texts.flatten ++ [']']) =
        Reader.feed ⟨.cls { negated }, fr, outer⟩ (texts.flatten ++ [']']) := by
    cases negated with
    | true => rfl
    | false =>
      cases items with
      | nil => exact absurd rfl nonempty
      | cons item rest =>
        rw [List.flatten_cons, List.append_assoc]
        simp only [Bool.false_eq_true, if_false, List.append_assoc]
        exact item.feed_start fr outer
  refine ⟨.cls cl.close, close, ?_⟩
  rw [opened, feed_append, feed, Option.bind_some, ended]

end

end Regex

end DistLLM.Library
