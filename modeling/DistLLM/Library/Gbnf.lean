import Mathlib.Data.List.DropRight
import DistLLM.Library.Json
import DistLLM.Library.Regex

/-!
# GBNF grammars

Rules of literals, character classes, references, groups, alternatives and repetitions: what they
derive, and how they are written.
-/
namespace DistLLM.Library.Gbnf

open Computability

inductive Op
  | star
  | plus
  | opt
  deriving DecidableEq, Repr

def Op.char : Op → Char
  | star => '*'
  | plus => '+'
  | opt => '?'

inductive Expr
  | eps
  | lit (s : List Char)
  | cls (c : CharClass)
  | any
  | ref (name : List Char)
  | group (e : Expr)
  | rep (op : Op) (e : Expr)
  | seq (e f : Expr)
  | alt (e f : Expr)
  deriving DecidableEq, Repr

abbrev Rules := List Char → Option Expr

/-! ### What a rule derives -/

inductive Derives (rules : Rules) : Expr → List Char → Prop
  | eps : Derives rules .eps []
  | lit (s) : Derives rules (.lit s) s
  | cls {cls c} : cls.Contains c → Derives rules (.cls cls) [c]
  | any (c) : Derives rules .any [c]
  | ref {name e w} : rules name = some e → Derives rules e w → Derives rules (.ref name) w
  | group {e w} : Derives rules e w → Derives rules (.group e) w
  | star {e} {ws : List (List Char)} : (∀ w ∈ ws, Derives rules e w) →
      Derives rules (.rep .star e) ws.flatten
  | plus {e} {ws : List (List Char)} : ws ≠ [] → (∀ w ∈ ws, Derives rules e w) →
      Derives rules (.rep .plus e) ws.flatten
  | skip {e} : Derives rules (.rep .opt e) []
  | opt {e w} : Derives rules e w → Derives rules (.rep .opt e) w
  | seq {e f w v} : Derives rules e w → Derives rules f v → Derives rules (.seq e f) (w ++ v)
  | left {e f w} : Derives rules e w → Derives rules (.alt e f) w
  | right {e f w} : Derives rules f w → Derives rules (.alt e f) w

def lang (rules : Rules) (e : Expr) : Language Char := {w | Derives rules e w}

section

variable {rules : Rules} {e f : Expr}

theorem lang_eps : lang rules .eps = 1 := by
  ext w
  rw [Language.mem_one]
  constructor
  · rintro ⟨⟩
    rfl
  · rintro rfl
    exact .eps

theorem lang_lit (s : List Char) : lang rules (.lit s) = {s} := by
  ext w
  constructor
  · rintro ⟨⟩
    rfl
  · rintro rfl
    exact .lit w

theorem lang_cls (c : CharClass) : lang rules (.cls c) = c.lang := by
  ext w
  constructor
  · rintro ⟨⟩
    next member => exact ⟨_, rfl, member⟩
  · rintro ⟨a, rfl, member⟩
    exact .cls member

theorem lang_ref {name : List Char} (found : rules name = some e) :
    lang rules (.ref name) = lang rules e := by
  ext w
  constructor
  · rintro ⟨⟩
    next e' found' derives =>
      rw [found] at found'
      obtain rfl := Option.some.inj found'
      exact derives
  · exact .ref found

theorem lang_group : lang rules (.group e) = lang rules e := by
  ext w
  constructor
  · rintro ⟨⟩
    assumption
  · exact .group

theorem lang_star : lang rules (.rep .star e) = (lang rules e)∗ := by
  ext w
  rw [Language.mem_kstar]
  constructor
  · rintro ⟨⟩
    next ws each => exact ⟨ws, rfl, each⟩
  · rintro ⟨ws, rfl, each⟩
    exact .star each

theorem lang_plus : lang rules (.rep .plus e) = lang rules e * (lang rules e)∗ := by
  ext w
  rw [Language.mem_mul]
  constructor
  · rintro ⟨⟩
    next ws nonempty each =>
      match ws, nonempty with
      | first :: rest, _ =>
        refine ⟨first, each first List.mem_cons_self, rest.flatten, ?_, rfl⟩
        exact Language.mem_kstar.mpr
          ⟨rest, rfl, fun w member => each w (List.mem_cons_of_mem _ member)⟩
  · rintro ⟨first, derives, rest, star, rfl⟩
    obtain ⟨ws, rfl, each⟩ := Language.mem_kstar.mp star
    have all : ∀ w ∈ first :: ws, Derives rules e w := by
      intro w member
      rcases List.mem_cons.mp member with rfl | later
      · exact derives
      · exact each w later
    exact .plus (List.cons_ne_nil first ws) all

theorem lang_opt : lang rules (.rep .opt e) = 1 + lang rules e := by
  ext w
  rw [Language.mem_add, Language.mem_one]
  constructor
  · rintro ⟨⟩
    · exact .inl rfl
    · next derives => exact .inr derives
  · rintro (rfl | derives)
    · exact .skip
    · exact .opt derives

theorem lang_seq : lang rules (.seq e f) = lang rules e * lang rules f := by
  ext w
  rw [Language.mem_mul]
  constructor
  · rintro ⟨⟩
    next first second => exact ⟨_, first, _, second, rfl⟩
  · rintro ⟨v, first, u, second, rfl⟩
    exact .seq first second

theorem lang_alt : lang rules (.alt e f) = lang rules e + lang rules f := by
  ext w
  rw [Language.mem_add]
  constructor
  · rintro ⟨⟩
    next derives => exact .inl derives
    next derives => exact .inr derives
  · rintro (derives | derives)
    · exact .left derives
    · exact .right derives

end

def isNameChar (c : Char) : Bool := c.isAlphanum || c ∈ ['-', '_']

def IsName (name : List Char) : Prop := name ≠ [] ∧ ∀ c ∈ name, isNameChar c = true

def unescape (c : Char) : Option Char :=
  if c = 't' then some '\t'
  else if c = 'r' then some '\r'
  else if c = 'n' then some '\n'
  else if c ∈ ['\\', '"', '[', ']'] then some c
  else none

inductive Escape : Char → List Char → Prop
  | short {c d} : unescape d = some c → Escape c ['\\', d]
  | code {c marker digits} : (marker, digits.length) ∈ [('x', 2), ('u', 4), ('U', 8)] →
      digits.all Json.isHex = true → c.toNat = Json.hexValue digits →
      Escape c ('\\' :: marker :: digits)

/-- The characters of a literal between its quotes. -/
inductive LitText : List Char → List Char → Prop
  | nil : LitText [] []
  | raw {c s t} : c ≠ '"' → c ≠ '\\' → c ≠ '\n' → LitText s t → LitText (c :: s) (c :: t)
  | escape {c x s t} : Escape c x → LitText s t → LitText (c :: s) (x ++ t)

variable {s : List Char}

theorem LitText.plain (plain : ∀ c ∈ s, c ∉ ['"', '\\', '\n']) : LitText s s := by
  induction s with
  | nil => exact .nil
  | cons c s ih =>
    have here : c ≠ '"' ∧ c ≠ '\\' ∧ c ≠ '\n' := by simpa using plain c List.mem_cons_self
    exact .raw here.1 here.2.1 here.2.2 (ih fun c member => plain c (List.mem_cons_of_mem _ member))

inductive ClsChar : Char → List Char → Prop
  | raw {c} : c ≠ ']' → c ≠ '\\' → c ≠ '\n' → ClsChar c [c]
  | escape {c x} : Escape c x → ClsChar c x

/-- The ranges of a class. A dash makes a range, unless it is the last character. -/
inductive ClsText : List (Char × Option Char) → List Char → Prop
  | nil : ClsText [] []
  | single {c x rs t} : ClsChar c x → t = ['-'] ∨ t.head? ≠ some '-' → ClsText rs t →
      ClsText ((c, none) :: rs) (x ++ t)
  | range {low high x y rs t} : ClsChar low x → ClsChar high y → ClsText rs t →
      ClsText ((low, some high) :: rs) (x ++ '-' :: y ++ t)

theorem ClsText.plain {cs : List Char} (plain : ∀ c ∈ cs, c ∉ [']', '\\', '\n', '-']) :
    ClsText (cs.map fun c => (c, none)) cs := by
  induction cs with
  | nil => exact .nil
  | cons c cs ih =>
    have here : c ≠ ']' ∧ c ≠ '\\' ∧ c ≠ '\n' ∧ c ≠ '-' := by simpa using plain c List.mem_cons_self
    have rest : ∀ c ∈ cs, c ∉ [']', '\\', '\n', '-'] :=
      fun c member => plain c (List.mem_cons_of_mem _ member)
    refine .single (x := [c]) (.raw here.1 here.2.1 here.2.2.1) (.inr fun dash => ?_) (ih rest)
    exact rest '-' (List.mem_of_mem_head? dash) (by simp)

inductive Level
  | atom
  | item
  /-- At least one item. -/
  | items
  | alternative
  | alternatives

inductive Spells (isBlank : Char → Bool) : Level → Expr → List Char → Prop
  | lit {s t} : LitText s t → Spells isBlank .atom (.lit s) ('"' :: t ++ ['"'])
  | cls {negated rs t} : ClsText rs t → (negated = false → t.head? ≠ some '^') →
      Spells isBlank .atom (.cls ⟨negated, rs⟩)
        ('[' :: (if negated then ['^'] else []) ++ t ++ [']'])
  | any : Spells isBlank .atom .any ['.']
  | ref {name} : IsName name → Spells isBlank .atom (.ref name) name
  | group {e t} : Spells isBlank .alternatives e t →
      Spells isBlank .atom (.group e) ('(' :: t ++ [')'])
  | atom {e t} : Spells isBlank .atom e t → Spells isBlank .item e t
  | rep {op e t b} : Spells isBlank .item e t → b.all isBlank = true →
      Spells isBlank .item (.rep op e) (t ++ b ++ [op.char])
  | one {e b t d} : b.all isBlank = true → Spells isBlank .item e t → d.all isBlank = true →
      Spells isBlank .items e (b ++ t ++ d)
  /-- A name ends where no further character of one follows. -/
  | cons {e f b t t'} : b.all isBlank = true → Spells isBlank .item e t →
      Spells isBlank .items f t' →
      (∀ name, e = .ref name → ∀ c, t'.head? = some c → isNameChar c = false) →
      Spells isBlank .items (.seq e f) (b ++ t ++ t')
  | empty {b} : b.all isBlank = true → Spells isBlank .alternative .eps b
  | items {e t} : Spells isBlank .items e t → Spells isBlank .alternative e t
  | last {e t} : Spells isBlank .alternative e t → Spells isBlank .alternatives e t
  | more {e f t t'} : Spells isBlank .alternative e t → Spells isBlank .alternatives f t' →
      Spells isBlank .alternatives (.alt e f) (t ++ '|' :: t')

def trim (isBlank : Char → Bool) (t : List Char) : List Char :=
  (t.dropWhile isBlank).rdropWhile isBlank

variable {t : List Char}

section Trimming

variable {isBlank : Char → Bool}

/-- No blank at either end, and something between. -/
structure Framed (isBlank : Char → Bool) (t : List Char) : Prop where
  nonempty : t ≠ []
  first : ∀ c, t.head? = some c → isBlank c = false
  last : ∀ c, t.getLast? = some c → isBlank c = false

theorem trim_blank {b : List Char} (blank : b.all isBlank = true) : trim isBlank b = [] := by
  have dropped : b.dropWhile isBlank = [] := by
    rw [List.dropWhile_eq_nil_iff]
    exact List.all_eq_true.mp blank
  rw [trim, dropped, List.rdropWhile_nil]

theorem trim_framed {b d : List Char} (framed : Framed isBlank t) (blank : b.all isBlank = true)
    (blank' : d.all isBlank = true) : trim isBlank (b ++ t ++ d) = t := by
  have start : (b ++ t ++ d).dropWhile isBlank = t ++ d := by
    rw [List.append_assoc, List.dropWhile_append_of_pos (List.all_eq_true.mp blank)]
    cases t with
    | nil => exact absurd rfl framed.nonempty
    | cons c t =>
      rw [List.cons_append, List.dropWhile_cons_of_neg]
      simp [framed.first c rfl]
  have ending : (t ++ d).rdropWhile isBlank = t := by
    rw [List.rdropWhile, List.reverse_append,
      List.dropWhile_append_of_pos (by simpa using List.all_eq_true.mp blank')]
    -- the last character comes first now
    obtain ⟨s, c, rfl⟩ := List.eq_nil_or_concat t |>.resolve_left framed.nonempty
    have solid : isBlank c = false := framed.last c (by simp)
    simp [List.dropWhile_cons_of_neg, solid]
  rw [trim, start, ending]

theorem trim_cases (isBlank : Char → Bool) (t : List Char) :
    trim isBlank t = [] ∨ Framed isBlank (trim isBlank t) := by
  by_cases empty : trim isBlank t = []
  · exact .inl empty
  · refine .inr ⟨empty, ?_, ?_⟩
    · intro c head
      obtain ⟨rest, kept⟩ := List.rdropWhile_prefix isBlank (t.dropWhile isBlank)
      have begins : (t.dropWhile isBlank).head? = some c := by
        have start : ((t.dropWhile isBlank).rdropWhile isBlank).head? = some c := head
        rw [← kept, List.head?_append, start, Option.some_or]
      have stopped := List.head?_dropWhile_not isBlank t
      rw [begins] at stopped
      simpa using stopped
    · intro c last
      have ended := List.rdropWhile_last_not isBlank (t.dropWhile isBlank) empty
      rw [List.getLast?_eq_getLast_of_ne_nil empty] at last
      obtain rfl := Option.some.inj last
      exact (Bool.not_eq_true _).mp ended

theorem trim_sublist (isBlank : Char → Bool) (t : List Char) : (trim isBlank t).Sublist t :=
  (List.rdropWhile_prefix isBlank _).sublist.trans (List.dropWhile_sublist isBlank)

end Trimming

/-! ### Blanks in what is written -/

/-- Blanks are told from the marks and from the names. -/
structure Blanks (isBlank : Char → Bool) : Prop where
  space : isBlank ' ' = true
  mark : ∀ c ∈ "\"[]().*+?|:".toList, isBlank c = false
  name : ∀ c, isNameChar c = true → isBlank c = false

section

variable {isBlank : Char → Bool}

theorem Framed.append (b : List Char) (start : Framed isBlank s)
    (ending : Framed isBlank t) : Framed isBlank (s ++ b ++ t) where
  nonempty := by simp [start.nonempty]
  first c head := by
    obtain ⟨a, s, rfl⟩ := List.exists_cons_of_ne_nil start.nonempty
    exact start.first c (by simpa using head)
  last c tail := by
    rw [List.getLast?_append_of_ne_nil _ ending.nonempty] at tail
    exact ending.last c tail

variable {c : Char}

theorem framed_singleton (solid : isBlank c = false) : Framed isBlank [c] where
  nonempty := List.cons_ne_nil c []
  first a head := by
    obtain rfl : c = a := by simpa using head
    exact solid
  last a tail := by
    obtain rfl : c = a := by simpa using tail
    exact solid

variable {e : Expr}

section

variable (blanks : Blanks isBlank)

include blanks

theorem Spells.atom_framed (spells : Spells isBlank .atom e t) : Framed isBlank t := by
  have between (a b : Char) (s : List Char) (opens : a ∈ "\"[]().*+?|:".toList)
      (closes : b ∈ "\"[]().*+?|:".toList) : Framed isBlank (a :: s ++ [b]) :=
    (framed_singleton (blanks.mark a opens)).append s (framed_singleton (blanks.mark b closes))
  cases spells with
  | lit _ => exact between _ _ _ (by decide) (by decide)
  | cls _ _ => exact between _ _ _ (by decide) (by decide)
  | any => exact framed_singleton (blanks.mark _ (by decide))
  | ref isName =>
    refine ⟨isName.1, fun c head => ?_, fun c tail => ?_⟩
    · exact blanks.name c (isName.2 c (List.mem_of_mem_head? head))
    · exact blanks.name c (isName.2 c (List.mem_of_mem_getLast? tail))
  | group _ => exact between _ _ _ (by decide) (by decide)

theorem Spells.item_framed (spells : Spells isBlank .item e t) : Framed isBlank t := by
  generalize level : Level.item = l at spells
  induction spells with
  | atom spells _ => exact spells.atom_framed blanks
  | @rep op e t b _ _ ih =>
    have solid : isBlank op.char = false := blanks.mark _ (by cases op <;> decide)
    exact (ih level).append b (framed_singleton solid)
  | _ => cases level

theorem Spells.trimStart
    (spells : Spells isBlank .items e t) : ∃ b t', t = b ++ t' ∧ b.all isBlank = true ∧ t' ≠ [] ∧
      (∀ c, t'.head? = some c → isBlank c = false) ∧ Spells isBlank .items e t' := by
  have begins {s : List Char} (rest : List Char) (framed : Framed isBlank s) :
      ∀ c, (s ++ rest).head? = some c → isBlank c = false := by
    intro c head
    obtain ⟨a, s, rfl⟩ := List.exists_cons_of_ne_nil framed.nonempty
    exact framed.first c (by simpa using head)
  cases spells with
  | @one _ b t b' blank item blank' =>
    have framed := item.item_framed blanks
    refine ⟨b, t ++ b', List.append_assoc .., blank, by simp [framed.nonempty], begins b' framed, ?_⟩
    exact .one (b := []) rfl item blank'
  | @cons e f b t t' blank item rest boundary =>
    have framed := item.item_framed blanks
    refine ⟨b, t ++ t', List.append_assoc .., blank, by simp [framed.nonempty], begins t' framed, ?_⟩
    exact .cons (b := []) rfl item rest boundary

theorem Spells.trimEnd
    (spells : Spells isBlank .items e t) : ∃ t' b, t = t' ++ b ∧ b.all isBlank = true ∧ t' ≠ [] ∧
      (∀ c, t'.getLast? = some c → isBlank c = false) ∧ Spells isBlank .items e t' := by
  generalize level : Level.items = l at spells
  induction spells with
  | @one e b t b' blank item blank' _ =>
    have framed := item.item_framed blanks
    refine ⟨b ++ t, b', rfl, blank', by simp [framed.nonempty], fun c tail => ?_, ?_⟩
    · rw [List.getLast?_append_of_ne_nil _ framed.nonempty] at tail
      exact framed.last c tail
    · simpa using Spells.one (d := []) blank item rfl
  | @cons e f b t t' blank item rest boundary _ ih =>
    obtain ⟨kept, b', rfl, blank', nonempty, last, spells⟩ := ih level
    refine ⟨b ++ t ++ kept, b', by simp, blank', by simp [nonempty], fun c tail => ?_, ?_⟩
    · rw [List.getLast?_append_of_ne_nil _ nonempty] at tail
      exact last c tail
    · refine .cons blank item spells fun name isRef c head => boundary name isRef c ?_
      rw [List.head?_append, head, Option.some_or]
  | _ => cases level

theorem Spells.trim
    (spells : Spells isBlank .alternative e t) : (e = .eps ∧ Gbnf.trim isBlank t = []) ∨
      (e ≠ .eps ∧ Gbnf.trim isBlank t ≠ [] ∧ Spells isBlank .items e (Gbnf.trim isBlank t)) := by
  cases spells with
  | empty blank => exact .inl ⟨rfl, trim_blank blank⟩
  | items spells =>
    obtain ⟨b, s, rfl, blank, -, first, spells⟩ := spells.trimStart blanks
    obtain ⟨s, b', rfl, blank', nonempty, last, spells⟩ := spells.trimEnd blanks
    have framed : Framed isBlank s := by
      refine ⟨nonempty, fun c head => first c ?_, last⟩
      rw [List.head?_append, head, Option.some_or]
    rw [← List.append_assoc, trim_framed framed blank blank']
    refine .inr ⟨?_, nonempty, spells⟩
    rintro rfl
    cases spells with
    | one _ item _ =>
      cases item with
      | atom atom => cases atom

end

/-! ### Line breaks -/

def oneLine (t : List Char) : List Char := t.map fun c => if c = '\n' then ' ' else c

@[simp] theorem oneLine_nil : oneLine [] = [] := rfl

theorem oneLine_append (s t : List Char) : oneLine (s ++ t) = oneLine s ++ oneLine t :=
  List.map_append

theorem oneLine_cons (t : List Char) (other : c ≠ '\n') :
    oneLine (c :: t) = c :: oneLine t := by
  rw [oneLine, List.map_cons, if_neg other]
  rfl

theorem oneLine_of_notMem (absent : '\n' ∉ t) : oneLine t = t := by
  induction t with
  | nil => rfl
  | cons c t ih =>
    rw [List.mem_cons, not_or] at absent
    rw [oneLine_cons t (Ne.symm absent.1), ih absent.2]

@[simp] theorem length_oneLine (t : List Char) : (oneLine t).length = t.length := List.length_map _

theorem notMem_oneLine (solid : c ≠ ' ') (absent : c ∉ t) :
    c ∉ oneLine t := by
  intro member
  obtain ⟨a, inside, same⟩ := List.mem_map.mp member
  split at same
  · exact solid same.symm
  · exact absent (same ▸ inside)

theorem all_oneLine {p : Char → Bool} (space : p ' ' = true)
    (all : t.all p = true) : (oneLine t).all p = true := by
  rw [List.all_eq_true] at all ⊢
  intro c member
  obtain ⟨a, inside, rfl⟩ := List.mem_map.mp member
  split
  · exact space
  · exact all a inside

theorem Escape.one_line {x : List Char} (escape : Escape c x) : '\n' ∉ x := by
  cases escape with
  | short means =>
    intro member
    rcases List.mem_pair.mp member with same | rfl
    · cases same
    · cases means
  | @code marker digits marked hex _ =>
    intro member
    rcases List.mem_cons.mp member with same | member
    · cases same
    · rcases List.mem_cons.mp member with rfl | member
      · simp at marked
      · have digit := List.all_eq_true.mp hex _ member
        cases digit

theorem LitText.one_line (text : LitText s t) : '\n' ∉ t := by
  induction text with
  | nil => exact List.not_mem_nil
  | raw _ _ other _ ih => simp [Ne.symm other, ih]
  | escape escape _ ih => simp [escape.one_line, ih]

theorem ClsChar.one_line {x : List Char} (char : ClsChar c x) : '\n' ∉ x := by
  cases char with
  | raw _ _ other => simpa using Ne.symm other
  | escape escape => exact escape.one_line

theorem ClsText.one_line {rs : List (Char × Option Char)} (text : ClsText rs t) :
    '\n' ∉ t := by
  induction text with
  | nil => exact List.not_mem_nil
  | single char _ _ ih => simp [char.one_line, ih]
  | range low high _ ih => simp [low.one_line, high.one_line, ih]

theorem IsName.one_line {name : List Char} (isName : IsName name) : '\n' ∉ name := by
  intro member
  cases isName.2 _ member

theorem Spells.oneLine (blanks : Blanks isBlank) {l : Level}
    (spells : Spells isBlank l e t) : Spells isBlank l e (oneLine t) := by
  have blank {b : List Char} (all : b.all isBlank = true) :
      (Gbnf.oneLine b).all isBlank = true := all_oneLine blanks.space all
  induction spells with
  | @lit s t text =>
    have kept : Gbnf.oneLine ('"' :: t ++ ['"']) = '"' :: t ++ ['"'] :=
      oneLine_of_notMem (by simp [text.one_line])
    rw [kept]
    exact .lit text
  | @cls negated rs t text head =>
    have kept : Gbnf.oneLine ('[' :: (if negated then ['^'] else []) ++ t ++ [']']) =
        '[' :: (if negated then ['^'] else []) ++ t ++ [']'] :=
      oneLine_of_notMem (by cases negated <;> simp [text.one_line])
    rw [kept]
    exact .cls text head
  | any => exact .any
  | ref isName =>
    rw [oneLine_of_notMem isName.one_line]
    exact .ref isName
  | @group e t _ ih =>
    rw [oneLine_append, oneLine_cons _ (by decide)]
    exact .group ih
  | atom _ ih => exact .atom ih
  | @rep op e t b _ all ih =>
    rw [oneLine_append, oneLine_append, oneLine_of_notMem (t := [op.char]) (by cases op <;> decide)]
    exact .rep ih (blank all)
  | one all _ all' ih =>
    rw [oneLine_append, oneLine_append]
    exact .one (blank all) ih (blank all')
  | @cons e f b t t' all _ _ boundary ih ih' =>
    rw [oneLine_append, oneLine_append]
    refine .cons (blank all) ih ih' fun name isRef c head => ?_
    rw [Gbnf.oneLine, List.head?_map, Option.map_eq_some_iff] at head
    obtain ⟨a, head, rfl⟩ := head
    split
    · decide
    · exact boundary name isRef a head
  | empty all => exact .empty (blank all)
  | items _ ih => exact .items ih
  | last _ ih => exact .last ih
  | @more e f t t' _ _ ih ih' =>
    rw [oneLine_append, oneLine_cons _ (by decide)]
    exact .more ih ih'

end

def joinLine (body line : List Char) : List Char :=
  if body = [] then line else body ++ '\n' :: line

def bodyOf (isBlank : Char → Bool) (first : List Char) (more : List (List Char)) : List Char :=
  more.foldl joinLine (trim isBlank first)

/-- A rule as it is written: the name, blanks, the sign, and the body in this line and the lines
below it. -/
structure Rule (isBlank : Char → Bool) where
  name : List Char
  gap : List Char
  first : List Char
  more : List (List Char) := []
  expr : Expr
  isName : IsName name
  gapBlank : gap.all isBlank = true
  spelled : Spells isBlank .alternatives expr (bodyOf isBlank first more)

variable {isBlank : Char → Bool}

namespace Rule

variable (r : Rule isBlank)

def body : List Char := bodyOf isBlank r.first r.more

def lines : List (List Char) := (r.name ++ r.gap ++ "::=".toList ++ r.first) :: r.more

end Rule

def isContent (line : List Char) : Bool := line ≠ [] && line.head? ≠ some '#'

/-- The lines of a text that are not empty or comments, without the blanks around them. -/
def contentLines (isBlank : Char → Bool) (text : List Char) : List (List Char) :=
  (((trim isBlank text).splitOn '\n').map (trim isBlank)).filter isContent

def GrammarText (grammar : List (Rule isBlank)) (text : List Char) : Prop :=
  (grammar.map Rule.name).Nodup ∧
    contentLines isBlank text = (grammar.map Rule.lines).flatten

def rulesOf (grammar : List (Rule isBlank)) : Rules := fun name =>
  (grammar.find? fun r => r.name = name).map Rule.expr

theorem rulesOf_of_mem {grammar : List (Rule isBlank)} (names : (grammar.map Rule.name).Nodup)
    {r : Rule isBlank} (member : r ∈ grammar) : rulesOf grammar r.name = some r.expr := by
  induction grammar with
  | nil => cases member
  | cons first rest ih =>
    rw [List.map_cons, List.nodup_cons] at names
    rcases List.mem_cons.mp member with rfl | later
    · simp [rulesOf]
    · have other : first.name ≠ r.name := fun same =>
        names.1 (same ▸ List.mem_map_of_mem later)
      have found := ih names.2 later
      simpa [rulesOf, other] using found

def Expr.refs : Expr → List (List Char)
  | ref name => [name]
  | group e => e.refs
  | rep _ e => e.refs
  | seq e f => e.refs ++ f.refs
  | alt e f => e.refs ++ f.refs
  | _ => []

def NonRecursive (grammar : List (Rule isBlank)) : Prop :=
  ∃ rank : List Char → Nat, ∀ r ∈ grammar, ∀ name ∈ r.expr.refs, rank name < rank r.name

end DistLLM.Library.Gbnf
