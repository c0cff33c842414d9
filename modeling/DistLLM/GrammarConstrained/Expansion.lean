import DistLLM.GrammarConstrained.Scanning
import DistLLM.Library.Folds

/-!
# What the translation of a body stands for

A body whose rules are plain becomes a text that stands for the words the body derives. The text of
an atom can take a repetition, that of a chain can stand beside other items, and that of a choice can
only stand alone, as there is nothing around an expanded reference.
-/
namespace DistLLM.GrammarConstrained

open Library Library.Json.CharLists Computability
open Library.Regex (AtomText SeqText AltText ClassItem)
open Library.Gbnf (Expr Spells LitText ClsText ClsChar isNameChar IsName Framed lang rulesOf)

inductive Shape
  | atom
  | chain
  | choice
  deriving DecidableEq, Repr

/-- The text stands for the language, and holds together as far as the shape asks. -/
def Shape.Reads : Shape → Text → Language Char → Prop
  | atom => AtomText
  | chain => SeqText
  | choice => AltText

section

variable {t : Text} {L : Language Char} {shape : Shape}

theorem reads_of_atom (atom : AtomText t L) : shape.Reads t L := by
  cases shape with
  | atom => exact atom
  | chain => exact atom.seq
  | choice => exact atom.seq.alt

theorem reads_of_seq (seq : SeqText t L) (loose : shape ≠ .atom) : shape.Reads t L := by
  cases shape with
  | atom => exact absurd rfl loose
  | chain => exact seq
  | choice => exact seq.alt

end

/-! ### Escaped characters -/

theorem escapeChar_cases (c : Char) : (escapeChar c = [c] ∧ c ∉ specialChars) ∨
      (escapeChar c = ['\\', c] ∧ Regex.unescape c = some c) := by
  by_cases special : c ∈ specialChars
  · right
    have means : ∀ c ∈ specialChars, Regex.unescape c = some c := by decide
    exact ⟨by simp [escapeChar, special], means c special⟩
  · exact .inl ⟨by simp [escapeChar, special], special⟩

theorem escapeChar_reads (c : Char) : AtomText (escapeChar c) {[c]} := by
  rcases escapeChar_cases c with ⟨raw, plain⟩ | ⟨escaped, means⟩
  · rw [raw]
    refine .chr ?_
    have special : ∀ c, Regex.isSpecial c = true → c ∈ specialChars := by
      intro c member
      have listed : ∀ c ∈ ['\\', '[', '(', ')', '|', '*', '+', '?', '.', '^', '$', '{', '}', ']'],
          c ∈ specialChars := by decide
      exact listed c (of_decide_eq_true member)
    exact (Bool.not_eq_true _).mp fun isSpecial => plain (special c isSpecial)
  · rw [escaped]
    exact .escaped means

theorem reEscape_reads (s : Text) : SeqText (reEscape s) {s} := by
  induction s with
  | nil => exact .nil
  | cons c s ih =>
    have split : ({c :: s} : Language Char) = {[c]} * {s} := by
      ext w
      rw [Language.mem_mul]
      constructor
      · rintro rfl
        exact ⟨[c], rfl, s, rfl, rfl⟩
      · rintro ⟨_, rfl, _, rfl, rfl⟩
        rfl
    rw [split]
    exact (escapeChar_reads c).seq.append ih

theorem literal_reads {shape : Shape} {s : Text} (single : shape = .atom → s.length = 1) :
    shape.Reads (reEscape s) {s} := by
  by_cases atom : shape = .atom
  · obtain ⟨c, rfl⟩ := List.length_eq_one_iff.mp (single atom)
    have text : reEscape [c] = escapeChar c := List.flatMap_singleton ..
    rw [text]
    exact reads_of_atom (escapeChar_reads c)
  · exact reads_of_seq (reEscape_reads s) atom

theorem escapeChar_classItem (c : Char) : ClassItem (escapeChar c) c := by
  rcases escapeChar_cases c with ⟨raw, plain⟩ | ⟨escaped, means⟩
  · refine .inl ⟨raw, fun marked => plain ?_⟩
    have listed : ∀ c ∈ ['\\', ']', '-', '^'], c ∈ specialChars := by decide
    exact listed c marked
  · exact .inr ⟨c, escaped, means⟩

theorem classItems (cs : Text) : List.Forall₂ ClassItem (cs.map escapeChar) cs := by
  induction cs with
  | nil => exact .nil
  | cons c cs ih => exact .cons (escapeChar_classItem c) ih

theorem gbnfCharClassToRegex_reads {negated : Bool} {cs : Text} (nonempty : cs ≠ [])
    (start : negated = false → cs.head? ≠ some '^') :
    AtomText (gbnfCharClassToRegex ('[' :: ((if negated then ['^'] else []) ++ cs) ++ [']']))
      (CharClass.ofChars negated cs).lang := by
  have items : AtomText ('[' :: (if negated then ['^'] else []) ++ (cs.map escapeChar).flatten ++ [']'])
      (CharClass.ofChars negated cs).lang := .cls (classItems cs) nonempty
  have escaped : reEscape cs = (cs.map escapeChar).flatten := List.flatMap_def ..
  rw [← escaped] at items
  have inner (s : Text) : (('[' :: s ++ [']']).drop 1).dropLast = s := by
    rw [List.cons_append, List.drop_one, List.tail_cons, List.dropLast_concat]
  unfold gbnfCharClassToRegex
  rw [inner]
  cases negated with
  | true => exact items
  | false =>
    cases cs with
    | nil => exact absurd rfl nonempty
    | cons c cs =>
      have other : c ≠ '^' := fun same => start rfl (by rw [same]; rfl)
      simp only [Bool.false_eq_true, if_false, List.nil_append]
      split
      · next same => exact absurd (List.cons.inj same).1 other
      · exact items

theorem wsRegex_reads :
    SeqText wsRegex (CharClass.ofChars false [' ', '\t', '\n', '\r']).lang∗ := by
  have items : List.Forall₂ ClassItem [[' '], ['\\', 't'], ['\\', 'n'], ['\\', 'r']]
      [' ', '\t', '\n', '\r'] := by
    refine .cons (.inl ⟨rfl, by decide⟩) (.cons (.inr ⟨_, rfl, by decide⟩)
      (.cons (.inr ⟨_, rfl, by decide⟩) (.cons (.inr ⟨_, rfl, by decide⟩) .nil)))
  have set : AtomText "[ \\t\\n\\r]".toList (CharClass.ofChars false [' ', '\t', '\n', '\r']).lang :=
    .cls items (List.cons_ne_nil _ _)
  exact set.star

/-- The marks in the text of an expression, in order. -/
def marks : Expr → Text
  | .lit s => '"' :: s.filter isMark ++ ['"']
  | .cls c => '[' :: (c.ranges.map Prod.fst).filter isMark ++ [']']
  | .group e => '(' :: marks e ++ [')']
  | .rep _ e => marks e
  | .seq e f => marks e ++ marks f
  | .alt e f => marks e ++ '|' :: marks f
  | _ => []

/-- The scan for bars splits at those between the alternatives, and at no others. -/
def parted : Expr → Bool
  | .alt e f => scanBars (false, 0) (marks e) = some (false, 0) && parted f
  | e => (scanBars (false, 0) (marks e)).isSome

def lastAlternative : Expr → Expr
  | .alt _ f => lastAlternative f
  | e => e

/-- Nothing in the expression, and in the rules it refers to, is lost in the translation: no escapes
and no ranges, quotes, brackets and bars that do not mislead the scans of bodies and groups, no empty
alternative at the end, and nothing around a literal or a reference that does not hold together by
itself. -/
inductive Plain (grammar : List (Gbnf.Rule isSpace)) : Shape → Expr → Prop
  | lit {shape s} : (shape = .atom → s.length = 1) → Plain grammar shape (.lit s)
  | cls {shape negated} {cs : Text} : cs ≠ [] → Plain grammar shape (.cls (.ofChars negated cs))
  | ref {shape r} : r ∈ grammar → r.name ≠ "ws".toList → '\\' ∉ r.body → parted r.expr = true →
      Plain grammar shape r.expr → Plain grammar shape (.ref r.name)
  | ws {shape e} : shape ≠ .atom → rulesOf grammar "ws".toList = some e →
      lang (rulesOf grammar) e = (CharClass.ofChars false [' ', '\t', '\n', '\r']).lang∗ →
      Plain grammar shape (.ref "ws".toList)
  | group {shape e} : parenDepth 0 (marks e) = some 0 → parted e = true → Plain grammar .choice e →
      Plain grammar shape (.group e)
  | rep {shape op e} : shape ≠ .atom → Plain grammar .atom e → Plain grammar shape (.rep op e)
  | eps {shape} : shape ≠ .atom → Plain grammar shape .eps
  | seq {shape e f} : shape ≠ .atom → Plain grammar .chain e → Plain grammar .chain f →
      Plain grammar shape (.seq e f)
  | alt {e f} : Plain grammar .choice e → Plain grammar .choice f → lastAlternative f ≠ .eps →
      Plain grammar .choice (.alt e f)

/-! ### Texts of plain rules -/

variable {t : Text}

theorem litText_raw {s : Text} (text : LitText s t) (raw : '\\' ∉ t) : s = t ∧ '"' ∉ t := by
  induction text with
  | nil => exact ⟨rfl, List.not_mem_nil⟩
  | @raw c s t quote _ _ _ ih =>
    rw [List.mem_cons, not_or] at raw
    obtain ⟨rfl, closed⟩ := ih raw.2
    exact ⟨rfl, by simp [Ne.symm quote, closed]⟩
  | escape escape _ _ => cases escape <;> simp at raw

theorem clsText_raw {cs : Text} (text : ClsText (cs.map fun c => (c, none)) t)
    (raw : '\\' ∉ t) : cs = t ∧ ']' ∉ t := by
  generalize ranges : cs.map (fun c => ((c, none) : Char × Option Char)) = rs at text
  induction text generalizing cs with
  | nil => exact ⟨List.map_eq_nil_iff.mp ranges, List.not_mem_nil⟩
  | @single c x rs t char _ _ ih =>
    obtain ⟨c', cs, rfl, same, rest⟩ := List.map_eq_cons_iff.mp ranges
    obtain rfl : c' = c := (Prod.mk.inj same).1
    rw [List.mem_append, not_or] at raw
    obtain ⟨rfl, closed⟩ := ih raw.2 rest
    cases char with
    | raw close _ _ => exact ⟨rfl, by simp [Ne.symm close, closed]⟩
    | escape escape => cases escape <;> simp at raw
  | range _ _ _ _ =>
    obtain ⟨c', cs, rfl, same, rest⟩ := List.map_eq_cons_iff.mp ranges
    cases (Prod.mk.inj same).2

variable {grammar : List (Gbnf.Rule isSpace)}

theorem filter_isMark_eq_nil {p : Char → Bool} (solid : ∀ c ∈ "\"[]()|".toList, p c = false)
    (all : ∀ c ∈ t, p c = true) : t.filter isMark = [] := by
  rw [List.filter_eq_nil_iff]
  intro c member mark
  have inside := all c member
  rw [solid c (of_decide_eq_true mark)] at inside
  cases inside

variable {b : Text}

theorem filter_isMark_blank (blank : b.all isSpace = true) : b.filter isMark = [] :=
  filter_isMark_eq_nil (by decide) (List.all_eq_true.mp blank)

variable {shape : Shape} {e : Expr} {l : Gbnf.Level}

theorem Plain.filter_isMark (spells : Spells isSpace l e t) (plain : Plain grammar shape e)
    (raw : '\\' ∉ t) : t.filter isMark = marks e := by
  have quote : isMark '"' = true := by decide
  have bracket : isMark '[' = true ∧ isMark ']' = true := by decide
  have paren : isMark '(' = true ∧ isMark ')' = true := by decide
  have bar : isMark '|' = true := by decide
  induction spells generalizing shape with
  | @lit s t text =>
    obtain ⟨rfl, _⟩ := litText_raw text fun member => raw (by simp [member])
    simp [marks, quote]
  | @cls negated rs t text head =>
    cases plain with
    | @cls _ _ cs nonempty =>
      obtain ⟨rfl, _⟩ := clsText_raw text fun member => raw (by simp [member])
      have sign : isMark '^' = false := by decide
      cases negated <;> simp [marks, Function.comp_def, bracket, sign]
  | any => cases plain
  | ref isName => exact filter_isMark_eq_nil (by decide) isName.2
  | group spells ih =>
    cases plain with
    | group _ _ plain =>
      have inside := ih plain fun member => raw (by simp [member])
      simp [marks, inside, paren]
  | atom _ ih => exact ih plain raw
  | @rep op e t b _ blank ih =>
    cases plain with
    | rep _ plain =>
      have item := ih plain fun member => raw (by simp [member])
      have sign : [op.char].filter isMark = [] := by cases op <;> rfl
      rw [List.filter_append, List.filter_append, item, filter_isMark_blank blank, sign]
      simp [marks]
  | one blank _ blank' ih =>
    have item := ih plain fun member => raw (by simp [member])
    simp [filter_isMark_blank blank, filter_isMark_blank blank', item]
  | cons blank _ _ _ ih ih' =>
    cases plain with
    | seq _ first second =>
      have item := ih first fun member => raw (by simp [member])
      have rest := ih' second fun member => raw (by simp [member])
      simp [marks, filter_isMark_blank blank, item, rest]
  | empty blank => exact filter_isMark_blank blank
  | items _ ih => exact ih plain raw
  | last _ ih => exact ih plain raw
  | more _ _ ih ih' =>
    cases plain with
    | alt first second _ =>
      have one := ih first fun member => raw (by simp [member])
      have rest := ih' second fun member => raw (by simp [member])
      simp [marks, one, rest, bar]

/-- The scan for bars sees nothing of a text but its marks. -/
theorem Plain.scanBars_eq (spells : Spells isSpace l e t) (plain : Plain grammar shape e)
    (raw : '\\' ∉ t) : scanBars (false, 0) t = scanBars (false, 0) (marks e) := by
  rw [← scanBars_filter, plain.filter_isMark spells raw]

theorem parted_of_alternative (spells : Spells isSpace .alternative e t) :
    parted e = (scanBars (false, 0) (marks e)).isSome := by
  cases e with
  | alt e f =>
    cases spells with
    | items items =>
      cases items with
      | one _ item _ =>
        cases item with
        | atom atom => cases atom
  | _ => rfl

/-! ### Items -/

/-- The translation returns, and what it gives stands for the language. -/
def Translates (x : Except Halt Text) (shape : Shape) (L : Language Char) : Prop :=
  x ≠ .error .outOfTurns ∧ ∀ r, x = .ok r → shape.Reads r L

variable {L : Language Char}

theorem Translates.ok {r : Text} (reads : shape.Reads r L) :
    Translates (.ok r) shape L := by
  refine ⟨nofun, fun r' same => ?_⟩
  cases same
  exact reads

theorem Translates.map {x : Except Halt Text} {shape' : Shape} {M : Language Char}
    (translates : Translates x shape L) {f : Text → Text}
    (reads : ∀ r, shape.Reads r L → shape'.Reads (f r) M) : Translates (x.map f) shape' M := by
  cases x with
  | error halt => exact ⟨fun same => translates.1 (by cases same; rfl), nofun⟩
  | ok r => exact .ok (reads r (translates.2 r rfl))

/-- The rules are known by their names, and the loops take more turns than the bodies are long. -/
structure Stored (grammar : List (Gbnf.Rule isSpace)) (rules : Dict Text Text) (turns : Nat) :
    Prop where
  names : (grammar.map Gbnf.Rule.name).Nodup
  held : ∀ r ∈ grammar, rules.get? r.name = some (Gbnf.oneLine r.body)
  short : ∀ r ∈ grammar, r.body.length < turns

/-- The bodies that the function is right about: all texts of plain expressions with their bars where
the scan splits. -/
def Expands (grammar : List (Gbnf.Rule isSpace)) (turns : Nat) (ex : Text → Except Halt Text) :
    Prop :=
  ∀ {shape e t}, Plain grammar shape e → parted e = true → Spells isSpace .alternatives e t →
    '\\' ∉ t → t.length < turns → Translates (ex t) shape (lang (rulesOf grammar) e)

variable {rules : Dict Text Text} {turns : Nat} {ex : Text → Except Halt Text}

theorem Expands.rule (expands : Expands grammar turns ex) (stored : Stored grammar rules turns)
    {r : Gbnf.Rule isSpace} (member : r ∈ grammar) (raw : '\\' ∉ r.body)
    (parts : parted r.expr = true) (plain : Plain grammar shape r.expr) :
    Translates (ex (Gbnf.oneLine r.body)) shape (lang (rulesOf grammar) (.ref r.name)) := by
  rw [Gbnf.lang_ref (Gbnf.rulesOf_of_mem stored.names member)]
  refine expands plain parts (r.spelled.oneLine blanks) (Gbnf.notMem_oneLine (by decide) raw) ?_
  rw [Gbnf.length_oneLine]
  exact stored.short r member

theorem Expands.ref (expands : Expands grammar turns ex) (stored : Stored grammar rules turns)
    {name : Text} (plain : Plain grammar shape (.ref name)) :
    Translates (expandRef ex rules name) shape (lang (rulesOf grammar) (.ref name)) := by
  cases plain with
  | @ref _ r member other raw parts plain =>
    rw [expandRef, if_neg other, stored.held r member]
    exact expands.rule stored member raw parts plain
  | ws loose found means =>
    rw [expandRef, if_pos rfl, Gbnf.lang_ref found, means]
    exact .ok (reads_of_seq wsRegex_reads loose)

theorem expandItems_blank (blank : b.all isSpace = true) (n : Nat) (rest : Text) (out : List Text) :
    expandItems ex rules (b.length + n) (b ++ rest) out = expandItems ex rules n rest out := by
  induction b with
  | nil => rw [List.length_nil, Nat.zero_add, List.nil_append]
  | cons c b ih =>
    rw [List.all_cons, Bool.and_eq_true] at blank
    rw [List.length_cons, Nat.add_right_comm, List.cons_append, expandItems, if_pos blank.1,
      ih blank.2]

/-- The loop over an alternative takes the text of an item, and puts what becomes of it behind the
rest. A reference has to be followed by something else. -/
def Taken (grammar : List (Gbnf.Rule isSpace)) (ex : Text → Except Halt Text)
    (rules : Dict Text Text) (shape : Shape) (e : Expr) (t : Text) : Prop :=
  ∃ k ≤ t.length, ∃ x, Translates x shape (lang (rulesOf grammar) e) ∧ ∀ n rest out,
    (∀ name, e = .ref name → ∀ c, rest.head? = some c → isStop c = true) →
      expandItems ex rules (k + n) (t ++ rest) out =
        x >>= fun r => expandItems ex rules n rest (out ++ [r])

theorem taken_lit {s : Text} (single : shape = .atom → s.length = 1)
    (closed : '"' ∉ s) : Taken grammar ex rules shape (.lit s) ('"' :: s ++ ['"']) := by
  refine ⟨1, by simp, .ok (reEscape s), ?_, fun n rest out _ => ?_⟩
  · rw [Gbnf.lang_lit]
    exact .ok (literal_reads single)
  · rw [Nat.add_comm, List.cons_append, List.cons_append, expandItems,
      if_neg (by decide), if_pos rfl, List.append_assoc, List.singleton_append,
      splitAtChar_append closed]
    rfl

theorem taken_cls {negated : Bool} {cs : Text} (nonempty : cs ≠ [])
    (start : negated = false → cs.head? ≠ some '^') (closed : ']' ∉ cs) :
    Taken grammar ex rules shape (.cls (.ofChars negated cs))
      ('[' :: ((if negated then ['^'] else []) ++ cs) ++ [']']) := by
  refine ⟨1, by simp, .ok (gbnfCharClassToRegex
    ('[' :: ((if negated then ['^'] else []) ++ cs) ++ [']'])), ?_, fun n rest out _ => ?_⟩
  · rw [Gbnf.lang_cls]
    exact .ok (reads_of_atom (gbnfCharClassToRegex_reads nonempty start))
  · have inner : ']' ∉ (if negated then ['^'] else []) ++ cs := by
      cases negated <;> simp [closed]
    rw [Nat.add_comm, List.append_assoc, List.cons_append, expandItems,
      if_neg (by decide), if_neg (by decide), if_pos rfl, List.singleton_append,
      splitAtChar_append inner]
    rfl

theorem unmarked_of_nameChar {c : Char} (named : isNameChar c = true) :
    isSpace c = false ∧ c ≠ '"' ∧ c ≠ '[' ∧ c ≠ '(' ∧ c ∉ ['*', '+', '?'] := by
  have other : isStop c = false := not_isStop_of_nameChar named
  simp only [isStop, Bool.or_eq_false_iff, decide_eq_false_iff_not] at other
  have listed : ∀ c ∈ ['"', '[', '(', '*', '+', '?'], c ∈ "\"[]()*+?|".toList := by decide
  have unlisted : c ∉ ['"', '[', '(', '*', '+', '?'] := fun member => other.2 (listed c member)
  refine ⟨other.1, ?_⟩
  simpa [not_or] using unlisted

theorem Expands.taken_ref (expands : Expands grammar turns ex) (stored : Stored grammar rules turns)
    {name : Text} (isName : IsName name)
    (plain : Plain grammar shape (.ref name)) : Taken grammar ex rules shape (.ref name) name := by
  refine ⟨1, List.length_pos_iff.mpr isName.1, expandRef ex rules name, expands.ref stored plain,
    fun n rest out boundary => ?_⟩
  have stops : ∀ c, rest.head? = some c → isStop c = true := boundary name rfl
  -- the name goes on up to where the rest begins
  have goes (c : Char) (member : c ∈ name) : (!isStop c) = true := by
    rw [not_isStop_of_nameChar (isName.2 c member)]
    rfl
  have ended : rest.takeWhile (fun c => !isStop c) = [] ∧
      rest.dropWhile (fun c => !isStop c) = rest := by
    cases rest with
    | nil => exact ⟨rfl, rfl⟩
    | cons c rest => simp [stops c rfl]
  obtain ⟨c, name, rfl⟩ := List.exists_cons_of_ne_nil isName.1
  obtain ⟨space, quote, bracket, paren, sign⟩ :=
    unmarked_of_nameChar (isName.2 c List.mem_cons_self)
  rw [Nat.add_comm, List.cons_append, expandItems, space, if_neg Bool.false_ne_true, if_neg quote,
    if_neg bracket, if_neg paren, if_neg sign, ← List.cons_append,
    List.takeWhile_append_of_pos goes, List.dropWhile_append_of_pos goes, ended.1, ended.2,
    List.append_nil]

theorem taken_group (closes : parenDepth 0 t = some 0)
    (translates : Translates (ex t) .choice (lang (rulesOf grammar) e)) :
    Taken grammar ex rules shape (.group e) ('(' :: t ++ [')']) := by
  refine ⟨1, by simp, (ex t).map fun inner => "(?:".toList ++ inner ++ [')'], ?_,
    fun n rest out _ => ?_⟩
  · rw [Gbnf.lang_group]
    exact translates.map fun r reads => reads_of_atom (AltText.group reads)
  · rw [Nat.add_comm, List.cons_append, List.cons_append, expandItems, if_neg (by decide),
      if_neg (by decide), if_neg (by decide), if_pos rfl, List.append_assoc,
      List.singleton_append, scanGroup_balanced closes]
    have inner : (t ++ [')']).dropLast = t := List.dropLast_concat
    simp only [inner]
    cases ex t <;> rfl

theorem expandItems_op (op : Gbnf.Op) (n : Nat) (rest : Text) (out : List Text) :
    expandItems ex rules (n + 1) (op.char :: rest) out =
      expandItems ex rules n rest (addToLast out op.char) := by
  rw [expandItems]
  cases op <;> simp [Gbnf.Op.char, isSpace]

theorem isStop_of_op {op : Gbnf.Op} {rest : Text} (blank : b.all isSpace = true) (c : Char)
    (head : (b ++ op.char :: rest).head? = some c) : isStop c = true := by
  cases b with
  | nil =>
    obtain rfl : op.char = c := by simpa using head
    cases op <;> decide
  | cons a b =>
    obtain rfl : a = c := by simpa using head
    rw [List.all_cons, Bool.and_eq_true] at blank
    rw [isStop, blank.1, Bool.true_or]

theorem Taken.rep (loose : shape ≠ .atom) {op : Gbnf.Op} (blank : b.all isSpace = true)
    (taken : Taken grammar ex rules .atom e t) :
    Taken grammar ex rules shape (.rep op e) (t ++ b ++ [op.char]) := by
  obtain ⟨k, small, x, translates, takes⟩ := taken
  refine ⟨k + (b.length + 1), by simp; omega, x.map fun r => r ++ [op.char], ?_,
    fun n rest out _ => ?_⟩
  · refine translates.map fun r reads => reads_of_seq ?_ loose
    cases op with
    | star => rw [Gbnf.lang_star]; exact AtomText.star reads
    | plus => rw [Gbnf.lang_plus]; exact AtomText.plus reads
    | opt => rw [Gbnf.lang_opt]; exact AtomText.opt reads
  · rw [List.append_assoc, List.append_assoc, List.singleton_append, Nat.add_assoc,
      takes _ _ _ fun _ _ => isStop_of_op blank]
    cases x with
    | error halt => rfl
    | ok r =>
      show expandItems ex rules (b.length + 1 + n) _ (out ++ [r]) = _
      rw [Nat.add_assoc, Nat.add_comm 1 n, expandItems_blank blank, expandItems_op]
      simp [addToLast, Except.map, bind, Except.bind]

theorem Expands.item (expands : Expands grammar turns ex) (stored : Stored grammar rules turns)
    (spells : Spells isSpace l e t) (level : l = .atom ∨ l = .item) (plain : Plain grammar shape e)
    (raw : '\\' ∉ t) (short : t.length < turns) : Taken grammar ex rules shape e t := by
  induction spells generalizing shape with
  | @lit s t text =>
    obtain ⟨rfl, closed⟩ := litText_raw text fun member => raw (by simp [member])
    cases plain with
    | lit single => exact taken_lit single closed
  | @cls negated rs t text head =>
    cases plain with
    | @cls _ _ cs nonempty =>
      obtain ⟨rfl, closed⟩ := clsText_raw text fun member => raw (by simp [member])
      rw [List.append_assoc, List.cons_append, ← List.append_assoc, ← List.cons_append]
      exact taken_cls nonempty head closed
  | any => cases plain
  | ref isName => exact expands.taken_ref stored isName plain
  | @group e t spells _ =>
    cases plain with
    | group balanced parts plain =>
      have inside : '\\' ∉ t := fun member => raw (by simp [member])
      -- the brackets of the text are those of the expression, which are balanced
      have closes : parenDepth 0 t = some 0 := by
        rwa [← parenDepth_filter, plain.filter_isMark spells inside]
      exact taken_group closes (expands plain parts spells inside (by simp at short; omega))
  | atom _ ih => exact ih (.inl rfl) plain raw short
  | rep _ blank ih =>
    cases plain with
    | rep loose plain =>
      exact .rep loose blank (ih (.inr rfl) plain (fun member => raw (by simp [member]))
        (by simp at short; omega))
  | _ => simp at level

theorem Plain.head_cases (spells : Spells isSpace l e t)
    (level : l = .atom ∨ l = .item ∨ l = .items) (plain : Plain grammar shape e) {c : Char}
    (head : t.head? = some c) : isStop c = true ∨ isNameChar c = true := by
  have behind {b s : Text} (blank : b.all isSpace = true)
      (solid : s.head? = some c → isStop c = true ∨ isNameChar c = true)
      (head : (b ++ s).head? = some c) : isStop c = true ∨ isNameChar c = true := by
    cases b with
    | nil => exact solid head
    | cons a b =>
      obtain rfl : a = c := by simpa using head
      rw [List.all_cons, Bool.and_eq_true] at blank
      exact .inl (by rw [isStop, blank.1, Bool.true_or])
  have first {s rest : Text} (framed : Framed isSpace s) (head : (s ++ rest).head? = some c) :
      s.head? = some c := by
    rw [List.head?_append_of_ne_nil _ framed.nonempty] at head
    exact head
  induction spells generalizing shape with
  | lit _ =>
    obtain rfl : '"' = c := by simpa using head
    exact .inl (by decide)
  | cls _ _ =>
    obtain rfl : '[' = c := by simpa using head
    exact .inl (by decide)
  | any => cases plain
  | ref isName => exact .inr (isName.2 c (List.mem_of_mem_head? head))
  | group _ =>
    obtain rfl : '(' = c := by simpa using head
    exact .inl (by decide)
  | atom _ ih => exact ih (.inl rfl) plain head
  | rep spells blank ih =>
    cases plain with
    | rep _ plain =>
      rw [List.append_assoc] at head
      exact ih (.inr (.inl rfl)) plain (first (spells.item_framed blanks) head)
  | one blank spells _ ih =>
    rw [List.append_assoc] at head
    exact behind blank (fun head =>
      ih (.inr (.inl rfl)) plain (first (spells.item_framed blanks) head)) head
  | cons blank spells _ _ ih _ =>
    cases plain with
    | seq _ plain _ =>
      rw [List.append_assoc] at head
      exact behind blank (fun head =>
        ih (.inr (.inl rfl)) plain (first (spells.item_framed blanks) head)) head
  | _ => simp at level

/-- The loop over an alternative ends with the texts of its items. -/
def TakenAll (grammar : List (Gbnf.Rule isSpace)) (ex : Text → Except Halt Text)
    (rules : Dict Text Text) (shape : Shape) (e : Expr) (t : Text) : Prop :=
  ∃ k ≤ t.length, ∃ x : Except Halt (List Text),
    Translates (x.map List.flatten) shape (lang (rulesOf grammar) e) ∧ ∀ n out,
      expandItems ex rules (k + (n + 1)) t out = x.map fun rs => out ++ rs

theorem Taken.last {b' : Text} (blank : b.all isSpace = true)
    (taken : Taken grammar ex rules shape e t) (blank' : b'.all isSpace = true) :
    TakenAll grammar ex rules shape e (b ++ t ++ b') := by
  obtain ⟨k, small, x, translates, takes⟩ := taken
  refine ⟨b.length + (k + b'.length), by simp; omega, x.map fun r => [r], ?_, fun n out => ?_⟩
  · cases x with
    | error halt => exact translates
    | ok r => simpa [Except.map] using translates
  · have stops : ∀ c, b'.head? = some c → isStop c = true := by
      intro c head
      rw [isStop, List.all_eq_true.mp blank' c (List.mem_of_mem_head? head), Bool.true_or]
    rw [List.append_assoc, Nat.add_assoc, expandItems_blank blank, Nat.add_assoc,
      takes _ _ _ fun _ _ => stops]
    cases x with
    | error halt => rfl
    | ok r =>
      have ending : expandItems ex rules (b'.length + (n + 1)) (b' ++ []) (out ++ [r]) = _ :=
        expandItems_blank blank' (n + 1) [] (out ++ [r])
      rw [List.append_nil] at ending
      exact ending

theorem Translates.seq (loose : shape ≠ .atom) {f : Expr} {x : Except Halt Text}
    {x' : Except Halt (List Text)} (first : Translates x .chain (lang (rulesOf grammar) e))
    (second : Translates (x'.map List.flatten) .chain (lang (rulesOf grammar) f)) :
    Translates ((x >>= fun r => x'.map fun rs => r :: rs).map List.flatten) shape
      (lang (rulesOf grammar) (.seq e f)) := by
  cases x with
  | error halt =>
    constructor
    · intro same
      cases same
      exact first.1 rfl
    · intro r made
      cases made
  | ok r =>
    have one : SeqText r (lang (rulesOf grammar) e) := first.2 r rfl
    have both : Translates ((x'.map List.flatten).map fun t => r ++ t) shape
        (lang (rulesOf grammar) (.seq e f)) := by
      rw [Gbnf.lang_seq]
      exact second.map fun r' reads => reads_of_seq (one.append reads) loose
    cases x' with
    | error halt => exact both
    | ok rs => simpa [Except.map, bind, Except.bind] using both

theorem Taken.cons (loose : shape ≠ .atom) {f : Expr} {t' : Text} (blank : b.all isSpace = true)
    (taken : Taken grammar ex rules .chain e t)
    (stops : ∀ name, e = .ref name → ∀ c, t'.head? = some c → isStop c = true)
    (later : TakenAll grammar ex rules .chain f t') :
    TakenAll grammar ex rules shape (.seq e f) (b ++ t ++ t') := by
  obtain ⟨k, small, x, translates, takes⟩ := taken
  obtain ⟨k', small', x', translates', ends⟩ := later
  refine ⟨b.length + (k + k'), by simp; omega, x >>= fun r => x'.map fun rs => r :: rs,
    translates.seq loose translates', fun n out => ?_⟩
  rw [List.append_assoc, Nat.add_assoc, expandItems_blank blank, Nat.add_assoc, takes _ _ _ stops]
  cases x with
  | error halt => rfl
  | ok r =>
    show expandItems ex rules (k' + (n + 1)) t' (out ++ [r]) = _
    rw [ends]
    cases x' with
    | error halt => rfl
    | ok rs => simp [Except.map, bind, Except.bind]

theorem Expands.items (expands : Expands grammar turns ex) (stored : Stored grammar rules turns)
    (spells : Spells isSpace .items e t) (plain : Plain grammar shape e) (raw : '\\' ∉ t)
    (short : t.length < turns) :
    TakenAll grammar ex rules shape e t := by
  generalize level : Gbnf.Level.items = l at spells
  induction spells generalizing shape with
  | @one e b t b' blank spells blank' _ =>
    simp only [List.length_append] at short
    have taken := expands.item stored spells (.inr rfl) plain
      (fun member => raw (by simp [member])) (by omega)
    exact taken.last blank blank'
  | @cons e f b t t' blank spells spells' boundary _ ih =>
    cases plain with
    | seq loose first second =>
      simp only [List.length_append] at short
      have taken := expands.item stored spells (.inr rfl) first
        (fun member => raw (by simp [member])) (by omega)
      have later := ih second (fun member => raw (by simp [member])) (by omega) level
      refine taken.cons loose blank (fun name isRef c head => ?_) later
      -- the text behind a name starts with no character of one
      refine (second.head_cases spells' (.inr (.inr rfl)) head).resolve_right fun named => ?_
      rw [boundary name isRef c head] at named
      cases named
  | _ => cases level

/-! ### Alternatives -/

theorem Expands.alternative (expands : Expands grammar turns ex)
    (stored : Stored grammar rules turns) (spells : Spells isSpace .alternative e t)
    (plain : Plain grammar shape e) (raw : '\\' ∉ t) (short : t.length < turns) :
    Translates (expandAlt ex rules turns (strip t)) shape (lang (rulesOf grammar) e) := by
  have part := Gbnf.trim_sublist isSpace t
  rcases spells.trim blanks with ⟨rfl, empty⟩ | ⟨_, _, items⟩
  · cases plain with
    | eps loose =>
      obtain ⟨n, rfl⟩ := Nat.exists_eq_add_of_lt short
      rw [strip, empty, Gbnf.lang_eps]
      exact .ok (reads_of_seq .nil loose)
  · obtain ⟨k, small, x, translates, ends⟩ := expands.items stored items plain
      (fun member => raw (part.subset member)) (Nat.lt_of_le_of_lt part.length_le short)
    obtain ⟨n, rfl⟩ : ∃ n, turns = k + (n + 1) :=
      ⟨turns - k - 1, by have := part.length_le; omega⟩
    have whole : expandAlt ex rules (k + (n + 1)) (strip t) = x.map List.flatten := by
      rw [expandAlt, strip, ends]
      cases x <;> rfl
    rwa [whole]

variable {f : Text → Except Halt Text}

theorem translates_single {p : Text} (translates : Translates (f p) shape L) :
    Translates (([p].mapM f).map ['|'].intercalate) shape L := by
  rw [List.mapM_cons]
  cases one : f p with
  | error halt =>
    rw [one] at translates
    refine ⟨fun same => translates.1 (by cases same; rfl), fun r made => ?_⟩
    cases made
  | ok r =>
    rw [one] at translates
    simpa [Except.map, pure, Except.pure, bind, Except.bind] using translates

theorem ne_nil_of_mapM {ps alts : List Text} (some : ps ≠ [])
    (made : ps.mapM f = .ok alts) : alts ≠ [] := by
  rintro rfl
  obtain ⟨p, ps, rfl⟩ := List.exists_cons_of_ne_nil some
  rw [List.mapM_cons] at made
  obtain ⟨_, _, made⟩ := bind_eq_ok_iff.mp made
  obtain ⟨_, _, made⟩ := bind_eq_ok_iff.mp made
  cases made

theorem translates_bar {p : Text} {ps : List Text} {M : Language Char}
    (first : Translates (f p) .choice L)
    (rest : Translates ((ps.mapM f).map ['|'].intercalate) .choice M) (some : ps ≠ []) :
    Translates (((p :: ps).mapM f).map ['|'].intercalate) .choice (L + M) := by
  rw [List.mapM_cons]
  cases here : f p with
  | error halt =>
    rw [here] at first
    refine ⟨fun same => first.1 (by cases same; rfl), fun r made => ?_⟩
    cases made
  | ok r =>
    cases later : ps.mapM f with
    | error halt =>
      rw [later] at rest
      refine ⟨fun same => rest.1 (by cases same; rfl), fun r made => ?_⟩
      cases made
    | ok alts =>
      rw [here] at first
      rw [later] at rest
      obtain ⟨a, alts, rfl⟩ := List.exists_cons_of_ne_nil (ne_nil_of_mapM some later)
      have one : AltText r L := first.2 r rfl
      have others : AltText (['|'].intercalate (a :: alts)) M := rest.2 _ rfl
      have joined : ['|'].intercalate (r :: a :: alts) =
          r ++ '|' :: ['|'].intercalate (a :: alts) := by simp [List.intercalate]
      show Translates (.ok (['|'].intercalate (r :: a :: alts))) _ _
      rw [joined]
      exact .ok (one.bar others)

theorem Expands.parts (expands : Expands grammar turns ex) (stored : Stored grammar rules turns)
    (spells : Spells isSpace .alternatives e t) (plain : Plain grammar shape e)
    (parts : parted e = true) (raw : '\\' ∉ t) (short : t.length < turns) :
    Translates (((splitTopLevel t).mapM (expandAlt ex rules turns)).map ['|'].intercalate) shape
        (lang (rulesOf grammar) e) ∧ (lastAlternative e ≠ .eps → splitTopLevel t ≠ []) := by
  generalize level : Gbnf.Level.alternatives = l at spells
  induction spells generalizing shape with
  | @last e t spells _ =>
    have translates := expands.alternative stored spells plain raw short
    rw [parted_of_alternative spells, ← plain.scanBars_eq spells raw] at parts
    obtain ⟨state, scanned⟩ := Option.isSome_iff_exists.mp parts
    rw [splitTopLevel_of_scanBars scanned]
    rcases spells.trim blanks with ⟨rfl, empty⟩ | ⟨_, some, _⟩
    · -- an empty alternative at the end is left out, and nothing stands for it
      have empty : strip t = [] := empty
      cases plain with
      | eps loose =>
        rw [if_pos empty, Gbnf.lang_eps]
        exact ⟨.ok (reads_of_seq .nil loose), fun other => absurd rfl other⟩
    · have nonempty : strip t ≠ [] := some
      rw [if_neg nonempty]
      exact ⟨translates_single translates, fun _ => List.cons_ne_nil _ _⟩
  | @more e f t t' spells spells' _ ih =>
    cases plain with
    | alt first second ends =>
      simp only [List.length_append, List.length_cons] at short
      have rawFirst : '\\' ∉ t := fun member => raw (by simp [member])
      have one := expands.alternative stored spells first rawFirst (by omega)
      rw [parted, Bool.and_eq_true, decide_eq_true_eq, ← first.scanBars_eq spells rawFirst] at parts
      obtain ⟨rest, some⟩ := ih second parts.2 (fun member => raw (by simp [member])) (by omega) level
      rw [splitTopLevel_bar parts.1, Gbnf.lang_alt]
      exact ⟨translates_bar one rest (some ends), fun _ => List.cons_ne_nil _ _⟩
  | _ => cases level

theorem expand_expands (stored : Stored grammar rules turns) (depths : Nat) :
    Expands grammar turns (expand rules turns depths) := by
  induction depths with
  | zero =>
    intro shape e t _ _ _ _ _
    exact ⟨nofun, nofun⟩
  | succ depths ih =>
    intro shape e t plain parts spells raw short
    have translates := (ih.parts stored spells plain parts raw short).1
    rw [expand]
    cases parts : (splitTopLevel t).mapM (expandAlt (expand rules turns depths) rules turns) with
    | error halt => rwa [parts] at translates
    | ok alts => rwa [parts] at translates

end DistLLM.GrammarConstrained
