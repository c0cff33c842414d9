import DistLLM.GrammarConstrained.Expansion

/-!
# What the translation of a grammar stands for

The rules of a grammar are found in its lines. Where they are plain, the regular expression matches
the words that the start rule derives; a class with a range is not plain, and its range is lost.
-/
namespace DistLLM.GrammarConstrained

open Library Library.Json.CharLists
open Library.Gbnf (Expr Spells ClsText Framed GrammarText NonRecursive lang rulesOf)

/-! ### Collecting the rules -/

theorem partition_append {s : Text} (absent : ':' ∉ s) (t : Text) :
    partition "::=".toList (s ++ "::=".toList ++ t) = some (s, t) := by
  induction s with
  | nil => rfl
  | cons c s ih =>
    rw [List.mem_cons, not_or] at absent
    have later : ("::=".toList.isPrefixOf (c :: (s ++ "::=".toList ++ t))) = false := by
      simp [List.isPrefixOf, absent.1]
    rw [List.cons_append, List.cons_append, partition, later, if_neg Bool.false_ne_true,
      ih absent.2]
    rfl

theorem partition_eq_none {s : Text} (absent : ¬ "::=".toList <:+: s) :
    partition "::=".toList s = none := by
  induction s with
  | nil => rfl
  | cons c s ih =>
    have here : ("::=".toList.isPrefixOf (c :: s)) = false := by
      rw [← Bool.not_eq_true, List.isPrefixOf_iff_prefix]
      exact fun start => absent start.isInfix
    rw [partition, here, if_neg Bool.false_ne_true,
      ih fun inside => absent (inside.trans (List.infix_cons (List.infix_refl s)))]
    rfl

theorem readStripped_of_not_content (rules : Dict Text Text) {line : Text}
    (skipped : Gbnf.isContent line = false) : readStripped rules line = rules := by
  have either : line = [] ∨ line.head? = some '#' := by
    by_contra neither
    rw [not_or] at neither
    simp [Gbnf.isContent, neither] at skipped
  rw [readStripped, if_pos either]

theorem readRules_eq (text : Text) :
    readRules text = (Gbnf.contentLines isSpace text).foldl readStripped ∅ := by
  have skip (lines : List Text) (rules : Dict Text Text) :
      lines.foldl (fun rules line => readStripped rules (strip line)) rules =
        ((lines.map (Gbnf.trim isSpace)).filter Gbnf.isContent).foldl readStripped rules := by
    induction lines generalizing rules with
    | nil => rfl
    | cons line lines ih =>
      rw [List.foldl_cons, ih, List.map_cons]
      by_cases content : Gbnf.isContent (Gbnf.trim isSpace line) = true
      · rw [List.filter_cons_of_pos content, List.foldl_cons]
        rfl
      · rw [List.filter_cons_of_neg content, strip,
          readStripped_of_not_content rules ((Bool.not_eq_true _).mp content)]
  exact skip _ ∅

/-- A line as it is read: nothing but blanks is missing. -/
structure ReadLine (line : Text) : Prop where
  content : Gbnf.isContent line = true
  framed : Framed isSpace line
  oneLine : '\n' ∉ line

theorem not_mem_of_mem_splitOn {c : Char} {t line : Text} (member : line ∈ t.splitOn c) :
    c ∉ line := by
  rw [List.splitOn_eq_splitOnP] at member
  induction t generalizing line with
  | nil =>
    rw [List.splitOnP_nil, List.mem_singleton] at member
    rw [member]
    exact List.not_mem_nil
  | cons d t ih =>
    rw [List.splitOnP_cons_eq_if_modifyHead] at member
    by_cases same : d = c
    · simp only [same, beq_self_eq_true, if_true, List.mem_cons] at member
      rcases member with rfl | later
      · exact List.not_mem_nil
      · exact ih later
    · obtain ⟨first, rest, parts⟩ :=
        List.exists_cons_of_ne_nil (List.splitOnP_ne_nil (fun a => a == c) t)
      rw [parts] at member ih
      simp only [beq_iff_eq, same, if_false, List.modifyHead_cons, List.mem_cons] at member
      rcases member with rfl | later
      · simp [Ne.symm same, ih List.mem_cons_self]
      · exact ih (List.mem_cons_of_mem _ later)

theorem readLine_of_mem {text line : Text} (member : line ∈ Gbnf.contentLines isSpace text) :
    ReadLine line := by
  obtain ⟨inside, content⟩ := List.mem_filter.mp member
  obtain ⟨whole, split, rfl⟩ := List.mem_map.mp inside
  refine ⟨content, ?_, fun broken => ?_⟩
  · refine (Gbnf.trim_cases isSpace whole).resolve_left fun empty => ?_
    rw [empty] at content
    cases content
  · exact not_mem_of_mem_splitOn split ((Gbnf.trim_sublist isSpace whole).subset broken)

theorem strip_joinLine {body line : Text} (read : body = [] ∨ Framed isSpace (Gbnf.oneLine body))
    (next : ReadLine line) :
    strip (Gbnf.oneLine body ++ ' ' :: line) = Gbnf.oneLine (Gbnf.joinLine body line) ∧
      Framed isSpace (Gbnf.oneLine (Gbnf.joinLine body line)) := by
  have same : Gbnf.oneLine line = line := Gbnf.oneLine_of_notMem next.oneLine
  by_cases empty : body = []
  · have alone : Gbnf.joinLine body line = line := by rw [Gbnf.joinLine, if_pos empty]
    rw [alone, same, empty]
    refine ⟨?_, next.framed⟩
    simpa [strip] using Gbnf.trim_framed (b := [' ']) (d := []) next.framed (by decide) rfl
  · have joined : Gbnf.oneLine (Gbnf.joinLine body line) = Gbnf.oneLine body ++ [' '] ++ line := by
      rw [Gbnf.joinLine, if_neg empty, Gbnf.oneLine_append, Gbnf.oneLine, Gbnf.oneLine,
        List.map_cons, if_pos rfl, ← Gbnf.oneLine, ← Gbnf.oneLine, same]
      simp
    have framed := (read.resolve_left empty).append [' '] next.framed
    rw [joined]
    refine ⟨?_, framed⟩
    simpa [strip] using Gbnf.trim_framed (b := []) (d := []) framed rfl rfl

theorem readStripped_more {d : Dict Text Text} {es : List (Text × Text)} {name body : Text}
    {more : List Text} (read : body = [] ∨ Framed isSpace (Gbnf.oneLine body))
    (entries : d.entries = es ++ [(name, Gbnf.oneLine body)])
    (lines : ∀ line ∈ more, ReadLine line ∧ ¬ "::=".toList <:+: line) :
    (more.foldl readStripped d).entries =
      es ++ [(name, Gbnf.oneLine (more.foldl Gbnf.joinLine body))] := by
  induction more generalizing d body with
  | nil => exact entries
  | cons line more ih =>
    obtain ⟨next, undefined⟩ := lines line List.mem_cons_self
    obtain ⟨text, framed⟩ := strip_joinLine read next
    have content : ¬ (line = [] ∨ line.head? = some '#') := by
      have kept := next.content
      simp only [Gbnf.isContent, Bool.and_eq_true, decide_eq_true_eq] at kept
      simpa [not_or] using kept
    have last : d.keys.getLast? = some name := by simp [Dict.keys, entries]
    have found : d.getD name [] = Gbnf.oneLine body := by
      have member : (name, Gbnf.oneLine body) ∈ d.entries := by simp [entries]
      rw [Dict.getD, (d.mem_entries_iff _ _).mp member, Option.getD_some]
    have step : (readStripped d line).entries =
        es ++ [(name, Gbnf.oneLine (Gbnf.joinLine body line))] := by
      rw [readStripped, if_neg content, partition_eq_none undefined, last]
      show (d.set name (strip (d.getD name [] ++ ' ' :: line))).entries = _
      rw [found, text]
      exact d.entries_set_last _ entries
    exact ih (.inr framed) step fun line member => lines line (List.mem_cons_of_mem _ member)

theorem readStripped_rule {d : Dict Text Text} {r : Gbnf.Rule isSpace}
    (absent : d.get? r.name = none) (lines : ∀ line ∈ r.lines, ReadLine line)
    (undefined : ∀ line ∈ r.more, ¬ "::=".toList <:+: line) :
    (r.lines.foldl readStripped d).entries = d.entries ++ [(r.name, Gbnf.oneLine r.body)] := by
  have first := lines _ List.mem_cons_self
  have noColon : ':' ∉ r.name ++ r.gap := by
    rw [List.mem_append, not_or]
    refine ⟨fun member => ?_, fun member => ?_⟩
    · cases r.isName.2 _ member
    · cases List.all_eq_true.mp r.gapBlank _ member
  have content : ¬ (r.name ++ r.gap ++ "::=".toList ++ r.first = [] ∨
      (r.name ++ r.gap ++ "::=".toList ++ r.first).head? = some '#') := by
    have kept := first.content
    simp only [Gbnf.isContent, Bool.and_eq_true, decide_eq_true_eq] at kept
    simpa [not_or] using kept
  have named : strip (r.name ++ r.gap) = r.name := by
    have framed : Framed isSpace r.name := (Spells.ref r.isName).atom_framed blanks
    exact Gbnf.trim_framed (b := []) framed rfl r.gapBlank
  have oneLine : Gbnf.oneLine (strip r.first) = strip r.first := by
    refine Gbnf.oneLine_of_notMem fun broken => first.oneLine ?_
    exact List.mem_append_right _ ((Gbnf.trim_sublist isSpace r.first).subset broken)
  have step : (readStripped d (r.name ++ r.gap ++ "::=".toList ++ r.first)).entries =
      d.entries ++ [(r.name, Gbnf.oneLine (strip r.first))] := by
    rw [readStripped, if_neg content, partition_append noColon, oneLine]
    show (d.set (strip (r.name ++ r.gap)) (strip r.first)).entries = _
    rw [named]
    exact d.entries_set_of_absent _ _ absent
  refine readStripped_more ?_ step fun line member =>
    ⟨lines line (List.mem_cons_of_mem _ member), undefined line member⟩
  rw [oneLine]
  exact Gbnf.trim_cases isSpace r.first

variable {grammar : List (Gbnf.Rule isSpace)} {text start : Text}

theorem readRules_entries (spelled : GrammarText grammar text)
    (undefined : ∀ r ∈ grammar, ∀ line ∈ r.more, ¬ "::=".toList <:+: line) :
    (readRules text).entries = grammar.map fun r => (r.name, Gbnf.oneLine r.body) := by
  obtain ⟨names, lines⟩ := spelled
  have read : ∀ r ∈ grammar, ∀ line ∈ r.lines, ReadLine line := by
    intro r member line inside
    refine readLine_of_mem (?_ : line ∈ Gbnf.contentLines isSpace text)
    rw [lines]
    exact List.mem_flatten_of_mem (List.mem_map_of_mem member) inside
  rw [readRules_eq, lines]
  have general (rest : List (Gbnf.Rule isSpace)) (d : Dict Text Text)
      (names : (rest.map Gbnf.Rule.name).Nodup) (absent : ∀ r ∈ rest, d.get? r.name = none)
      (part : ∀ r ∈ rest, r ∈ grammar) :
      ((rest.map Gbnf.Rule.lines).flatten.foldl readStripped d).entries =
        d.entries ++ rest.map fun r => (r.name, Gbnf.oneLine r.body) := by
    induction rest generalizing d with
    | nil => simp
    | cons r rest ih =>
      have member := part r List.mem_cons_self
      rw [List.map_cons, List.nodup_cons] at names
      have step := readStripped_rule (absent r List.mem_cons_self) (read r member)
        (undefined r member)
      rw [List.map_cons, List.flatten_cons, List.foldl_append, ih _ names.2 ?_ ?_, step]
      · simp
      · intro r' later
        by_contra present
        obtain ⟨v, found⟩ := Option.ne_none_iff_exists'.mp present
        have entry := (Dict.mem_entries_iff _ _ v).mpr found
        rw [step] at entry
        rcases List.mem_append.mp entry with before | this
        · rw [Dict.mem_entries_iff, absent r' (List.mem_cons_of_mem _ later)] at before
          cases before
        · obtain ⟨same, _⟩ := Prod.mk.inj (List.mem_singleton.mp this)
          exact names.1 (same ▸ List.mem_map_of_mem later)
      · exact fun r' later => part r' (List.mem_cons_of_mem _ later)
  exact general grammar ∅ names (fun _ _ => rfl) fun _ member => member

/-! ### The language of the result -/

/-- The text is a regular expression for the words that the start rule derives. -/
def Exact (grammar : List (Gbnf.Rule isSpace)) (start regex : Text) : Prop :=
  ∃ r, Regex.read regex = some r ∧ r.lang = lang (rulesOf grammar) (.ref start)

/-- The start rule is plain and split at its bars, and no further line of a body is taken for a
rule. -/
structure Translatable (grammar : List (Gbnf.Rule isSpace)) (start : Text) : Prop where
  root : ∃ r ∈ grammar, r.name = start ∧ '\\' ∉ r.body ∧ parted r.expr = true ∧
    Plain grammar .choice r.expr
  undefined : ∀ r ∈ grammar, ∀ line ∈ r.more, ¬ "::=".toList <:+: line

theorem stored_readRules (spelled : GrammarText grammar text)
    (undefined : ∀ r ∈ grammar, ∀ line ∈ r.more, ¬ "::=".toList <:+: line) {turns : Nat}
    (short : ∀ r ∈ grammar, r.body.length < turns) : Stored grammar (readRules text) turns where
  names := spelled.1
  held r member := by
    rw [← Dict.mem_entries_iff, readRules_entries spelled undefined]
    exact List.mem_map_of_mem (f := fun r => (r.name, Gbnf.oneLine r.body)) member
  short := short

/-- The translation of a translatable grammar returns, and what it accepts it translates exactly. -/
theorem gbnfToRegex_exact (spelled : GrammarText grammar text)
    (translatable : Translatable grammar start) :
    ∃ enough, ∀ turns ≥ enough, gbnfToRegex turns text start ≠ .error .outOfTurns ∧
      ∀ regex, gbnfToRegex turns text start = .ok regex → Exact grammar start regex := by
  obtain ⟨⟨r, member, rfl, raw, parts, plain⟩, undefined⟩ := translatable
  refine ⟨(grammar.map Gbnf.Rule.body).flatten.length + 1, fun turns many => ?_⟩
  have short : ∀ r ∈ grammar, r.body.length < turns := by
    intro r' member'
    have part := (List.sublist_flatten_of_mem
      (List.mem_map_of_mem (f := Gbnf.Rule.body) member')).length_le
    omega
  have stored := stored_readRules spelled undefined short
  have translates := Expands.rule (expand_expands stored 33) stored member raw parts plain
  have value : gbnfToRegex turns text r.name =
      expand (readRules text) turns 33 (Gbnf.oneLine r.body) := by
    have some_rule : (readRules text).values ≠ [] := by
      rw [Dict.values, readRules_entries spelled undefined]
      simpa using List.ne_nil_of_mem member
    obtain ⟨first, rest, values⟩ := List.exists_cons_of_ne_nil some_rule
    have found : (readRules text).getD r.name first = Gbnf.oneLine r.body := by
      rw [Dict.getD, stored.held r member, Option.getD_some]
    simp only [gbnfToRegex, values, List.head?_cons, found]
  rw [value]
  refine ⟨translates.1, fun regex accepted => ?_⟩
  exact Regex.AltText.read (translates.2 regex accepted)

/-- `root ::= "a(" (item | [(")]+)`, with the whitespace rule in a second line. -/
def nestedRoot : Gbnf.Rule isSpace where
  name := "root".toList
  gap := [' ']
  first := " \"a(\" (item | [(\")]+)".toList
  more := ["ws".toList]
  expr := .seq (.lit "a(".toList)
    (.seq (.group (.alt (.ref "item".toList) (.rep .plus (.cls (.ofChars false ['(', '"', ')'])))))
      (.ref "ws".toList))
  isName := ⟨by decide, by decide⟩
  gapBlank := by decide
  spelled := by
    have inner : Spells isSpace .alternatives
        (.alt (.ref "item".toList) (.rep .plus (.cls (.ofChars false ['(', '"', ')']))))
        "item | [(\")]+".toList := by
      have item : Spells isSpace .item (.ref "item".toList) "item".toList :=
        .atom (.ref ⟨by decide, by decide⟩)
      have marks_ : Spells isSpace .item (.rep .plus (.cls (.ofChars false ['(', '"', ')'])))
          "[(\")]+".toList :=
        .rep (b := []) (.atom (.cls (.plain (by decide)) (by decide))) rfl
      exact .more (.items (.one (b := []) (d := [' ']) rfl item rfl))
        (.last (.items (.one (b := [' ']) (d := []) rfl marks_ rfl)))
    have body : Gbnf.bodyOf isSpace " \"a(\" (item | [(\")]+)".toList ["ws".toList] =
        "\"a(\" (item | [(\")]+)\nws".toList := by decide +kernel
    rw [body]
    have ws : Spells isSpace .items (.ref "ws".toList) "\nws".toList :=
      .one (b := ['\n']) (d := []) rfl (.atom (.ref ⟨by decide, by decide⟩)) rfl
    have group : Spells isSpace .items _ " (item | [(\")]+)\nws".toList :=
      .cons (b := [' ']) rfl (.atom (.group inner)) ws nofun
    exact .last (.items (.cons (b := []) rfl (.atom (.lit (.plain (by decide)))) group nofun))

def nestedItem : Gbnf.Rule isSpace where
  name := "item".toList
  gap := [' ']
  first := " \"|\" \"b\"".toList
  expr := .seq (.lit ['|']) (.lit ['b'])
  isName := ⟨by decide, by decide⟩
  gapBlank := by decide
  spelled := by
    have body : Gbnf.bodyOf isSpace " \"|\" \"b\"".toList [] = "\"|\" \"b\"".toList := by
      decide +kernel
    rw [body]
    have second : Spells isSpace .items (.lit ['b']) " \"b\"".toList :=
      .one (b := [' ']) (d := []) rfl (.atom (.lit (.plain (by decide)))) rfl
    exact .last (.items (.cons (b := []) rfl (.atom (.lit (.plain (by decide)))) second nofun))

def spaces : Gbnf.Rule isSpace where
  name := "ws".toList
  gap := [' ']
  first := " [ \\t\\n\\r]*".toList
  expr := .rep .star (.cls (.ofChars false [' ', '\t', '\n', '\r']))
  isName := ⟨by decide, by decide⟩
  gapBlank := by decide
  spelled := by
    have body : Gbnf.bodyOf isSpace " [ \\t\\n\\r]*".toList [] = "[ \\t\\n\\r]*".toList := by
      decide +kernel
    rw [body]
    have text : ClsText [(' ', none), ('\t', none), ('\n', none), ('\r', none)]
        " \\t\\n\\r".toList :=
      .single (x := [' ']) (.raw (by decide) (by decide) (by decide)) (.inr (by decide))
        (.single (x := ['\\', 't']) (.escape (.short rfl)) (.inr (by decide))
          (.single (x := ['\\', 'n']) (.escape (.short rfl)) (.inr (by decide))
            (.single (x := ['\\', 'r']) (.escape (.short rfl)) (.inr (by decide)) .nil)))
    have item : Spells isSpace .item (.rep .star (.cls (.ofChars false [' ', '\t', '\n', '\r'])))
        "[ \\t\\n\\r]*".toList := .rep (b := []) (.atom (.cls text (by decide))) rfl
    exact .last (.items (.one (b := []) (d := []) rfl item rfl))

def nestedText : Text :=
  ("# items\nroot ::= \"a(\" (item | [(\")]+)\n  ws\n\nitem ::= \"|\" \"b\"\n" ++
    "ws ::= [ \\t\\n\\r]*").toList

theorem nested_translatable : Translatable [nestedRoot, nestedItem, spaces] "root".toList where
  root := by
    have item : Plain [nestedRoot, nestedItem, spaces] .choice (.ref nestedItem.name) :=
      .ref (by simp) (by decide) (by decide +kernel) (by decide)
        (.seq nofun (.lit (by decide)) (.lit (by decide)))
    have signs : Plain [nestedRoot, nestedItem, spaces] .choice
        (.rep .plus (.cls (.ofChars false ['(', '"', ')']))) :=
      .rep nofun (.cls (by decide))
    have ws : Plain [nestedRoot, nestedItem, spaces] .chain (.ref "ws".toList) := by
      refine .ws nofun rfl ?_
      show lang _ (.rep .star (.cls _)) = _
      rw [Gbnf.lang_star, Gbnf.lang_cls]
    refine ⟨nestedRoot, by simp, rfl, by decide +kernel, by decide, ?_⟩
    exact .seq nofun (.lit nofun)
      (.seq nofun (.group (by decide) (by decide) (.alt item signs (by decide))) ws)
  undefined := by
    intro r member line inside
    simp only [List.mem_cons, List.not_mem_nil, or_false] at member
    rcases member with rfl | rfl | rfl
    · rw [List.mem_singleton.mp inside]
      decide
    · cases inside
    · cases inside

/-- Whitespace, a bar in quotes, a group and a continued line. -/
theorem gbnfToRegex_exact_nested : ∃ enough, ∀ turns ≥ enough,
      gbnfToRegex turns nestedText "root".toList ≠ .error .outOfTurns ∧
        ∀ regex, gbnfToRegex turns nestedText "root".toList = .ok regex →
          Exact [nestedRoot, nestedItem, spaces] "root".toList regex :=
  gbnfToRegex_exact ⟨by decide, by decide +kernel⟩ nested_translatable

def rangeRule : Gbnf.Rule isSpace where
  name := "root".toList
  gap := [' ']
  first := " [a-c]".toList
  expr := .cls ⟨false, [('a', some 'c')]⟩
  isName := ⟨by decide, by decide⟩
  gapBlank := by decide
  spelled := by
    have text : ClsText [('a', some 'c')] ['a', '-', 'c'] :=
      .range (.raw (by decide) (by decide) (by decide)) (.raw (by decide) (by decide) (by decide))
        .nil
    exact .last (.items (.one (b := []) rfl (.atom (.cls text (by decide))) (d := []) rfl))

/-- A class with a range becomes a class of its ends and a dash. -/
theorem class_range_lost : ¬ ∀ (grammar : List (Gbnf.Rule isSpace)) (text start : Text),
    GrammarText grammar text → NonRecursive grammar → start ∈ grammar.map Gbnf.Rule.name →
      ∀ turns regex, gbnfToRegex turns text start = .ok regex → Exact grammar start regex := by
  intro all
  have recursive : NonRecursive [rangeRule] := ⟨fun _ => 0, by simp [rangeRule, Expr.refs]⟩
  obtain ⟨r, read, same⟩ := all [rangeRule] "root ::= [a-c]".toList "root".toList
    ⟨by decide, by decide +kernel⟩ recursive (by decide) 10 "[a\\-c]".toList (by decide +kernel)
  have value : Regex.read "[a\\-c]".toList =
      some (.alt .zero (.seq .eps (.cls (.ofChars false ['c', '-', 'a'])))) := by decide +kernel
  rw [value] at read
  obtain rfl := Option.some.inj read
  have derived : ['b'] ∈ lang (rulesOf [rangeRule]) (.ref "root".toList) := by
    have found : rulesOf [rangeRule] "root".toList = some (.cls ⟨false, [('a', some 'c')]⟩) := rfl
    rw [Gbnf.lang_ref found, Gbnf.lang_cls]
    refine ⟨'b', rfl, fun _ => rfl, fun _ => ⟨('a', some 'c'), List.mem_cons_self, ?_, ?_⟩⟩
    · decide
    · decide
  rw [← same] at derived
  simp only [Regex.lang, zero_add, one_mul] at derived
  obtain ⟨c, letter, inside⟩ := derived
  obtain rfl : 'b' = c := (List.cons.inj letter).1
  rw [CharClass.contains_ofChars] at inside
  exact absurd (inside.mpr rfl) (by decide)

end DistLLM.GrammarConstrained
