import DistLLM.GbnfGrammar.Reading

/-!
# What a generated grammar derives

A key is derived without the quotes that JSON wants around it, so no text that has a key is JSON.
What is left are the schemas without properties: there the grammar is exact, unless a definition
takes the name of one of the rules that the generated text counts on.
-/
namespace DistLLM.GbnfGrammar

open Library Library.Json.CharLists
open Gbnf (Derives Expr GrammarText IsName Rule Rules Spells lang rulesOf)
open Json (isWs)
open JsonValue (Value IsTextOf)

variable {name : Text}

theorem not_derives_loop {rules : Rules} (loop : ∀ e, rules name = some e → e = .ref name)
    (w : Text) : ¬ Derives rules (.ref name) w := by
  intro derives
  generalize whole : Expr.ref name = e at derives
  induction derives with
  | ref found _ ih =>
    cases whole
    exact ih (loop _ found).symm
  | _ => cases whole

theorem blank_of_derives {rules : Rules} {w : Text} (derives : Derives rules wsRule w) :
    w.all isWs = true := by
  cases derives with
  | star each =>
    rw [List.all_eq_true]
    intro c member
    obtain ⟨w, inside, here⟩ := List.mem_flatten.mp member
    cases each w inside with
    | cls contained =>
      obtain rfl := List.mem_singleton.mp here
      simpa [isWs, CharClass.contains_ofChars] using contained

theorem rulesOf_of_notMem {grammar : List (Rule isWs)}
    (absent : name ∉ grammar.map Rule.name) : rulesOf grammar name = none := by
  rw [rulesOf, Option.map_eq_none_iff, List.find?_eq_none]
  intro r member same
  exact absent (of_decide_eq_true same ▸ List.mem_map_of_mem member)

variable {es : List (Text × PropSchema)}

theorem Inner.begins {inner : List Text} (lines : Inner es inner) :
    ∃ more, (inner ++ [closeLine]).flatMap (fun line => '\n' :: line) = '\n' :: '"' :: more := by
  cases lines with
  | none => exact ⟨_, rfl⟩
  | some _ => exact ⟨_, rfl⟩

/-- What a generated text is as a grammar. -/
structure Read (schema : Schema) (r : Rule isWs) (rest : List (Rule isWs)) : Prop where
  root : r.name = "root".toList
  names : rest.map Rule.name = schema.defs.keys
  exprs : ∀ r' ∈ rest, r'.expr = .ref "value".toList
  expr : ∃ inner f, Inner schema.properties.entries inner ∧
    r.expr = .seq (.lit ['{']) (.seq (.ref "ws".toList) f) ∧
    Spells isWs .items f ((inner ++ [closeLine]).flatMap fun line => '\n' :: line)

theorem grammarText_read {schema : Schema} (supported : Supported schema)
    {grammar : List (Rule isWs)} (text : GrammarText grammar (generateGbnf schema)) :
    ∃ r rest, grammar = r :: rest ∧ Read schema r rest := by
  obtain ⟨inner, between, lines⟩ := contentLines_generateGbnf supported
  have pieces : ∀ line ∈ inner ++ [closeLine], Piece line ∧ line.head? = some '"' := by
    intro line member
    rcases List.mem_append.mp member with member | member
    · exact between.piece line member
    · obtain rfl := List.mem_singleton.mp member
      exact ⟨closeLine_piece, rfl⟩
  have split : (grammar.map Rule.lines).flatten = openLine :: ((inner ++ [closeLine]) ++
      schema.defs.keys.map fun name => name ++ " ::= value".toList) := by
    rw [← text.2, lines, extraRules]
    simp
  obtain ⟨r, rest, rfl, root, body, below⟩ := root_read pieces supported.names split
  obtain ⟨names, exprs⟩ := definitions_read supported.names below
  refine ⟨r, rest, rfl, root, names, exprs, ?_⟩
  -- all that stands in the body goes through the scan
  have passes : Passes 0 r.body := by
    rw [body]
    exact passes_open.append (passes_lines fun line member => (pieces line member).1.passes 0)
  obtain ⟨more, begins⟩ := between.begins
  have spelled : Spells isWs .alternatives r.expr r.body := r.spelled
  rw [body, begins] at spelled passes
  obtain ⟨f, expr, behind⟩ := root_expr passes spelled
  rw [← begins] at behind
  exact ⟨inner, f, between, expr, behind⟩

/-! ### What the first rule derives -/

section

variable {schema : Schema} {r : Rule isWs} {rest : List (Rule isWs)} (read : Read schema r rest)
include read

theorem Read.names_eq : (r :: rest).map Rule.name = "root".toList :: schema.defs.keys := by
  rw [List.map_cons, read.root, read.names]

theorem Read.rules_root : withWs (r :: rest) "root".toList = some r.expr := by
  simp [withWs, rulesOf, read.root]

theorem Read.rulesOf_definition {e : Expr} (apart : name ≠ "root".toList)
    (found : rulesOf (r :: rest) name = some e) : e = .ref "value".toList := by
  rw [rulesOf, Option.map_eq_some_iff] at found
  obtain ⟨r', first, rfl⟩ := found
  rcases List.mem_cons.mp (List.mem_of_find?_eq_some first) with rfl | inside
  · have named := List.find?_some first
    rw [decide_eq_true_eq, read.root] at named
    exact absurd named.symm apart
  · exact read.exprs r' inside

theorem Read.not_derives_value (w : Text) :
    ¬ Derives (withWs (r :: rest)) (.ref "value".toList) w := by
  refine not_derives_loop (fun e found => ?_) w
  have other : "value".toList ≠ "ws".toList := by decide
  rw [withWs, if_neg other, Option.or_none] at found
  exact read.rulesOf_definition (by decide) found

theorem Read.not_derives_ws (defined : "ws".toList ∈ schema.defs.keys) (w : Text) :
    ¬ Derives (withWs (r :: rest)) (.ref "ws".toList) w := by
  intro derives
  cases derives with
  | @ref _ e _ found derives =>
    have some_rule : ∃ e, rulesOf (r :: rest) "ws".toList = some e := by
      have member : "ws".toList ∈ (r :: rest).map Rule.name := by
        rw [read.names_eq]
        exact List.mem_cons_of_mem _ defined
      obtain ⟨r', inside, named⟩ := List.mem_map.mp member
      have first : ((r :: rest).find? fun r => r.name = "ws".toList).isSome := by
        rw [List.find?_isSome]
        exact ⟨r', inside, by simpa using named⟩
      obtain ⟨first, here⟩ := Option.isSome_iff_exists.mp first
      exact ⟨first.expr, by rw [rulesOf, here, Option.map_some]⟩
    obtain ⟨e', here⟩ := some_rule
    have same := read.rulesOf_definition (by decide) here
    rw [withWs, here, Option.some_or] at found
    rw [← Option.some.inj found, same] at derives
    exact read.not_derives_value w derives

theorem Read.rules_ws (undefined : "ws".toList ∉ schema.defs.keys) :
    withWs (r :: rest) "ws".toList = some wsRule := by
  have absent : "ws".toList ∉ (r :: rest).map Rule.name := by
    rw [read.names_eq, List.mem_cons, not_or]
    exact ⟨by decide, undefined⟩
  rw [withWs, rulesOf_of_notMem absent]
  rfl

theorem Read.word {e : Expr} (expr : r.expr = .seq (.lit ['{']) (.seq (.ref "ws".toList) e))
    {w : Text} (member : w ∈ rootLang (r :: rest)) :
    ∃ b u, w = '{' :: (b ++ u) ∧ Derives (withWs (r :: rest)) (.ref "ws".toList) b ∧
      Derives (withWs (r :: rest)) e u := by
  have derives : Derives (withWs (r :: rest)) (.ref "root".toList) w := member
  cases derives with
  | ref found derives =>
    rw [read.rules_root] at found
    rw [← Option.some.inj found, expr] at derives
    cases derives with
    | seq brace derives =>
      cases brace
      cases derives with
      | @seq _ _ b u ws inside => exact ⟨b, u, rfl, ws, inside⟩

theorem Read.word_key (undefined : "ws".toList ∉ schema.defs.keys) {s : PropSchema}
    (first : schema.properties.entries = (name, s) :: es) {w : Text}
    (member : w ∈ rootLang (r :: rest)) :
    ∃ b d u, b.all isWs = true ∧ d.all isWs = true ∧
      w = '{' :: (b ++ (name ++ (d ++ ':' :: u))) := by
  have blank {b : Text} (ws : Derives (withWs (r :: rest)) (.ref "ws".toList) b) :
      b.all isWs = true := by
    cases ws with
    | ref found derives =>
      rw [read.rules_ws undefined] at found
      exact blank_of_derives (Option.some.inj found ▸ derives)
  obtain ⟨inner, e, lines, expr, spelled⟩ := read.expr
  obtain ⟨b, u, rfl, ws, inside⟩ := read.word expr member
  rw [first] at lines
  cases lines with
  | @some _ _ _ more _ =>
    obtain ⟨f, rfl⟩ := key_expr name more spelled
    cases inside with
    | seq key inside =>
      cases key
      cases inside with
      | seq ws' inside =>
        cases inside with
        | seq colon _ =>
          cases colon
          exact ⟨b, _, _, blank ws, blank ws', rfl⟩

end

section

variable {schema : Schema} (supported : Supported schema)
  (compiles : Compiles schema (generateGbnf schema))
include supported compiles

theorem root_notMem : "root".toList ∉ schema.defs.keys := by
  obtain ⟨grammar, text, -, -⟩ := compiles
  obtain ⟨r, rest, rfl, read⟩ := grammarText_read supported text
  have names := text.1
  rw [read.names_eq, List.nodup_cons] at names
  exact names.1

variable (satisfiable : ∃ es, schema.Carried es)
include satisfiable

theorem ws_notMem : "ws".toList ∉ schema.defs.keys := by
  intro defined
  obtain ⟨grammar, text, -, complete⟩ := compiles
  obtain ⟨r, rest, rfl, read⟩ := grammarText_read supported text
  obtain ⟨es, carried⟩ := satisfiable
  obtain ⟨w, derived, -⟩ := complete es carried
  obtain ⟨inner, f, -, expr, -⟩ := read.expr
  obtain ⟨b, u, -, ws, -⟩ := read.word expr derived
  exact read.not_derives_ws defined b ws

/-- A text of an object has a brace and a quote before its first key, a word only a brace. -/
theorem properties_eq_nil : schema.properties.keys = [] := by
  by_contra listed
  have undefined := ws_notMem supported compiles satisfiable
  obtain ⟨grammar, text, -, complete⟩ := compiles
  obtain ⟨r, rest, rfl, read⟩ := grammarText_read supported text
  obtain ⟨es, carried⟩ := satisfiable
  obtain ⟨w, derived, isText⟩ := complete es carried
  cases entries : schema.properties.entries with
  | nil => simp [Dict.keys, entries] at listed
  | cons p ps =>
    obtain ⟨name, s⟩ := p
    obtain ⟨b, d, u, blank, blank', rfl⟩ := read.word_key undefined entries derived
    have first : es.map Prod.fst = name :: ps.map Prod.fst := by
      rw [carried.1, Dict.keys, entries, List.map_cons]
    obtain ⟨⟨k, v⟩, es, rfl, rfl, -⟩ := List.map_eq_cons_iff.mp first
    have short := JsonValue.length_beforeColon_le k blank' u
    have long := isText.length_le
    rw [JsonValue.beforeColon_cons rfl (by decide), JsonValue.beforeColon_blank blank,
      List.length_cons] at long
    dsimp only at long
    omega

end

/-! ### Schemas without properties -/

theorem isName_root : IsName "root".toList := by
  constructor
  · decide
  · decide

def rootRule : Rule isWs where
  name := "root".toList
  gap := [' ']
  first := " \"\x7b\" ws".toList
  more := [closeLine]
  expr := .seq (.lit ['{']) (.seq (.ref "ws".toList) (.seq (.lit ['}']) (.ref "ws".toList)))
  isName := isName_root
  gapBlank := rfl
  spelled := by
    have lit (c : Char) (plain : c ∉ ['"', '\\', '\n']) :
        Spells isWs .item (.lit [c]) ['"', c, '"'] :=
      .atom (.lit (.plain fun a member => List.mem_singleton.mp member ▸ plain))
    have ws : Spells isWs .item (.ref "ws".toList) "ws".toList := .atom (.ref isName_ws)
    have last : Spells isWs .items (.ref "ws".toList) " ws".toList :=
      .one (b := [' ']) (d := []) rfl ws rfl
    have close := Spells.cons (b := ['\n']) rfl (lit '}' (by decide)) last nofun
    have ended (name : Text) (_ : Expr.ref "ws".toList = .ref name) (c : Char)
        (head : (['\n'] ++ ['"', '}', '"'] ++ " ws".toList).head? = some c) :
        Gbnf.isNameChar c = false := by
      obtain rfl : '\n' = c := by simpa using head
      rfl
    have behind := Spells.cons (b := [' ']) rfl ws close ended
    have whole := Spells.cons (b := []) rfl (lit '{' (by decide)) behind nofun
    exact .last (.items whole)

def definitionRule (name : Text) (isName : IsName name) : Rule isWs where
  name := name
  gap := [' ']
  first := " value".toList
  expr := .ref "value".toList
  isName := isName
  gapBlank := rfl
  spelled := by
    have value : Spells isWs .item (.ref "value".toList) "value".toList :=
      .atom (.ref ⟨by decide, by decide⟩)
    exact .last (.items (.one (b := []) (d := []) rfl value rfl))

def plainGrammar (names : List Text) (isNames : ∀ name ∈ names, IsName name) : List (Rule isWs) :=
  rootRule :: names.attach.map fun name => definitionRule name.1 (isNames name.1 name.2)

section

variable {schema : Schema} (supported : Supported schema)
  (plain : schema.properties.keys = []) (noRoot : "root".toList ∉ schema.defs.keys)
include supported plain noRoot

theorem plainGrammar_text :
    GrammarText (plainGrammar schema.defs.keys supported.names) (generateGbnf schema) := by
  have names : (plainGrammar schema.defs.keys supported.names).map Rule.name =
      "root".toList :: schema.defs.keys := by
    simp [plainGrammar, rootRule, definitionRule, Function.comp_def]
  have lines : ((plainGrammar schema.defs.keys supported.names).map Rule.lines).flatten =
      openLine :: closeLine :: extraRules schema := by
    have definition (name : {name // name ∈ schema.defs.keys}) :
        (definitionRule name.1 (supported.names name.1 name.2)).lines =
          [name.1 ++ " ::= value".toList] := by
      rw [definition_line]
      rfl
    have definitions : ((schema.defs.keys.attach.map fun name =>
        definitionRule name.1 (supported.names name.1 name.2)).map Rule.lines).flatten =
          extraRules schema := by
      rw [List.map_map, extraRules]
      simp only [Function.comp_def, definition]
      rw [← List.flatMap_def, ← List.map_eq_flatMap]
      exact List.attach_map_val (f := fun name => name ++ " ::= value".toList)
    rw [plainGrammar, List.map_cons, List.flatten_cons, definitions]
    rfl
  constructor
  · rw [names]
    exact List.nodup_cons.mpr ⟨noRoot, schema.defs.distinct⟩
  · obtain ⟨inner, between, text⟩ := contentLines_generateGbnf supported
    have entries : schema.properties.entries = [] := List.map_eq_nil_iff.mp plain
    rw [entries] at between
    cases between
    rw [text, lines]
    rfl

theorem compiles_of_plain (noWs : "ws".toList ∉ schema.defs.keys) :
    Compiles schema (generateGbnf schema) := by
  have text := plainGrammar_text supported plain noRoot
  obtain ⟨r, rest, rules, read⟩ := grammarText_read supported text
  obtain ⟨rfl, rfl⟩ := List.cons.inj rules
  refine ⟨_, text, fun w derived => ?_, fun es carried => ?_⟩
  · have blank {b : Text} (ws : Derives (withWs (plainGrammar schema.defs.keys supported.names))
        (.ref "ws".toList) b) : b.all isWs = true := by
      cases ws with
      | ref found derives =>
        rw [plainGrammar, read.rules_ws noWs] at found
        exact blank_of_derives (Option.some.inj found ▸ derives)
    obtain ⟨b, u, rfl, ws, inside⟩ := read.word rfl derived
    cases inside with
    | @seq _ _ _ d brace ws' =>
      cases brace
      refine ⟨[], ⟨[], _, d, rfl, .none (blank ws), blank ws', ?_⟩, ?_⟩
      · simp
      · exact fun _ _ _ _ member => nomatch member
  · have empty : es = [] := List.map_eq_nil_iff.mp (carried.1.trans plain)
    subst es
    have blank : Derives (withWs (plainGrammar schema.defs.keys supported.names)) wsRule
        ([] : List Text).flatten := .star nofun
    have ws := Derives.ref (read.rules_ws noWs) blank
    refine ⟨['{', '}'], ?_, [], ['{', '}'], [], rfl, .none (b := []) rfl, rfl, rfl⟩
    exact .ref read.rules_root (.seq (.lit ['{']) (.seq ws (.seq (.lit ['}']) ws)))

end

/-- The grammar of a schema that some object meets does what it is for exactly if the schema has no
properties, and no definition under the name of the first rule or of the whitespace rule. -/
theorem generateGbnf_compiles_iff {schema : Schema} (supported : Supported schema) :
    (Compiles schema (generateGbnf schema) ∧ ∃ es, schema.Carried es) ↔
      schema.properties.keys = [] ∧ "root".toList ∉ schema.defs.keys ∧
        "ws".toList ∉ schema.defs.keys := by
  constructor
  · rintro ⟨compiles, satisfiable⟩
    exact ⟨properties_eq_nil supported compiles satisfiable, root_notMem supported compiles,
      ws_notMem supported compiles satisfiable⟩
  · rintro ⟨plain, noRoot, noWs⟩
    refine ⟨compiles_of_plain supported plain noRoot noWs, [], plain.symm, ?_⟩
    exact fun _ _ _ _ member => nomatch member

/-- `{"type": "object", "$defs": {"Name": {"type": "string"}}}`. -/
def namedSchema : Schema where
  type := some "object".toList
  defs := ⟨[("Name".toList, .mk (some "string".toList) none none none [])], by simp⟩

theorem namedSchema_compiles : Compiles namedSchema (generateGbnf namedSchema) := by
  have names : ∀ name ∈ namedSchema.defs.keys, IsName name := by
    intro name member
    obtain rfl : name = "Name".toList := List.mem_singleton.mp member
    exact ⟨by decide, by decide⟩
  have supported : Supported namedSchema := ⟨.inr rfl, names, nofun⟩
  exact ((generateGbnf_compiles_iff supported).mpr ⟨rfl, by decide, by decide⟩).1

/-- `{"type": "object", "properties": {"a": {"type": "integer"}}}`. -/
def integerSchema : Schema where
  type := some "object".toList
  properties := ⟨[("a".toList, .mk (some "integer".toList) none none none [])], by simp⟩

theorem integerSchema_supported : Supported integerSchema where
  object := .inr rfl
  names := nofun
  refs := by
    intro s member
    obtain rfl := List.mem_singleton.mp member
    exact .mk nofun nofun

theorem integerSchema_carried : integerSchema.Carried [("a".toList, .num 1)] := by
  refine ⟨rfl, fun name s found v member => ?_⟩
  obtain ⟨rfl, rfl⟩ := Prod.mk.inj (List.mem_singleton.mp member)
  obtain rfl : _ = s := Option.some.inj found
  refine ⟨1, fun deeper least => ?_⟩
  obtain ⟨depth, rfl⟩ := Nat.exists_eq_add_of_le' least
  refine ⟨fun type known => ?_, nofun, nofun, nofun, nofun⟩
  obtain rfl := Option.some.inj known
  exact .inr (.inr (.inl ⟨rfl, 1, rfl⟩))

/-- The key `a` is derived without its quotes. -/
theorem integerSchema_not_compiled :
    ¬ ∀ schema, Supported schema → Compiles schema (generateGbnf schema) := by
  intro all
  have compiles := all integerSchema integerSchema_supported
  have none_listed := properties_eq_nil integerSchema_supported compiles ⟨_, integerSchema_carried⟩
  cases none_listed

end DistLLM.GbnfGrammar
