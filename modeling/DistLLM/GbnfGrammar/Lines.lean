import DistLLM.GbnfGrammar.Pieces

/-!
# The lines of a generated grammar

The properties stand in one line between those of the braces, and each definition has a line of its
own. However these lines are read as rules, the braces and the properties belong to the first rule,
and each definition is a rule that refers to `value`.
-/
namespace DistLLM.GbnfGrammar

open Library Library.Json.CharLists
open Gbnf (Framed IsName contentLines isContent trim framed_singleton)
open Json (isWs)

/-! ### The lines as they are written -/

def keyText (name more : Text) : Text :=
  '"' :: name.flatMap dumpsChar ++ ['"'] ++ [' '] ++ "ws".toList ++ [' '] ++ "\":\"".toList ++
    [' '] ++ "ws".toList ++ [' '] ++ more

def openLine : Text := "root ::= \"\x7b\" ws".toList

def closeLine : Text := "\"\x7d\" ws".toList

theorem isName_ws : IsName "ws".toList := by
  constructor
  · decide
  · decide

theorem literal_piece (c : Char) (plain : c ∉ ['"', '\\', '\n']) : Piece ['"', c, '"'] := by
  have other : c ≠ '"' ∧ c ≠ '\\' ∧ c ≠ '\n' := by simpa using plain
  refine .literal (x := [c]) (.of_raw fun a member => ?_) (by simpa using Ne.symm other.2.2)
  obtain rfl := List.mem_singleton.mp member
  exact ⟨other.1, other.2.1⟩

theorem keyText_piece (name : Text) {more : Text} (piece : Piece more) :
    Piece (keyText name more) := by
  have spaces : ∀ c ∈ [' '], c = ' ' := by simp
  have ws := Piece.name isName_ws
  have key := Piece.literal (quoted_dumps name) (oneLine_dumps name)
  have colon := literal_piece ':' (by decide)
  exact (((key.append _ spaces ws).append _ spaces colon).append _ spaces ws).append _ spaces piece

theorem keyRule_eq (name : Text) (s : PropSchema) :
    keyRule name s = "  ".toList ++ keyText name (typeToRule s) := by
  rw [keyRule, withoutEnds_dumpsStr, keyText]
  simp

variable {es : List (Text × PropSchema)}

theorem propRules_piece {names : List Text} (isNames : ∀ name ∈ names, IsName name)
    (known : ∀ p ∈ es, KnownRefs names p.2) {name : Text} {s : PropSchema}
    {rest : List (Text × PropSchema)} (begins : es = (name, s) :: rest) :
    ∃ more, [' '].intercalate (propRules es) = "  ".toList ++ keyText name more ∧
      Piece (keyText name more) := by
  induction rest generalizing es name s with
  | nil =>
    subst es
    refine ⟨typeToRule s, ?_, keyText_piece name ?_⟩
    · rw [propRules, List.intercalate_singleton, keyRule_eq]
    · exact typeToRule_piece isNames (known (name, s) List.mem_cons_self)
  | cons p rest ih =>
    subst es
    obtain ⟨name', s'⟩ := p
    obtain ⟨more, line, piece⟩ :=
      ih (fun p member => known p (List.mem_cons_of_mem _ member)) rfl
    have spaces : ∀ b ∈ [[' '], "   ".toList], ∀ c ∈ b, c = ' ' := by decide
    have first := typeToRule_piece isNames (known (name, s) List.mem_cons_self)
    have comma := (first.append _ (spaces [' '] (by simp)) (literal_piece ',' (by decide))).append _
      (spaces [' '] (by simp)) (.name isName_ws)
    refine ⟨_, ?_, keyText_piece name (comma.append "   ".toList (spaces _ (by simp)) piece)⟩
    have nonempty : propRules ((name', s') :: rest) ≠ [] := by
      cases rest <;> exact List.cons_ne_nil _ _
    rw [propRules, List.intercalate_cons_of_ne_nil nonempty, line, keyRule_eq]
    · simp [keyText]
    · exact nofun

inductive Inner : List (Text × PropSchema) → List Text → Prop
  | none : Inner [] []
  | some {name s rest more} : Piece (keyText name more) →
      Inner ((name, s) :: rest) [keyText name more]

theorem Inner.piece {inner : List Text} (lines : Inner es inner) :
    ∀ line ∈ inner, Piece line ∧ line.head? = Option.some '"' := by
  cases lines with
  | none => exact nofun
  | some piece =>
    intro line member
    obtain rfl := List.mem_singleton.mp member
    exact ⟨piece, rfl⟩

theorem contentLines_pieces {first : Text} (piece : Piece first) (rest : List (Text × Text))
    (each : ∀ p ∈ rest, (∀ c ∈ p.1, c = ' ') ∧ Piece p.2)
    (content : ∀ line ∈ first :: rest.map Prod.snd, isContent line = true) :
    contentLines isWs (['\n'].intercalate (first :: rest.map fun p => p.1 ++ p.2)) =
      first :: rest.map Prod.snd := by
  have blank {b : Text} (spaces : ∀ c ∈ b, c = ' ') : b.all isWs = true := by
    rw [List.all_eq_true]
    intro c member
    rw [spaces c member]
    rfl
  have trimmed {b t : Text} (spaces : ∀ c ∈ b, c = ' ') (piece : Piece t) :
      trim isWs (b ++ t) = t := by
    simpa using Gbnf.trim_framed (d := []) piece.framed (blank spaces) rfl
  have lines : (first :: rest.map fun p => p.1 ++ p.2).map (trim isWs) =
      first :: rest.map Prod.snd := by
    have start : trim isWs first = first := trimmed (b := []) (by simp) piece
    rw [List.map_cons, start, List.map_map]
    congr 1
    exact List.map_congr_left fun p member => trimmed (each p member).1 (each p member).2
  rw [Gbnf.contentLines_intercalate piece.framed, lines, List.filter_eq_self.mpr content]
  · intro line member
    obtain ⟨p, inside, rfl⟩ := List.mem_map.mp member
    exact ⟨p.1, p.2, rfl, (each p inside).2.framed⟩
  · intro line member broken
    rcases List.mem_cons.mp member with rfl | member
    · exact piece.oneLine broken
    · obtain ⟨p, inside, rfl⟩ := List.mem_map.mp member
      rcases List.mem_append.mp broken with broken | broken
      · cases (each p inside).1 _ broken
      · exact (each p inside).2.oneLine broken

theorem openLine_piece : Piece openLine where
  passes depth bar := .inl rfl
  framed := by
    have first : isWs 'r' = false := rfl
    have last : isWs 's' = false := rfl
    exact (framed_singleton first).append "oot ::= \"\x7b\" w".toList (framed_singleton last)
  oneLine := by decide

theorem closeLine_piece : Piece closeLine :=
  (literal_piece '}' (by decide)).append [' '] (by simp) (.name isName_ws)

/-- The lines below the first, each behind its blanks. -/
def linesBelow (schema : Schema) (inner : List Text) : List (Text × Text) :=
  inner.map (fun line => ("  ".toList, line)) ++
    ([], closeLine) :: (extraRules schema).map fun line => ([], line)

section

variable {schema : Schema} (supported : Supported schema)
include supported

theorem extraRules_definition {line : Text} (member : line ∈ extraRules schema) :
    ∃ name, IsName name ∧ line = name ++ " ::= value".toList := by
  obtain ⟨name, listed, rfl⟩ := List.mem_map.mp member
  exact ⟨name, supported.names name listed, rfl⟩

theorem linesBelow_pieces {inner : List Text} (lines : Inner schema.properties.entries inner) :
    ∀ p ∈ linesBelow schema inner, (∀ c ∈ p.1, c = ' ') ∧ Piece p.2 ∧ isContent p.2 = true := by
  have content {line : Text} {c : Char} (head : line.head? = some c) (other : c ≠ '#') :
      isContent line = true := by
    cases line with
    | nil => cases head
    | cons a line => simp [isContent, Option.some.inj head, other]
  have spaces : ∀ c ∈ "  ".toList, c = ' ' := by decide
  intro p member
  rcases List.mem_append.mp member with member | member
  · obtain ⟨line, inside, rfl⟩ := List.mem_map.mp member
    obtain ⟨piece, head⟩ := lines.piece line inside
    exact ⟨spaces, piece, content head (by decide)⟩
  · rcases List.mem_cons.mp member with rfl | member
    · exact ⟨nofun, closeLine_piece, rfl⟩
    · obtain ⟨line, inside, rfl⟩ := List.mem_map.mp member
      obtain ⟨name, isName, rfl⟩ := extraRules_definition supported inside
      refine ⟨nofun, definition_piece isName, ?_⟩
      obtain ⟨c, name, rfl⟩ := List.exists_cons_of_ne_nil isName.1
      refine content rfl ?_
      rintro rfl
      cases isName.2 '#' List.mem_cons_self

theorem generateGbnf_eq : ∃ inner, Inner schema.properties.entries inner ∧
    generateGbnf schema = ['\n'].intercalate
      (openLine :: (linesBelow schema inner).map fun p => p.1 ++ p.2) := by
  have known : ∀ p ∈ schema.properties.entries, KnownRefs schema.defs.keys p.2 :=
    fun p member => supported.refs p.2 (List.mem_map_of_mem member)
  have object : schema.type.getD "object".toList = "object".toList := by
    rcases supported.object with type | type <;> rw [type] <;> rfl
  have below (inner : List Text) : (linesBelow schema inner).map (fun p => p.1 ++ p.2) =
      inner.map (fun line => "  ".toList ++ line) ++ closeLine :: extraRules schema := by
    rw [linesBelow, List.map_append, List.map_cons, List.map_map, List.map_map]
    simp only [Function.comp_def, List.nil_append, List.map_id']
  have written {raw : List Text} (same : (if propRules schema.properties.entries = [] then []
      else [[' '].intercalate (propRules schema.properties.entries)]) = raw) :
      generateGbnf schema =
        ['\n'].intercalate (openLine :: (raw ++ closeLine :: extraRules schema)) := by
    rw [generateGbnf, convertSchema]
    dsimp only
    rw [if_pos object, same, List.cons_append]
    rfl
  cases entries : schema.properties.entries with
  | nil =>
    refine ⟨[], .none, ?_⟩
    rw [below]
    exact written (by rw [entries]; rfl)
  | cons p rest =>
    obtain ⟨more, line, piece⟩ := propRules_piece supported.names known entries
    have nonempty : propRules schema.properties.entries ≠ [] := by
      rw [entries]
      cases rest <;> exact List.cons_ne_nil _ _
    refine ⟨[keyText p.1 more], .some piece, ?_⟩
    rw [below]
    exact written (by rw [if_neg nonempty, line]; rfl)

theorem contentLines_generateGbnf : ∃ inner, Inner schema.properties.entries inner ∧
    contentLines isWs (generateGbnf schema) =
      openLine :: (inner ++ closeLine :: extraRules schema) := by
  obtain ⟨inner, lines, written⟩ := generateGbnf_eq supported
  have pieces := linesBelow_pieces supported lines
  have below : (linesBelow schema inner).map Prod.snd =
      inner ++ closeLine :: extraRules schema := by
    rw [linesBelow, List.map_append, List.map_cons, List.map_map, List.map_map]
    simp only [Function.comp_def, List.map_id']
  refine ⟨inner, lines, ?_⟩
  rw [written, contentLines_pieces openLine_piece, below]
  · intro p member
    exact ⟨(pieces p member).1, (pieces p member).2.1⟩
  · intro line member
    rcases List.mem_cons.mp member with rfl | member
    · rfl
    · obtain ⟨p, inside, rfl⟩ := List.mem_map.mp member
      exact (pieces p inside).2.2

end

end DistLLM.GbnfGrammar
