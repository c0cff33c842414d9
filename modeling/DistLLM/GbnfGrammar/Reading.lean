import DistLLM.GbnfGrammar.Lines

/-!
# How a generated grammar is read

However the lines are read as rules, the braces and the properties belong to the first rule, and
each definition is a rule that refers to `value`. Where there are properties, the first rule is a
brace, a key and a colon to begin with.
-/
namespace DistLLM.GbnfGrammar

open Library Library.Json.CharLists
open Gbnf (Expr Goes IsName LitText Rule Scan Spells joinLine trim)
open Json (isWs)

/-! ### Rules and their lines -/

theorem definition_line (name : Text) :
    name ++ " ::= value".toList = name ++ [' '] ++ "::=".toList ++ " value".toList := by
  simp

theorem passes_lines {lines : List Text} (each : ∀ line ∈ lines, Passes 0 line) :
    Passes 0 (lines.flatMap fun line => '\n' :: line) := by
  induction lines with
  | nil => exact fun bar => .inr rfl
  | cons line lines ih =>
    have here : Passes 0 ('\n' :: line) :=
      (Passes.blank (b := ['\n']) rfl 0).append (each line List.mem_cons_self)
    exact here.append (ih fun line member => each line (List.mem_cons_of_mem _ member))

theorem no_definition {r : Rule isWs} (mids more : List Text) {name : Text}
    (nonempty : trim isWs r.first ≠ []) (first : Passes 0 (trim isWs r.first))
    (each : ∀ line ∈ mids, Passes 0 line) (isName : IsName name) :
    r.more ≠ mids ++ (name ++ " ::= value".toList) :: more := by
  intro below
  have spelled := r.spelled.scan blanks 0 true fun _ => .inr rfl
  rw [Gbnf.bodyOf, Gbnf.foldl_joinLine nonempty, below, List.flatMap_append, List.flatMap_cons,
    ← List.append_assoc, Scan.scan_append] at spelled
  -- before the definition the scan is outside of brackets, and the definition stops it
  rcases first.append (passes_lines each) true with stops | goes
  · rw [stops] at spelled
    cases spelled
  · have ends : Scan.scan ⟨.out, 0, true⟩ ('\n' :: (name ++ " ::= value".toList)) = none :=
      scan_definition isName 0 true
    rw [goes, Option.bind_some, Scan.scan_append, ends] at spelled
    cases spelled

theorem definition_expr {r : Rule isWs} (first : r.first = " value".toList) (alone : r.more = []) :
    r.expr = .ref "value".toList := by
  have isName : IsName "value".toList := ⟨by decide, by decide⟩
  have spelled := r.spelled
  rw [Gbnf.bodyOf, first, alone] at spelled
  have body : Spells isWs .alternatives r.expr "value".toList := spelled
  have single := body.alternative blanks fun s scanned => by
    rw [← Option.some.inj scanned]
  generalize r.expr = e at single
  cases single with
  | empty blank => cases blank
  | items spells => exact spells.only_ref blanks isName

theorem definitions_read {grammar : List (Rule isWs)} {names : List Text}
    (isNames : ∀ name ∈ names, IsName name) (lines : (grammar.map Rule.lines).flatten =
      names.map fun name => name ++ " ::= value".toList) :
    grammar.map Rule.name = names ∧ ∀ r ∈ grammar, r.expr = .ref "value".toList := by
  induction names generalizing grammar with
  | nil =>
    cases grammar with
    | nil => exact ⟨rfl, nofun⟩
    | cons r grammar => cases lines
  | cons name names ih =>
    cases grammar with
    | nil => cases lines
    | cons r grammar =>
      obtain ⟨line, later⟩ := List.cons.inj lines
      obtain ⟨named, first⟩ := Rule.line_unique blanks (isNames name List.mem_cons_self) rfl
        (line.trans (definition_line name))
      have trimmed : trim isWs r.first = "value".toList := by
        rw [first]
        rfl
      have alone : r.more = [] := by
        by_contra more
        obtain ⟨line, more, below⟩ := List.exists_cons_of_ne_nil more
        cases names with
        | nil => simp [below] at later
        | cons next names =>
          have same : line = next ++ " ::= value".toList := by
            rw [below] at later
            exact (List.cons.inj later).1
          have passes : Passes 0 (trim isWs r.first) := by
            rw [trimmed]
            exact fun bar => .inr rfl
          have isNext := isNames next (List.mem_cons_of_mem _ List.mem_cons_self)
          refine no_definition [] more ?_ passes nofun isNext ?_
          · rw [trimmed]
            exact List.cons_ne_nil _ _
          · rw [below, same]
            rfl
      rw [alone] at later
      obtain ⟨names_eq, exprs⟩ :=
        ih (fun name member => isNames name (List.mem_cons_of_mem _ member)) later
      constructor
      · rw [List.map_cons, named, names_eq]
      · intro r' member
        rcases List.mem_cons.mp member with rfl | member
        · exact definition_expr first alone
        · exact exprs r' member

theorem passes_open : Passes 0 "\"\x7b\" ws".toList := fun bar => .inr (by cases bar <;> rfl)

theorem root_read {grammar : List (Rule isWs)} {mids names : List Text}
    (pieces : ∀ line ∈ mids, Piece line ∧ line.head? = some '"')
    (isNames : ∀ name ∈ names, IsName name) (lines : (grammar.map Rule.lines).flatten =
      openLine :: (mids ++ names.map fun name => name ++ " ::= value".toList)) :
    ∃ r rest, grammar = r :: rest ∧ r.name = "root".toList ∧
      r.body = "\"\x7b\" ws".toList ++ mids.flatMap (fun line => '\n' :: line) ∧
      (rest.map Rule.lines).flatten = names.map fun name => name ++ " ::= value".toList := by
  cases grammar with
  | nil => cases lines
  | cons r rest =>
    obtain ⟨line, later⟩ := List.cons.inj lines
    have root : IsName "root".toList := ⟨by decide, by decide⟩
    have opens : openLine =
        "root".toList ++ [' '] ++ "::=".toList ++ " \"\x7b\" ws".toList := by decide
    rw [opens] at line
    obtain ⟨named, first⟩ := Rule.line_unique blanks root rfl line
    have trimmed : trim isWs r.first = "\"\x7b\" ws".toList := by
      rw [first]
      decide
    have nonempty : trim isWs r.first ≠ [] := by
      rw [trimmed]
      exact List.cons_ne_nil _ _
    have passes : Passes 0 (trim isWs r.first) := by
      rw [trimmed]
      exact passes_open
    have below : r.more = mids := by
      rcases List.append_eq_append_iff.mp later with ⟨left, split, rules⟩ | ⟨taken, split, rules⟩
      · -- no rule begins with a quote
        cases left with
        | nil => rw [split, List.append_nil]
        | cons line left =>
          have quote := (pieces line (split ▸ by simp)).2
          cases rest with
          | nil => cases rules
          | cons r' rest =>
            have same : r'.name ++ r'.gap ++ "::=".toList ++ r'.first = line :=
              (List.cons.inj rules).1
            obtain ⟨c, name, named⟩ := List.exists_cons_of_ne_nil r'.isName.1
            have begins : c = '"' := by simpa [← same, named] using quote
            have letter := r'.isName.2 c (named ▸ List.mem_cons_self)
            rw [begins] at letter
            cases letter
      · cases taken with
        | nil => rw [split, List.append_nil]
        | cons line taken =>
          have member : line ∈ names.map fun name => name ++ " ::= value".toList :=
            rules ▸ List.mem_cons_self
          obtain ⟨name, listed, rfl⟩ := List.mem_map.mp member
          exact absurd split (no_definition mids taken nonempty passes
            (fun line member => (pieces line member).1.passes 0) (isNames name listed))
    refine ⟨r, rest, rfl, named, ?_, ?_⟩
    · rw [Rule.body, Gbnf.bodyOf, Gbnf.foldl_joinLine nonempty, trimmed, below]
    · rw [below] at later
      exact List.append_cancel_left later

theorem litText_plainChar {c : Char} (plain : dumpsChar c = [c]) {s : Text}
    (text : LitText s [c]) : s = [c] := by
  have dumped : LitText s ([c].flatMap dumpsChar) := by simpa [plain] using text
  exact litText_dumps dumped

theorem root_expr {e : Expr} {rest : Text}
    (passes : Passes 0 ("\"\x7b\" ws".toList ++ '\n' :: '"' :: rest))
    (spells : Spells isWs .alternatives e ("\"\x7b\" ws".toList ++ '\n' :: '"' :: rest)) :
    ∃ f, e = .seq (.lit ['{']) (.seq (.ref "ws".toList) f) ∧
      Spells isWs .items f ('\n' :: '"' :: rest) := by
  have single := spells.alternative blanks fun s scanned => by
    rcases passes false with stops | goes
    · cases stops.symm.trans scanned
    · rw [← Option.some.inj (goes.symm.trans scanned)]
  cases single with
  | empty blank => simp [isWs] at blank
  | items spells =>
    have text : "\"\x7b\" ws".toList ++ '\n' :: '"' :: rest =
        [] ++ ('"' :: ['{'] ++ '"' :: ([' '] ++ ("ws".toList ++ '\n' :: '"' :: rest))) := rfl
    rw [text] at spells
    obtain ⟨s, f, rfl, brace, behind⟩ := spells.first_lit blanks rfl
      (.raw (by decide) (by decide) .nil) ⟨[' '], 'w', _, rfl, rfl, rfl, by decide⟩
    obtain ⟨g, rfl, below⟩ := behind.first_ref blanks rfl isName_ws
      ⟨['\n'], '"', rest, rfl, rfl, rfl, by decide⟩ (by simp [Gbnf.isNameChar])
    rw [litText_plainChar rfl brace]
    exact ⟨g, rfl, below⟩

theorem key_expr {e : Expr} (name more : Text) {rest : Text}
    (spells : Spells isWs .items e ('\n' :: keyText name more ++ rest)) :
    ∃ f, e = .seq (.lit name) (.seq (.ref "ws".toList) (.seq (.lit [':']) f)) := by
  have text : '\n' :: keyText name more ++ rest = ['\n'] ++ ('"' :: name.flatMap dumpsChar ++
      '"' :: ([' '] ++ ("ws".toList ++ ([' '] ++ ('"' :: [':'] ++ '"' ::
        (" ws ".toList ++ more ++ rest)))))) := by
    simp [keyText]
  rw [text] at spells
  obtain ⟨s, f, rfl, key, behind⟩ := spells.first_lit blanks rfl (quoted_dumps name)
    ⟨[' '], 'w', _, rfl, rfl, rfl, by decide⟩
  obtain ⟨g, rfl, sign⟩ := behind.first_ref blanks rfl isName_ws
    ⟨[' '], '"', _, rfl, rfl, rfl, by decide⟩ (by simp [Gbnf.isNameChar])
  obtain ⟨s', h, rfl, colon, -⟩ := Spells.first_lit (b := [' ']) (x := [':']) blanks sign rfl
    (.raw (by decide) (by decide) .nil) ⟨[' '], 'w', _, rfl, rfl, rfl, by decide⟩
  rw [litText_dumps key, litText_plainChar rfl colon]
  exact ⟨h, rfl⟩

end DistLLM.GbnfGrammar
