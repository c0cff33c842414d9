import DistLLM.GrammarConstrained.Translate

/-!
# How the translation takes a body apart

What the scans of the translation find in texts that spell an expression: alternatives between bars,
the closing bracket of a group, and the character behind a reference. The scans know nothing of
classes, and the one for groups nothing of literals, so quotes, brackets and bars in those must not
mislead them.
-/
namespace DistLLM.GrammarConstrained

open Library Library.Json.CharLists
open Library.Gbnf (Expr Spells LitText ClsText ClsChar isNameChar IsName Framed Blanks)

theorem not_isSpace_of_nameChar {c : Char} (named : isNameChar c = true) : isSpace c = false := by
  have upper : c.isUpper = decide (c.val ≥ 65 ∧ c.val ≤ 90) := rfl
  have lower : c.isLower = (decide (c.val ≥ 97) && decide (c.val ≤ 122)) := rfl
  have alpha : c.isAlpha = (c.isUpper || c.isLower) := rfl
  simp only [isNameChar, Char.isAlphanum, alpha, upper, lower, Char.isDigit, Bool.or_eq_true,
    Bool.and_eq_true, decide_eq_true_eq, ge_iff_le, UInt32.le_iff_toNat_le, List.mem_cons,
    List.not_mem_nil, or_false] at named
  have range : 45 ≤ c.toNat ∧ c.toNat ≤ 122 := by
    rcases named with (letter | digit) | rfl | rfl
    · simp at letter
      omega
    · simp at digit
      omega
    · decide
    · decide
  simp only [isSpace, List.mem_cons, List.not_mem_nil, or_false, Bool.or_eq_false_iff,
    Bool.and_eq_false_iff, decide_eq_false_iff_not]
  omega

theorem blanks : Blanks isSpace where
  space := by decide
  mark := by decide
  name _ := not_isSpace_of_nameChar

theorem not_isStop_of_nameChar {c : Char} (named : isNameChar c = true) : isStop c = false := by
  have solid := not_isSpace_of_nameChar named
  simp only [isStop, solid, Bool.false_or, decide_eq_false_iff_not]
  intro member
  have mark : ∀ c ∈ "\"[]()*+?|".toList, isNameChar c = false := by decide
  rw [mark c member] at named
  cases named

theorem splitAtChar_append {c : Char} {s : Text} (absent : c ∉ s) (rest : Text) :
    splitAtChar c (s ++ c :: rest) = some (s, rest) := by
  induction s with
  | nil => simp [splitAtChar]
  | cons d s ih =>
    rw [List.mem_cons, not_or] at absent
    simp [splitAtChar, Ne.symm absent.1, ih absent.2]

/-- The nesting depth behind a text, unless a bracket closes nothing. -/
def parenDepth : Nat → Text → Option Nat
  | depth, [] => some depth
  | depth, c :: rest =>
    if c = '(' then parenDepth (depth + 1) rest
    else if c = ')' then
      match depth with
      | 0 => none
      | depth + 1 => parenDepth depth rest
    else parenDepth depth rest

/-- The characters that the scans look at. -/
def isMark (c : Char) : Bool := c ∈ "\"[]()|".toList

theorem parenDepth_filter (depth : Nat) (t : Text) :
    parenDepth depth (t.filter isMark) = parenDepth depth t := by
  induction t generalizing depth with
  | nil => rfl
  | cons c t ih =>
    by_cases mark : isMark c = true
    · cases depth <;> simp only [List.filter_cons_of_pos mark, parenDepth, ih]
    · have other : c ≠ '(' ∧ c ≠ ')' := by
        constructor <;> exact fun same => mark (by rw [same]; decide)
      simp [List.filter_cons_of_neg mark, parenDepth, other, ih]

variable {t : Text}

theorem scanGroup_balanced {depth : Nat} (balanced : parenDepth depth t = some 0)
    (rest : Text) : scanGroup (depth + 1) (t ++ ')' :: rest) = (t ++ [')'], rest) := by
  induction t generalizing depth with
  | nil =>
    obtain rfl : depth = 0 := by simpa [parenDepth] using balanced
    simp [scanGroup]
  | cons c t ih =>
    by_cases opens : c = '('
    · have inside : parenDepth (depth + 1) t = some 0 := by simpa [parenDepth, opens] using balanced
      simp [scanGroup, opens, ih inside]
    · by_cases closes : c = ')'
      · subst c
        cases depth with
        | zero => simp [parenDepth] at balanced
        | succ depth =>
          have inside : parenDepth depth t = some 0 := by simpa [parenDepth] using balanced
          simp [scanGroup, ih inside]
      · have inside : parenDepth depth t = some 0 := by
          simpa [parenDepth, opens, closes] using balanced
        simp [scanGroup, opens, closes, ih inside]

/-- What the scan for bars keeps of a character, if it does not split there: whether it is inside of
quotes, and the depth of brackets. -/
def look (c : Char) : Bool × Int → Option (Bool × Int)
  | (true, depth) => some (c != '"', depth)
  | (false, depth) =>
    if c = '"' then some (true, depth)
    else if c ∈ ['[', '('] then some (false, depth + 1)
    else if c ∈ [']', ')'] then some (false, depth - 1)
    else if c = '|' ∧ depth = 0 then none
    else some (false, depth)

def scanBars : Bool × Int → Text → Option (Bool × Int)
  | state, [] => some state
  | state, c :: t => (look c state).bind fun state => scanBars state t

theorem look_of_not_mark {c : Char} (other : ¬ isMark c = true) (state : Bool × Int) :
    look c state = some state := by
  have apart : c ≠ '"' ∧ c ≠ '[' ∧ c ≠ ']' ∧ c ≠ '(' ∧ c ≠ ')' ∧ c ≠ '|' := by
    simpa [isMark, not_or] using other
  obtain ⟨inQ, depth⟩ := state
  cases inQ <;> simp [look, apart]

theorem scanBars_filter (state : Bool × Int) (t : Text) :
    scanBars state (t.filter isMark) = scanBars state t := by
  induction t generalizing state with
  | nil => rfl
  | cons c t ih =>
    by_cases mark : isMark c = true
    · rw [List.filter_cons_of_pos mark, scanBars, scanBars]
      simp only [ih]
    · rw [List.filter_cons_of_neg mark, scanBars, look_of_not_mark mark, Option.bind_some, ih]

theorem step_of_look {s : Split} {c : Char} {state : Bool × Int}
    (looks : look c (s.inQ, s.depth) = some state) :
    s.step c = { s with cur := s.cur ++ [c], inQ := state.1, depth := state.2 } := by
  obtain ⟨parts, cur, inQ, depth⟩ := s
  cases inQ with
  | true =>
    obtain rfl := Option.some.inj looks
    by_cases quote : c = '"' <;> simp [Split.step, quote]
  | false =>
    simp only [look] at looks
    split_ifs at looks with quote opens closes bar <;> obtain rfl := Option.some.inj looks
    · simp [Split.step, quote]
    · simp only [List.mem_cons, List.not_mem_nil, or_false] at opens
      rcases opens with rfl | rfl <;> simp [Split.step]
    · simp only [List.mem_cons, List.not_mem_nil, or_false] at closes
      rcases closes with rfl | rfl <;> simp [Split.step]
    · simp only [List.mem_cons, List.not_mem_nil, or_false, not_or] at opens closes
      simp [Split.step, quote, opens, closes, bar]

/-- A text without a bar that the scan splits at becomes a part of the body as it stands. -/
theorem foldl_step_of_scanBars {s : Split} {state : Bool × Int}
    (scanned : scanBars (s.inQ, s.depth) t = some state) :
    t.foldl Split.step s = { s with cur := s.cur ++ t, inQ := state.1, depth := state.2 } := by
  induction t generalizing s with
  | nil =>
    obtain rfl := Option.some.inj scanned
    simp
  | cons c t ih =>
    obtain ⟨next, looks, scanned⟩ := Option.bind_eq_some_iff.mp scanned
    have further := @ih { s with cur := s.cur ++ [c], inQ := next.1, depth := next.2 } scanned
    rw [List.foldl_cons, step_of_look looks, further]
    simp

theorem splitTopLevel_of_scanBars {state : Bool × Int}
    (scanned : scanBars (false, 0) t = some state) :
    splitTopLevel t = if strip t = [] then [] else [strip t] := by
  rw [splitTopLevel, @foldl_step_of_scanBars t {} state scanned]
  simp [Split.all]

theorem all_foldl_append (parts : List Text) (t : Text) (s : Split) :
    (t.foldl Split.step { s with parts := parts ++ s.parts }).all =
      parts ++ (t.foldl Split.step s).all := by
  induction t generalizing s with
  | nil =>
    by_cases empty : strip s.cur = [] <;> simp [Split.all, empty]
  | cons c t ih =>
    have step : Split.step { s with parts := parts ++ s.parts } c =
        { s.step c with parts := parts ++ (s.step c).parts } := by
      simp only [Split.step]
      split_ifs <;> simp
    rw [List.foldl_cons, List.foldl_cons, step, ih]

theorem splitTopLevel_bar (scanned : scanBars (false, 0) t = some (false, 0)) (rest : Text) :
    splitTopLevel (t ++ '|' :: rest) = strip t :: splitTopLevel rest := by
  have barred : Split.step { ({} : Split) with cur := t } '|' =
      { ({} : Split) with parts := [strip t] ++ ({} : Split).parts } := by
    simp [Split.step]
  have start : ({ ({} : Split) with cur := ({} : Split).cur ++ t, inQ := false, depth := 0 } :
      Split) = { ({} : Split) with cur := t } := by simp
  rw [splitTopLevel, List.foldl_append, @foldl_step_of_scanBars t {} _ scanned, start,
    List.foldl_cons, barred, all_foldl_append]
  rfl

end DistLLM.GrammarConstrained
