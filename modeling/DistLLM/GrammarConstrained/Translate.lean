import DistLLM.Library.Dict
import DistLLM.Library.Gbnf

/-!
# From GBNF to a regular expression

`core/grammar_constrained.py`: the rules of a grammar are collected from its lines, and the body of
the start rule becomes the text of a regular expression, with references replaced by what the rules
they name become.
-/
namespace DistLLM.GrammarConstrained

open Library

abbrev Text := List Char

inductive Halt
  | valueError (message : String)
  /-- The loop over an alternative was cut off. -/
  | outOfTurns
  deriving DecidableEq, Repr

def isSpace (c : Char) : Bool :=
  (9 ≤ c.toNat && c.toNat ≤ 13) || (28 ≤ c.toNat && c.toNat ≤ 32) ||
    (0x2000 ≤ c.toNat && c.toNat ≤ 0x200A) ||
    c.toNat ∈ [0x85, 0xA0, 0x1680, 0x2028, 0x2029, 0x202F, 0x205F, 0x3000]

def strip (s : Text) : Text := Gbnf.trim isSpace s

/-- The text before and the text behind the first occurrence of a character. -/
def splitAtChar (c : Char) : Text → Option (Text × Text)
  | [] => none
  | d :: rest =>
    if d = c then some ([], rest) else (splitAtChar c rest).map fun p => (d :: p.1, p.2)

def partition (sep : Text) : Text → Option (Text × Text)
  | [] => if sep = [] then some ([], []) else none
  | c :: rest =>
    if sep.isPrefixOf (c :: rest) then some ([], (c :: rest).drop sep.length)
    else (partition sep rest).map fun p => (c :: p.1, p.2)

/-- The characters that `re.escape` puts a backslash before. -/
def specialChars : Text := "()[]\x7b\x7d?*+-|^$\\.&~# \t\n\r\x0b\x0c".toList

def escapeChar (c : Char) : Text := if c ∈ specialChars then ['\\', c] else [c]

def reEscape (s : Text) : Text := s.flatMap escapeChar

def readStripped (rules : Dict Text Text) (stripped : Text) : Dict Text Text :=
  if stripped = [] ∨ stripped.head? = some '#' then rules
  else
    match partition "::=".toList stripped with
    | some (name, body) => rules.set (strip name) (strip body)
    | none =>
      match rules.keys.getLast? with
      | some last => rules.set last (strip (rules.getD last [] ++ ' ' :: stripped))
      | none => rules

def readRules (grammar : Text) : Dict Text Text :=
  ((strip grammar).splitOn '\n').foldl (fun rules line => readStripped rules (strip line)) ∅

structure Split where
  parts : List Text := []
  cur : Text := []
  inQ : Bool := false
  depth : Int := 0
  deriving DecidableEq, Repr

namespace Split

def step (s : Split) (ch : Char) : Split :=
  if ch = '"' then { s with inQ := !s.inQ, cur := s.cur ++ [ch] }
  else if ch = '[' ∧ s.inQ = false then { s with depth := s.depth + 1, cur := s.cur ++ [ch] }
  else if ch = ']' ∧ s.inQ = false then { s with depth := s.depth - 1, cur := s.cur ++ [ch] }
  else if ch = '(' ∧ s.inQ = false then { s with depth := s.depth + 1, cur := s.cur ++ [ch] }
  else if ch = ')' ∧ s.inQ = false then { s with depth := s.depth - 1, cur := s.cur ++ [ch] }
  else if ch = '|' ∧ s.inQ = false ∧ s.depth = 0 then
    { s with parts := s.parts ++ [strip s.cur], cur := [] }
  else { s with cur := s.cur ++ [ch] }

def all (s : Split) : List Text :=
  if strip s.cur = [] then s.parts else s.parts ++ [strip s.cur]

end Split

def splitTopLevel (body : Text) : List Text := (body.foldl Split.step {}).all

/-- `_gbnf_char_class_to_regex`, for a class with its brackets. -/
def gbnfCharClassToRegex (cls : Text) : Text :=
  let inner := (cls.drop 1).dropLast
  match inner with
  | '^' :: rest => "[^".toList ++ reEscape rest ++ [']']
  | _ => '[' :: reEscape inner ++ [']']

/-- A character that no reference goes on with. -/
def isStop (c : Char) : Bool := isSpace c || c ∈ "\"[]()*+?|".toList

/-- The text that the loop over a group passes, from a nesting depth on, and the text behind it. -/
def scanGroup : Nat → Text → Text × Text
  | 0, rest => ([], rest)
  | _ + 1, [] => ([], [])
  | depth + 1, c :: rest =>
    let next := if c = '(' then depth + 2 else if c = ')' then depth else depth + 1
    let scanned := scanGroup next rest
    (c :: scanned.1, scanned.2)

/-- `out[-1] += ch`, unless `out` is empty. -/
def addToLast (out : List Text) (ch : Char) : List Text :=
  match out.getLast? with
  | none => out
  | some last => out.dropLast ++ [last ++ [ch]]

def wsRegex : Text := "[ \\t\\n\\r]*".toList

def expandRef (expand : Text → Except Halt Text) (rules : Dict Text Text) (ref : Text) :
    Except Halt Text :=
  if ref = "ws".toList then .ok wsRegex
  else
    match rules.get? ref with
    | some body => expand body
    | none => .ok (reEscape ref)

/-- The loop of `_expand_alt` over the rest of an alternative. A character that no branch passes
over leaves the text as it is. -/
def expandItems (expand : Text → Except Halt Text) (rules : Dict Text Text) :
    Nat → Text → List Text → Except Halt (List Text)
  | 0, _, _ => .error .outOfTurns
  | _ + 1, [], out => .ok out
  | turns + 1, ch :: rest, out =>
    if isSpace ch then expandItems expand rules turns rest out
    else if ch = '"' then
      match splitAtChar '"' rest with
      | none => .error (.valueError "substring not found")
      | some (lit, rest) => expandItems expand rules turns rest (out ++ [reEscape lit])
    else if ch = '[' then
      match splitAtChar ']' rest with
      | none => .error (.valueError "substring not found")
      | some (inner, rest) =>
        expandItems expand rules turns rest
          (out ++ [gbnfCharClassToRegex ('[' :: inner ++ [']'])])
    else if ch = '(' then do
      let scanned := scanGroup 1 rest
      let inner ← expand scanned.1.dropLast
      expandItems expand rules turns scanned.2 (out ++ ["(?:".toList ++ inner ++ [')']])
    else if ch ∈ ['*', '+', '?'] then expandItems expand rules turns rest (addToLast out ch)
    else do
      let ref := (ch :: rest).takeWhile fun c => !isStop c
      let expanded ← expandRef expand rules ref
      expandItems expand rules turns ((ch :: rest).dropWhile fun c => !isStop c) (out ++ [expanded])

def expandAlt (expand : Text → Except Halt Text) (rules : Dict Text Text) (turns : Nat)
    (body : Text) : Except Halt Text :=
  (expandItems expand rules turns body []).map List.flatten

/-- `expand`, with the number of depths that are left. -/
def expand (rules : Dict Text Text) (turns : Nat) : Nat → Text → Except Halt Text
  | 0, _ => .error (.valueError "GBNF rule expansion exceeded depth limit (cycle?)")
  | depths + 1, body => do
    let alts ← (splitTopLevel body).mapM (expandAlt (expand rules turns depths) rules turns)
    return ['|'].intercalate alts

/-- `gbnf_to_regex`, with a number of turns for each loop over an alternative. -/
def gbnfToRegex (turns : Nat) (grammar startRule : Text) : Except Halt Text :=
  let rules := readRules grammar
  match rules.values.head? with
  | none => .error (.valueError "GBNF grammar contains no rules")
  | some first => expand rules turns 33 (rules.getD startRule first)

end DistLLM.GrammarConstrained
