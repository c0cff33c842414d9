import Mathlib.Data.List.Basic

/-!
# The JSON constraint

`JSONSchemaConstraint` as a pushdown machine over characters: which characters may come next, and
where each of them leads.
-/
namespace DistLLM.StructuredOutput

inductive State
  | objectStart
  | afterOpenBrace
  | afterKey
  | afterColon
  | afterValue
  | arrayStart
  | afterArrayValue
  | afterComma
  | afterArrayComma
  | inNumber
  | inLiteral
  | inString
  | inStringKey
  | done
  deriving DecidableEq, Repr

inductive Marker
  | object
  | array
  deriving DecidableEq, Repr

/-- The stack has the innermost container first. -/
structure JSONSchemaConstraint where
  state : State := .objectStart
  stack : List Marker := []
  inString : Bool := false
  escapeNext : Bool := false
  literalRemaining : List Char := []
  deriving DecidableEq, Repr

/-! ### Characters -/

variable (c : Char)

def isWs : Bool := decide (c ∈ [' ', '\t', '\n', '\r'])

def isNumberStart : Bool :=
  decide (c ∈ ['-', '0', '1', '2', '3', '4', '5', '6', '7', '8', '9'])

def isNumberChar : Bool :=
  decide (c ∈ ['0', '1', '2', '3', '4', '5', '6', '7', '8', '9', '.', 'e', 'E', '+', '-'])

def isValueStart : Bool :=
  decide (c ∈ ['"', '[', '{', 't', 'f', 'n']) || isNumberStart c

def isAscii : Bool := decide (' ' ≤ c ∧ c ≤ '~')

/-- `string.printable` without the line breaks. -/
def isStringChar : Bool := isAscii c || decide (c = '\t')

namespace JSONSchemaConstraint

variable (m : JSONSchemaConstraint)

def validNextChars (c : Char) : Bool :=
  if m.inString then isStringChar c
  else
    match m.state with
    | .objectStart | .afterColon | .afterArrayComma => isValueStart c || isWs c
    | .afterOpenBrace => decide (c ∈ ['"', '}']) || isWs c
    | .afterKey => decide (c = ':') || isWs c
    | .afterValue => decide (c ∈ [',', '}']) || isWs c
    | .arrayStart => isValueStart c || decide (c = ']') || isWs c
    | .afterArrayValue => decide (c ∈ [',', ']']) || isWs c
    | .afterComma => decide (c = '"') || isWs c
    | .inNumber =>
      isNumberChar c || isWs c ||
        match m.stack with
        | .array :: _ => decide (c ∈ [',', ']'])
        | .object :: _ => decide (c ∈ [',', '}'])
        | [] => false
    | .inLiteral =>
      match m.literalRemaining with
      | next :: _ => decide (c = next)
      | [] => false
    | .done => false
    -- outside of a string there are no such states
    | .inString | .inStringKey => isValueStart c || isWs c

end JSONSchemaConstraint

def enclosingAfterValue : List Marker → State
  | [] => .done
  | .object :: _ => .afterValue
  | .array :: _ => .afterArrayValue

namespace JSONSchemaConstraint

variable (m : JSONSchemaConstraint)

/-- A value has ended, with these containers still open. -/
def valueEnded (stack : List Marker) : JSONSchemaConstraint :=
  { m with stack := stack, state := enclosingAfterValue stack }

/-- What a character outside of strings and literals does. -/
def structural (c : Char) : JSONSchemaConstraint :=
  if isWs c then if m.state = .inNumber then m.valueEnded m.stack else m
  else if c = '"' then
    { m with
      inString := true
      state := if m.state = .afterOpenBrace ∨ m.state = .afterComma then .inStringKey
        else .inString }
  else if c = '{' then { m with stack := .object :: m.stack, state := .afterOpenBrace }
  else if c = '}' then
    match m.stack with
    | .object :: rest => m.valueEnded rest
    | _ => m
  else if c = ':' then { m with state := .afterColon }
  else if c = ',' then
    match m.stack with
    | .array :: _ => { m with state := .afterArrayComma }
    | .object :: _ => { m with state := .afterComma }
    | [] => m
  else if c = '[' then { m with stack := .array :: m.stack, state := .arrayStart }
  else if c = ']' then
    match m.stack with
    | .array :: rest => m.valueEnded rest
    | _ => m
  else if m.state ∈ [.objectStart, .afterColon, .arrayStart, .afterArrayComma] then
    if c = 't' then { m with literalRemaining := ['r', 'u', 'e'], state := .inLiteral }
    else if c = 'f' then { m with literalRemaining := ['a', 'l', 's', 'e'], state := .inLiteral }
    else if c = 'n' then { m with literalRemaining := ['u', 'l', 'l'], state := .inLiteral }
    else if isNumberStart c then { m with state := .inNumber }
    else m
  -- a number goes on
  else m

/-- `_transition`, with the fields it changes. -/
def transition (c : Char) : JSONSchemaConstraint :=
  if m.state = .done then m
  else if m.escapeNext then { m with escapeNext := false }
  else if m.inString then
    if c = '\\' then { m with escapeNext := true }
    else if c = '"' then
      { m with
        inString := false
        state := if m.state = .inStringKey then .afterKey else enclosingAfterValue m.stack }
    else m
  else
    match m.literalRemaining with
    | next :: rest =>
      if c = next then
        { m with
          literalRemaining := rest
          state := if rest = [] then enclosingAfterValue m.stack else m.state }
      else m
    | [] => m.structural c

/-- One character after the other, each of them valid where it comes. -/
def feed : JSONSchemaConstraint → List Char → Option JSONSchemaConstraint
  | m, [] => some m
  | m, c :: rest => if m.validNextChars c then (m.transition c).feed rest else none

end JSONSchemaConstraint

/-- The text is fed to a new constraint and ends in the done state. -/
def endsDone (text : List Char) : Bool :=
  (({} : JSONSchemaConstraint).feed text).any fun m => decide (m.state = .done)

example :
    endsDone ['{', '"', 'a', '"', ':', '[', '1', ',', 't', 'r', 'u', 'e', ']', '}'] = true := by
  decide +kernel

end DistLLM.StructuredOutput
