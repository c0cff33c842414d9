import Mathlib.Data.List.Basic

/-!
# The JSON machine

`JSONSchemaFSM` of the constrained decoder, over bytes: a byte is the character that `chr` makes of
it.
-/
namespace DistLLM.ConstrainedDecoder

inductive FSMState
  | start
  | expectKey
  | inKey
  | afterKey
  | afterColon
  | inString
  | inNumber
  | afterValue
  | inArray
  | afterArrayValue
  | inLiteral
  | done
  deriving DecidableEq, Repr

inductive Container
  | object
  | array
  deriving DecidableEq, Repr

/-- The stack has the innermost container first. -/
structure JSONSchemaFSM where
  state : FSMState := .start
  stack : List Container := []
  literalBuf : List Char := []
  literalTarget : List Char := []
  escapeNext : Bool := false
  generated : List Char := []
  /-- 0 behind a sign, 1 in digits, 2 behind a point, 3 in the exponent. -/
  numberStageVal : Nat := 0
  deriving DecidableEq, Repr

def isWs (b : Char) : Bool := b ∈ [' ', '\t', '\n', '\r']

/-- `str.isdigit`, which the superscripts among the bytes pass as well. -/
def isDigit (b : Char) : Bool := b.isDigit || b ∈ ['²', '³', '¹']

def isDigitByte (b : Char) : Bool := decide (0x30 ≤ b.toNat) && decide (b.toNat < 0x3A)

def isPrintable (b : Char) : Bool := decide (0x20 ≤ b.toNat) && decide (b.toNat < 0x7F)

def isEscapeChar (b : Char) : Bool := b ∈ ['"', '\\', '/', 'b', 'f', 'n', 'r', 't', 'u']

namespace JSONSchemaFSM

variable (fsm : JSONSchemaFSM)

/-- After a value completes: back to the container it is in. -/
def finishValue : JSONSchemaFSM :=
  match fsm.stack with
  | [] => { fsm with state := .done }
  | .object :: _ => { fsm with state := .afterValue }
  | .array :: _ => { fsm with state := .afterArrayValue }

/-- `self._stack.pop()`, and the container is complete. -/
def closeContainer : JSONSchemaFSM := { fsm with stack := fsm.stack.tail }.finishValue

def startLiteral (target : List Char) : JSONSchemaFSM :=
  { fsm with literalBuf := target.take 1, literalTarget := target, state := .inLiteral }

variable (b : Char)

def startValue : JSONSchemaFSM :=
  if b = '"' then { fsm with state := .inString }
  else if b = '{' then { fsm with stack := .object :: fsm.stack, state := .expectKey }
  else if b = '[' then { fsm with stack := .array :: fsm.stack, state := .inArray }
  else if b = 't' then fsm.startLiteral "true".toList
  else if b = 'f' then fsm.startLiteral "false".toList
  else if b = 'n' then fsm.startLiteral "null".toList
  else if b = '-' then { fsm with state := .inNumber, numberStageVal := 0 }
  else if isDigit b then { fsm with state := .inNumber, numberStageVal := 1 }
  else fsm

def quoted : JSONSchemaFSM :=
  if fsm.escapeNext then { fsm with escapeNext := false }
  else if b = '\\' then { fsm with escapeNext := true }
  else if b = '"' then
    if fsm.state = .inKey then { fsm with state := .afterKey }
    else if fsm.stack.head? = some .object then { fsm with state := .afterValue }
    else { fsm with state := .afterArrayValue }
  else fsm

/-- Outside of strings, literals and numbers. -/
def structural : JSONSchemaFSM :=
  if isWs b then fsm
  else
    match fsm.state with
    | .start =>
      if b = '{' then { fsm with stack := .object :: fsm.stack, state := .expectKey }
      else if b = '[' then { fsm with stack := .array :: fsm.stack, state := .inArray }
      else fsm
    | .expectKey =>
      if b = '"' then { fsm with state := .inKey }
      else if b = '}' then
        if fsm.stack = [] then { fsm with state := .done } else fsm.closeContainer
      else fsm
    | .afterKey => if b = ':' then { fsm with state := .afterColon } else fsm
    | .afterColon => fsm.startValue b
    | .afterValue =>
      if b = ',' then
        if fsm.stack.head? = some .array then { fsm with state := .inArray }
        else { fsm with state := .expectKey }
      else if b = '}' then
        if fsm.stack.head? = some .object then fsm.closeContainer
        else if fsm.stack = [] then { fsm with state := .done }
        else fsm
      else if b = ']' then
        if fsm.stack.head? = some .array then fsm.closeContainer
        else if fsm.stack = [] then { fsm with state := .done }
        else fsm
      else fsm
    | .inArray => if b = ']' then fsm.closeContainer else fsm.startValue b
    | .afterArrayValue =>
      if b = ',' then { fsm with state := .inArray }
      else if b = ']' then fsm.closeContainer
      else fsm
    | _ => fsm

/-- The byte that ends a number is taken by the state behind the number. -/
def number : JSONSchemaFSM :=
  if isDigit b then
    if fsm.numberStageVal = 0 then { fsm with numberStageVal := 1 } else fsm
  else if b = '.' then { fsm with numberStageVal := 2 }
  else if b = 'e' ∨ b = 'E' then { fsm with numberStageVal := 3 }
  else if (b = '+' ∨ b = '-') ∧ fsm.numberStageVal = 3 then fsm
  else fsm.finishValue.structural b

def literal : JSONSchemaFSM :=
  let fsm := { fsm with literalBuf := fsm.literalBuf ++ [b] }
  if fsm.literalBuf = fsm.literalTarget then fsm.finishValue else fsm

def transition : JSONSchemaFSM :=
  let fsm := { fsm with generated := fsm.generated ++ [b] }
  match fsm.state with
  | .inString | .inKey => fsm.quoted b
  | .inLiteral => fsm.literal b
  | .inNumber => fsm.number b
  | _ => fsm.structural b

def getAllowedBytes : Bool :=
  match fsm.state with
  | .start => b ∈ ['{', '['] || isWs b
  | .expectKey => b ∈ ['"', '}'] || isWs b
  | .inKey | .inString => if fsm.escapeNext then isEscapeChar b else isPrintable b
  | .afterKey => b = ':' || isWs b
  | .afterColon => b ∈ ['"', '{', '[', '-', 't', 'f', 'n'] || isWs b || isDigitByte b
  | .inNumber => isDigitByte b || b ∈ ['.', 'e', 'E', '+', '-']
  | .afterValue => b ∈ [',', '}', ']'] || isWs b
  | .inArray => b ∈ ['"', '{', '[', '-', 't', 'f', 'n', ']'] || isWs b || isDigitByte b
  | .afterArrayValue => b ∈ [',', ']'] || isWs b
  | .inLiteral =>
    decide (fsm.literalBuf ≠ [] ∧ fsm.literalBuf.length < fsm.literalTarget.length ∧
      fsm.literalTarget[fsm.literalBuf.length]? = some b)
  | .done => isWs b

def isAccepting : Bool :=
  fsm.state = .done || fsm.state = .afterValue || fsm.state = .afterArrayValue

def feed (text : List Char) : JSONSchemaFSM := text.foldl transition fsm

def Allows : JSONSchemaFSM → List Char → Prop
  | _, [] => True
  | fsm, b :: rest => fsm.getAllowedBytes b = true ∧ Allows (fsm.transition b) rest

instance Allows.decidable : ∀ (fsm : JSONSchemaFSM) text, Decidable (fsm.Allows text)
  | _, [] => .isTrue trivial
  | fsm, b :: rest =>
    have := Allows.decidable (fsm.transition b) rest
    inferInstanceAs (Decidable (fsm.getAllowedBytes b = true ∧ Allows (fsm.transition b) rest))

@[simp] theorem feed_nil : fsm.feed [] = fsm := rfl

@[simp] theorem feed_cons (rest : List Char) :
    fsm.feed (b :: rest) = (fsm.transition b).feed rest := rfl

end JSONSchemaFSM

end DistLLM.ConstrainedDecoder
