import DistLLM.StructuredOutput.Grammar

/-!
# What the constraint expects

The configurations the constraint comes through, and for each of them the language of the texts
that complete it. One character leads from a phase to the phase of what is left of its language, or
it is not valid and no text of the language begins with it.
-/
namespace DistLLM.StructuredOutput

open Library JSONSchemaConstraint

/-! ### The languages -/

/-- The texts that complete a document in whose open containers a value has just ended. -/
def After : List Marker → List Char → Prop
  | [] => fun s => s = []
  | .array :: k => Before Ws (GoesOn ']' .elements (After k))
  | .object :: k => Before Ws (GoesOn '}' .members (After k))

/-- The same behind the digits of a number, which at the root ends with whitespace only. -/
def AfterNumber : List Marker → List Char → Prop
  | [] => fun s => ∃ c, isWs c = true ∧ s = [c]
  | marker :: k => After (marker :: k)

def ValueIn (k : List Marker) (s : List Char) : Prop :=
  Before (Json .closed) (After k) s ∨ Before Number (AfterNumber k) s

def AfterKey (k : List Marker) : List Char → Prop :=
  Before Ws (Starts ':' (Before Ws (ValueIn (.object :: k))))

inductive Phase
  | start
  | afterColon (k : List Marker)
  | afterArrayComma (k : List Marker)
  | arrayStart (k : List Marker)
  | afterOpenBrace (k : List Marker)
  | afterComma (k : List Marker)
  | key (escaped : Bool) (k : List Marker)
  | afterKey (k : List Marker)
  | string (escaped : Bool) (k : List Marker)
  | literal (next : Char) (rest : List Char) (k : List Marker) (letters : '"' ∉ next :: rest)
  | number (k : List Marker)
  | ended (k : List Marker)

namespace Phase

def config : Phase → JSONSchemaConstraint
  | start => {}
  | afterColon k => { state := .afterColon, stack := .object :: k }
  | afterArrayComma k => { state := .afterArrayComma, stack := .array :: k }
  | arrayStart k => { state := .arrayStart, stack := .array :: k }
  | afterOpenBrace k => { state := .afterOpenBrace, stack := .object :: k }
  | afterComma k => { state := .afterComma, stack := .object :: k }
  | key escaped k =>
    { state := .inStringKey, stack := .object :: k, inString := true, escapeNext := escaped }
  | afterKey k => { state := .afterKey, stack := .object :: k }
  | string escaped k =>
    { state := .inString, stack := k, inString := true, escapeNext := escaped }
  | literal next rest k _ => { state := .inLiteral, stack := k, literalRemaining := next :: rest }
  | number k => { state := .inNumber, stack := k }
  | ended k => { state := enclosingAfterValue k, stack := k }

def quoting : Phase → Quoting
  | key true _ | string true _ => .escaped
  | key false _ | string false _ => .inside
  | _ => .outside

/-- The texts that lead from the phase to the end of the document. -/
def expects : Phase → List Char → Prop
  | start => Before Ws (ValueIn [])
  | afterColon k => Before Ws (ValueIn (.object :: k))
  | afterArrayComma k => Before Ws (ValueIn (.array :: k))
  | arrayStart k => Before Ws (fun s => Starts ']' (After k) s ∨ ValueIn (.array :: k) s)
  | afterOpenBrace k =>
    Before Ws (fun s => Starts '}' (After k) s ∨ Starts '"' (InString false (AfterKey k)) s)
  | afterComma k => Before Ws (Starts '"' (InString false (AfterKey k)))
  | key escaped k => InString escaped (AfterKey k)
  | afterKey k => AfterKey k
  | string escaped k => InString escaped (After k)
  | literal next rest k _ => Starts next (Before (Spelled rest) (After k))
  | number k => Before (Skips isNumberChar) (AfterNumber k)
  | ended k => After k

end Phase

/-- The character is valid and leads from the one phase to the other. -/
structure Advances (p : Phase) (c : Char) (q : Phase) : Prop where
  valid : p.config.validNextChars c = true
  transition : p.config.transition c = q.config
  quoting : p.quoting.next c = q.quoting
  expects : ∀ s, p.expects (c :: s) ↔ q.expects s

/-- The character is not valid, and rightly so. -/
structure Stuck (p : Phase) (c : Char) : Prop where
  valid : p.config.validNextChars c = false
  expects : ∀ s, ¬ p.expects (c :: s)

theorem isWs_iff {c : Char} : isWs c = true ↔ c = ' ' ∨ c = '\t' ∨ c = '\n' ∨ c = '\r' := by
  simp [isWs]

theorem numberStart_ne {P : Char → Prop} [DecidablePred P] {c : Char}
    (number : isNumberStart c = true)
    (each : ['-', '0', '1', '2', '3', '4', '5', '6', '7', '8', '9'].all (decide <| P ·) = true) :
    P c :=
  of_decide_eq_true (List.all_eq_true.mp each c (of_decide_eq_true number))

section

variable {k : List Marker} {s : List Char} {c : Char}

theorem valueIn_array : ValueIn (.array :: k) s ↔ Before (Json .elements) (After k) s :=
  before_value.symm.trans before_elements.symm

theorem starts_key :
    Starts '"' (InString false (AfterKey k)) s ↔ Before (Json .members) (After k) s := by
  rw [before_members, starts_iff, starts_iff]
  have behindKey (t : List Char) :
      Starts ':' (Before Ws (ValueIn (.object :: k))) t
        ↔ Starts ':' (Before Ws (Before (Json .value) (After (.object :: k)))) t := by
    cases t with
    | nil => exact Iff.rfl
    | cons c t => exact and_congr_right' (before_congr fun u => before_value.symm)
  exact exists_congr fun t => and_congr_right' (before_congr fun u => before_congr behindKey)

theorem not_valueIn (other : isValueStart c = false) : ¬ ValueIn k (c :: s) := by
  simp only [isValueStart, Bool.or_eq_false_iff, decide_eq_false_iff_not] at other
  rintro (closed | number)
  · exact not_closed other.1 closed
  · simp [before_number.mp number |>.1] at other

theorem valueIn_of_closed (number : isNumberStart c = false) :
    ValueIn k (c :: s) ↔ Before (Json .closed) (After k) (c :: s) := by
  simp [ValueIn, before_number, number]

theorem valueIn_of_number (number : isNumberStart c = true) :
    ValueIn k (c :: s) ↔ Before (Skips isNumberChar) (AfterNumber k) s := by
  have other : c ∉ ['"', '[', '{', 't', 'f', 'n'] := by
    apply numberStart_ne number
    decide
  simp [ValueIn, before_number, number, not_closed other]

end

end DistLLM.StructuredOutput
