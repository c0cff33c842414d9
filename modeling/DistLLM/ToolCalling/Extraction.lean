import Mathlib.Data.List.Infix

/-!
# Tool calls in the text of a model

`extract_tool_calls` of the tool calling engine, from the text that the prompt asks for. Texts are
lists of characters; `α` are JSON objects. The function was taken out of the chat routes, where it
imports `re` itself. Its new module does not import it, so the names that a module binds are part
of the model.
-/
namespace DistLLM.ToolCalling

variable {α : Type}

structure ToolCall (α : Type) where
  id : List Char
  name : List Char
  arguments : α

inductive Raised
  /-- `NameError`: name '{name}' is not defined -/
  | nameError (name : String)
  | other
  deriving DecidableEq

/-- The names bound at the head of the module. -/
def globals : List String := ["annotations", "json", "uuid", "Callable", "Any", "ToolCallingEngine"]

/-- The value of a global name that is not built in. -/
def evalName (name : String) : Except Raised Unit :=
  if name ∈ globals then .ok () else .error (.nameError name)

/-- `extract_tool_calls`: `search` is what follows once `re` has a value, the patterns and all. The
`except` clause around it names `JSONDecodeError`, `ValueError` and `AttributeError`. -/
def extractToolCalls (search : List Char → Except Raised (List (ToolCall α))) (text : List Char) :
    Except Raised (List (ToolCall α)) :=
  if text = [] then .ok []
  else
    match evalName "re" with
    | .error raised => .error raised
    | .ok () => search text

/-- The text that the prompt asks for. `quote` writes a JSON string, `dumps` a JSON object. -/
def promptedText (quote : List Char → List Char) (dumps : α → List Char)
    (calls : List (ToolCall α)) : List Char :=
  "\x7b\"tool_calls\": [".toList ++ List.intercalate ", ".toList (calls.map fun call =>
    "\x7b\"id\": ".toList ++ quote call.id ++ ", \"type\": \"function\", ".toList ++
      "\"function\": \x7b\"name\": ".toList ++ quote call.name ++ ", \"arguments\": ".toList ++
        quote (dumps call.arguments) ++ "\x7d\x7d".toList) ++ "]\x7d".toList

def hasToolCalls (text : List Char) : Bool :=
  decide ("\"tool_calls\"".toList <:+: text ∧ "\"function\"".toList <:+: text) ||
    decide ("<tool_call>".toList <:+: text ∧ "</tool_call>".toList <:+: text)

theorem extractToolCalls_raises (search : List Char → Except Raised (List (ToolCall α)))
    {text : List Char} (some : text ≠ []) :
    extractToolCalls search text = .error (.nameError "re") := by
  rw [extractToolCalls, if_neg some]
  rfl

/-- **Tool calls and texts.** Whatever the search would find: of a text that asks for calls in the
format of the prompt, or has none, the calls are returned if and only if the text is empty. -/
theorem extractToolCalls_survives (search : List Char → Except Raised (List (ToolCall α)))
    (quote : List Char → List Char) (dumps : α → List Char) (text : List Char)
    (calls : List (ToolCall α))
    (holds : text = promptedText quote dumps calls ∨ hasToolCalls text = false ∧ calls = []) :
    extractToolCalls search text = .ok calls ↔ text = [] := by
  constructor
  · intro extracted
    by_contra some
    rw [extractToolCalls_raises search some] at extracted
    cases extracted
  · intro empty
    rcases holds with asked | ⟨_, none⟩
    · -- the format is never empty
      rw [empty] at asked
      cases asked
    · rw [empty, none]
      rfl

/-- No text, and no calls. -/
theorem extractToolCalls_survives_empty :
    extractToolCalls (fun _ => .error .other) [] = .ok ([] : List (ToolCall Nat)) :=
  (extractToolCalls_survives _ id (fun _ => []) [] [] (.inr ⟨by decide, rfl⟩)).mpr rfl

/-- Plain words raise. -/
theorem plain_text_raises :
    ¬ ∀ (search : List Char → Except Raised (List (ToolCall Nat))) (text : List Char),
      hasToolCalls text = false → extractToolCalls search text = .ok [] := by
  intro all
  have none := all (fun _ => .ok []) ['h', 'i'] (by decide)
  cases none

end DistLLM.ToolCalling
