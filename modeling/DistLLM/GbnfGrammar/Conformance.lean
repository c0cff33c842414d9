import DistLLM.GbnfGrammar.Convert
import DistLLM.Library.Gbnf

/-!
# What the grammar of a schema is for

Which values conform to a schema, and what is asked of the grammar that is generated for it: it
derives texts of conforming values only, and a text of each object that carries all properties.
-/
namespace DistLLM.GbnfGrammar

open Library
open JsonValue (Numeral Value IsTextOf)
open Gbnf (GrammarText Rule Rules rulesOf lang)

def Scalar.value : Scalar → Value
  | null => .null
  | bool b => .bool b
  | num n => .num n.value
  | str s => .str s

/-- The types of JSON values, by their names. -/
def HasType (type : Text) (v : Value) : Prop :=
  (type = "null".toList ∧ v = .null) ∨
  (type = "boolean".toList ∧ ∃ b, v = .bool b) ∨
  (type = "integer".toList ∧ ∃ n : Int, v = .num n) ∨
  (type = "number".toList ∧ ∃ q, v = .num q) ∨
  (type = "string".toList ∧ ∃ s, v = .str s) ∨
  (type = "array".toList ∧ ∃ vs, v = .arr vs) ∨
  (type = "object".toList ∧ ∃ es, v = .obj es)

/-- The value meets all that the schema asks, down to a nesting of schemas. -/
def ConformsWithin (defs : Dict Text PropSchema) : Nat → PropSchema → Value → Prop
  | 0, _, _ => False
  | depth + 1, s, v =>
    (∀ type, s.type = some type → HasType type v) ∧
    (∀ values, s.enum = some values → ∃ x ∈ values, v = x.value) ∧
    -- exactly one of the branches
    (∀ branches, s.oneOf = some branches →
      ∃ i : Fin branches.length, ConformsWithin defs depth branches[i] v ∧
        ∀ j : Fin branches.length, ConformsWithin defs depth branches[j] v → j = i) ∧
    (∀ path, s.ref = some path → ∃ name definition, path = "#/$defs/".toList ++ name ∧
      defs.get? name = some definition ∧ ConformsWithin defs depth definition v) ∧
    (∀ es, v = .obj es → ∀ p ∈ s.properties, ∀ x, (p.1, x) ∈ es →
      ConformsWithin defs depth p.2 x)

def Conforms (defs : Dict Text PropSchema) (s : PropSchema) (v : Value) : Prop :=
  ∃ depth, ∀ deeper ≥ depth, ConformsWithin defs deeper s v

namespace Schema

variable (schema : Schema)

/-- The object conforms: every listed property that it has does. -/
def Accepts (es : List (Text × Value)) : Prop :=
  ∀ name s, schema.properties.get? name = some s → ∀ v, (name, v) ∈ es → Conforms schema.defs s v

/-- The object has all listed properties, in order, with conforming values. -/
def Carried (es : List (Text × Value)) : Prop :=
  es.map Prod.fst = schema.properties.keys ∧ schema.Accepts es

end Schema

def wsRule : Gbnf.Expr :=
  .rep .star (.cls (.ofChars false [' ', '\t', '\n', '\r']))

/-- The rules of a grammar; the whitespace rule is known without being written. -/
def withWs (grammar : List (Rule Json.isWs)) : Rules := fun name =>
  (rulesOf grammar name).or (if name = "ws".toList then some wsRule else none)

def rootLang (grammar : List (Rule Json.isWs)) : Language Char :=
  lang (withWs grammar) (.ref "root".toList)

def Compiles (schema : Schema) (text : Text) : Prop :=
  ∃ grammar : List (Rule Json.isWs), GrammarText grammar text ∧
    (∀ w ∈ rootLang grammar, ∃ es, IsTextOf (.obj es) w ∧ schema.Accepts es) ∧
    ∀ es, schema.Carried es → ∃ w ∈ rootLang grammar, IsTextOf (.obj es) w

/-- The schema is an object schema whose references name definitions, under names that can be names
of rules. -/
inductive KnownRefs (names : List Text) : PropSchema → Prop
  | mk {s : PropSchema} : (∀ path, s.ref = some path → ∃ name ∈ names,
      path = "#/$defs/".toList ++ name) →
    (∀ branches, s.oneOf = some branches → ∀ branch ∈ branches, KnownRefs names branch) →
    KnownRefs names s

structure Supported (schema : Schema) : Prop where
  object : schema.type = none ∨ schema.type = some "object".toList
  names : ∀ name ∈ schema.defs.keys, Gbnf.IsName name
  refs : ∀ s ∈ schema.properties.values, KnownRefs schema.defs.keys s

end DistLLM.GbnfGrammar
