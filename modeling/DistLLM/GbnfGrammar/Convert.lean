import DistLLM.Library.Dict
import DistLLM.Library.JsonValue

/-!
# From a JSON schema to GBNF

`utils/gbnf_grammar.py`: the rules of a grammar are written line by line from the properties of a
schema.
-/
namespace DistLLM.GbnfGrammar

open Library
open JsonValue (Numeral Value)

abbrev Text := List Char

inductive Scalar
  | null
  | bool (b : Bool)
  /-- A number, as `json.dumps` writes it. -/
  | num (n : Numeral)
  | str (s : Text)

/-- The schema of a property or a definition. -/
inductive PropSchema
  | mk (type : Option Text) (enum : Option (List Scalar)) (oneOf : Option (List PropSchema))
    (ref : Option Text) (properties : List (Text × PropSchema))

namespace PropSchema

def type : PropSchema → Option Text
  | mk type _ _ _ _ => type

def enum : PropSchema → Option (List Scalar)
  | mk _ enum _ _ _ => enum

def oneOf : PropSchema → Option (List PropSchema)
  | mk _ _ oneOf _ _ => oneOf

def ref : PropSchema → Option Text
  | mk _ _ _ ref _ => ref

def properties : PropSchema → List (Text × PropSchema)
  | mk _ _ _ _ properties => properties

end PropSchema

structure Schema where
  type : Option Text := none
  properties : Dict Text PropSchema := ∅
  defs : Dict Text PropSchema := ∅

def hexDigit (n : Nat) : Char := "0123456789abcdef".toList.getD n '0'

def unitEscape (n : Nat) : Text :=
  ['\\', 'u', hexDigit (n / 4096), hexDigit (n / 256 % 16), hexDigit (n / 16 % 16),
    hexDigit (n % 16)]

def dumpsChar (c : Char) : Text :=
  if c = '"' then ['\\', '"']
  else if c = '\\' then ['\\', '\\']
  else if c = '\n' then ['\\', 'n']
  else if c = '\r' then ['\\', 'r']
  else if c = '\t' then ['\\', 't']
  else if c = '\x0c' then ['\\', 'f']
  else if c = '\x08' then ['\\', 'b']
  else if ' ' ≤ c ∧ c ≤ '~' then [c]
  else if c.toNat < 0x10000 then unitEscape c.toNat
  else
    unitEscape (0xD800 + (c.toNat - 0x10000) / 0x400) ++
      unitEscape (0xDC00 + (c.toNat - 0x10000) % 0x400)

def dumpsStr (s : Text) : Text := '"' :: s.flatMap dumpsChar ++ ['"']

def Scalar.dumps : Scalar → Text
  | null => "null".toList
  | bool b => if b then "true".toList else "false".toList
  | num n => n.text
  | str s => dumpsStr s

def withoutEnds (s : Text) : Text := (s.drop 1).dropLast

def primitiveRule (propType : Text) : Text :=
  if propType = "string".toList then "\"\\\"\" ([^\"\\\\] | \"\\\\\" .)* \"\\\"\"".toList
  else if propType = "integer".toList then "(\"-\"? [0-9]+)".toList
  else if propType = "number".toList then "(\"-\"? ([0-9]+ \".\"[0-9]+ | [0-9]+))".toList
  else if propType = "boolean".toList then "(\"true\" | \"false\")".toList
  else "\"null\"".toList

def primitiveExample (propType : Text) : Text :=
  if propType = "string".toList then "str".toList
  else if propType = "integer".toList then "0".toList
  else if propType = "number".toList then "0.0".toList
  else if propType = "boolean".toList then "true".toList
  else "null".toList

/-- `_generate_rule_for_ref`, with the part of the path behind its last slash. -/
def generateRuleForRef (refPath : Text) : Text :=
  (refPath.splitOn '/').getLastD [] ++ " ::= value".toList

def alternatives (parts : List Text) : Text :=
  "( ".toList ++ " | ".toList.intercalate parts ++ " )".toList

mutual

def typeToRule : PropSchema → Text
  | .mk type enum oneOf ref _ =>
    match enum with
    | some values =>
      alternatives (values.map fun v => '"' :: withoutEnds v.dumps ++ ['"'])
    | none =>
      match oneOf with
      | some schemas => alternatives (typesToRules schemas)
      | none =>
        match ref with
        | some refPath => generateRuleForRef refPath
        | none => primitiveRule (type.getD "string".toList)

def typesToRules : List PropSchema → List Text
  | [] => []
  | s :: rest => typeToRule s :: typesToRules rest

end

def keyRule (name : Text) (propSchema : PropSchema) : Text :=
  "  \"".toList ++ withoutEnds (dumpsStr name) ++ "\" ws \":\" ws ".toList ++ typeToRule propSchema

/-- The rules of the properties, with a comma behind each but the last. -/
def propRules : List (Text × PropSchema) → List Text
  | [] => []
  | [(name, propSchema)] => [keyRule name propSchema]
  | (name, propSchema) :: rest =>
    (keyRule name propSchema ++ " \",\" ws".toList) :: propRules rest

def extraRules (schema : Schema) : List Text :=
  schema.defs.keys.map fun name => name ++ " ::= value".toList

def convertSchema (schema : Schema) : List Text :=
  let schemaType := schema.type.getD "object".toList
  if schemaType = "object".toList then
    let rules := propRules schema.properties.entries
    "root ::= \"\x7b\" ws".toList ::
      (if rules = [] then [] else [[' '].intercalate rules]) ++
        "\"\x7d\" ws".toList :: extraRules schema
  else if schemaType ∈ ["string".toList, "integer".toList, "number".toList, "boolean".toList] then
    ["root ::= \"".toList ++ primitiveExample schemaType ++ ['"']]
  else ["root ::= \"null\"".toList]

def generateGbnf (schema : Schema) : Text := ['\n'].intercalate (convertSchema schema)

end DistLLM.GbnfGrammar
