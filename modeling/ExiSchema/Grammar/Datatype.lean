/-!
The datatypes in which character data and attribute values are coded, and the built-in schema types
that stand for each of them.
-/

set_option autoImplicit false

namespace ExiSchema

inductive Datatype where
  | string
  | boolean
  | integer
  | float
  | decimal
  | binary
  | dateTime
deriving DecidableEq, Repr, Inhabited

namespace Datatype

def name : Datatype → String
  | .string => "string"
  | .boolean => "boolean"
  | .integer => "integer"
  | .float => "float"
  | .decimal => "decimal"
  | .binary => "binary"
  | .dateTime => "dateTime"

/-- The built-in types coded as each datatype, by local name. -/
def builtIns : Datatype → List String
  | .string => ["string", "duration", "anyURI"]
  | .boolean => ["boolean"]
  | .integer =>
    ["integer", "nonPositiveInteger", "long", "nonNegativeInteger", "int", "short", "byte",
      "negativeInteger", "positiveInteger"]
  | .float => ["float", "double"]
  | .decimal => ["decimal"]
  | .binary => ["hexBinary", "base64Binary"]
  | .dateTime =>
    ["dateTime", "time", "date", "gYearMonth", "gYear", "gMonthDay", "gDay", "gMonth"]

def all : List Datatype := [.string, .boolean, .integer, .float, .decimal, .binary, .dateTime]

/-- The datatype of a built-in type. There is no datatype for any other name. -/
def ofBuiltIn? (builtIn : String) : Option Datatype :=
  all.find? fun v => v.builtIns.contains builtIn

theorem mem_all (v : Datatype) : v ∈ all := by cases v <;> decide

theorem mem_builtIns_of_ofBuiltIn? {s : String} {v : Datatype} (h : ofBuiltIn? s = some v) :
    s ∈ v.builtIns := by
  simpa using List.find?_some h

end Datatype

end ExiSchema
