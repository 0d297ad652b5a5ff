import ExiSchema.Name
import ExiSchema.Text.Quoted

/-!
Why a compilation, a table operation or the reading of a type model fails. A fault records its
cause; `Fault.message` is the one place that words it. Each family has a `note` for callers that
report a cause of their own.
-/

set_option autoImplicit false

namespace ExiSchema

open Text (quoted)

/-- Parts of the schema language that are recognised and then refused. -/
inductive Feature where
  | listTypes
  | unionTypes
  | substitutionGroups
  | note (text : String)
deriving DecidableEq, Repr

/-- A state that no sequence of correct steps leads to, and an unknown built-in type. -/
inductive Inconsistency where
  | unknownBuiltIn (name : String)
  | typeInProgress (name : QName)
  | leftOnStack (count : Nat)
  | noStartRule (grammar : Nat)
  | uriRowOutOfRange (row : Nat)
  | nameRowOutOfRange (row uri : Nat)
  | noNameTable
  | noElementUri
  | noProduction (grammar rule production : Nat)
  | nameReferenceWithoutName
  | uriReferenceWithName
  | uriReferenceWithoutUri
  | referenceMismatch
  | note (text : String)
deriving DecidableEq, Repr

/-- What a value of a type model has to be. -/
inductive Shape where
  | object
  | array
  | text
  | boolean
  | natural
deriving DecidableEq, Repr

/-- Places of a type model where one of a few words has to stand. -/
inductive Choice where
  | variety
  | typeKind
  | contentKind
deriving DecidableEq, Repr

inductive ModelProblem where
  | notJson
  | wrongShape (what : String) (expected : Shape)
  | missingField (key : String)
  | unknownWord (place : Choice) (word : String)
  | particleWithoutTerm
  | elementType
  | unknownType (name : QName)
  | invalidName (text : String)
  | note (text : String)
deriving DecidableEq, Repr

inductive Fault where
  /-- A count outgrew 32 bits. -/
  | memoryAllocation
  | notImplemented (feature : Feature)
  | inconsistent (cause : Inconsistency)
  | outOfBounds (index length : Nat)
  | unknownGrammar (grammar : Nat)
  | missing (what : String)
  | invalidOccurs (minOccurs maxOccurs : Nat)
  | emptyNamespaceList
  | nonAsciiName (name : String)
  | invalidName (note : String)
  | model (problem : ModelProblem)
deriving DecidableEq, Repr

namespace Feature

def message : Feature → String
  | .listTypes => "xs:list simple types"
  | .unionTypes => "xs:union simple types"
  | .substitutionGroups => "substitution groups"
  | .note text => text

end Feature

namespace Inconsistency

def message : Inconsistency → String
  | .unknownBuiltIn name => "no EXI datatype for built-in type " ++ quoted name
  | .typeInProgress name => "type " ++ name.toText ++ " requested while compiling it"
  | .leftOnStack count => toString count ++ " grammars left on the work stack"
  | .noStartRule grammar => "grammar g" ++ toString grammar ++ " has no start rule"
  | .uriRowOutOfRange row => "uri row " ++ toString row ++ " out of range"
  | .nameRowOutOfRange row uri =>
    "local-name row " ++ toString row ++ " of uri " ++ toString uri ++ " out of range"
  | .noNameTable => "missing local-name table"
  | .noElementUri => "element uri row missing"
  | .noProduction grammar rule production =>
    "deferred reference to missing production g" ++ toString grammar ++ "/" ++ toString rule ++ "/"
      ++ toString production
  | .nameReferenceWithoutName => "deferred qname reference on a production without qname"
  | .uriReferenceWithName => "deferred uri reference on a production with qname"
  | .uriReferenceWithoutUri => "deferred uri reference on a production without uri"
  | .referenceMismatch => "deferred reference does not match production"
  | .note text => text

end Inconsistency

namespace Shape

def message : Shape → String
  | .object => "an object"
  | .array => "an array"
  | .text => "a string"
  | .boolean => "a boolean"
  | .natural => "a non-negative integer"

end Shape

namespace Choice

def message : Choice → String
  | .variety => "simple type variety"
  | .typeKind => "type kind"
  | .contentKind => "content kind"

end Choice

namespace ModelProblem

def message : ModelProblem → String
  | .notJson => "JSON parse error"
  | .wrongShape what expected => what ++ " must be " ++ expected.message
  | .missingField key => "missing field " ++ quoted key
  | .unknownWord place word => "unknown " ++ place.message ++ " " ++ quoted word
  | .particleWithoutTerm => "particle without term"
  | .elementType => "element type must be a name or an object"
  | .unknownType name => "unknown type " ++ name.toText
  | .invalidName text => "invalid qualified name " ++ quoted text
  | .note text => text

end ModelProblem

namespace Fault

def message : Fault → String
  | .memoryAllocation => "memory allocation failed"
  | .notImplemented feature => "not implemented yet: " ++ feature.message
  | .inconsistent cause =>
    if cause.message.isEmpty then "inconsistent processor state"
    else "inconsistent processor state: " ++ cause.message
  | .outOfBounds index length =>
    "index " ++ toString index ++ " out of bounds (length " ++ toString length ++ ")"
  | .unknownGrammar grammar => "null reference: unknown grammar g" ++ toString grammar
  | .missing what => "null reference: " ++ what
  | .invalidOccurs minOccurs maxOccurs =>
    "invalid particle occurs: max " ++ toString maxOccurs ++ " < min " ++ toString minOccurs
  | .emptyNamespaceList => "empty namespace list in wildcard"
  | .nonAsciiName name => "invalid name: non-ASCII name " ++ quoted name
  | .invalidName note => "invalid name: " ++ note
  | .model problem => "type model parse error: " ++ problem.message

/-- Whether the construct at fault may be skipped instead. -/
def isNotImplemented : Fault → Bool
  | .notImplemented _ => true
  | _ => false

end Fault

end ExiSchema
