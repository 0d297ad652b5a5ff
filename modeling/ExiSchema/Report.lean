import ExiSchema.Compiled
import ExiSchema.Grammar.Printer

/-!
Compiled schemas as text: listings of their grammars and of their string tables.
-/

set_option autoImplicit false

namespace ExiSchema

/-- Why a listing cannot be given. -/
inductive ReportFault where
  | danglingGrammar (id : GrammarId)
  | notNamespaceAndName (text : String)
  | unknownType (name : QName)
deriving DecidableEq, Repr

namespace ReportFault

def message : ReportFault → String
  | .danglingGrammar id => "dangling grammar g" ++ toString id
  | .notNamespaceAndName text => "expected NS:NAME, got '" ++ text ++ "'"
  | .unknownType name => "unknown type " ++ name.toText

end ReportFault

namespace CompiledSchema

/-- A heading line and the grammar below it. -/
def grammarListing (c : CompiledSchema) (heading : String) (id : GrammarId) :
    Except ReportFault String :=
  match c.grammar? id with
  | some g => .ok (heading ++ " [g" ++ toString id ++ "]:\n" ++ g.toText)
  | none => .error (.danglingGrammar id)

/-- A namespace and a local name around the last colon of a text. -/
def splitName? (text : String) : Option QName :=
  let back := text.toList.reverse
  match back.dropWhile (· != ':') with
  | _ :: uri =>
    some ⟨String.ofList uri.reverse, String.ofList (back.takeWhile (· != ':')).reverse⟩
  | [] => none

/-- The listing of one named type. -/
def typeListing (c : CompiledSchema) (text : String) : Except ReportFault String :=
  match splitName? text with
  | none => .error (.notNamespaceAndName text)
  | some name =>
    match c.typeGrammars? name with
    | none => .error (.unknownType name)
    | some grammars => c.grammarListing ("type " ++ name.toText) grammars.grammar

/-- Headings and grammars in the order of a listing: types, global elements, local elements. -/
def sections (c : CompiledSchema) : List (String × GrammarId) :=
  c.types.entries.flatMap (fun (name, grammars) =>
      [("type " ++ name.toText, grammars.grammar),
        ("type " ++ name.toText ++ " (empty)", grammars.empty)])
    ++ c.globals.entries.toList.map (fun e =>
      ("element " ++ e.name.toText, e.grammar))
    ++ c.locals.map fun e =>
      ("local element " ++ e.name.toText, e.grammar)

/-- The listing of all grammars that have a name. -/
def fullListing (c : CompiledSchema) : Except ReportFault String := do
  let parts ← c.sections.mapM fun (heading, id) => c.grammarListing heading id
  return String.join parts

private def numbered (lines : List String) (mark : String) : List String :=
  lines.zipIdx.map fun (line, i) => mark ++ toString i ++ ": " ++ line ++ "\n"

private def uriLines (row : UriRow) (i : Nat) : List String :=
  ["uri " ++ toString i ++ ": " ++ Text.quoted row.label.text ++ "\n"]
    ++ (match row.prefixes with
      | some prefixes => numbered (prefixes.texts.map Text.quoted) "  prefix "
      | none => [])
    ++ (match row.names with
      | some names => numbered names.texts "  ln "
      | none => [])

/-- The listing of the string tables and of the rows of the global elements. -/
def tableListing (c : CompiledSchema) : String :=
  String.join <|
    c.uris.rows.toList.zipIdx.flatMap (fun (row, i) => uriLines row i)
      ++ c.globals.entries.toList.map fun e =>
        "global " ++ e.ref.toText ++ " -> g" ++ toString e.grammar ++ "\n"

end CompiledSchema

end ExiSchema
