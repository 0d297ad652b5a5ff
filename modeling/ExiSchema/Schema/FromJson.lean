import ExiSchema.Json.Parser
import ExiSchema.Schema.Basic
import ExiSchema.Table.Initial

/-!
Type models written in JSON. A reference to a type names a built-in type or one that was declared
before; of types declared under one name the last so far is meant. Fields are read in a fixed order,
so that of several faults always the same one is reported.
-/

set_option autoImplicit false

namespace ExiSchema.Schema.Reader

open Json (Fields)

def wrongShape {α : Type} (what : String) (expected : Shape) : Except Fault α :=
  .error (.model (.wrongShape what expected))

def asObject (what : String) : Json → Except Fault Fields
  | .object fields => .ok fields
  | _ => wrongShape what .object

def asText (what : String) : Json → Except Fault String
  | .string text => .ok text
  | _ => wrongShape what .text

def asNatural (what : String) : Json → Except Fault Nat
  | .number literal =>
    match literal.natural? with
    | some n => .ok n
    | none => wrongShape what .natural
  | _ => wrongShape what .natural

def optionalText (fields : Fields) (key : String) : Except Fault (Option String) :=
  match fields.get? key with
  | none => .ok none
  | some value => (asText key value).map some

def requiredText (fields : Fields) (key : String) : Except Fault String :=
  match fields.get? key with
  | none => .error (.model (.missingField key))
  | some value => asText key value

def optionalBool (fields : Fields) (key : String) : Except Fault (Option Bool) :=
  match fields.get? key with
  | none => .ok none
  | some (.bool value) => .ok (some value)
  | some _ => wrongShape key .boolean

/-- The items of an array; a missing field counts as an empty one. -/
def items (fields : Fields) (key : String) : Except Fault (List Json) :=
  match fields.get? key with
  | none => .ok []
  | some (.array items) => .ok items
  | some _ => wrongShape key .array

def writtenName (text : String) : Except Fault QName :=
  match QName.ofText? text with
  | some name => .ok name
  | none => .error (.model (.invalidName text))

/-- A name given as a namespace, empty if missing, and a local name. -/
def nameOf (fields : Fields) : Except Fault QName := do
  let uri ← optionalText fields "ns"
  let localName ← requiredText fields "name"
  return ⟨uri.getD "", localName⟩

def writtenNames (fields : Fields) (key : String) : Except Fault (List QName) := do
  (← items fields key).mapM fun item => do writtenName (← asText key item)

/-- A list of namespaces counts before an excluded one. -/
def wildcard (fields : Fields) : Except Fault Wildcard :=
  match fields.get? "namespaces" with
  | some (.array items) => return .among (← items.mapM (asText "namespaces"))
  | some _ => wrongShape "wildcard.namespaces" .array
  | none =>
    match fields.get? "not" with
    | some value => return .except (some (← asText "not" value))
    | none => return .any

def variety (fields : Fields) : Except Fault Variety := do
  match (← optionalText fields "variety").getD "atomic" with
  | "atomic" => return .atomic
  | "list" =>
    match ← optionalText fields "itemType" with
    | some text => return .list (some (← writtenName text))
    | none => return .list none
  | "union" => return .union (← writtenNames fields "memberTypes")
  | other => throw (.model (.unknownWord .variety other))

def attributeUse (value : Json) : Except Fault AttributeUse := do
  let fields ← asObject "attribute" value
  let name ← nameOf fields
  let required ← optionalBool fields "required"
  let builtIn ← optionalText fields "type"
  return ⟨name, required.getD false, builtIn.getD "string"⟩

def minOccurs (fields : Fields) : Except Fault Nat :=
  match fields.get? "minOccurs" with
  | some value => asNatural "minOccurs" value
  | none => .ok 1

def maxOccurs (fields : Fields) : Except Fault MaxOccurs :=
  match fields.get? "maxOccurs" with
  | some (.string "unbounded") => .ok .unbounded
  | some value => (asNatural "maxOccurs" value).map .bounded
  | none => .ok (.bounded 1)

/-- The type that a written name refers to; none for the type of any content. -/
def reference (declared : List TypeDef) (text : String) : Except Fault (Option TypeDef) := do
  let name ← writtenName text
  if name.uri == Namespaces.xmlSchema then
    if name.localName == "anyType" then return none
    else return some (.ofBuiltIn name.localName)
  else
    match declared.find? fun t => t.name? == some name with
    | some type => return some type
    | none => throw (.model (.unknownType name))

mutual

/-- A type without its name. `declared` holds the types declared before, the last one first. -/
def typeDef (declared : List TypeDef) (fields : Fields) : Except Fault TypeDef := do
  match ← requiredText fields "kind" with
  | "simple" =>
    let builtIn ← requiredText fields "base"
    return .simple none (← variety fields) builtIn
  | "complex" =>
    let attributes ← (← items fields "attributes").mapM attributeUse
    let content ← typeContent declared fields
    match fields.get? "attributeWildcard" with
    | some value =>
      let wildcard ← wildcard (← asObject "attributeWildcard" value)
      return .complex none attributes (some wildcard) content
    | none => return .complex none attributes none content
  | other => throw (.model (.unknownWord .typeKind other))
termination_by (sizeOf fields, 1)

def typeContent (declared : List TypeDef) (fields : Fields) : Except Fault Content :=
  match h : fields.get? "content" with
  | some (.object inner) =>
    have := Fields.sizeOf_object_lt h
    content declared inner
  | some _ => wrongShape "content" .object
  | none => .ok .empty
termination_by (sizeOf fields, 0)

def content (declared : List TypeDef) (fields : Fields) : Except Fault Content := do
  match ← requiredText fields "kind" with
  | "empty" => return .empty
  | "simple" => return .simple (← requiredText fields "type")
  | "elementOnly" => return .elementOnly (← contentParticle declared fields)
  | "mixed" => return .mixed (← contentParticle declared fields)
  | other => throw (.model (.unknownWord .contentKind other))
termination_by (sizeOf fields, 1)

def contentParticle (declared : List TypeDef) (fields : Fields) : Except Fault Particle :=
  match h : fields.get? "particle" with
  | some (.object inner) =>
    have := Fields.sizeOf_object_lt h
    particle declared inner
  | some _ => wrongShape "particle" .object
  | none => .error (.model (.missingField "particle"))
termination_by (sizeOf fields, 0)

def particle (declared : List TypeDef) (fields : Fields) : Except Fault Particle := do
  let min ← minOccurs fields
  let max ← maxOccurs fields
  let term ← term declared fields
  Particle.checked ⟨min, max, term⟩
termination_by (sizeOf fields, 1)

/-- The term of a particle: the first of these fields that is there. -/
def term (declared : List TypeDef) (fields : Fields) : Except Fault Term := do
  match h : fields.get? "element" with
  | some (.object inner) =>
    have := Fields.sizeOf_object_lt h
    return .element (← element declared inner)
  | some _ => wrongShape "element" .object
  | none =>
    match fields.get? "wildcard" with
    | some value => return .wildcard (← wildcard (← asObject "wildcard" value))
    | none =>
      match h : fields.get? "sequence" with
      | some (.array inner) =>
        have := Fields.sizeOf_array_lt h
        return .group .sequence (← particles declared "sequence" inner)
      | some _ => wrongShape "sequence" .array
      | none =>
        match h : fields.get? "choice" with
        | some (.array inner) =>
          have := Fields.sizeOf_array_lt h
          return .group .choice (← particles declared "choice" inner)
        | some _ => wrongShape "choice" .array
        | none =>
          match h : fields.get? "all" with
          | some (.array inner) =>
            have := Fields.sizeOf_array_lt h
            return .group .all (← particles declared "all" inner)
          | some _ => wrongShape "all" .array
          | none => throw (.model .particleWithoutTerm)
termination_by (sizeOf fields, 0)

def particles (declared : List TypeDef) (what : String) : List Json → Except Fault (List Particle)
  | [] => .ok []
  | .object inner :: rest => do
    let first ← particle declared inner
    return first :: (← particles declared what rest)
  | _ :: _ => wrongShape what .object
termination_by items => (sizeOf items, 0)

def element (declared : List TypeDef) (fields : Fields) : Except Fault ElementDecl := do
  let name ← nameOf fields
  let type ← elementType declared fields
  return ⟨name, ← writtenNames fields "substitutionGroup", type⟩
termination_by (sizeOf fields, 1)

/-- The type of an element: none for any content, a declared or built-in one by its name, or one
that is written out in its place. -/
def elementType (declared : List TypeDef) (fields : Fields) : Except Fault (Option TypeDef) :=
  match h : fields.get? "type" with
  | none | some .null => .ok none
  | some (.string text) => reference declared text
  | some (.object inner) =>
    have := Fields.sizeOf_object_lt h
    (typeDef declared inner).map some
  | some _ => .error (.model .elementType)
termination_by (sizeOf fields, 0)

end

/-- Declared types, the last one first. The name of a type is read after all else of it. -/
def namedTypes (declared : List TypeDef) : List Json → Except Fault (List TypeDef)
  | [] => .ok declared
  | item :: rest => do
    let fields ← asObject "type" item
    let type ← typeDef declared fields
    let name ← nameOf fields
    namedTypes (type.named name :: declared) rest

end Reader

/-- The model that a JSON value describes. -/
def ofJson (value : Json) : Except Fault Schema := do
  let fields ← Reader.asObject "document" value
  let declared ← Reader.namedTypes [] (← Reader.items fields "types")
  let elements ← (← Reader.items fields "elements").mapM fun item => do
    Reader.element declared (← Reader.asObject "element" item)
  return ⟨declared.reverse, elements⟩

/-- The number of brackets that may be open at once in the text of a model. -/
def depthLimit : Nat := 127

/-- The model that a JSON text describes. -/
def parse (text : String) : Except Fault Schema :=
  match Json.parse? depthLimit text with
  | some value => ofJson value
  | none => .error (.model .notJson)

end ExiSchema.Schema
