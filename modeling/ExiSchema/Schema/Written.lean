import ExiSchema.Schema.FromJson
import ExiSchema.Schema.Parts
import Mathlib.Data.List.Forall2

/-!
What stands in the JSON form of a model, and what it stands for. An element is written in a type if it
stands inside it, be it in types that are written out there; the elements of a type that is only
referred to are written in the declaration of that type.
-/

set_option autoImplicit false

namespace ExiSchema

namespace Json.Fields

def text? (fields : Fields) (key : String) : Option String :=
  match fields.get? key with
  | some (.string text) => some text
  | _ => none

/-- The items of an array; a field that is missing has none. -/
def itemsOf (fields : Fields) (key : String) : List Json :=
  match fields.get? key with
  | some (.array items) => items
  | _ => []

/-- The group of a particle: the first of these fields that is there. -/
def group? (fields : Fields) : Option Json :=
  ["sequence", "choice", "all"].findSome? fun key => fields.get? key

theorem exists_of_group? {fields : Fields} {value : Json} (here : fields.group? = some value) :
    ∃ key, fields.get? key = some value := by
  obtain ⟨key, _, found⟩ := List.exists_of_findSome?_eq_some here
  exact ⟨key, found⟩

end Json.Fields

open Json (Fields)

mutual

/-- The elements that are written in a type, each before those of its own type. -/
def typeElements (fields : Fields) : List Fields :=
  if fields.text? "kind" = some "complex" then
    match h : fields.get? "content" with
    | some (.object inner) =>
      have := Fields.sizeOf_object_lt h
      contentElements inner
    | _ => []
  else []
termination_by sizeOf fields

def contentElements (fields : Fields) : List Fields :=
  if fields.text? "kind" = some "elementOnly" ∨ fields.text? "kind" = some "mixed" then
    match h : fields.get? "particle" with
    | some (.object inner) =>
      have := Fields.sizeOf_object_lt h
      particleElements inner
    | _ => []
  else []
termination_by sizeOf fields

/-- An element comes before a wildcard, and that before a group. -/
def particleElements (fields : Fields) : List Fields :=
  match h : fields.get? "element" with
  | some (.object inner) =>
    have := Fields.sizeOf_object_lt h
    inner :: attachedElements inner
  | some _ => []
  | none =>
    if fields.get? "wildcard" = none then
      match h : fields.group? with
      | some (.array items) =>
        have : sizeOf items < sizeOf fields := by
          obtain ⟨key, found⟩ := Fields.exists_of_group? h
          exact Fields.sizeOf_array_lt found
        itemElements items
      | _ => []
    else []
termination_by sizeOf fields

def itemElements : List Json → List Fields
  | [] => []
  | .object inner :: rest => particleElements inner ++ itemElements rest
  | _ :: rest => itemElements rest
termination_by items => sizeOf items

/-- The elements in the type of an element that is written out there. -/
def attachedElements (fields : Fields) : List Fields :=
  match h : fields.get? "type" with
  | some (.object inner) =>
    have := Fields.sizeOf_object_lt h
    typeElements inner
  | _ => []
termination_by sizeOf fields

end

mutual

/-- The elements inside a type, without those inside the named types that they have. -/
def TypeDef.ownElements : TypeDef → List ElementDecl
  | .simple _ _ _ => []
  | .complex _ _ _ content => content.ownElements
termination_by structural t => t

def Content.ownElements : Content → List ElementDecl
  | .empty | .simple _ => []
  | .elementOnly particle | .mixed particle => particle.ownElements
termination_by structural t => t

def Particle.ownElements : Particle → List ElementDecl
  | ⟨_, _, term⟩ => term.ownElements
termination_by structural t => t

def Term.ownElements : Term → List ElementDecl
  | .element decl => decl :: decl.ownInner
  | .wildcard _ => []
  | .group _ particles => ownElementsOfAll particles
termination_by structural t => t

def ownElementsOfAll : List Particle → List ElementDecl
  | [] => []
  | p :: ps => p.ownElements ++ ownElementsOfAll ps
termination_by structural t => t

/-- The elements inside the type of an element, if that type has no name. -/
def ElementDecl.ownInner : ElementDecl → List ElementDecl
  | ⟨_, _, none⟩ => []
  | ⟨_, _, some type⟩ => if type.name? = none then type.ownElements else []
termination_by structural t => t

end

/-- The last of the declared types that have the name. -/
def LastNamed (declared : List TypeDef) (name : QName) (type : TypeDef) : Prop :=
  ∃ before after, declared = before ++ type :: after ∧ type.name? = some name ∧
    ∀ t ∈ after, t.name? ≠ some name

/-- What the type field of an element stands for, where these types are declared. -/
inductive StandsFor (declared : List TypeDef) : Option Json → Option TypeDef → Prop where
  | absent : StandsFor declared none none
  | null : StandsFor declared (some .null) none
  | anyType {text : String} (name : QName.ofText? text = some ⟨Namespaces.xmlSchema, "anyType"⟩) :
    StandsFor declared (some (.string text)) none
  | builtIn {text builtIn : String} (name : QName.ofText? text = some ⟨Namespaces.xmlSchema, builtIn⟩)
    (other : builtIn ≠ "anyType") :
    StandsFor declared (some (.string text)) (some (.simple none .atomic builtIn))
  | declared {text : String} {name : QName} {type : TypeDef} (written : QName.ofText? text = some name)
    (outside : name.uri ≠ Namespaces.xmlSchema) (last : LastNamed declared name type) :
    StandsFor declared (some (.string text)) (some type)
  | inline {fields : Fields} {type : TypeDef} (unnamed : type.name? = none) :
    StandsFor declared (some (.object fields)) (some type)

/-- The element is the one that is written in the fields. -/
structure ElementDecl.WrittenAs (declared : List TypeDef) (fields : Fields) (decl : ElementDecl) :
    Prop where
  name : Schema.Reader.nameOf fields = .ok decl.name
  type : StandsFor declared (fields.get? "type") decl.type

namespace Schema

/-- Each declared type is the one that is written in its place, with the types before it declared. -/
structure DeclaresTypes (items : List Json) (types : List TypeDef) : Prop where
  length : types.length = items.length
  each : ∀ i t, types[i]? = some t → ∃ fields name, items[i]? = some (.object fields) ∧
    Reader.nameOf fields = .ok name ∧ t.name? = some name ∧
    List.Forall₂ (ElementDecl.WrittenAs (types.take i)) (typeElements fields) t.ownElements

/-- The model is the one that is written in the fields of a document. -/
structure WrittenAs (doc : Fields) (s : Schema) : Prop where
  types : DeclaresTypes (doc.itemsOf "types") s.types
  elements : List.Forall₂ (fun item e => ∃ fields, item = .object fields ∧
    List.Forall₂ (ElementDecl.WrittenAs s.types) (fields :: attachedElements fields) (e :: e.ownInner))
    (doc.itemsOf "elements") s.elements

/-- An element has a named type only if this is the last declared one of its name: of the types before
the declared type that the element is written in, or of all types. -/
structure LooksBack (s : Schema) : Prop where
  types : ∀ (i : Nat) (t : TypeDef), s.types[i]? = some t → ∀ e ∈ t.ownElements, ∀ type name,
    e.type = some type → type.name? = some name → LastNamed (s.types.take i) name type
  elements : ∀ decl ∈ s.elements, ∀ e ∈ decl :: decl.ownInner, ∀ type name, e.type = some type →
    type.name? = some name → LastNamed s.types name type
  /-- Every element inside a declared type is written in it or in one declared before. -/
  inTypes : ∀ (i : Nat) (t : TypeDef), s.types[i]? = some t → ∀ e ∈ t.elements,
    ∃ j ≤ i, ∃ t' : TypeDef, s.types[j]? = some t' ∧ e ∈ t'.ownElements
  /-- A global element and every element inside it are written there or in a declared type. -/
  inElements : ∀ decl ∈ s.elements, ∀ e ∈ decl :: decl.inner,
    e ∈ decl :: decl.ownInner ∨ ∃ t ∈ s.types, e ∈ t.ownElements

end Schema

end ExiSchema
