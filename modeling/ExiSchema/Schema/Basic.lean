import ExiSchema.Fault

/-!
Type models: named types and global elements, with attribute uses, particles and wildcards. A model
is given in parsed form; a type that is used by an element is attached to the element itself.
-/

set_option autoImplicit false

namespace ExiSchema

/-- Which namespaces a wildcard admits. -/
inductive Wildcard where
  | any
  /-- Every namespace but this one; `none` where only the exclusion as such is known. -/
  | except (uri : Option String)
  /-- Exactly these; the empty text is "no namespace". -/
  | among (uris : List String)
deriving DecidableEq, Repr, Inhabited

/-- How a simple type takes its values. -/
inductive Variety where
  | atomic
  | list (item : Option QName)
  | union (members : List QName)
deriving DecidableEq, Repr, Inhabited

/-- An attribute of a complex type, with the built-in type of its value. -/
structure AttributeUse where
  name : QName
  required : Bool
  builtIn : String
deriving DecidableEq, Repr

inductive MaxOccurs where
  | bounded (count : Nat)
  | unbounded
deriving DecidableEq, Repr, Inhabited

/-- Whether so many occurrences are not too many. -/
def MaxOccurs.allows : MaxOccurs → Nat → Prop
  | .bounded count, k => k ≤ count
  | .unbounded, _ => True

inductive Compositor where
  | sequence
  | choice
  | all
deriving DecidableEq, Repr

mutual

/-- A type. Types without a name are used where they stand. -/
inductive TypeDef where
  | simple (name : Option QName) (variety : Variety) (builtIn : String)
  | complex (name : Option QName) (attributes : List AttributeUse) (wildcard : Option Wildcard)
      (content : Content)

inductive Content where
  | empty
  | simple (builtIn : String)
  | elementOnly (particle : Particle)
  | mixed (particle : Particle)

/-- A term with the bounds of its repetition. -/
structure Particle where
  minOccurs : Nat
  maxOccurs : MaxOccurs
  term : Term

inductive Term where
  | element (decl : ElementDecl)
  | wildcard (wildcard : Wildcard)
  | group (compositor : Compositor) (particles : List Particle)

/-- An element. Without a type it may hold anything. -/
structure ElementDecl where
  name : QName
  /-- The other members of its substitution group. -/
  substitutes : List QName
  type : Option TypeDef

end

instance : Inhabited TypeDef := ⟨.simple none .atomic "string"⟩

instance : Inhabited Content := ⟨.empty⟩

instance : Inhabited Term := ⟨.wildcard .any⟩

instance : Inhabited Particle := ⟨⟨1, .bounded 1, default⟩⟩

instance : Inhabited ElementDecl := ⟨⟨default, [], none⟩⟩

namespace TypeDef

def name? : TypeDef → Option QName
  | .simple name _ _ | .complex name _ _ _ => name

/-- The same type under a name. -/
def named (name : QName) : TypeDef → TypeDef
  | .simple _ variety builtIn => .simple (some name) variety builtIn
  | .complex _ attributes wildcard content => .complex (some name) attributes wildcard content

/-- Gives a complex type an attribute wildcard; a simple type has no place for one. -/
def withWildcard (wildcard : Wildcard) : TypeDef → TypeDef
  | .complex name attributes _ content => .complex name attributes (some wildcard) content
  | t => t

/-- An unnamed atomic type with the values of a built-in type. -/
def ofBuiltIn (builtIn : String) : TypeDef := .simple none .atomic builtIn

end TypeDef

namespace Particle

def boundsValid (p : Particle) : Bool :=
  match p.maxOccurs with
  | .bounded count => p.minOccurs ≤ count
  | .unbounded => true

/-- The particle, or the fault that its upper bound is below its lower one. -/
def checked (p : Particle) : Except Fault Particle :=
  match p.maxOccurs with
  | .bounded count =>
    if count < p.minOccurs then .error (.invalidOccurs p.minOccurs count) else .ok p
  | .unbounded => .ok p

def once (term : Term) : Particle := ⟨1, .bounded 1, term⟩

def optional (term : Term) : Particle := ⟨0, .bounded 1, term⟩

def zeroOrMore (term : Term) : Particle := ⟨0, .unbounded, term⟩

def oneOrMore (term : Term) : Particle := ⟨1, .unbounded, term⟩

end Particle

/-- A type model: its named types and its global elements, each in the order of declaration. -/
structure Schema where
  types : List TypeDef := []
  elements : List ElementDecl := []
deriving Inhabited

namespace Schema

/-- Declares types. Types without a name are left out. -/
def declareTypes (s : Schema) (types : List TypeDef) : Schema :=
  { s with types := s.types ++ types.filter fun t => t.name?.isSome }

def declareElements (s : Schema) (elements : List ElementDecl) : Schema :=
  { s with elements := s.elements ++ elements }

/-- The first declared type of a name. -/
def type? (s : Schema) (name : QName) : Option TypeDef :=
  s.types.find? fun t => t.name? == some name

end Schema

end ExiSchema
