import ExiSchema.Draft.Compose
import ExiSchema.Schema.Parts

/-!
The faults that the parts of a type model have by themselves, wherever they stand in the model: an
unknown built-in type, a text that no table can hold, bounds that cross or ask for too many copies, a
wildcard without namespaces, an unsupported construct.
-/

set_option autoImplicit false

namespace ExiSchema

def Datatype.faults (builtIn : String) : List Fault :=
  if (ofBuiltIn? builtIn).isSome then [] else [.inconsistent (.unknownBuiltIn builtIn)]

def Label.faults (text : String) : List Fault :=
  if Text.isAscii text then [] else [.nonAsciiName text]

def QName.faults (q : QName) : List Fault := Label.faults q.uri ++ Label.faults q.localName

def Wildcard.faults : Wildcard → List Fault
  | .any | .except _ => []
  | .among [] => [.emptyNamespaceList]
  | .among uris => uris.flatMap Label.faults

def AttributeUse.faults (u : AttributeUse) : List Fault := Datatype.faults u.builtIn ++ u.name.faults

def Variety.faults (builtIn : String) : Variety → List Fault
  | .atomic => Datatype.faults builtIn
  | .list _ => [.notImplemented .listTypes]
  | .union _ => [.notImplemented .unionTypes]

namespace Particle

/-- The number of copies of the term that are written out. -/
def copies (p : Particle) : Nat :=
  match p.maxOccurs with
  | .bounded count => count
  | .unbounded => min (p.minOccurs + 1) Draft.countLimit

/-- Bounds that cross count before bounds that ask for too much. -/
def boundsFaults (p : Particle) : List Fault :=
  match p.checked with
  | .error fault => [fault]
  | .ok _ => if Draft.copyLimit < p.copies then [.outOfBounds p.copies Draft.copyLimit] else []

end Particle

mutual

def TypeDef.faults : TypeDef → List Fault
  | .simple _ variety builtIn => variety.faults builtIn
  | .complex _ attributes wildcard content =>
    attributes.flatMap AttributeUse.faults ++ wildcard.elim [] Wildcard.faults ++ content.faults
termination_by structural t => t

def Content.faults : Content → List Fault
  | .empty => []
  | .simple builtIn => Datatype.faults builtIn
  | .elementOnly particle | .mixed particle => particle.faults
termination_by structural t => t

def Particle.faults : Particle → List Fault
  | ⟨minOccurs, maxOccurs, term⟩ =>
    Particle.boundsFaults ⟨minOccurs, maxOccurs, term⟩ ++ term.faults
termination_by structural t => t

def Term.faults : Term → List Fault
  | .element decl => decl.faults
  | .wildcard wildcard => wildcard.faults
  | .group _ particles => faultsOfAll particles
termination_by structural t => t

def faultsOfAll : List Particle → List Fault
  | [] => []
  | p :: ps => p.faults ++ faultsOfAll ps
termination_by structural t => t

/-- The faults of an element that stands inside a type. -/
def ElementDecl.faults : ElementDecl → List Fault
  | ⟨name, substitutes, none⟩ =>
    (if substitutes.isEmpty then [] else [.notImplemented .substitutionGroups]) ++ name.faults
  | ⟨name, substitutes, some type⟩ =>
    (if substitutes.isEmpty then [] else [.notImplemented .substitutionGroups]) ++ name.faults ++
      type.faults
termination_by structural t => t

end

/-- The faults of a global element. It may belong to a substitution group. -/
def ElementDecl.globalFaults (decl : ElementDecl) : List Fault :=
  decl.type.elim [] TypeDef.faults ++ decl.name.faults

namespace Schema

/-- The faults of the parts of a model. -/
def faults (s : Schema) : List Fault :=
  s.types.flatMap TypeDef.faults ++ s.elements.flatMap ElementDecl.globalFaults

/-- The kinds of faults that parts of a model have, with the particle where it is one. -/
inductive Blames (s : Schema) : Fault → Prop where
  | unsupported (feature : Feature) : Blames s (.notImplemented feature)
  | unknownBuiltIn {name : String} (unknown : Datatype.ofBuiltIn? name = none) :
      Blames s (.inconsistent (.unknownBuiltIn name))
  | tooManyCopies {p : Particle} (part : p ∈ s.allParticles) (many : Draft.copyLimit < p.copies) :
      Blames s (.outOfBounds p.copies Draft.copyLimit)
  | crossedBounds {p : Particle} {count : Nat} (part : p ∈ s.allParticles)
      (bounded : p.maxOccurs = .bounded count) (crossed : count < p.minOccurs) :
      Blames s (.invalidOccurs p.minOccurs count)
  | emptyNamespaces : Blames s .emptyNamespaceList
  | nonAscii {text : String} (refused : Text.isAscii text = false) : Blames s (.nonAsciiName text)

end Schema

end ExiSchema
