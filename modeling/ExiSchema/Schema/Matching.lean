import ExiSchema.Schema.Basic
import Mathlib.Data.List.Forall2

/-!
Type models that differ in nothing but the attribute uses of their complex types. At every depth the
uses of a type are related to those of the other, and all else is equal.
-/

set_option autoImplicit false

namespace ExiSchema

/-- The attribute uses of a type, as declared. A simple type has none. -/
def TypeDef.attributes : TypeDef → List AttributeUse
  | .simple _ _ _ => []
  | .complex _ uses _ _ => uses

variable (U : List AttributeUse → List AttributeUse → Prop)

mutual

inductive TypeDef.Matches : TypeDef → TypeDef → Prop where
  | simple (name : Option QName) (variety : Variety) (builtIn : String) :
    TypeDef.Matches (.simple name variety builtIn) (.simple name variety builtIn)
  | complex {uses uses' : List AttributeUse} {content content' : Content} (name : Option QName)
    (wildcard : Option Wildcard) (attributes : U uses uses')
    (inside : Content.Matches content content') :
    TypeDef.Matches (.complex name uses wildcard content) (.complex name uses' wildcard content')

inductive Content.Matches : Content → Content → Prop where
  | empty : Content.Matches .empty .empty
  | simple (builtIn : String) : Content.Matches (.simple builtIn) (.simple builtIn)
  | elementOnly {p p' : Particle} (particle : Particle.Matches p p') :
    Content.Matches (.elementOnly p) (.elementOnly p')
  | mixed {p p' : Particle} (particle : Particle.Matches p p') :
    Content.Matches (.mixed p) (.mixed p')

inductive Particle.Matches : Particle → Particle → Prop where
  | bounds {t t' : Term} (minOccurs : Nat) (maxOccurs : MaxOccurs) (term : Term.Matches t t') :
    Particle.Matches ⟨minOccurs, maxOccurs, t⟩ ⟨minOccurs, maxOccurs, t'⟩

inductive Term.Matches : Term → Term → Prop where
  | element {e e' : ElementDecl} (decl : ElementDecl.Matches e e') :
    Term.Matches (.element e) (.element e')
  | wildcard (wildcard : Wildcard) : Term.Matches (.wildcard wildcard) (.wildcard wildcard)
  | group {ps ps' : List Particle} (compositor : Compositor) (particles : AllMatch ps ps') :
    Term.Matches (.group compositor ps) (.group compositor ps')

/-- One particle matches the other, in their order. -/
inductive AllMatch : List Particle → List Particle → Prop where
  | nil : AllMatch [] []
  | cons {p p' : Particle} {ps ps' : List Particle} (first : Particle.Matches p p')
    (rest : AllMatch ps ps') : AllMatch (p :: ps) (p' :: ps')

inductive ElementDecl.Matches : ElementDecl → ElementDecl → Prop where
  | untyped (name : QName) (substitutes : List QName) :
    ElementDecl.Matches ⟨name, substitutes, none⟩ ⟨name, substitutes, none⟩
  | typed {t t' : TypeDef} (name : QName) (substitutes : List QName) (type : TypeDef.Matches t t') :
    ElementDecl.Matches ⟨name, substitutes, some t⟩ ⟨name, substitutes, some t'⟩

end

namespace Schema

/-- The same declarations in the same order, but for attribute uses. -/
structure Matches (s s' : Schema) : Prop where
  types : List.Forall₂ (TypeDef.Matches U) s.types s'.types
  elements : List.Forall₂ (ElementDecl.Matches U) s.elements s'.elements

/-- The same declarations in the same order, with the attribute uses of each type in any order. -/
def Rearranges (s s' : Schema) : Prop := s.Matches List.Perm s'

end Schema

end ExiSchema
