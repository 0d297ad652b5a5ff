import ExiSchema.Schema.Basic

/-!
The order in which the parts of a model are come to, each type after the types inside it. A type with
a name is gone through once, where the name is met first; from inside it the name leads nowhere.
-/

set_option autoImplicit false

namespace ExiSchema

/-- The named types that are done with, and the elements inside types that have been met. -/
structure Tour where
  done : List QName := []
  met : List ElementDecl := []

namespace Tour

/-- A type, gone through from inside it. -/
def once (t : Tour) (name : Option QName) (inside : List QName → Tour → Tour) (active : List QName) :
    Tour :=
  match name with
  | none => inside active t
  | some name =>
    if name ∈ t.done then t
    else
      let t := inside (name :: active) t
      { t with done := t.done ++ [name] }

def meet (t : Tour) (decl : ElementDecl) : Tour := { t with met := t.met ++ [decl] }

end Tour

mutual

/-- `active` are the names of the types that lie around. -/
def TypeDef.tour : TypeDef → List QName → Tour → Tour
  | .simple name _ _, active, t => t.once name (fun _ t => t) active
  | .complex name _ _ content, active, t => t.once name content.tour active
termination_by structural t => t

def Content.tour : Content → List QName → Tour → Tour
  | .empty, _, t | .simple _, _, t => t
  | .elementOnly particle, active, t | .mixed particle, active, t => particle.tour active t
termination_by structural t => t

def Particle.tour : Particle → List QName → Tour → Tour
  | ⟨_, _, term⟩, active, t => term.tour active t
termination_by structural t => t

/-- An element has been met when its type is done with, or when that has to wait. -/
def Term.tour : Term → List QName → Tour → Tour
  | .element decl, active, t => (decl.tour active t).meet decl
  | .wildcard _, _, t => t
  | .group _ particles, active, t => tourOfAll particles active t
termination_by structural t => t

def tourOfAll : List Particle → List QName → Tour → Tour
  | [], _, t => t
  | p :: ps, active, t => tourOfAll ps active (p.tour active t)
termination_by structural t => t

/-- The type of an element, unless the element lies inside a type of that name. -/
def ElementDecl.tour : ElementDecl → List QName → Tour → Tour
  | ⟨_, _, none⟩, _, t => t
  | ⟨_, _, some type⟩, active, t =>
    if ∃ name ∈ active, type.name? = some name then t else type.tour active t
termination_by structural t => t

end

/-- The types of a model and then the types of its elements, each in the order of declaration. -/
def Schema.tour (s : Schema) : Tour :=
  let t := s.types.foldl (fun t type => type.tour [] t) {}
  s.elements.foldl (fun t decl => decl.tour [] t) t

end ExiSchema
