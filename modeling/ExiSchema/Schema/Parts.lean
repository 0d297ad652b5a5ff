import ExiSchema.Schema.Basic

/-!
The parts of types and elements at every depth, including those inside types that are attached to
inner elements.
-/

set_option autoImplicit false

namespace ExiSchema

mutual

/-- Every element declaration inside a type. -/
def TypeDef.elements : TypeDef → List ElementDecl
  | .simple _ _ _ => []
  | .complex _ _ _ content => content.elements
termination_by structural t => t

def Content.elements : Content → List ElementDecl
  | .empty | .simple _ => []
  | .elementOnly particle | .mixed particle => particle.elements
termination_by structural t => t

def Particle.elements : Particle → List ElementDecl
  | ⟨_, _, term⟩ => term.elements
termination_by structural t => t

def Term.elements : Term → List ElementDecl
  | .element decl => decl :: decl.inner
  | .wildcard _ => []
  | .group _ particles => elementsOfAll particles
termination_by structural t => t

def elementsOfAll : List Particle → List ElementDecl
  | [] => []
  | p :: ps => p.elements ++ elementsOfAll ps
termination_by structural t => t

/-- Every element declaration inside the type of an element. -/
def ElementDecl.inner : ElementDecl → List ElementDecl
  | ⟨_, _, none⟩ => []
  | ⟨_, _, some type⟩ => type.elements
termination_by structural t => t

end

mutual

/-- Every particle inside a type. -/
def TypeDef.particles : TypeDef → List Particle
  | .simple _ _ _ => []
  | .complex _ _ _ content => content.particles
termination_by structural t => t

def Content.particles : Content → List Particle
  | .empty | .simple _ => []
  | .elementOnly particle | .mixed particle => particle.particles
termination_by structural t => t

/-- A particle and every particle inside it. -/
def Particle.particles : Particle → List Particle
  | ⟨minOccurs, maxOccurs, term⟩ => ⟨minOccurs, maxOccurs, term⟩ :: term.particles
termination_by structural t => t

def Term.particles : Term → List Particle
  | .element decl => decl.particles
  | .wildcard _ => []
  | .group _ particles => particlesOfAll particles
termination_by structural t => t

def particlesOfAll : List Particle → List Particle
  | [] => []
  | p :: ps => p.particles ++ particlesOfAll ps
termination_by structural t => t

/-- Every particle inside the type of an element. -/
def ElementDecl.particles : ElementDecl → List Particle
  | ⟨_, _, none⟩ => []
  | ⟨_, _, some type⟩ => type.particles
termination_by structural t => t

end

namespace TypeDef

/-- A type and every type attached to an element inside it. -/
def types (t : TypeDef) : List TypeDef := t :: t.elements.filterMap ElementDecl.type

end TypeDef

namespace Schema

/-- Every element declaration of a model. -/
def allElements (s : Schema) : List ElementDecl :=
  s.types.flatMap TypeDef.elements ++ s.elements.flatMap fun e => e :: e.inner

/-- Every type of a model, declared or attached to an element. -/
def allTypes (s : Schema) : List TypeDef :=
  s.types ++ s.allElements.filterMap ElementDecl.type

/-- Every particle of a model. -/
def allParticles (s : Schema) : List Particle :=
  s.types.flatMap TypeDef.particles ++ s.elements.flatMap ElementDecl.particles

end Schema

end ExiSchema
