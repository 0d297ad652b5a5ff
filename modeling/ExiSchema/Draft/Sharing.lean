import ExiSchema.Draft.Session

/-!
Which local elements are declared, one after the other, while a type model is entered or a session
goes on. Each that is declared with success counts, with the grammar that was given back for it,
also where it had been declared before.
-/

set_option autoImplicit false

namespace ExiSchema

namespace Draft

variable {α : Type}

/-- What follows an action that succeeds; nothing follows one that fails. -/
def onOk (result : EStateM.Result Fault Draft α) (rest : α → Draft → List LocalElement) :
    List LocalElement :=
  match result with
  | .ok a d => rest a d
  | .error _ _ => []

def ownLocal (name : NameRef) (type : GrammarId) (d : Draft) : List LocalElement :=
  onOk (declareLocal name type d) fun id _ => [⟨name, type, id⟩]

/-- For a type that is registered, or is being compiled, nothing is built. -/
def onceLocals (name : Option QName) (build : Draft → List LocalElement) (d : Draft) :
    List LocalElement :=
  match name with
  | none => build d
  | some name =>
    match d.types.find? name with
    | some _ => []
    | none => if d.active.contains name then [] else build { d with active := name :: d.active }

mutual

def typeLocals : TypeDef → Draft → List LocalElement
  | .simple _ _ _ => fun _ => []
  | .complex name attributes _ content =>
    onceLocals name fun d => onOk (attributesOf attributes d) fun _ d => contentLocals content d
termination_by structural t => t

def contentLocals : Content → Draft → List LocalElement
  | .empty | .simple _ => fun _ => []
  | .elementOnly particle | .mixed particle => particleLocals particle
termination_by structural c => c

def particleLocals : Particle → Draft → List LocalElement
  | ⟨_, _, term⟩ => termLocals term
termination_by structural p => p

def termLocals : Term → Draft → List LocalElement
  | .element decl => elementLocals decl
  | .wildcard _ => fun _ => []
  | .group _ particles => particlesLocals particles
termination_by structural term => term

def particlesLocals : List Particle → Draft → List LocalElement
  | [] => fun _ => []
  | p :: ps => fun d => particleLocals p d ++ onOk (placeParticle p d) fun _ d => particlesLocals ps d
termination_by structural ps => ps

/-- The local elements that the type of an element declares come before the element itself. -/
def elementLocals : ElementDecl → Draft → List LocalElement
  | ⟨name, substitutes, type⟩ => fun d =>
    if substitutes.isEmpty then
      onOk (enterName name d) fun ref d =>
        match type with
        | none => onOk (anyTypeGrammar d) fun id d => ownLocal ref id d
        | some type =>
          if d.isActive type then []
          else typeLocals type d ++ onOk (typeGrammars type d) fun pair d => ownLocal ref pair.grammar d
    else []
termination_by structural decl => decl

end

/-- The local elements inside the type of a global element. -/
def globalLocals (decl : ElementDecl) (d : Draft) : List LocalElement :=
  match decl.type with
  | some type => typeLocals type d
  | none => []

/-- The local elements that are declared when elements that were put off are settled. -/
def settledLocals : List PendingElement → Draft → List LocalElement
  | [], _ => []
  | e :: rest, d =>
    let late : Drafting GrammarId := do declareLocal e.name (← typeGrammars e.type).grammar
    typeLocals e.type d ++
      onOk (typeGrammars e.type d) (fun pair d => ownLocal e.name pair.grammar d) ++
      onOk (orSkip (.localElement e.type.name?) late d) fun _ d => settledLocals rest d

def typesLocals : List TypeDef → Draft → List LocalElement
  | [], _ => []
  | t :: rest, d =>
    typeLocals t d ++ onOk (orSkip (.type t.name?) (typeGrammars t) d) fun _ d => typesLocals rest d

def globalsLocals : List ElementDecl → Draft → List LocalElement
  | [], _ => []
  | e :: rest, d =>
    globalLocals e d ++ onOk (orSkip (.element e.name) (elementGrammar e) d) fun id d =>
      match id with
      | some id => onOk (declareGlobal e.name id d) fun _ d => globalsLocals rest d
      | none => globalsLocals rest d

/-- The local elements that are declared when a type model is entered. -/
def schemaLocals (s : Schema) (d : Draft) : List LocalElement :=
  typesLocals s.types d ++ onOk (addTypes s.types d) fun _ d => globalsLocals s.elements d

end Draft

namespace Operation

def locals : Operation → Draft → List LocalElement
  | .declareLocal name type, d => d.ownLocal name type
  | .typeGrammars type, d => d.typeLocals type
  | .elementGrammar decl, d => d.globalLocals decl
  | _, _ => []

/-- The local elements that are declared in a session. -/
def allLocals : List Operation → Draft → List LocalElement
  | [], _ => []
  | op :: ops, d => op.locals d ++ allLocals ops (op.after d)

end Operation

end ExiSchema
