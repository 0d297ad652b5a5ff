import ExiSchema.Draft.Declare

/-!
A type model entered into a draft. The grammars of a named type are built once; an element inside a
type whose own type is still being built is put off until all types are done. Particles and terms
leave one grammar each on the stack, and take from there what their parts left.
-/

set_option autoImplicit false

namespace ExiSchema.Draft

/-- Runs an action while a name is active, whether the action succeeds or fails. -/
def whileActive {α : Type} (name : QName) (action : Drafting α) : Drafting α := fun d =>
  match action { d with active := name :: d.active } with
  | .ok a d => .ok a { d with active := d.active.tail }
  | .error fault d => .error fault { d with active := d.active.tail }

/-- The grammars of a type: those registered under its name, or newly built ones. -/
def onceFor (name : Option QName) (build : Drafting GrammarPair) : Drafting GrammarPair := do
  match name with
  | none => build
  | some name =>
    let d ← get
    match d.types.find? name with
    | some grammars => return grammars
    | none =>
      if d.active.contains name then throw (.inconsistent (.typeInProgress name))
      let grammars ← whileActive name build
      declareType name grammars
      return grammars

/-- Attribute uses in the order in which a type takes them. -/
def orderedUses (options : Options) (uses : List AttributeUse) : List AttributeUse :=
  if options.sortAttributes then
    uses.mergeSort fun a b => (QName.compareLocal a.name b.name).isLE
  else uses

/-- A grammar for each attribute use. -/
def attributesOf (uses : List AttributeUse) : Drafting (List GrammarId) := do
  (orderedUses (← get).options uses).mapM fun u => attributeUse u.required u.name u.builtIn

/-- The grammars of a simple type. -/
def varietyGrammars (builtIn : String) : Variety → Drafting GrammarPair
  | .atomic => do
    let content ← simpleContent builtIn
    let empty ← emptyContent
    return ⟨content, empty⟩
  | .list _ => throw (.notImplemented .listTypes)
  | .union _ => throw (.notImplemented .unionTypes)

/-- The grammar of any content, built once. -/
def anyTypeGrammar : Drafting GrammarId := do
  match (← get).anyType with
  | some id => return id
  | none =>
    let id ← anyContent
    modify fun d => { d with anyType := some id }
    return id

/-- Whether a type has a name and is being compiled. -/
def isActive (d : Draft) (type : TypeDef) : Bool :=
  match type.name? with
  | some name => d.active.contains name
  | none => false

/-- Leaves a local element for later. -/
def putOff (name : NameRef) (type : TypeDef) : Drafting Unit :=
  modify fun d => { d with pending := d.pending ++ [⟨name, type⟩] }

mutual

/-- The grammars of a type. -/
def typeGrammars : TypeDef → Drafting GrammarPair
  | .simple name variety builtIn => onceFor name (varietyGrammars builtIn variety)
  | .complex name attributes wildcard content =>
    onceFor name do
      let uses ← attributesOf attributes
      let content ← contentGrammar content
      let grammar ← complexContent uses wildcard content
      let empty ← complexEmpty uses wildcard
      return ⟨grammar, empty⟩
termination_by structural t => t

/-- The grammar of a content, without attributes. -/
def contentGrammar : Content → Drafting GrammarId
  | .empty => emptyContent
  | .simple builtIn => simpleContent builtIn
  | .elementOnly particle => do
    placeParticle particle
    pop
  | .mixed particle => do
    placeParticle particle
    mixed (← pop)
termination_by structural t => t

/-- Leaves the grammar of the particle on the stack. -/
def placeParticle : Particle → Drafting Unit
  | ⟨minOccurs, maxOccurs, term⟩ => do
    placeTerm term
    let term ← pop
    push (← particle minOccurs maxOccurs term)
termination_by structural t => t

/-- Leaves the grammar of the term on the stack. -/
def placeTerm : Term → Drafting Unit
  | .element decl => do
    meetElement decl
    push (← elementTerm decl.name)
  | .wildcard wildcard => do
    push (← wildcardTerm wildcard)
  | .group compositor particles => do
    placeParticles particles
    let terms ← popMany particles.length
    push (← group compositor terms)
termination_by structural t => t

/-- Leaves the grammars of the particles on the stack, in their order. -/
def placeParticles : List Particle → Drafting Unit
  | [] => return ()
  | p :: ps => do
    placeParticle p
    placeParticles ps
termination_by structural t => t

/-- Declares an element that stands inside a type, or puts it off. -/
def meetElement : ElementDecl → Drafting Unit
  | ⟨name, substitutes, type⟩ => do
    unless substitutes.isEmpty do
      throw (.notImplemented .substitutionGroups)
    let ref ← enterName name
    match type with
    | none =>
      let _ ← declareLocal ref (← anyTypeGrammar)
    | some type =>
      if (← get).isActive type then putOff ref type
      else
        let grammars ← typeGrammars type
        let _ ← declareLocal ref grammars.grammar
termination_by structural t => t

end

/-- The grammar of an element, from that of its type. -/
def elementGrammar (decl : ElementDecl) : Drafting GrammarId := do
  match decl.type with
  | some type => forElement (← typeGrammars type).grammar
  | none => forElement (← anyTypeGrammar)

/-- Local elements that were put off, in the order in which they were met. -/
def settle : List PendingElement → Drafting Unit
  | [] => return ()
  | e :: rest => do
    let _ ← orSkip (.localElement e.type.name?) do
      declareLocal e.name (← typeGrammars e.type).grammar
    settle rest

/-- Declares the local elements that have been put off by now. -/
def settlePending : Drafting Unit := do
  let pending ← modifyGet fun d => (d.pending, { d with pending := [] })
  settle pending

/-- Builds the grammars of declared types. Each may be skipped on its own. -/
def addTypes : List TypeDef → Drafting Unit
  | [] => return ()
  | t :: rest => do
    let _ ← orSkip (.type t.name?) (typeGrammars t)
    addTypes rest

/-- Builds and declares global elements. Each may be skipped on its own. -/
def addElements : List ElementDecl → Drafting Unit
  | [] => return ()
  | e :: rest => do
    match ← orSkip (.element e.name) (elementGrammar e) with
    | some id => declareGlobal e.name id
    | none => pure ()
    addElements rest

/-- Enters the types of a model and then its elements, each in the order of declaration. -/
def addSchema (s : Schema) : Drafting Unit := do
  addTypes s.types
  addElements s.elements

end ExiSchema.Draft
