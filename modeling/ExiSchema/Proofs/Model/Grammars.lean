import ExiSchema.Draft.Model
import ExiSchema.Proofs.Grammar.Repetition
import ExiSchema.Proofs.Table.Growth

/-!
The grammars of a type model as functions of the model, with the row numbers of names given. This is
what a compilation builds when the tables have the names and nothing has to be looked up.
-/

set_option autoImplicit false

namespace ExiSchema

namespace Naming

/-- The rows of a list of namespaces, which may not be empty. -/
def rows (ν : Naming) (uris : List String) : Except Fault (List Nat) :=
  if uris.isEmpty then .error .emptyNamespaceList
  else uris.mapM fun uri => do
    let _ ← Label.ofText uri
    return ν.uri uri

/-- The events of any element that a wildcard admits. -/
def elementEvents (ν : Naming) : Wildcard → Except Fault (List Event)
  | .any | .except _ => .ok [.startElementAny]
  | .among uris => do return (← ν.rows uris).map .startElementNs

/-- The events of any attribute that a wildcard admits. -/
def attributeEvents (ν : Naming) : Wildcard → Except Fault (List Event)
  | .any | .except _ => .ok [.attributeAny]
  | .among uris => do return (← ν.rows uris).map .attributeNs

end Naming

/-- The datatype of a built-in type, which has to be a known one. -/
def Datatype.check (builtIn : String) : Except Fault Datatype :=
  match ofBuiltIn? builtIn with
  | some value => .ok value
  | none => .error (.inconsistent (.unknownBuiltIn builtIn))

def AttributeUse.grammar (ν : Naming) (u : AttributeUse) : Except Fault Grammar := do
  let value ← Datatype.check u.builtIn
  u.name.check
  let g := Grammar.single (.attribute (ν.name u.name) value)
  return if u.required then g else g.withEscape

/-- Whether an element may stand inside a type. -/
def ElementDecl.check (decl : ElementDecl) : Except Fault Unit :=
  if decl.substitutes.isEmpty then decl.name.check else .error (.notImplemented .substitutionGroups)

theorem ElementDecl.check_eq {decl : ElementDecl} (alone : decl.substitutes.isEmpty = true) :
    decl.check = decl.name.check := if_pos alone

mutual

def Particle.grammar (ν : Naming) : Particle → Except Fault Grammar
  | ⟨minOccurs, maxOccurs, term⟩ => do
    let g ← term.grammar ν
    g.repeated minOccurs maxOccurs
termination_by structural p => p

def Term.grammar (ν : Naming) : Term → Except Fault Grammar
  | .element decl => do
    decl.check
    return .single (.startElement (ν.name decl.name))
  | .wildcard wildcard => do
    return .oneOf (← ν.elementEvents wildcard)
  | .group compositor particles => do
    let parts ← grammarsOf ν particles
    Grammar.grouped compositor parts
termination_by structural t => t

def grammarsOf (ν : Naming) : List Particle → Except Fault (List Grammar)
  | [] => return []
  | p :: ps => do
    let g ← p.grammar ν
    let gs ← grammarsOf ν ps
    return g :: gs
termination_by structural ps => ps

end

def Content.grammar (ν : Naming) : Content → Except Fault Grammar
  | .empty => return .endOnly
  | .simple builtIn => do
    let value ← Datatype.check builtIn
    return .single (.characters value)
  | .elementOnly particle => particle.grammar ν
  | .mixed particle => do
    let g ← particle.grammar ν
    return g.withText

/-- Attributes in the given order, then content; between them what a wildcard admits. -/
def Grammar.complex (uses : List Grammar) (events : Option (List Event)) (content : Grammar) :
    Except Fault Grammar :=
  let segments :=
    match events with
    | none => uses
    | some events => (uses ++ [endOnly]).map (·.withStartEvents events)
  if segments.isEmpty then .ok content else sequence (segments ++ [content])

/-- The grammars of a type, for its content and for empty content. -/
def TypeDef.grammars (options : Options) (ν : Naming) : TypeDef → Except Fault (Grammar × Grammar)
  | .simple _ .atomic builtIn => do
    let value ← Datatype.check builtIn
    return (.single (.characters value), .endOnly)
  | .simple _ (.list _) _ => .error (.notImplemented .listTypes)
  | .simple _ (.union _) _ => .error (.notImplemented .unionTypes)
  | .complex _ attributes wildcard content => do
    let uses ← (Draft.orderedUses options attributes).mapM (AttributeUse.grammar ν)
    let content ← content.grammar ν
    let events ← wildcard.mapM ν.attributeEvents
    let grammar ← Grammar.complex uses events content
    let empty ← Grammar.complex uses events .endOnly
    return (grammar, empty)

theorem Draft.mem_orderedUses {options : Options} {uses : List AttributeUse} {u : AttributeUse} :
    u ∈ orderedUses options uses ↔ u ∈ uses := by
  unfold orderedUses
  split
  · exact List.mem_mergeSort
  · exact Iff.rfl

end ExiSchema
