import ExiSchema.Grammar.References
import ExiSchema.Draft.Options
import ExiSchema.Schema.Basic
import ExiSchema.Table.Initial

/-!
A schema in the making: the grammars built so far, the string tables in order of registration, the
references from grammars to table rows, and what the walk over a type model has to remember.
Grammars are only added, never changed. An action that fails leaves behind what it did up to then.
-/

set_option autoImplicit false

namespace ExiSchema

/-- The grammars of a type: for its content, and for empty content. -/
structure GrammarPair where
  grammar : GrammarId
  empty : GrammarId
deriving DecidableEq, Repr, Inhabited

/-- The grammars of named types, in the order in which the names were first registered. -/
structure TypeRegistry where
  entries : List (QName × GrammarPair) := []
deriving DecidableEq, Inhabited

namespace TypeRegistry

def find? (r : TypeRegistry) (name : QName) : Option GrammarPair :=
  (r.entries.find? fun e => e.1 == name).map Prod.snd

/-- A name that is there already keeps its place and gets the new grammars. -/
def insert (r : TypeRegistry) (name : QName) (grammars : GrammarPair) : TypeRegistry :=
  if r.entries.any fun e => e.1 == name then
    ⟨r.entries.map fun e => if e.1 == name then (name, grammars) else e⟩
  else ⟨r.entries ++ [(name, grammars)]⟩

end TypeRegistry

structure GlobalElement where
  name : NameRef
  grammar : GrammarId
deriving DecidableEq, Repr, Inhabited

/-- An element that is declared inside a type. Elements with one name and one type grammar share
their grammar. -/
structure LocalElement where
  name : NameRef
  type : GrammarId
  grammar : GrammarId
deriving DecidableEq, Repr, Inhabited

/-- A local element whose type was still being compiled when the element was met. -/
structure PendingElement where
  name : NameRef
  type : TypeDef

/-- A part of a type model that can be left out on its own. -/
inductive Part where
  | type (name : Option QName)
  | element (name : QName)
  | localElement (type : Option QName)
deriving DecidableEq, Repr

/-- A part that was left out, and why. -/
structure Skip where
  part : Part
  fault : Fault
deriving DecidableEq, Repr

namespace Part

def message : Part → String
  | .type (some name) => "type " ++ name.toText
  | .type none => "anonymous type"
  | .element name => "element " ++ name.toText
  | .localElement (some name) => "local element of type " ++ name.toText
  | .localElement none => "local element"

end Part

namespace Skip

def message (s : Skip) : String := "skipping " ++ s.part.message ++ ": " ++ s.fault.message

end Skip

structure Draft where
  options : Options
  grammars : Array Grammar := #[]
  uris : UriTable := .initial
  references : Array RowReference := #[]
  /-- Grammars that wait to be built into larger ones, the last one first. -/
  stack : List GrammarId := []
  /-- Named types that are being compiled, the innermost first. -/
  active : List QName := []
  anyType : Option GrammarId := none
  types : TypeRegistry := {}
  globals : Array GlobalElement := #[]
  locals : Array LocalElement := #[]
  pending : List PendingElement := []
  skips : Array Skip := #[]

/-- Actions on a draft. -/
abbrev Drafting := EStateM Fault Draft

namespace Draft

/-- Grammars have numbers of 32 bits. -/
def grammarLimit : Nat := 0x100000000

/-- A draft with nothing in it but the tables that every draft starts with. -/
def start (options : Options) : Draft := { options }

/-- Runs an action on the string tables. -/
def onTables {α : Type} (action : UriTable.Action α) : Drafting α := fun d =>
  match action d.uris with
  | .ok a uris => .ok a { d with uris }
  | .error fault uris => .error fault { d with uris }

def ofExcept {α : Type} (result : Except Fault α) : Drafting α := fun d =>
  match result with
  | .ok a => .ok a d
  | .error fault => .error fault d

def grammar (id : GrammarId) : Drafting Grammar := fun d =>
  match d.grammars[id]? with
  | some g => .ok g d
  | none => .error (.unknownGrammar id) d

/-- Adds a grammar, with a reference for each production that names something. -/
def insert (g : Grammar) : Drafting GrammarId := fun d =>
  let id := d.grammars.size
  if id < grammarLimit then
    .ok id { d with references := d.references ++ g.references id, grammars := d.grammars.push g }
  else .error .memoryAllocation d

def enterUri (uri : String) : Drafting Nat := onTables (UriTable.enterUri uri)

def enterName (name : QName) : Drafting NameRef := onTables (UriTable.enterName name)

def push (id : GrammarId) : Drafting Unit := fun d => .ok () { d with stack := id :: d.stack }

def pop : Drafting GrammarId := fun d =>
  match d.stack with
  | id :: stack => .ok id { d with stack }
  | [] => .error (.outOfBounds 0 0) d

/-- Takes the last `n` waiting grammars, in the order in which they came. -/
def popMany (n : Nat) : Drafting (List GrammarId) := fun d =>
  if n ≤ d.stack.length then
    .ok (d.stack.take n).reverse { d with stack := d.stack.drop n }
  else .error (.outOfBounds n d.stack.length) d

/-- Runs an action that stands for a part of the model. If the part needs an unsupported construct
and the options say so, the part is left out, together with what it left waiting. -/
def orSkip {α : Type} (part : Part) (action : Drafting α) : Drafting (Option α) := fun d =>
  let depth := d.stack.length
  match action d with
  | .ok a d => .ok (some a) d
  | .error fault d =>
    if fault.isNotImplemented && d.options.skipUnsupported then
      .ok none { d with
        skips := d.skips.push ⟨part, fault⟩
        stack := d.stack.drop (d.stack.length - depth) }
    else .error fault d

end Draft

end ExiSchema
