import ExiSchema.Table.Uris
import ExiSchema.Grammar.Datatype

/-!
Grammars: finite automata over XML events. A rule is a state, its productions are the steps out of
it, and rule 0 is the start. Events that name something refer to rows of the string tables.
-/

set_option autoImplicit false

namespace ExiSchema

/-- Grammars are known by their place among the grammars of a compilation. -/
abbrev GrammarId := Nat

inductive Event where
  | endElement
  | characters (value : Datatype)
  | charactersUntyped
  | startElement (name : NameRef)
  | startElementNs (uri : Nat)
  | startElementAny
  | attribute (name : NameRef) (value : Datatype)
  | attributeNs (uri : Nat)
  | attributeAny
  /-- No event: the step is taken freely. -/
  | epsilon
deriving DecidableEq, Repr, Inhabited

namespace Event

def name? : Event → Option NameRef
  | .startElement name | .attribute name _ => some name
  | _ => none

/-- The URI row of every event that names something. -/
def uri? : Event → Option Nat
  | .startElement name | .attribute name _ => some name.uri
  | .startElementNs uri | .attributeNs uri => some uri
  | _ => none

def isNameCarrying (e : Event) : Bool := e.uri?.isSome

/-- The same event with another name, where it has a local name. -/
def withName (e : Event) (name : NameRef) : Event :=
  match e with
  | .startElement _ => .startElement name
  | .attribute _ value => .attribute name value
  | e => e

/-- The same event with another URI row, where it has a URI row and no local name. -/
def withUri (e : Event) (uri : Nat) : Event :=
  match e with
  | .startElementNs _ => .startElementNs uri
  | .attributeNs _ => .attributeNs uri
  | e => e

end Event

/-- A step. Without a target the automaton stops. -/
structure Production where
  event : Event
  target : Option Nat
deriving DecidableEq, Repr, Inhabited

namespace Production

def endElement : Production := ⟨.endElement, none⟩

def epsilon (rule : Nat) : Production := ⟨.epsilon, some rule⟩

/-- The end of an element with nothing after it. Where a rule has one, the automaton accepts. -/
def isTerminal (p : Production) : Bool := p.event == .endElement && p.target.isNone

def isEpsilon (p : Production) : Bool := p.event == .epsilon

def shifted (p : Production) (offset : Nat) : Production := ⟨p.event, p.target.map (· + offset)⟩

theorem isTerminal_iff {p : Production} : p.isTerminal = true ↔ p = endElement := by
  cases p
  simp [isTerminal, endElement]

end Production

structure Rule where
  id : Nat
  productions : List Production
deriving DecidableEq, Repr, Inhabited

namespace Rule

def add (r : Rule) (p : Production) : Rule := ⟨r.id, r.productions ++ [p]⟩

def hasEnd (r : Rule) : Bool := r.productions.any Production.isTerminal

/-- The rule moved up by `offset` places, with every target. -/
def shifted (r : Rule) (offset : Nat) : Rule :=
  ⟨r.id + offset, r.productions.map (·.shifted offset)⟩

/-- Puts `jump` in place of every terminal production. -/
def redirect (r : Rule) (jump : Production) : Rule :=
  ⟨r.id, r.productions.map fun p => if p.isTerminal then jump else p⟩

def setProduction (r : Rule) (i : Nat) (p : Production) : Rule := ⟨r.id, r.productions.set i p⟩

end Rule

structure Grammar where
  rules : Array Rule
deriving DecidableEq, Repr, Inhabited

namespace Grammar

def size (g : Grammar) : Nat := g.rules.size

def rule? (g : Grammar) (i : Nat) : Option Rule := g.rules[i]?

def production? (g : Grammar) (rule production : Nat) : Option Production :=
  (g.rule? rule).bind fun r => r.productions[production]?

/-- Gives every rule its place as its id. -/
def renumber (g : Grammar) : Grammar := ⟨g.rules.mapIdx fun i r => ⟨i, r.productions⟩⟩

def ofRules (rules : List Rule) : Grammar := renumber ⟨rules.toArray⟩

/-- Adds a rule as it is, whatever its id. -/
def push (g : Grammar) (r : Rule) : Grammar := ⟨g.rules.push r⟩

/-- Changes the start rule. Without rules there is nothing to change. -/
def modifyStart (g : Grammar) (f : Rule → Rule) : Grammar := ⟨g.rules.modify 0 f⟩

/-- Every production with the place of its rule and its own place there. -/
def indexed (g : Grammar) : List (Nat × Nat × Production) :=
  g.rules.toList.zipIdx.flatMap fun (r, i) => r.productions.zipIdx.map fun (p, j) => (i, j, p)

@[simp]
theorem size_renumber (g : Grammar) : g.renumber.size = g.size := by simp [renumber, size]

@[simp]
theorem size_push (g : Grammar) (r : Rule) : (g.push r).size = g.size + 1 := by simp [push, size]

@[simp]
theorem size_modifyStart (g : Grammar) (f : Rule → Rule) : (g.modifyStart f).size = g.size := by
  simp [modifyStart, size]

end Grammar

end ExiSchema
