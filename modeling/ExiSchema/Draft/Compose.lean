import ExiSchema.Draft.Basic
import ExiSchema.Grammar.Compose

/-!
Grammars of a draft built from grammars of the draft. Each action takes the numbers of its parts,
refuses numbers that stand for nothing, and adds what it builds as a new grammar.
-/

set_option autoImplicit false

namespace ExiSchema.Draft

/-- The number of copies of a term up to which a repetition is written out. -/
def copyLimit : Nat := 0x10000

/-- Counts are of 64 bits; adding to the largest of them leaves it as it is. -/
def countLimit : Nat := 0xFFFFFFFFFFFFFFFF

/-- The datatype of a built-in type, which has to be a known one. -/
def datatype (builtIn : String) : Drafting Datatype := fun d =>
  match Datatype.ofBuiltIn? builtIn with
  | some value => .ok value d
  | none => .error (.inconsistent (.unknownBuiltIn builtIn)) d

/-- The start rule of a grammar has to be there. -/
def startRule (id : GrammarId) (g : Grammar) : Drafting Rule := fun d =>
  match g.rule? 0 with
  | some r => .ok r d
  | none => .error (.inconsistent (.noStartRule id)) d

/-- The sequence of the given grammars; the empty content if there are none. -/
def chain (parts : List GrammarId) : Drafting GrammarId := do
  let grammars ← parts.mapM grammar
  insert (← ofExcept (Grammar.sequence grammars))

/-- A value of a built-in type. -/
def simpleContent (builtIn : String) : Drafting GrammarId := do
  let value ← datatype builtIn
  insert (.single (.characters value))

/-- Empty content. -/
def emptyContent : Drafting GrammarId := insert .endOnly

/-- An attribute; one that is not required may be left out. -/
def attributeUse (required : Bool) (name : QName) (builtIn : String) : Drafting GrammarId := do
  let value ← datatype builtIn
  let ref ← enterName name
  let g := Grammar.single (.attribute ref value)
  insert (if required then g else g.withEscape)

/-- An element of this name. Its content has a grammar of its own. -/
def elementTerm (name : QName) : Drafting GrammarId := do
  let ref ← enterName name
  insert (.single (.startElement ref))

/-- The URI rows of a list of namespaces, which may not be empty. -/
def namespaceRows (uris : List String) : Drafting (List Nat) :=
  if uris.isEmpty then throw .emptyNamespaceList else uris.mapM enterUri

/-- Any element that a wildcard admits. An excluded namespace is not kept apart. -/
def wildcardTerm : Wildcard → Drafting GrammarId
  | .any | .except _ => insert (.oneOf [.startElementAny])
  | .among uris => do
    let rows ← namespaceRows uris
    insert (.oneOf (rows.map .startElementNs))

/-- The events of any attribute that a wildcard admits. -/
def admittedEvents : Wildcard → Drafting (List Event)
  | .any | .except _ => return [.attributeAny]
  | .among uris => return (← namespaceRows uris).map .attributeNs

/-- Events that may happen first, as often as wanted. -/
def admitEvents (id : GrammarId) (events : List Event) : Drafting GrammarId := do
  let g ← grammar id
  let _ ← startRule id g
  insert (g.withStartEvents events)

/-- Attributes that a wildcard admits, as often as wanted, and then the grammar. -/
def admitAttributes (id : GrammarId) (wildcard : Wildcard) : Drafting GrammarId := do
  let events ← admittedEvents wildcard
  admitEvents id events

/-- Attributes in the given order, then content. With a wildcard, attributes that it admits may come
before each of them and before the content. -/
def complexContent (attributes : List GrammarId) (wildcard : Option Wildcard)
    (content : GrammarId) : Drafting GrammarId := do
  let segments ←
    match wildcard with
    | none => pure attributes
    | some wildcard => do
      let events ← admittedEvents wildcard
      let last ← emptyContent
      (attributes ++ [last]).mapM fun id => admitEvents id events
  if segments.isEmpty then return content
  chain (segments ++ [content])

/-- Attributes as in `complexContent`, and no content. -/
def complexEmpty (attributes : List GrammarId) (wildcard : Option Wildcard) :
    Drafting GrammarId := do
  let content ← emptyContent
  complexContent attributes wildcard content

/-- Any attributes and any content. -/
def anyContent : Drafting GrammarId := insert .anything

/-- Any attributes and no content. -/
def anyAttributes : Drafting GrammarId := insert .anyAttributes

/-- The grammar with the freedom to end where it starts; itself if it has that. -/
def withEscape (id : GrammarId) : Drafting GrammarId := do
  let g ← grammar id
  let start ← startRule id g
  if start.hasEnd then return id
  insert g.withEscape

/-- The grammar with the freedom to start again at each of its ends. -/
def looped (id : GrammarId) : Drafting GrammarId := do
  let g ← grammar id
  insert g.looped

/-- The grammar itself if it is alone, else the sequence. -/
def joined : List GrammarId → Drafting GrammarId
  | [id] => return id
  | parts => chain parts

/-- Refuses a number of copies above the limit. -/
def checkCopies (count : Nat) : Drafting Unit :=
  if copyLimit < count then throw (.outOfBounds count copyLimit) else return ()

/-- A term repeated within bounds: so many copies as it must have, then copies that may be left out,
or one that may be run through again and again. -/
def particle (minOccurs : Nat) (maxOccurs : MaxOccurs) (term : GrammarId) : Drafting GrammarId := do
  let _ ← grammar term
  match maxOccurs with
  | .bounded count =>
    if count < minOccurs then throw (.invalidOccurs minOccurs count)
    else if count = 0 then emptyContent
    else if count = 1 ∧ minOccurs = 1 then return term
    else do
      checkCopies count
      if minOccurs < count then do
        let optional ← withEscape term
        joined (List.replicate minOccurs term ++ List.replicate (count - minOccurs) optional)
      else joined (List.replicate minOccurs term)
  | .unbounded => do
    checkCopies (min (minOccurs + 1) countLimit)
    let optional ← withEscape term
    let loop ← looped optional
    joined (List.replicate minOccurs term ++ [loop])

/-- The terms one after the other. -/
def sequence : List GrammarId → Drafting GrammarId
  | [] => emptyContent
  | [id] => do
    let _ ← grammar id
    return id
  | terms => chain terms

/-- A part of a choice or of an all group, whose number of rules has to fit in 32 bits. -/
def countedGrammar (id : GrammarId) : Drafting Grammar := do
  let g ← grammar id
  if g.size < Grammar.sizeLimit then return g else throw .memoryAllocation

/-- One of the terms. -/
def choice (terms : List GrammarId) : Drafting GrammarId := do
  let grammars ← terms.mapM countedGrammar
  insert (← ofExcept (Grammar.choice grammars))

/-- The terms in any order. -/
def all (terms : List GrammarId) : Drafting GrammarId := do
  let grammars ← terms.mapM countedGrammar
  insert (← ofExcept (Grammar.rounds grammars))

/-- Terms put together as their group says. -/
def group : Compositor → List GrammarId → Drafting GrammarId
  | .sequence => sequence
  | .choice => choice
  | .all => all

/-- The content with text allowed everywhere. -/
def mixed (content : GrammarId) : Drafting GrammarId := do
  let g ← grammar content
  insert g.withText

/-- A grammar of its own for an element, with the rules of its type. -/
def forElement (type : GrammarId) : Drafting GrammarId := do
  let g ← grammar type
  insert g.renumber

end ExiSchema.Draft
