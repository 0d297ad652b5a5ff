import ExiSchema.Grammar.Language
import ExiSchema.Schema.Basic

/-!
The words that particles, terms and attributes stand for, by induction on the model and without any
grammar. Names are read through string tables: an element stands for the start event of its row.
-/

set_option autoImplicit false

namespace ExiSchema

/-- The one word of one event. -/
def eventWord (e : Event) : Language Event := {[e]}

namespace Wildcard

/-- Any element that a wildcard admits; a listed namespace counts if the table has a row for it. -/
def language (t : UriTable) : Wildcard → Language Event
  | .any | .except _ => eventWord .startElementAny
  | .among uris => {w | ∃ uri ∈ uris, ∃ row, t.lookup uri = some row ∧ w = [.startElementNs row]}

end Wildcard

/-- So many words of a language as the bounds allow, one after the other. -/
def repeated (minOccurs : Nat) (maxOccurs : MaxOccurs) (l : Language Event) : Language Event :=
  {w | ∃ k, minOccurs ≤ k ∧ maxOccurs.allows k ∧ w ∈ l ^ k}

/-- The rows of a name in a table. -/
def UriTable.find? (t : UriTable) (name : QName) : Option NameRef := do
  let uri ← t.lookup name.uri
  let row ← (t.names? uri).bind fun names => names.lookup name.localName
  return ⟨uri, row⟩

mutual

def Particle.language (t : UriTable) : Particle → Language Event
  | ⟨minOccurs, maxOccurs, term⟩ => repeated minOccurs maxOccurs (term.language t)
termination_by structural p => p

def Term.language (t : UriTable) : Term → Language Event
  | .element decl => {w | ∃ ref, t.find? decl.name = some ref ∧ w = [.startElement ref]}
  | .wildcard wildcard => wildcard.language t
  | .group .sequence particles => sequenceLanguage t particles
  | .group .choice particles => if particles.isEmpty then 1 else choiceLanguage t particles
  | .group .all particles => KStar.kstar (choiceLanguage t particles)
termination_by structural p => p

/-- A word of each particle, in their order. -/
def sequenceLanguage (t : UriTable) : List Particle → Language Event
  | [] => 1
  | p :: ps => p.language t * sequenceLanguage t ps
termination_by structural p => p

/-- A word of any one of the particles. -/
def choiceLanguage (t : UriTable) : List Particle → Language Event
  | [] => 0
  | p :: ps => p.language t + choiceLanguage t ps
termination_by structural p => p

end

/-- Any attribute that a wildcard admits; a listed namespace counts if the table has a row for it. -/
def Wildcard.attributes (t : UriTable) : Wildcard → Language Event
  | .any | .except _ => eventWord .attributeAny
  | .among uris => {w | ∃ uri ∈ uris, ∃ row, t.lookup uri = some row ∧ w = [.attributeNs row]}

/-- The event of an attribute; where it is not required, it may be missing. -/
def AttributeUse.language (t : UriTable) (u : AttributeUse) : Language Event :=
  let present : Language Event :=
    {w | ∃ ref value, t.find? u.name = some ref ∧ Datatype.ofBuiltIn? u.builtIn = some value ∧
      w = [.attribute ref value]}
  if u.required then present else present + 1

/-- What may come before each attribute and after the last: nothing without a wildcard. -/
def admittedLanguage (t : UriTable) : Option Wildcard → Language Event
  | none => 0
  | some wildcard => wildcard.attributes t

/-- Attributes in the given order, with any number of those that a wildcard admits before each of them
and after the last. -/
def attributesLanguage (t : UriTable) (wildcard : Option Wildcard) (uses : List AttributeUse) :
    Language Event :=
  let admitted := KStar.kstar (admittedLanguage t wildcard)
  (uses.map fun u => admitted * u.language t).prod * admitted

end ExiSchema
