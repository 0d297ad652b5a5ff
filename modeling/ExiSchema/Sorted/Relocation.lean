import ExiSchema.Sorted.Tables
import ExiSchema.Grammar.References

/-!
Moving grammars from old rows to canonical ones. Each reference is taken once; it has to fit the
production that it names, so that no production is moved twice.
-/

set_option autoImplicit false

namespace ExiSchema.Relocation

/-- The event of a production with new rows, if the reference fits the event. -/
def event (m : Relocation) (ref : RowReference) (e : Event) : Except Fault Event :=
  match ref.name with
  | some name =>
    match e.name? with
    | none => .error (.inconsistent .nameReferenceWithoutName)
    | some old =>
      if old = ⟨ref.uri, name⟩ then (m.ref old).map e.withName
      else .error (.inconsistent .referenceMismatch)
  | none =>
    match e.name?, e.uri? with
    | some _, _ => .error (.inconsistent .uriReferenceWithName)
    | none, none => .error (.inconsistent .uriReferenceWithoutUri)
    | none, some old =>
      if old = ref.uri then (m.uri old).map e.withUri
      else .error (.inconsistent .referenceMismatch)

def move (m : Relocation) (grammars : Array Grammar) (ref : RowReference) :
    Except Fault (Array Grammar) :=
  match Grammar.productionAt? grammars ref.address with
  | none =>
    .error (.inconsistent
      (.noProduction ref.address.grammar ref.address.rule ref.address.production))
  | some p =>
    match m.event ref p.event with
    | .ok event => .ok (Grammar.setProduction grammars ref.address ⟨event, p.target⟩)
    | .error fault => .error fault

/-- Takes the references in order. -/
def moveAll (m : Relocation) (grammars : Array Grammar) :
    List RowReference → Except Fault (Array Grammar)
  | [] => .ok grammars
  | ref :: refs =>
    match m.move grammars ref with
    | .ok grammars => m.moveAll grammars refs
    | .error fault => .error fault

end ExiSchema.Relocation
