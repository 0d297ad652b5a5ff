import ExiSchema.Grammar.Basic

/-!
Grammars with names in place of row numbers. Two grammars over different tables say the same if
they have the same named form.
-/

set_option autoImplicit false

namespace ExiSchema

/-- An event with the texts of the rows that it refers to. -/
inductive NamedEvent where
  | endElement
  | characters (value : Datatype)
  | charactersUntyped
  | startElement (name : QName)
  | startElementNs (uri : String)
  | startElementAny
  | attribute (name : QName) (value : Datatype)
  | attributeNs (uri : String)
  | attributeAny
  | epsilon
deriving DecidableEq, Repr

structure NamedProduction where
  event : NamedEvent
  target : Option Nat
deriving DecidableEq, Repr

structure NamedRule where
  id : Nat
  productions : List NamedProduction
deriving DecidableEq, Repr

namespace Event

/-- The event over the texts of a table, if the table has the rows that it refers to. -/
def named? (t : UriTable) : Event → Option NamedEvent
  | .endElement => some .endElement
  | .characters value => some (.characters value)
  | .charactersUntyped => some .charactersUntyped
  | .startElement ref => (t.resolve? ref).map .startElement
  | .startElementNs uri => (t.labelAt? uri).map fun label => .startElementNs label.text
  | .startElementAny => some .startElementAny
  | .attribute ref value => (t.resolve? ref).map fun name => .attribute name value
  | .attributeNs uri => (t.labelAt? uri).map fun label => .attributeNs label.text
  | .attributeAny => some .attributeAny
  | .epsilon => some .epsilon

end Event

namespace Grammar

/-- The rules of a grammar over the texts of a table, if the table has every row that they need. -/
def named? (t : UriTable) (g : Grammar) : Option (List NamedRule) :=
  g.rules.toList.mapM fun r => do
    let productions ← r.productions.mapM fun p => do
      return ⟨← p.event.named? t, p.target⟩
    return ⟨r.id, productions⟩

end Grammar

end ExiSchema
