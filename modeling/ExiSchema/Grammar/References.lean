import ExiSchema.Grammar.Basic

/-!
The places in a list of grammars that refer to rows of the string tables. A reference names its
production and repeats the rows that the production refers to.
-/

set_option autoImplicit false

namespace ExiSchema

structure Address where
  grammar : GrammarId
  rule : Nat
  production : Nat
deriving DecidableEq, Repr, Inhabited

/-- `name` is absent where the production refers to a URI row only. -/
structure RowReference where
  address : Address
  uri : Nat
  name : Option Nat
deriving DecidableEq, Repr, Inhabited

namespace Grammar

/-- The references of a grammar in the order of its rules and productions. -/
def references (g : Grammar) (id : GrammarId) : List RowReference :=
  g.indexed.filterMap fun (rule, production, p) =>
    p.event.uri?.map fun uri => ⟨⟨id, rule, production⟩, uri, p.event.name?.map NameRef.name⟩

/-- The production at an address. -/
def productionAt? (grammars : Array Grammar) (a : Address) : Option Production :=
  (grammars[a.grammar]?).bind fun g => g.production? a.rule a.production

/-- Puts a production at an address, if there is one. -/
def setProduction (grammars : Array Grammar) (a : Address) (p : Production) : Array Grammar :=
  grammars.modify a.grammar fun g =>
    ⟨g.rules.modify a.rule fun r => r.setProduction a.production p⟩

end Grammar

end ExiSchema
