import ExiSchema.Grammar.Basic
import Mathlib.Logic.Relation

/-!
The shape of a grammar: whether its rules are numbered as they stand and its steps lead to rules,
and whether each rule lies on the way from the start to an end.
-/

set_option autoImplicit false

namespace ExiSchema.Grammar

/-- `Leads g i j`: some production of rule `i` goes on to rule `j`. -/
def Leads (g : Grammar) (i j : Nat) : Prop :=
  ∃ r p, g.rule? i = some r ∧ p ∈ r.productions ∧ p.target = some j

/-- A step that ends the element leads nowhere, and every other one leads to a rule. -/
structure WellFormed (g : Grammar) : Prop where
  nonempty : 0 < g.size
  numbered : ∀ i r, g.rule? i = some r → r.id = i
  targets : ∀ i r p j, g.rule? i = some r → p ∈ r.productions → p.target = some j → j < g.size
  ends : ∀ i r p, g.rule? i = some r → p ∈ r.productions → (p.target = none ↔ p.event = .endElement)

/-- Every rule can be reached, and from every rule an end. -/
structure Trim (g : Grammar) : Prop where
  reached : ∀ i, i < g.size → Relation.ReflTransGen g.Leads 0 i
  productive : ∀ i, i < g.size →
    ∃ j r, Relation.ReflTransGen g.Leads i j ∧ g.rule? j = some r ∧ r.hasEnd = true

end ExiSchema.Grammar
