import ExiSchema.Grammar.Basic
import Mathlib.Computability.Language

/-!
What a grammar accepts. A run starts in rule 0, takes free steps as it likes, reads one event with
every other step, and may stop where a rule ends the element. Languages are Mathlib's, and so are the
operations on them.
-/

set_option autoImplicit false

namespace ExiSchema.Grammar

/-- `AcceptsFrom g i w`: from rule `i` on, a run may read the word `w` and stop. -/
inductive AcceptsFrom (g : Grammar) : Nat → List Event → Prop where
  | stop {i : Nat} {r : Rule} (rule : g.rule? i = some r) (ends : r.hasEnd = true) :
      AcceptsFrom g i []
  | jump {i j : Nat} {r : Rule} {w : List Event} (rule : g.rule? i = some r)
      (step : Production.epsilon j ∈ r.productions) (rest : AcceptsFrom g j w) : AcceptsFrom g i w
  | read {i j : Nat} {r : Rule} {e : Event} {w : List Event} (rule : g.rule? i = some r)
      (step : ⟨e, some j⟩ ∈ r.productions) (visible : e ≠ .epsilon) (rest : AcceptsFrom g j w) :
      AcceptsFrom g i (e :: w)

/-- The words that a grammar accepts from its start. -/
def language (g : Grammar) : Language Event := {w | AcceptsFrom g 0 w}

/-- The words that a grammar accepts if it may also stop at its start. -/
def openLanguage (g : Grammar) : Language Event := (g.modifyStart (·.add .endElement)).language

/-- Nothing is accepted from a place without a rule. -/
theorem not_acceptsFrom_of_le {g : Grammar} {i : Nat} {w : List Event} (h : g.size ≤ i) :
    ¬ AcceptsFrom g i w := by
  have none : g.rule? i = none := Array.getElem?_eq_none h
  intro run
  cases run <;> simp_all

end ExiSchema.Grammar
