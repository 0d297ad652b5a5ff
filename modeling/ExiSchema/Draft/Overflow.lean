import ExiSchema.Draft.Operation
import ExiSchema.Grammar.Sums

/-!
Operations that add up more than 32 bits hold. The sums of the library are exact; a program that has
32 bits for a sum, and looks at each, stops at such an operation.
-/

set_option autoImplicit false

namespace ExiSchema

/-- The grammars with these numbers, up to the first number that stands for nothing. -/
def Draft.knownParts (d : Draft) : List GrammarId → List Grammar
  | [] => []
  | id :: ids =>
    match d.grammars[id]? with
    | some g => g :: knownParts d ids
    | none => []

/-- Whether the sizes of the parts of a choice or of an all group add up to more than 32 bits. -/
def Operation.overflows (op : Operation) (d : Draft) : Bool :=
  match op with
  | .choice ids | .all ids =>
    (Grammar.offsetSums 1 (d.knownParts ids)).any fun sum => Grammar.sizeLimit ≤ sum
  | _ => false

end ExiSchema
