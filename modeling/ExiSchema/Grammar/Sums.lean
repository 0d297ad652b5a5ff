import ExiSchema.Grammar.Compose

/-!
The sums by which a choice and an all group of parts are numbered. First the sizes of the parts are
added up, which gives the places where the parts will start; a part is looked at by itself there. Then
each part is copied, and the numbers in its rules are moved up to its place; a part is not copied any
more when its place does not fit in 32 bits.
-/

set_option autoImplicit false

namespace ExiSchema

/-- The places of rules that stand in a rule: its own and those that its steps lead to. -/
def Rule.numbers (r : Rule) : List Nat := r.id :: r.productions.filterMap Production.target

namespace Grammar

/-- Whether the number of rules fits in 32 bits. -/
def isCountable (g : Grammar) : Bool := g.size < sizeLimit

/-- What the sizes add up to from `offset` on, after each part that can be counted. -/
def offsetSums (offset : Nat) : List Grammar → List Nat
  | [] => []
  | g :: gs => if g.isCountable then (offset + g.size) :: offsetSums (offset + g.size) gs else []

/-- The numbers moved up where the parts are copied from `offset` on. -/
def copySums (offset : Nat) : List Grammar → List Nat
  | [] => []
  | g :: gs =>
    if offset < sizeLimit then
      (g.placed offset).toList.flatMap Rule.numbers ++ copySums (offset + g.size) gs
    else []

/-- All sums, in the order in which they are formed. Parts are copied if all of them were counted. -/
def sums (parts : List Grammar) : List Nat :=
  offsetSums 1 parts ++ if parts.all isCountable then copySums 1 parts else []

end Grammar

end ExiSchema
