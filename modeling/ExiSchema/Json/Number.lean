/-!
Number literals. A literal keeps its digits; what a reader asks of it is whether it is written as a
natural number of 64 bits, and whether it is too large for a double.
-/

set_option autoImplicit false

namespace ExiSchema

/-- A literal as written. `fraction` and `exponent` are absent where they were not written. -/
structure NumberLiteral where
  negative : Bool
  integer : List Nat
  fraction : Option (List Nat)
  exponent : Option Int
deriving DecidableEq, Repr, Inhabited

namespace NumberLiteral

def decimalValue (digits : List Nat) : Nat := digits.foldl (fun n d => n * 10 + d) 0

/-- Natural numbers of 64 bits lie below this. -/
def naturalLimit : Nat := 0x10000000000000000

/-- The value of a literal without sign, fraction and exponent, if it fits in 64 bits. -/
def natural? (literal : NumberLiteral) : Option Nat :=
  if literal.negative || literal.fraction.isSome || literal.exponent.isSome then none
  else
    let value := decimalValue literal.integer
    if value < naturalLimit then some value else none

/-- The nearest number with 53 significant bits, an exact half going to the even neighbour. -/
def nearestDouble (n : Nat) : Nat :=
  let shift := n.log2 - 52
  let kept := n >>> shift
  let rest := n - kept <<< shift
  let half := (1 <<< shift) / 2
  let up := shift != 0 && (rest > half || rest == half && kept % 2 == 1)
  (if up then kept + 1 else kept) <<< shift

/-- The value of as many leading digits as fit in 64 bits behind `value`, and the number of digits
left over. -/
def significand (value : Nat) : List Nat → Nat × Nat
  | [] => (value, 0)
  | d :: ds =>
    if value * 10 + d < naturalLimit then significand (value * 10 + d) ds
    else (value, ds.length + 1)

/-- The leading digits and the power of ten that scales them. -/
def scaled (literal : NumberLiteral) : Nat × Int :=
  let fraction := literal.fraction.getD []
  let written := literal.exponent.getD 0
  match significand 0 literal.integer with
  | (value, 0) =>
    let (value, unread) := significand value fraction
    (value, written - (fraction.length - unread : Nat))
  | (value, unread) => (value, written + unread)

/-- From here on a number rounds to no finite double: halfway from the largest double to the power
of two behind it. -/
def doubleLimit : Nat := 1 <<< 1024 - 1 <<< 970

/-- Whether the leading digits times the power of ten, each and then the product rounded to a
double, give no finite double. -/
def overflows (literal : NumberLiteral) : Bool :=
  let (value, exponent) := literal.scaled
  if value = 0 || exponent < 0 then false
  else if exponent > 308 then true
  else nearestDouble value * nearestDouble (Nat.pow 10 exponent.toNat) ≥ doubleLimit

end NumberLiteral

end ExiSchema
