/-!
Where a text is cut at its separators. A stretch between separators is given by its bounds, the
place of its first element and the place behind its last one; an empty stretch is left out.
-/

set_option autoImplicit false

namespace ExiSchema.Text

variable {α : Type}

/-- The places of the separators, in ascending order. -/
def places (separator : α → Bool) (cs : List α) : List Nat :=
  (cs.zipIdx.filter fun c => separator c.1).map Prod.snd

/-- The stretches from `start` up to `stop` between the given places. -/
def cutsFrom (start stop : Nat) : List Nat → List (Nat × Nat)
  | [] => if start < stop then [(start, stop)] else []
  | place :: rest =>
    if start < place then (start, place) :: cutsFrom (place + 1) stop rest
    else cutsFrom (place + 1) stop rest

/-- The stretches of a text between its separators. -/
def cuts (separator : α → Bool) (cs : List α) : List (Nat × Nat) :=
  cutsFrom 0 cs.length (places separator cs)

end ExiSchema.Text
