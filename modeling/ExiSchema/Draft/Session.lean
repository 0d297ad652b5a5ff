import ExiSchema.Draft.Operation

/-!
Sessions: operations one after the other, each on the draft that the one before has left, whatever
came of it.
-/

set_option autoImplicit false

namespace ExiSchema.Operation

/-- What an operation gives back, or why it fails. -/
def outcome (op : Operation) (d : Draft) : Except Fault Outcome :=
  match op.run d with
  | .ok o _ => .ok o
  | .error fault _ => .error fault

/-- The draft that operations leave behind, one after the other. -/
def afterAll (ops : List Operation) (d : Draft) : Draft :=
  ops.foldl (fun d op => op.after d) d

/-- What the operations of a session come to. -/
def outcomes : List Operation → Draft → List (Except Fault Outcome)
  | [], _ => []
  | op :: ops, d => op.outcome d :: outcomes ops (op.after d)

end ExiSchema.Operation
