/-!
The order of table rows. Bytes compare as signed numbers, a proper beginning of a text comes before
the text, and an absent text comes before every present one. On ASCII texts, which is all that a
table row holds, this is the order by code points.
-/

set_option autoImplicit false

namespace ExiSchema.Text

/-- The first place where two byte strings differ decides, its bytes read as signed numbers. -/
def compareBytes : List UInt8 → List UInt8 → Ordering
  | [], [] => .eq
  | [], _ :: _ => .lt
  | _ :: _, [] => .gt
  | a :: as, b :: bs => (compare a.toInt8.toInt b.toInt8.toInt).then (compareBytes as bs)

/-- An absent text is below every present one. -/
def compareOptional : Option (List UInt8) → Option (List UInt8) → Ordering
  | none, none => .eq
  | none, some _ => .lt
  | some _, none => .gt
  | some a, some b => compareBytes a b

theorem compareBytes_append (a : List UInt8) (x : UInt8) (b : List UInt8) :
    compareBytes a (a ++ x :: b) = .lt := by
  induction a with
  | nil => rfl
  | cons a as ih => simp [compareBytes, ih]

end ExiSchema.Text
