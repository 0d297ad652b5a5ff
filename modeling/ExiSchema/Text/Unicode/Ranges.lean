/-!
A set of code points as a list of runs, each given by its first and its last code point.
-/

set_option autoImplicit false

namespace ExiSchema.Text.Unicode

abbrev Ranges := List (Nat × Nat)

namespace Ranges

def contains (ranges : Ranges) (c : Char) : Bool :=
  ranges.any fun run => run.1 ≤ c.toNat && c.toNat ≤ run.2

/-- Each run is in order, and lies above `low` and above the run before it. -/
def risingFrom (low : Nat) : Ranges → Bool
  | [] => true
  | run :: rest => low ≤ run.1 && run.1 ≤ run.2 && risingFrom (run.2 + 1) rest

theorem contains_of_lt {low : Nat} {ranges : Ranges} {c : Char}
    (h : risingFrom low ranges = true) (hc : c.toNat < low) : contains ranges c = false := by
  induction ranges generalizing low with
  | nil => rfl
  | cons run rest ih =>
    simp only [risingFrom, Bool.and_eq_true, decide_eq_true_eq] at h
    have rest_free := ih h.2 (by omega)
    simp only [contains, List.any_cons, Bool.or_eq_false_iff] at rest_free ⊢
    exact ⟨by simp; omega, rest_free⟩

end Ranges

end ExiSchema.Text.Unicode
