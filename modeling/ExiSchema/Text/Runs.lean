/-!
The parts of a text between separators. A part is never empty: separators side by side, or at an
end of the text, count as one.
-/

set_option autoImplicit false

namespace ExiSchema.Text

/-- The runs of `rest` in which no element is a separator, in order; the first of them continues
the run that ends at its front, given backwards. -/
def runsFrom (separator : Char → Bool) (run : List Char) : List Char → List (List Char)
  | [] => if run.isEmpty then [] else [run.reverse]
  | c :: cs =>
    if separator c then
      if run.isEmpty then runsFrom separator [] cs
      else run.reverse :: runsFrom separator [] cs
    else runsFrom separator (c :: run) cs

/-- The maximal non-empty runs without a separator. -/
def runs (separator : Char → Bool) (cs : List Char) : List (List Char) := runsFrom separator [] cs

end ExiSchema.Text
