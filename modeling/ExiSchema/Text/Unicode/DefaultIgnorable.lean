import ExiSchema.Text.Unicode.Ranges

/-!
Code points that display as nothing where a font has no form for them (the
`Default_Ignorable_Code_Point` property of Unicode 17). Most are format characters or extend the
character before them; the fillers of the Hangul blocks are letters, and blank ones.
-/

set_option autoImplicit false

namespace ExiSchema.Text.Unicode

/-- First and last code point of each run, in rising order. -/
def defaultIgnorableRanges : Ranges := [
  (0xAD, 0xAD), (0x34F, 0x34F), (0x61C, 0x61C), (0x115F, 0x1160), (0x17B4, 0x17B5),
  (0x180B, 0x180F), (0x200B, 0x200F), (0x202A, 0x202E), (0x2060, 0x206F), (0x3164, 0x3164),
  (0xFE00, 0xFE0F), (0xFEFF, 0xFEFF), (0xFFA0, 0xFFA0), (0xFFF0, 0xFFF8), (0x1BCA0, 0x1BCA3),
  (0x1D173, 0x1D17A), (0xE0000, 0xE0FFF)]

def isDefaultIgnorable (c : Char) : Bool := defaultIgnorableRanges.contains c

theorem defaultIgnorableRanges_rising : defaultIgnorableRanges.risingFrom 0 = true := by
  decide +kernel

end ExiSchema.Text.Unicode
