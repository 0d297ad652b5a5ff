import ExiSchema.Text.Unicode.DefaultIgnorable
import ExiSchema.Text.Unicode.GraphemeExtend
import ExiSchema.Text.Unicode.Unprintable

/-!
Quoted text, the form in which messages and table listings show names: between double quotes, with
an escape for every character that a reader could not see or could not tell apart.
-/

set_option autoImplicit false

namespace ExiSchema.Text

/-- Lower-case hexadecimal digits of a number, most significant first. -/
def hexDigits (n : Nat) : List Char := Nat.toDigits 16 n

/-- The halfwidth sound marks extend the letter before them, and yet stand beside it in a column of
their own. -/
def isHalfwidthSoundMark (c : Char) : Bool := c == '\uff9e' || c == '\uff9f'

/-- Whether a character cannot be read on its own: it merges with the one before it, or it has no
visible form. -/
def isHidden (c : Char) : Bool :=
  (Unicode.isGraphemeExtend c && !isHalfwidthSoundMark c) || Unicode.isDefaultIgnorable c
    || Unicode.isUnprintable c

/-- One character inside double quotes. A hidden one is written by its number. -/
def quotedChar (c : Char) : List Char :=
  match c with
  | '\x00' => ['\\', '0']
  | '\t' => ['\\', 't']
  | '\r' => ['\\', 'r']
  | '\n' => ['\\', 'n']
  | '"' => ['\\', '"']
  | '\\' => ['\\', '\\']
  | c =>
    if isHidden c then ['\\', 'u', '{'] ++ hexDigits c.toNat ++ ['}'] else [c]

def quoted (text : String) : String :=
  String.ofList ('"' :: text.toList.flatMap quotedChar ++ ['"'])

end ExiSchema.Text
