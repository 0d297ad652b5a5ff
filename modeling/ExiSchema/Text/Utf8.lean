/-!
Text from UTF-8 bytes. Where the bytes are no UTF-8, the fault says where the first bad character
starts and how many of its bytes could still have begun one, or that the bytes end inside it.
-/

set_option autoImplicit false

namespace ExiSchema.Text

/-- The first bad character starts at `start`. It is bad after `length` bytes, or cut off. -/
structure Utf8Fault where
  start : Nat
  length : Option Nat
deriving DecidableEq, Repr

namespace Utf8

/-- What the first byte of a character says: how many bytes follow, and the bounds of the next. -/
structure Lead where
  following : Nat
  low : Nat
  high : Nat
deriving DecidableEq, Repr

def lead? (b : UInt8) : Option Lead :=
  let n := b.toNat
  if n < 0x80 then some ⟨0, 0x80, 0xBF⟩
  else if 0xC2 ≤ n ∧ n ≤ 0xDF then some ⟨1, 0x80, 0xBF⟩
  else if n = 0xE0 then some ⟨2, 0xA0, 0xBF⟩
  else if n = 0xED then some ⟨2, 0x80, 0x9F⟩
  else if 0xE1 ≤ n ∧ n ≤ 0xEF then some ⟨2, 0x80, 0xBF⟩
  else if n = 0xF0 then some ⟨3, 0x90, 0xBF⟩
  else if 0xF1 ≤ n ∧ n ≤ 0xF3 then some ⟨3, 0x80, 0xBF⟩
  else if n = 0xF4 then some ⟨3, 0x80, 0x8F⟩
  else none

/-- The first fault of the bytes at `position`. `taken` bytes before it belong to a character that
`expected` is still open for. -/
def fault? (position taken : Nat) (expected : Lead) : List UInt8 → Option Utf8Fault
  | [] => if expected.following = 0 then none else some ⟨position - taken, none⟩
  | b :: bs =>
    match expected.following with
    | 0 =>
      match lead? b with
      | some lead => fault? (position + 1) 1 lead bs
      | none => some ⟨position, some 1⟩
    | n + 1 =>
      if expected.low ≤ b.toNat ∧ b.toNat ≤ expected.high then
        fault? (position + 1) (taken + 1) ⟨n, 0x80, 0xBF⟩ bs
      else some ⟨position - taken, some taken⟩

end Utf8

/-- The text of UTF-8 bytes. -/
def ofUtf8 (bytes : ByteArray) : Except Utf8Fault String :=
  match Utf8.fault? 0 0 ⟨0, 0, 0⟩ bytes.toList with
  | some fault => .error fault
  | none => .ok ((String.fromUTF8? bytes).getD "")

namespace Utf8Fault

def message (fault : Utf8Fault) : String :=
  match fault.length with
  | some length =>
    "invalid utf-8 sequence of " ++ toString length ++ " bytes from index " ++ toString fault.start
  | none => "incomplete utf-8 byte sequence from index " ++ toString fault.start

end Utf8Fault

end ExiSchema.Text
