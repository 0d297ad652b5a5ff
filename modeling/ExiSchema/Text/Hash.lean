/-!
A string hash that is the same on every machine, equality of optional keys, and the packing of two
row numbers into one key.
-/

set_option autoImplicit false

namespace ExiSchema.Text.Hash

def seed : UInt32 := 5381

/-- One byte more: multiply by 33 and add, modulo 2^32. -/
def step (h : UInt32) (b : UInt8) : UInt32 := h * 33 + b.toUInt32

/-- Continues a hash over further bytes, so that a text may be hashed in pieces. -/
def extend (h : UInt32) (bytes : List UInt8) : UInt32 := bytes.foldl step h

def ofBytes (bytes : List UInt8) : UInt32 := extend seed bytes

/-- The hash of a text's UTF-8 form. -/
def ofText (text : String) : UInt32 := text.toUTF8.data.foldl step seed

theorem extend_append (h : UInt32) (a b : List UInt8) :
    extend h (a ++ b) = extend (extend h a) b := List.foldl_append

/-- An absent key equals only an absent one; the empty key is present. -/
def keyEqual : Option (List UInt8) → Option (List UInt8) → Bool
  | none, none => true
  | some a, some b => a == b
  | _, _ => false

theorem keyEqual_iff {a b : Option (List UInt8)} : keyEqual a b = true ↔ a = b := by
  cases a <;> cases b <;> simp [keyEqual]

/-- Two 32-bit numbers in one: `low` in the low half, `high` in the high half. -/
def pack (low high : UInt32) : UInt64 := low.toUInt64 ||| (high.toUInt64 <<< 32)

end ExiSchema.Text.Hash
