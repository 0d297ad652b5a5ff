import ExiSchema.Fault
import ExiSchema.Text.Cuts
import ExiSchema.Text.Order

/-!
Row texts of the string tables. They are ASCII, and the empty text stands for an absent one, so
there is exactly one form of "empty". The main rules here: `split` cuts at the separators, and
`compare` is the order of `Text.compareOptional`.
-/

set_option autoImplicit false

namespace ExiSchema

namespace Text

def isAscii (text : String) : Bool := text.toList.all fun c => c.toNat < 128

end Text

structure Label where
  text : String
  ascii : Text.isAscii text = true
deriving DecidableEq

namespace Label

def absent : Label := ⟨"", rfl⟩

instance : Inhabited Label := ⟨absent⟩

def ofText? (text : String) : Option Label :=
  if ascii : Text.isAscii text = true then some ⟨text, ascii⟩ else none

/-- Other characters than ASCII are refused. -/
def ofText (text : String) : Except Fault Label :=
  match ofText? text with
  | some label => .ok label
  | none => .error (.nonAsciiName text)

def isAbsent (label : Label) : Bool := label.text.isEmpty

def size (label : Label) : Nat := label.text.length

/-- An ASCII text has one byte for each character. -/
def bytes? (label : Label) : Option (List UInt8) :=
  if label.isAbsent then none else some (label.text.toList.map Char.toUInt8)

def compare (a b : Label) : Ordering := Text.compareOptional a.bytes? b.bytes?

/-- Whether `a` may stand before `b` in a sorted table. -/
def le (a b : Label) : Bool := (compare a b).isLE

def codeAt (label : Label) (index : Nat) : Except Fault Nat :=
  match label.text.toList[index]? with
  | some c => .ok c.toNat
  | none => .error (.outOfBounds index label.size)

/-- The part between two bounds. -/
def slice (label : Label) (start stop : Nat) : Label where
  text := String.ofList (label.text.toList.extract start stop)
  ascii := by
    simp only [Text.isAscii, String.toList_ofList, List.all_eq_true]
    intro c mem
    exact List.all_eq_true.1 label.ascii c (List.mem_of_mem_drop (List.mem_of_mem_take mem))

/-- The parts between the places of the separator byte, empty ones left out. -/
def split (label : Label) (separator : UInt8) : List Label :=
  (Text.cuts (· == separator) (label.text.toList.map Char.toUInt8)).map fun cut =>
    label.slice cut.1 cut.2

theorem ofText?_eq_some_iff {text : String} {label : Label} :
    ofText? text = some label ↔ label.text = text := by
  unfold ofText?
  split
  · next h => exact ⟨by rintro ⟨⟩; rfl, by rintro rfl; rfl⟩
  · next h => exact ⟨by simp, by rintro rfl; exact absurd label.ascii h⟩

theorem text_injective {a b : Label} (h : a.text = b.text) : a = b := by
  cases a; cases b
  cases h
  rfl

end Label

end ExiSchema
