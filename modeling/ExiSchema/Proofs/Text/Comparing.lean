import ExiSchema.Name
import ExiSchema.Proofs.Text.Order

/-!
The orders of texts. Signed bytes, unsigned bytes and code points each give a linear order, an absent
text below all others and a text below its extensions. On ASCII the three are one order, so tables,
names and attribute uses are sorted alike.
-/

set_option autoImplicit false

namespace ExiSchema

theorem signed_injective : Function.Injective signed := by
  intro a b same
  have bits : a.toInt8.toBitVec = b.toInt8.toBitVec :=
    congrArg Int8.toBitVec (Int8.toInt_inj.1 same)
  rw [UInt8.toBitVec_toInt8, UInt8.toBitVec_toInt8] at bits
  exact UInt8.toBitVec_inj.1 bits

namespace Text

/-- The signed bytes of a text, if it is present. -/
def signedBytes (text : Option (List UInt8)) : Option (List Int) := text.map (List.map signed)

theorem signedBytes_injective : Function.Injective signedBytes :=
  Option.map_injective (List.map_injective_iff.2 signed_injective)

theorem compareOptional_eq : compareOptional = compareOn signedBytes := by
  funext a b
  cases a <;> cases b
  · rfl
  · rfl
  · rfl
  · exact compareBytes_eq _ _

instance : Std.TransCmp compareOptional :=
  compareOptional_eq ▸ inferInstanceAs (Std.TransCmp (compareOn signedBytes))

instance : Std.LawfulEqCmp compareOptional where
  compare_self := by
    intro a
    rw [compareOptional_eq]
    exact Std.ReflCmp.compare_self
  eq_of_compare := by
    intro a b same
    rw [compareOptional_eq] at same
    exact signedBytes_injective (Std.LawfulEqCmp.eq_of_compare same)

theorem compareOptional_of_isPrefix {a b : List UInt8} (start : a <+: b) (proper : a ≠ b) :
    compareOptional (some a) (some b) = .lt := by
  obtain ⟨more, rfl⟩ := start
  cases more with
  | nil => exact absurd (List.append_nil a).symm proper
  | cons x xs => exact compareBytes_append a x xs

/-- The bytes of a text. -/
def bytes (text : String) : List UInt8 := text.toUTF8.data.toList

/-- The first byte that differs decides, read without a sign. -/
def compareUnsigned (x y : String) : Ordering := compare (bytes x) (bytes y)

theorem utf8EncodeChar_of_lt {c : Char} (ascii : c.toNat < 128) :
    String.utf8EncodeChar c = [c.toUInt8] := by
  have small : c.val ≤ 127 := UInt32.le_iff_toNat_le.2 (Nat.le_of_lt_succ ascii)
  exact String.utf8EncodeChar_eq_singleton (Char.utf8Size_eq_one_iff.2 small)

theorem bytes_eq {text : String} (ascii : isAscii text = true) :
    bytes text = text.toList.map Char.toUInt8 := by
  have encoded : bytes text = text.toList.flatMap String.utf8EncodeChar := by
    rw [bytes, String.toUTF8, ← String.utf8Encode_toList, List.utf8Encode,
      List.toList_data_toByteArray]
  rw [encoded, List.map_eq_flatMap]
  exact List.flatMap_congr fun c mem => utf8EncodeChar_of_lt (lt_of_isAscii ascii c mem)

section

variable {α β γ : Type}

/-- Two comparisons come to the same if what is less in one is less in the other. -/
theorem compare_congr [Ord β] [LT β] [Std.LawfulLTOrd β] [Ord γ] [LT γ] [Std.LawfulLTOrd γ]
    {a b : β} {c d : γ} (less : a < b ↔ c < d) (greater : b < a ↔ d < c) :
    compare a b = compare c d := by
  have lt : compare a b = .lt ↔ compare c d = .lt := by
    rw [Std.LawfulLTCmp.eq_lt_iff_lt, Std.LawfulLTCmp.eq_lt_iff_lt, less]
  have gt : compare a b = .gt ↔ compare c d = .gt := by
    rw [Std.OrientedCmp.gt_iff_lt, Std.OrientedCmp.gt_iff_lt, Std.LawfulLTCmp.eq_lt_iff_lt,
      Std.LawfulLTCmp.eq_lt_iff_lt, greater]
  cases order : compare c d with
  | lt => exact lt.2 order
  | gt => exact gt.2 order
  | eq =>
    cases other : compare a b with
    | eq => rfl
    | lt => exact absurd (lt.1 other) (by simp [order])
    | gt => exact absurd (gt.1 other) (by simp [order])

/-- Lists compare by what decides between their elements. -/
theorem compare_map_congr [Ord β] [Ord γ] {f : α → β} {g : α → γ} {xs ys : List α}
    (same : ∀ x ∈ xs, ∀ y ∈ ys, compare (f x) (f y) = compare (g x) (g y)) :
    compare (xs.map f) (ys.map f) = compare (xs.map g) (ys.map g) := by
  induction xs generalizing ys with
  | nil => cases ys <;> rfl
  | cons x xs ih =>
    cases ys with
    | nil => rfl
    | cons y ys =>
      rw [List.map_cons, List.map_cons, List.map_cons, List.map_cons, List.compare_cons_cons,
        List.compare_cons_cons, same x List.mem_cons_self y List.mem_cons_self,
        ih fun x' mem y' mem' => same x' (.tail _ mem) y' (.tail _ mem')]

end

instance charsLawfulLTOrd : Std.LawfulLTOrd (List Char) where
  eq_lt_iff_lt {xs ys} := by
    induction xs generalizing ys with
    | nil => cases ys <;> simp
    | cons x xs ih =>
      cases ys with
      | nil => simp
      | cons y ys =>
        rw [List.compare_cons_cons, Ordering.then_eq_lt, ih, List.cons_lt_cons_iff,
          Std.LawfulLTCmp.eq_lt_iff_lt, Std.LawfulEqCmp.compare_eq_iff_eq]

/-- Texts compare by their code points. -/
theorem compare_toList (x y : String) : compare x y = compare x.toList y.toList :=
  compare_congr String.lt_iff String.lt_iff

theorem toUInt8_lt_iff {c c' : Char} (ascii : c.toNat < 128) (ascii' : c'.toNat < 128) :
    c.toUInt8 < c'.toUInt8 ↔ c.toNat < c'.toNat := by
  have byte {c : Char} (ascii : c.toNat < 128) : c.toUInt8.toNat = c.toNat :=
    Nat.mod_eq_of_lt (lt_trans ascii (by decide))
  rw [UInt8.lt_iff_toNat_lt, byte ascii, byte ascii']

/-- The sign does not matter. -/
theorem compare_signed {c c' : Char} (ascii : c.toNat < 128) (ascii' : c'.toNat < 128) :
    compare (signed c.toUInt8) (signed c'.toUInt8) = compare c.toUInt8 c'.toUInt8 := by
  rw [signed_toUInt8 ascii, signed_toUInt8 ascii']
  exact compare_congr (Int.ofNat_lt.trans (toUInt8_lt_iff ascii ascii').symm)
    (Int.ofNat_lt.trans (toUInt8_lt_iff ascii' ascii).symm)

theorem compare_char {c c' : Char} (ascii : c.toNat < 128) (ascii' : c'.toNat < 128) :
    compare c c' = compare c.toUInt8 c'.toUInt8 :=
  compare_congr (toUInt8_lt_iff ascii ascii').symm (toUInt8_lt_iff ascii' ascii).symm

section

variable {x y : String} (ascii : isAscii x = true) (ascii' : isAscii y = true)
include ascii ascii'

/-- On ASCII texts, code points and unsigned bytes decide alike. -/
theorem compare_eq_compareUnsigned : compare x y = compareUnsigned x y := by
  have chars := compare_map_congr (f := id) (g := Char.toUInt8) fun c mem c' mem' =>
    compare_char (lt_of_isAscii ascii c mem) (lt_of_isAscii ascii' c' mem')
  rwa [List.map_id, List.map_id, ← compare_toList, ← bytes_eq ascii, ← bytes_eq ascii'] at chars

/-- On ASCII texts, signed and unsigned bytes decide alike. -/
theorem label_compare : Label.compare ⟨x, ascii⟩ ⟨y, ascii'⟩ = compareUnsigned x y := by
  rw [Label.compare_eq, compareUnsigned, bytes_eq ascii, bytes_eq ascii']
  exact compare_map_congr fun c mem c' mem' =>
    compare_signed (lt_of_isAscii ascii c mem) (lt_of_isAscii ascii' c' mem')

theorem exists_label_compare : ∃ a b, Label.ofText x = .ok a ∧ Label.ofText y = .ok b ∧
    a.compare b = compareUnsigned x y := by
  refine ⟨⟨x, ascii⟩, ⟨y, ascii'⟩, ?_, ?_, label_compare ascii ascii'⟩
  · simp [Label.ofText, Label.ofText?, ascii]
  · simp [Label.ofText, Label.ofText?, ascii']

end

end Text

open Text

namespace QName

/-- Both texts of the name are ASCII. -/
structure Ascii (q : QName) : Prop where
  uri : isAscii q.uri = true
  localName : isAscii q.localName = true

variable {p q : QName} (ascii : p.Ascii) (ascii' : q.Ascii)
include ascii ascii'

theorem compare_unsigned : p.compare q =
    (compareUnsigned p.uri q.uri).then (compareUnsigned p.localName q.localName) := by
  rw [compare, compare_eq_compareUnsigned ascii.uri ascii'.uri,
    compare_eq_compareUnsigned ascii.localName ascii'.localName]

theorem compareLocal_unsigned : p.compareLocal q =
    (compareUnsigned p.localName q.localName).then (compareUnsigned p.uri q.uri) := by
  rw [compareLocal, compare_eq_compareUnsigned ascii.uri ascii'.uri,
    compare_eq_compareUnsigned ascii.localName ascii'.localName]

end QName

/-- The order of table rows is linear, whatever the bytes, with an absent text below all others and a
text below its extensions. On ASCII texts it is that of the unsigned bytes, by which names are
compared too, both namespace first and, where attribute uses are sorted, local name first. -/
theorem Text.compareOptional_linear_unsigned :
    (∀ a, compareOptional a a = .eq) ∧
    (∀ a b, compareOptional b a = (compareOptional a b).swap) ∧
    (∀ a b c, (compareOptional a b).isLE = true → (compareOptional b c).isLE = true →
      (compareOptional a c).isLE = true) ∧
    (∀ a b, compareOptional a b = .eq ↔ a = b) ∧
    (∀ a, compareOptional none (some a) = .lt) ∧
    (∀ a b, a <+: b → a ≠ b → compareOptional (some a) (some b) = .lt) ∧
    (∀ x y, isAscii x = true → isAscii y = true → ∃ a b, Label.ofText x = .ok a ∧
      Label.ofText y = .ok b ∧ a.compare b = compareUnsigned x y) ∧
    ∀ p q : QName, p.Ascii → q.Ascii →
      p.compare q = (compareUnsigned p.uri q.uri).then (compareUnsigned p.localName q.localName) ∧
      p.compareLocal q =
        (compareUnsigned p.localName q.localName).then (compareUnsigned p.uri q.uri) :=
  ⟨fun _ => Std.ReflCmp.compare_self, fun _ _ => Std.OrientedCmp.eq_swap,
    fun _ _ _ => Std.TransCmp.isLE_trans, fun _ _ => Std.LawfulEqCmp.compare_eq_iff_eq,
    fun _ => rfl, fun _ _ => compareOptional_of_isPrefix, fun _ _ => exists_label_compare,
    fun _ _ ascii ascii' =>
      ⟨QName.compare_unsigned ascii ascii', QName.compareLocal_unsigned ascii ascii'⟩⟩

/-- A byte with its highest bit set stands between an absent text and the letters. -/
theorem Text.compareOptional_linear_unsigned_high :
    (compareOptional none (some [0x80])).isLE = true ∧
    (compareOptional (some [0x80]) (some [0x61])).isLE = true ∧
    (compareOptional none (some [0x61])).isLE = true ∧
    compareOptional (some [0x61]) (some [0x61, 0x80]) = .lt ∧
    (∃ a b, Label.ofText "B" = .ok a ∧ Label.ofText "a" = .ok b ∧
      a.compare b = compareUnsigned "B" "a") ∧
    QName.compareLocal ⟨"urn:b", "B"⟩ ⟨"urn:a", "a"⟩ =
      (compareUnsigned "B" "a").then (compareUnsigned "urn:b" "urn:a") := by
  obtain ⟨_, _, trans, _, _, extends_, labels, names⟩ := compareOptional_linear_unsigned
  have low : (compareOptional none (some [0x80])).isLE = true := by decide
  have high : (compareOptional (some [0x80]) (some [0x61])).isLE = true := by decide
  refine ⟨low, high, trans _ _ _ low high, extends_ _ _ (by decide) (by decide),
    labels "B" "a" (by decide) (by decide), ?_⟩
  exact (names ⟨"urn:b", "B"⟩ ⟨"urn:a", "a"⟩ ⟨by decide, by decide⟩ ⟨by decide, by decide⟩).2

end ExiSchema
