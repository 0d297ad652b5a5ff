import Mathlib
import ExiSchema.Text.Label

/-!
The order of table rows is linear: labels compare as the lists of their character codes.
-/

set_option autoImplicit false

namespace ExiSchema

/-- A byte read as a signed number. -/
def signed (b : UInt8) : Int := b.toInt8.toInt

theorem Text.compareBytes_eq (as bs : List UInt8) :
    compareBytes as bs = compare (as.map signed) (bs.map signed) := by
  induction as generalizing bs with
  | nil => cases bs <;> rfl
  | cons a as ih =>
    cases bs with
    | nil => rfl
    | cons b bs =>
      rw [compareBytes, ih, List.map_cons, List.map_cons]
      exact List.compareLex_cons_cons.symm

theorem Text.lt_of_isAscii {text : String} (ascii : isAscii text = true) :
    ∀ c ∈ text.toList, c.toNat < 128 := by
  rw [isAscii, List.all_eq_true] at ascii
  exact fun c mem => of_decide_eq_true (ascii c mem)

theorem signed_toUInt8 {c : Char} (ascii : c.toNat < 128) : signed c.toUInt8 = c.toNat := by
  have byte : c.toUInt8 = UInt8.ofNat c.toNat := rfl
  rw [signed, byte, UInt8.toInt8_ofNat', Int8.toInt_ofNat_of_lt ascii]

namespace Label

/-- The codes of the characters. -/
def codes (label : Label) : List Int := label.text.toList.map fun c => signed c.toUInt8

theorem codes_injective {a b : Label} (same : a.codes = b.codes) : a = b := by
  have toNat (label : Label) : label.codes = label.text.toList.map fun c => (c.toNat : Int) :=
    List.map_congr_left fun c mem => signed_toUInt8 (Text.lt_of_isAscii label.ascii c mem)
  rw [toNat, toNat] at same
  have injective : Function.Injective fun c : Char => (c.toNat : Int) := by
    intro c d eq
    exact Char.toNat_inj.1 (Int.ofNat.inj eq)
  exact text_injective (String.toList_injective (injective.list_map same))

theorem codes_of_absent {label : Label} (absent : label.isAbsent = true) : label.codes = [] := by
  rw [codes, String.isEmpty_iff.1 absent]
  rfl

theorem codes_of_present {label : Label} (present : label.isAbsent = false) :
    ∃ code codes, label.codes = code :: codes := by
  refine List.exists_cons_of_ne_nil fun empty => ?_
  have text : label.text = "" := String.toList_injective (List.map_eq_nil_iff.1 empty)
  rw [isAbsent, text] at present
  cases present

theorem compare_eq (a b : Label) : compare a b = Ord.compare a.codes b.codes := by
  unfold compare bytes?
  cases absent : a.isAbsent <;> cases absent' : b.isAbsent
  · rw [if_neg Bool.false_ne_true, if_neg Bool.false_ne_true, Text.compareOptional,
      Text.compareBytes_eq, List.map_map, List.map_map]
    rfl
  · obtain ⟨code, rest, here⟩ := codes_of_present absent
    rw [codes_of_absent absent', here]
    rfl
  · obtain ⟨code, rest, here⟩ := codes_of_present absent'
    rw [codes_of_absent absent, here]
    rfl
  · rw [codes_of_absent absent, codes_of_absent absent']
    rfl

theorem le_iff {a b : Label} : a.le b = true ↔ (Ord.compare a.codes b.codes).isLE := by
  rw [le, compare_eq]

theorem le_trans {a b c : Label} (first : a.le b = true) (second : b.le c = true) :
    a.le c = true :=
  le_iff.2 (Std.TransCmp.isLE_trans (le_iff.1 first) (le_iff.1 second))

theorem le_total (a b : Label) : (a.le b || b.le a) = true := by
  rw [Bool.or_eq_true, le_iff, le_iff]
  by_cases first : (Ord.compare a.codes b.codes).isLE = true
  · exact .inl first
  · refine .inr ?_
    rw [Std.OrientedCmp.lt_of_not_isLE first]
    rfl

theorem le_antisymm {a b : Label} (first : a.le b = true) (second : b.le a = true) : a = b :=
  codes_injective (Std.LawfulEqCmp.eq_of_compare
    (Std.OrientedCmp.isLE_antisymm (le_iff.1 first) (le_iff.1 second)))

theorem pairwise_mergeSort {α : Type} (label : α → Label) (xs : List α) :
    (xs.mergeSort fun x y => (label x).le (label y)).Pairwise fun x y => (label x).le (label y) = true := by
  have trans (x y z : α) : (label x).le (label y) = true → (label y).le (label z) = true →
      (label x).le (label z) = true := le_trans
  have total (x y : α) : ((label x).le (label y) || (label y).le (label x)) = true := le_total _ _
  exact List.pairwise_mergeSort trans total xs

/-- Sorting keeps the order of what has one label. -/
theorem pair_sublist_mergeSort {α : Type} (label : α → Label) {a b : α} {xs : List α}
    (same : label a = label b) (sublist : [a, b].Sublist xs) :
    [a, b].Sublist (xs.mergeSort fun x y => (label x).le (label y)) := by
  have trans (x y z : α) : (label x).le (label y) = true → (label y).le (label z) = true →
      (label x).le (label z) = true := le_trans
  have total (x y : α) : ((label x).le (label y) || (label y).le (label x)) = true := le_total _ _
  have ordered : (label a).le (label b) = true := by
    rw [same, ← Bool.or_self ((label b).le (label b))]
    exact total b b
  exact List.pair_sublist_mergeSort trans total ordered sublist

end Label

end ExiSchema
