import ExiSchema.Proofs.Text.Comparing
import ExiSchema.Proofs.Text.Cuts

/-!
Labels split at a byte. The bounds between which a label is cut lie within its bytes, and nothing but
the separator is lost.
-/

set_option autoImplicit false

namespace ExiSchema

open Text

namespace Label

variable (label : Label)

theorem bytes_slice (start stop : Nat) :
    bytes (label.slice start stop).text = (bytes label.text).extract start stop := by
  rw [bytes_eq (label.slice start stop).ascii, bytes_eq label.ascii, slice, String.toList_ofList,
    List.map_take, List.map_drop]

theorem split_eq (separator : UInt8) :
    label.split separator =
      (cuts (· == separator) (bytes label.text)).map fun cut => label.slice cut.1 cut.2 := by
  rw [split, bytes_eq label.ascii]

theorem map_bytes_split (separator : UInt8) :
    (label.split separator).map (fun token => bytes token.text) =
      (cuts (· == separator) (bytes label.text)).map fun cut =>
        (bytes label.text).extract cut.1 cut.2 := by
  rw [split_eq, List.map_map]
  exact List.map_congr_left fun cut _ => label.bytes_slice cut.1 cut.2

/-- Every place within the bytes of a label is one between two characters. -/
theorem isValid_of_le {i : Nat} (le : i ≤ (bytes label.text).length) :
    String.Pos.Raw.IsValid label.text ⟨i⟩ := by
  have size : (bytes (label.slice 0 i).text).length = i := by
    rw [bytes_slice, List.length_take, List.length_drop]
    omega
  exact String.Pos.Raw.isValid_iff_exists_take_toList.2 ⟨i, size.symm⟩

variable {label} {token : Label} {separator : UInt8}

theorem exists_stretch_of_mem_split (mem : token ∈ label.split separator) :
    ∃ start stop, Stretch (· == separator) (bytes label.text) start stop ∧
      bytes token.text = (bytes label.text).extract start stop := by
  rw [split_eq] at mem
  obtain ⟨cut, here, rfl⟩ := List.mem_map.1 mem
  exact ⟨cut.1, cut.2, mem_cuts_iff.1 here, label.bytes_slice cut.1 cut.2⟩

theorem present_of_mem_split (mem : token ∈ label.split separator) : token.isAbsent = false := by
  obtain ⟨start, stop, stretch, part⟩ := exists_stretch_of_mem_split mem
  by_contra absent
  have empty : token.text = "" := String.isEmpty_iff.1 (Bool.of_not_eq_false absent)
  rw [empty] at part
  exact stretch.extract_ne_nil part.symm

theorem separator_notMem_of_mem_split (mem : token ∈ label.split separator) :
    separator ∉ bytes token.text := by
  obtain ⟨start, stop, stretch, part⟩ := exists_stretch_of_mem_split mem
  rw [part]
  intro inside
  exact beq_eq_false_iff_ne.1 (stretch.separator_eq_false inside) rfl

theorem split_eq_nil_iff :
    label.split separator = [] ↔ ∀ b ∈ bytes label.text, b = separator := by
  rw [split_eq, List.map_eq_nil_iff, cuts_eq_nil_iff]
  exact forall₂_congr fun _ _ => beq_iff_eq

end Label

/-- A label is split into its maximal stretches of bytes without the separator, in their order. The
bounds of each lie within the label and between characters; no part is empty or has the separator in
it, and around the parts there are separators only, at least one between two of them. Nothing is left
of an absent label, and of one that has only separators. -/
theorem Label.split_stretches (label : Label) (separator : UInt8) :
    (label.split separator).map (fun token => bytes token.text) =
        (cuts (· == separator) (bytes label.text)).map (fun cut =>
          (bytes label.text).extract cut.1 cut.2) ∧
      (∀ start stop, (start, stop) ∈ cuts (· == separator) (bytes label.text) ↔
        Stretch (· == separator) (bytes label.text) start stop) ∧
      ((cuts (· == separator) (bytes label.text)).Pairwise fun cut later => cut.2 < later.1) ∧
      (∀ cut ∈ cuts (· == separator) (bytes label.text),
        cut.1 ≤ cut.2 ∧ cut.2 ≤ (bytes label.text).length ∧
          String.Pos.Raw.IsValid label.text ⟨cut.1⟩ ∧ String.Pos.Raw.IsValid label.text ⟨cut.2⟩) ∧
      (∀ token ∈ label.split separator, token.isAbsent = false ∧ separator ∉ bytes token.text) ∧
      Spaced (· == separator) ((label.split separator).map fun token => bytes token.text)
        (bytes label.text) ∧
      (label.split separator = [] ↔ ∀ b ∈ bytes label.text, b = separator) ∧
      Label.absent.split separator = [] := by
  refine ⟨label.map_bytes_split separator, fun _ _ => mem_cuts_iff, pairwise_cuts _ _, ?_, ?_, ?_,
    split_eq_nil_iff, rfl⟩
  · intro cut mem
    have stretch := mem_cuts_iff.1 mem
    have ordered := stretch.nonempty.le
    exact ⟨ordered, stretch.inside, label.isValid_of_le (ordered.trans stretch.inside),
      label.isValid_of_le stretch.inside⟩
  · exact fun token mem => ⟨present_of_mem_split mem, separator_notMem_of_mem_split mem⟩
  · rw [label.map_bytes_split]
    exact spaced_cuts _ _

/-- Two words with blanks around and between them. -/
def Label.padded : Label := ⟨"  ab  c ", by decide⟩

theorem Label.split_stretches_padded :
    (2, 4) ∈ cuts (· == 32) (bytes padded.text) ∧
      Stretch (· == 32) (bytes padded.text) 2 4 ∧ 4 ≤ (bytes padded.text).length ∧
      String.Pos.Raw.IsValid padded.text ⟨2⟩ ∧
      (padded.split 32).map Label.text = ["ab", "c"] ∧
      (∀ token ∈ padded.split 32, token.isAbsent = false ∧ 32 ∉ bytes token.text) ∧
      Spaced (· == 32) [[97, 98], [99]] (bytes padded.text) := by
  obtain ⟨_, stretches, _, bounds, tokens, spaced, _⟩ := split_stretches padded 32
  have mem : (2, 4) ∈ cuts (· == 32) (bytes padded.text) := by decide +kernel
  have parts : (padded.split 32).map (fun token => bytes token.text) = [[97, 98], [99]] := by
    decide +kernel
  rw [parts] at spaced
  exact ⟨mem, (stretches 2 4).1 mem, (bounds _ mem).2.1, (bounds _ mem).2.2.1, by decide +kernel,
    tokens, spaced⟩

end ExiSchema
