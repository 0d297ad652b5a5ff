import ExiSchema.Proofs.Table.Rows
import ExiSchema.Table.Uris

/-!
Looking up in a table that is built row by row. From one size on a table answers from its index, which
is made at that size and kept up with every row after it. The answer is the first of the given rows that
carries the text, whichever way it is found.
-/

set_option autoImplicit false

namespace ExiSchema

/-- The place of the first row with the text. An absent label carries the empty text. -/
def firstOf {α : Type} [Row α] (rows : List α) (text : String) : Option Nat :=
  rows.findIdx? fun row => (Row.label row).text == text

theorem firstRow_eq_firstOf {α : Type} [Row α] (rows : Array α) (text : String) :
    firstRow rows text = firstOf rows.toList text := by
  rcases rows with ⟨rows⟩
  simp [firstRow, firstOf]

theorem firstOf_append {α : Type} [Row α] (rows : List α) (row : α) (text : String) :
    firstOf (rows ++ [row]) text =
      (firstOf rows text).or (if (Row.label row).text = text then some rows.length else none) := by
  simp only [firstOf, List.findIdx?_append, List.findIdx?_singleton, beq_iff_eq]
  congr 1
  split <;> simp

theorem firstOf_empty {α : Type} [Row α] (rows : List α) :
    firstOf rows "" = rows.findIdx? fun row => (Row.label row).isAbsent := by
  refine congrArg (List.findIdx? · rows) (funext fun row => ?_)
  rw [Label.isAbsent, Bool.eq_iff_iff, beq_iff_eq, String.isEmpty_iff]

namespace Table

variable {α : Type} [Row α] {t u : Table α} {rows : List α} {row : α}

/-- The tables that come of rows which are there already or are added one by one, with these rows in
their order. A row may be changed in place if it keeps its label. -/
inductive Built : Table α → List α → Prop where
  | empty : Built empty []
  | ofRows (rows : List α) : Built (ofRows rows.toArray) rows
  | push {t u : Table α} {rows : List α} {row : α} (built : Built t rows)
      (run : t.push row = .ok u) : Built u (rows ++ [row])
  | modifyRow {t : Table α} {rows : List α} (built : Built t rows) (i : Nat) (f : α → α)
      (keeps : ∀ r, Row.label (f r) = Row.label r) : Built (t.modifyRow i f keeps) (rows.modify i f)

theorem push_eq_ok_iff : t.push row = .ok u ↔ t.size < rowLimit ∧ u = t.append row := by
  unfold push
  split
  · next room => simp [room, eq_comm]
  · next full => simp [full]

theorem isSome_index_ofRows (rows : Array α) :
    (ofRows rows).index.isSome ↔ indexThreshold ≤ rows.size := by
  unfold ofRows
  split
  · next small => simpa using small
  · next large => simpa using large

/-- A table without an index makes one when it reaches the size for it; an index is kept. -/
theorem isSome_index_append (indexed : t.index.isSome ↔ indexThreshold ≤ t.size) :
    (t.append row).index.isSome ↔ indexThreshold ≤ (t.append row).size := by
  obtain ⟨rows, _ | map, sound⟩ := t
  · exact (isSome_index_ofRows _).trans (by rw [append, size, rows_ofRows])
  · have large : indexThreshold ≤ rows.size := indexed.1 rfl
    rw [size_append]
    exact ⟨fun _ => Nat.le_succ_of_le large, fun _ => rfl⟩

namespace Built

/-- The rows of the table are the given ones, and it has an index from the threshold on. -/
theorem rows_index (built : t.Built rows) :
    t.rows.toList = rows ∧ (t.index.isSome ↔ indexThreshold ≤ t.size) := by
  induction built with
  | empty => exact ⟨rfl, by simp [Table.empty, indexThreshold, size]⟩
  | ofRows rows =>
    refine ⟨by rw [rows_ofRows], ?_⟩
    rw [isSome_index_ofRows, size, rows_ofRows]
  | @push t u rows row _ run ih =>
    obtain ⟨_, rfl⟩ := push_eq_ok_iff.1 run
    refine ⟨?_, isSome_index_append ih.2⟩
    rw [rows_append, Array.toList_push, ih.1]
  | @modifyRow t rows _ i f keeps ih =>
    refine ⟨?_, ?_⟩
    · rw [rows_modifyRow, Array.toList_modify, ih.1]
    · rw [size_modifyRow, ← ih.2]
      rfl

theorem lookup_eq (built : t.Built rows) (text : String) : t.lookup text = firstOf rows text := by
  rw [lookup_eq_firstRow, firstRow_eq_firstOf, built.rows_index.1]

/-- A text is found at the first of the rows that carries it, and not found if none does, whether the
table has got its index by then or not; the empty text stands for an absent one. A row that is added is
found only by a text that no row before it carries, also where it is the one with which the index is
made. -/
theorem finds_first (built : t.Built rows) :
    (∀ text, t.lookup text = firstOf rows text) ∧
      (t.lookup "" = rows.findIdx? fun row => (Row.label row).isAbsent) ∧
      (t.index.isSome ↔ indexThreshold ≤ rows.length) ∧
      ∀ row u, t.push row = .ok u → ∀ text, u.lookup text =
        (t.lookup text).or (if (Row.label row).text = text then some rows.length else none) := by
  obtain ⟨same, indexed⟩ := built.rows_index
  refine ⟨built.lookup_eq, ?_, ?_, fun row u run text => ?_⟩
  · rw [built.lookup_eq, firstOf_empty]
  · rwa [size, ← Array.length_toList, same] at indexed
  · rw [(built.push run).lookup_eq, built.lookup_eq, firstOf_append]

end Built

section

def absentPrefix : PrefixRow := ⟨.absent⟩

def otherPrefix : PrefixRow := ⟨⟨"b", by decide⟩⟩

/-- One row more, and the table has an index; a second absent row after that changes no answer. -/
theorem finds_first_at_threshold : ∃ t u v : PrefixTable,
    t.Built (List.replicate 63 absentPrefix) ∧ t.index.isSome = false ∧
      t.push otherPrefix = .ok u ∧ u.index.isSome = true ∧ u.push absentPrefix = .ok v ∧
      v.lookup "" = some 0 ∧ v.lookup "b" = some 63 ∧ v.lookup "c" = none := by
  have built : Built (.ofRows (List.replicate 63 absentPrefix).toArray) _ := .ofRows _
  obtain ⟨u, run⟩ : ∃ u, push (ofRows (List.replicate 63 absentPrefix).toArray) otherPrefix = .ok u :=
    ⟨_, push_eq_ok_iff.2 ⟨by decide +kernel, rfl⟩⟩
  have built' := built.push run
  have size : u.size = 64 := by
    rw [Table.size, ← Array.length_toList, built'.rows_index.1]
    rfl
  obtain ⟨v, run'⟩ : ∃ v, u.push absentPrefix = .ok v :=
    ⟨_, push_eq_ok_iff.2 ⟨by rw [size]; decide, rfl⟩⟩
  obtain ⟨first, _, _⟩ := (built'.push run').finds_first
  refine ⟨_, u, v, built, ?_, run, built'.finds_first.2.2.1.2 (by simp [indexThreshold]), run', ?_⟩
  · exact Bool.eq_false_iff.2 (mt built.finds_first.2.2.1.1 (by simp [indexThreshold]))
  · rw [first, first, first]
    decide +kernel

end

end Table

end ExiSchema
