import ExiSchema.Text.Label
import Std.Data.HashMap

/-!
Growing tables of rows that each carry a label. A row is known by its number, rows are only ever
added at the end, and looking up a text gives the first row that carries it. Small tables are
searched row by row; from `indexThreshold` rows on a table keeps an index from texts to rows.
-/

set_option autoImplicit false

namespace ExiSchema

/-- Rows of a string table. -/
class Row (α : Type) where
  label : α → Label

/-- The first row with a text, by looking at one row after the other. -/
def firstRow {α : Type} [Row α] (rows : Array α) (text : String) : Option Nat :=
  rows.findIdx? fun r => (Row.label r).text == text

/-- A table with an index holds the proof that the index gives the first row of every text. -/
structure Table (α : Type) [Row α] where
  rows : Array α
  index : Option (Std.HashMap String Nat)
  indexed : ∀ map ∈ index, ∀ text : String, map[text]? = firstRow rows text

namespace Table

variable {α : Type} [Row α]

/-- The number of rows from which on a table keeps an index. -/
def indexThreshold : Nat := 64

/-- Row numbers fit in 32 bits. -/
def rowLimit : Nat := 0x100000000

def empty : Table α := ⟨#[], none, by simp⟩

instance : Inhabited (Table α) := ⟨empty⟩

def size (t : Table α) : Nat := t.rows.size

def isEmpty (t : Table α) : Bool := t.rows.isEmpty

def get? (t : Table α) (i : Nat) : Option α := t.rows[i]?

def labelAt? (t : Table α) (i : Nat) : Option Label := (t.get? i).map Row.label

/-- The row texts in row order. -/
def texts (t : Table α) : List String := t.rows.toList.map fun r => (Row.label r).text

theorem firstRow_modify (rows : Array α) (i : Nat) (f : α → α)
    (keeps : ∀ r, Row.label (f r) = Row.label r) (text : String) :
    firstRow (rows.modify i f) text = firstRow rows text := by
  have labels : (rows.modify i f).map Row.label = rows.map Row.label := by
    apply Array.ext
    · simp
    · intro j _ _
      by_cases h : i = j <;> simp [Array.getElem_modify, h, keeps]
  have mapped (rs : Array α) :
      firstRow rs text = (rs.map Row.label).findIdx? fun l => l.text == text := by
    rw [Array.findIdx?_map]
    rfl
  rw [mapped, mapped, labels]

theorem firstRow_push (rows : Array α) (row : α) (text : String) :
    firstRow (rows.push row) text =
      (firstRow rows text).or (if (Row.label row).text == text then some rows.size else none) := by
  simp only [firstRow, Array.findIdx?_push]

/-- Changes row `i` in place, and not its label. -/
def modifyRow (t : Table α) (i : Nat) (f : α → α)
    (keeps : ∀ r, Row.label (f r) = Row.label r) : Table α :=
  match t with
  | ⟨rows, index, indexed⟩ =>
    ⟨rows.modify i f, index, fun map h text =>
      (indexed map h text).trans (firstRow_modify rows i f keeps text).symm⟩

/-- Enters each text with its row number unless the text is there already, so that the first row
of a text stays. -/
def indexFrom (index : Std.HashMap String Nat) (first : Nat) : List α → Std.HashMap String Nat
  | [] => index
  | r :: rs => indexFrom (index.insertIfNew (Row.label r).text first) (first + 1) rs

theorem getElem?_indexFrom (index : Std.HashMap String Nat) (first : Nat) (rs : List α)
    (text : String) :
    (indexFrom index first rs)[text]? =
      (index[text]?).or
        ((rs.findIdx? fun r => (Row.label r).text == text).map (· + first)) := by
  induction rs generalizing index first with
  | nil => simp [indexFrom]
  | cons r rs ih =>
    rw [indexFrom, ih, List.findIdx?_cons, Std.HashMap.getElem?_insertIfNew]
    by_cases here : (Row.label r).text = text
    · by_cases there : text ∈ index <;> simp [here, there]
    · simp only [beq_iff_eq, here, false_and, if_false, Option.map_map]
      congr 2
      funext i
      simp only [Function.comp]
      omega

/-- A table of the given rows. -/
def ofRows (rows : Array α) : Table α :=
  if rows.size < indexThreshold then ⟨rows, none, by simp⟩
  else
    ⟨rows, some (indexFrom ∅ 0 rows.toList), by
      intro map h text
      cases h
      rcases rows with ⟨rows⟩
      simp [getElem?_indexFrom, firstRow]⟩

/-- Adds a row at the end, whatever the number of rows. -/
def append (t : Table α) (row : α) : Table α :=
  match t with
  | ⟨rows, some index, indexed⟩ =>
    let number := rows.size
    ⟨rows.push row, some (index.insertIfNew (Row.label row).text number), by
      intro map h text
      cases h
      have found := indexed index rfl
      rw [firstRow_push, ← found text, Std.HashMap.getElem?_insertIfNew]
      by_cases here : (Row.label row).text = text
      · by_cases there : text ∈ index <;> simp [here, there, number]
      · simp [here]⟩
  | ⟨rows, none, _⟩ => ofRows (rows.push row)

/-- Adds a row at the end; its number is the size before. A full table refuses it. -/
def push (t : Table α) (row : α) : Except Fault (Table α) :=
  if t.size < rowLimit then .ok (t.append row) else .error .memoryAllocation

/-- The first row with this text. An absent label counts as the empty text. -/
def lookup (t : Table α) (text : String) : Option Nat :=
  match t.index with
  | some index => index[text]?
  | none => firstRow t.rows text

@[simp]
theorem rows_modifyRow (t : Table α) (i : Nat) (f : α → α)
    (keeps : ∀ r, Row.label (f r) = Row.label r) :
    (t.modifyRow i f keeps).rows = t.rows.modify i f := rfl

@[simp]
theorem rows_ofRows (rows : Array α) : (ofRows rows).rows = rows := by
  unfold ofRows
  split <;> rfl

@[simp]
theorem rows_append (t : Table α) (row : α) : (t.append row).rows = t.rows.push row := by
  rcases t with ⟨rows, _ | index, indexed⟩ <;> simp [append]

theorem lookup_eq_firstRow (t : Table α) (text : String) : t.lookup text = firstRow t.rows text := by
  unfold lookup
  split
  · next index h => exact t.indexed index h text
  · rfl

end Table

end ExiSchema
