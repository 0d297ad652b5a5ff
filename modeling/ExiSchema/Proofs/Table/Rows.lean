import ExiSchema.Table.Basic

/-!
Looking up a text and reading a row: how the one answers the other, and what appending a row or
changing one in place does to both.
-/

set_option autoImplicit false

namespace ExiSchema.Table

variable {α : Type} [Row α] {t : Table α} {i : Nat} {text : String}

theorem lookup_eq_some_iff :
    t.lookup text = some i ↔ (∃ row, t.get? i = some row ∧ (Row.label row).text = text) ∧
      ∀ j < i, ∀ row, t.get? j = some row → (Row.label row).text ≠ text := by
  rw [lookup_eq_firstRow, firstRow, Array.findIdx?_eq_some_iff_getElem]
  simp only [get?, Array.getElem?_eq_some_iff, beq_iff_eq]
  constructor
  · rintro ⟨lt, here, before⟩
    refine ⟨⟨_, ⟨lt, rfl⟩, here⟩, ?_⟩
    rintro j lt' _ ⟨_, rfl⟩
    exact before j lt'
  · rintro ⟨⟨_, ⟨lt, rfl⟩, here⟩, before⟩
    exact ⟨lt, here, fun j lt' => before j lt' _ ⟨_, rfl⟩⟩

theorem lookup_eq_none_iff :
    t.lookup text = none ↔ ∀ i row, t.get? i = some row → (Row.label row).text ≠ text := by
  rw [lookup_eq_firstRow, firstRow, Array.findIdx?_eq_none_iff]
  simp only [get?, Array.mem_iff_getElem?, forall_exists_index, beq_eq_false_iff_ne]
  exact forall_comm

theorem lookup_isSome_iff :
    (t.lookup text).isSome ↔ ∃ i row, t.get? i = some row ∧ (Row.label row).text = text := by
  constructor
  · intro found
    obtain ⟨i, at_⟩ := Option.isSome_iff_exists.1 found
    exact ⟨i, (lookup_eq_some_iff.1 at_).1⟩
  · rintro ⟨i, row, here, label⟩
    rw [← Option.ne_none_iff_isSome]
    exact fun absent => lookup_eq_none_iff.1 absent i row here label

theorem text_of_lookup (found : t.lookup text = some i) :
    ∃ row, t.get? i = some row ∧ (Row.label row).text = text :=
  (lookup_eq_some_iff.1 found).1

theorem lt_size_of_get? {row : α} (here : t.get? i = some row) : i < t.size :=
  (Array.getElem?_eq_some_iff.1 here).1

theorem get?_isSome_iff : (t.get? i).isSome ↔ i < t.size := by
  simp [get?, size]

theorem lt_size_of_lookup (found : t.lookup text = some i) : i < t.size := by
  obtain ⟨row, here, _⟩ := text_of_lookup found
  exact lt_size_of_get? here

@[simp]
theorem size_append (row : α) : (t.append row).size = t.size + 1 := by simp [size]

@[simp]
theorem size_modifyRow (f : α → α) (keeps : ∀ r, Row.label (f r) = Row.label r) :
    (t.modifyRow i f keeps).size = t.size := by
  simp [size]

theorem get?_append (row : α) :
    (t.append row).get? i = if i = t.size then some row else t.get? i := by
  rw [get?, rows_append, Array.getElem?_push]
  rfl

theorem get?_append_of_some {row old : α} (here : t.get? i = some old) :
    (t.append row).get? i = some old := by
  rw [get?_append, if_neg (Nat.ne_of_lt (lt_size_of_get? here)), here]

theorem get?_modifyRow {j : Nat} (f : α → α) (keeps : ∀ r, Row.label (f r) = Row.label r) :
    (t.modifyRow i f keeps).get? j = if i = j then (t.get? j).map f else t.get? j := by
  rw [get?, rows_modifyRow, Array.getElem?_modify]
  rfl

theorem lookup_append (row : α) :
    (t.append row).lookup text =
      (t.lookup text).or (if (Row.label row).text = text then some t.size else none) := by
  simp only [lookup_eq_firstRow, rows_append, firstRow_push, beq_iff_eq, size]

@[simp]
theorem lookup_modifyRow (f : α → α) (keeps : ∀ r, Row.label (f r) = Row.label r) :
    (t.modifyRow i f keeps).lookup text = t.lookup text := by
  simp only [lookup_eq_firstRow, rows_modifyRow, firstRow_modify _ _ _ keeps]

@[simp]
theorem get?_empty : (empty : Table α).get? i = none := rfl

@[simp]
theorem lookup_empty : (empty : Table α).lookup text = none :=
  lookup_eq_none_iff.2 (by simp)

@[simp]
theorem size_empty : (empty : Table α).size = 0 := rfl

theorem modifyRow_modifyRow {f g h : α → α} {keepsF : ∀ r, Row.label (f r) = Row.label r}
    {keepsG : ∀ r, Row.label (g r) = Row.label r} {keepsH : ∀ r, Row.label (h r) = Row.label r}
    (same : ∀ r, g (f r) = h r) :
    (t.modifyRow i f keepsF).modifyRow i g keepsG = t.modifyRow i h keepsH := by
  obtain ⟨rows, index, indexed⟩ := t
  have rows_eq : (rows.modify i f).modify i g = rows.modify i h := by
    apply Array.ext
    · simp
    · intro j _ _
      by_cases h : i = j <;> simp [Array.getElem_modify, h, same]
  simp only [modifyRow, rows_eq]

theorem modifyRow_eq_self {f : α → α} {keeps : ∀ r, Row.label (f r) = Row.label r}
    (same : ∀ r, t.get? i = some r → f r = r) : t.modifyRow i f keeps = t := by
  obtain ⟨rows, index, indexed⟩ := t
  have rows_eq : rows.modify i f = rows := by
    apply Array.ext
    · simp
    · intro j _ lt
      by_cases h : i = j
      · subst h
        simp [Array.getElem_modify, same _ (Array.getElem?_eq_getElem lt)]
      · simp [Array.getElem_modify, h]
  simp only [modifyRow, rows_eq]

/-- The first row of a text stays the first when rows are added and labels are kept. -/
theorem lookup_of_extends {u : Table α}
    (kept : ∀ i row, t.get? i = some row → ∃ row', u.get? i = some row' ∧
      Row.label row' = Row.label row)
    (found : t.lookup text = some i) : u.lookup text = some i := by
  obtain ⟨⟨row, here, label⟩, before⟩ := lookup_eq_some_iff.1 found
  obtain ⟨row', there, same⟩ := kept i row here
  refine lookup_eq_some_iff.2 ⟨⟨row', there, same ▸ label⟩, ?_⟩
  intro j lt other there'
  have inside : j < t.size := Nat.lt_trans lt (lt_size_of_get? here)
  obtain ⟨old, was⟩ := Option.isSome_iff_exists.1 (get?_isSome_iff.2 inside)
  obtain ⟨new, is, same'⟩ := kept j old was
  cases is.symm.trans there'
  exact same' ▸ before j lt old was

end ExiSchema.Table
