import ExiSchema.Sorted.Tables
import ExiSchema.Proofs.Table.Growth

/-!
Sorting moves each row to one place, and the inverse of the order says to which. So the canonical
tables have a row for every old row and every old local name, with the same text.
-/

set_option autoImplicit false

namespace ExiSchema

theorem sortedRows_perm {α : Type} [Row α] (rows : List α) (fixed : Nat) :
    (sortedRows rows fixed).Perm rows.zipIdx := by
  have parts := (List.mergeSort_perm (rows.zipIdx.drop fixed)
    fun a b => (Row.label a.1).le (Row.label b.1)).append_left (rows.zipIdx.take fixed)
  rwa [List.take_append_drop] at parts

theorem sortedRows_order_perm {α : Type} [Row α] (rows : List α) (fixed : Nat) :
    ((sortedRows rows fixed).map Prod.snd).Perm (List.range rows.length) := by
  have order := (sortedRows_perm rows fixed).map Prod.snd
  rwa [List.zipIdx_map_snd, ← List.range_eq_range'] at order

section

variable {entries : List (Nat × Nat)} {places : Array Nat} {old new : Nat}

theorem getElem?_setPlaces_of_notMem (absent : old ∉ entries.map Prod.fst) :
    (entries.foldl (fun places (old, new) => places.setIfInBounds old new) places)[old]? =
      places[old]? := by
  induction entries generalizing places with
  | nil => rfl
  | cons entry entries ih =>
    rw [List.map_cons, List.mem_cons, not_or] at absent
    rw [List.foldl_cons, ih absent.2, Array.getElem?_setIfInBounds_ne (Ne.symm absent.1)]

theorem getElem?_setPlaces (distinct : (entries.map Prod.fst).Nodup)
    (mem : (old, new) ∈ entries) (lt : old < places.size) :
    (entries.foldl (fun places (old, new) => places.setIfInBounds old new) places)[old]? =
      some new := by
  induction entries generalizing places with
  | nil => cases mem
  | cons entry entries ih =>
    rw [List.map_cons, List.nodup_cons] at distinct
    rw [List.foldl_cons]
    rcases List.mem_cons.1 mem with rfl | later
    · rw [getElem?_setPlaces_of_notMem distinct.1, Array.getElem?_setIfInBounds_self_of_lt lt]
    · exact ih distinct.2 later (by rwa [Array.size_setIfInBounds])

end

theorem getElem?_inverse {order : List Nat} (perm : order.Perm (List.range order.length))
    {old new : Nat} (here : order[new]? = some old) : (inverse order)[old]? = some new := by
  have lt : old < order.length := List.mem_range.1 (perm.mem_iff.1 (List.mem_of_getElem? here))
  refine getElem?_setPlaces ?_ (List.mk_mem_zipIdx_iff_getElem?.2 here)
    (by rwa [Array.size_replicate])
  rw [List.zipIdx_map_fst]
  exact perm.nodup_iff.2 List.nodup_range

/-- Every old row stands where the inverse of the order says. -/
theorem sortedRows_place {α : Type} [Row α] {rows : List α} {fixed old : Nat} {row : α}
    (here : rows[old]? = some row) :
    ∃ new : Nat, (inverse ((sortedRows rows fixed).map Prod.snd))[old]? = some new ∧
      ((sortedRows rows fixed).map Prod.fst)[new]? = some row := by
  have perm := sortedRows_order_perm rows fixed
  have mem : (row, old) ∈ sortedRows rows fixed :=
    (sortedRows_perm rows fixed).mem_iff.2 (List.mk_mem_zipIdx_iff_getElem?.2 here)
  obtain ⟨new, entry⟩ := List.mem_iff_getElem?.1 mem
  have length : rows.length = ((sortedRows rows fixed).map Prod.snd).length := by
    rw [perm.length_eq, List.length_range]
  refine ⟨new, getElem?_inverse (length ▸ perm) ?_, ?_⟩
  · rw [List.getElem?_map, entry, Option.map_some]
  · rw [List.getElem?_map, entry, Option.map_some]

namespace UriTable

variable {t : UriTable} {row : UriRow} {u : Nat}

theorem label_sortedRow (row : UriRow) (old : Nat) :
    Row.label (sortedRow row old).1 = Row.label row := by
  unfold sortedRow
  split <;> rfl

theorem sortedRow_of_names {names : NameTable} (has : row.names = some names) (old : Nat) :
    sortedRow row old =
      ({ row with names := some (sortedNames names (reservedNames[old]?.getD 0)).1 },
        some (sortedNames names (reservedNames[old]?.getD 0)).2) := by
  unfold sortedRow
  rw [has]

theorem sortedNames_place {names : NameTable} {fixed old : Nat} {name : NameRow}
    (here : names.get? old = some name) :
    ∃ new : Nat, (sortedNames names fixed).2[old]? = some new ∧
      (sortedNames names fixed).1.get? new = some name := by
  rw [Table.get?, ← Array.getElem?_toList] at here
  obtain ⟨new, place, entry⟩ := @sortedRows_place _ _ _ fixed _ _ here
  refine ⟨new, place, ?_⟩
  simpa only [sortedNames, Table.get?, Table.rows_ofRows, List.getElem?_toArray] using entry

/-- The rows of a table, each with its local names sorted. -/
theorem sortedRow_at (here : t.get? u = some row) :
    ((t.rows.toList.zipIdx.map fun e => sortedRow e.1 e.2)[u]?) = some (sortedRow row u) := by
  rw [Table.get?, ← Array.getElem?_toList] at here
  rw [List.getElem?_map, List.getElem?_zipIdx, here, Nat.zero_add]
  rfl

theorem sorted_place (here : t.get? u = some row) :
    ∃ v, t.sorted.mapping.uri u = .ok v ∧ t.sorted.uris.get? v = some (sortedRow row u).1 := by
  have sortedHere : ((t.rows.toList.zipIdx.map fun e => sortedRow e.1 e.2).map Prod.fst)[u]? =
      some (sortedRow row u).1 := by
    rw [List.getElem?_map, sortedRow_at here, Option.map_some]
  obtain ⟨v, place, entry⟩ := @sortedRows_place _ _ _ reservedUris _ _ sortedHere
  refine ⟨v, ?_, ?_⟩
  · simp only [sorted, Relocation.uri, place]
  · simpa only [sorted, Table.get?, Table.rows_ofRows, List.getElem?_toArray] using entry

theorem sorted_names (here : t.get? u = some row) :
    t.sorted.mapping.names[u]? = some (sortedRow row u).2 := by
  simp only [sorted, List.getElem?_toArray]
  rw [List.getElem?_map, sortedRow_at here, Option.map_some]

/-- A URI row keeps its text. -/
theorem labelAt?_sorted {label : Label} (here : t.labelAt? u = some label) :
    ∃ v, t.sorted.mapping.uri u = .ok v ∧ t.sorted.uris.labelAt? v = some label := by
  obtain ⟨row, there, rfl⟩ := Option.map_eq_some_iff.1 here
  obtain ⟨v, place, entry⟩ := sorted_place there
  refine ⟨v, place, ?_⟩
  rw [Table.labelAt?, entry, Option.map_some, label_sortedRow]

/-- A name keeps both its texts. -/
theorem resolve?_sorted {ref : NameRef} {q : QName} (here : t.resolve? ref = some q) :
    ∃ ref', t.sorted.mapping.ref ref = .ok ref' ∧ t.sorted.uris.resolve? ref' = some q := by
  obtain ⟨uri, name, label, label', rfl⟩ := resolve?_eq_some_iff.1 here
  obtain ⟨row, there, rfl⟩ := Option.map_eq_some_iff.1 label
  obtain ⟨names, has, inner⟩ := Option.bind_eq_some_iff.1 label'
  obtain ⟨nameRow, local_, rfl⟩ := Option.map_eq_some_iff.1 inner
  have has' : row.names = some names := by
    rwa [names?, there, Option.bind_some] at has
  obtain ⟨v, place, entry⟩ := sorted_place there
  have sortedHere := sortedRow_of_names has' ref.uri
  obtain ⟨n, place', entry'⟩ :=
    @sortedNames_place _ (reservedNames[ref.uri]?.getD 0) _ _ local_
  refine ⟨⟨v, n⟩, ?_, ?_⟩
  · simp only [Relocation.ref, Relocation.name, place, sorted_names there, sortedHere, place']
    rfl
  · refine resolve?_eq_some_iff.2 ⟨row.label, nameRow.label, ?_, ?_, rfl⟩
    · rw [Table.labelAt?, entry, Option.map_some, label_sortedRow]
      rfl
    · simp only [nameLabel?, names?, entry, sortedHere, Option.bind_some, Table.labelAt?, entry',
        Option.map_some]
      rfl

end UriTable

end ExiSchema
