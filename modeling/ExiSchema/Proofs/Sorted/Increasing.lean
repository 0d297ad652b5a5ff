import ExiSchema.Proofs.Sorted.Agreement

/-!
Tables without doubles. Registering looks a text up before it adds a row, so tables never get two
rows of one text, and every text is found where it stands. Sorting keeps that and the reserved rows;
the rows behind those come to stand in strictly increasing order.
-/

set_option autoImplicit false

namespace ExiSchema

theorem Label.lt_of_le_of_ne {a b : Label} (le : a.le b = true) (ne : a ≠ b) : compare a b = .lt := by
  rw [le_iff, Ordering.isLE_iff_eq_lt_or_eq_eq] at le
  rw [compare_eq]
  exact le.resolve_right fun same => ne (codes_injective (Std.LawfulEqCmp.eq_of_compare same))

section

variable {α : Type} [Row α] {rows : List α} {fixed : Nat}

theorem pairwise_sortedRows (distinct : (rows.map Row.label).Nodup) :
    ((((sortedRows rows fixed).map Prod.fst).map Row.label).drop fixed).Pairwise
      fun a b => Label.compare a b = .lt := by
  have rising := Label.pairwise_mergeSort Row.label (rows.drop fixed)
  have apart : ((rows.drop fixed).mergeSort fun a b => (Row.label a).le (Row.label b)).Pairwise
      fun a b => Row.label a ≠ Row.label b := by
    rw [← List.pairwise_map, ← List.Nodup, ((List.mergeSort_perm _ _).map Row.label).nodup_iff,
      List.map_drop]
    exact distinct.sublist (List.drop_sublist _ _)
  rw [map_fst_sortedRows, List.map_append, List.drop_append, List.drop_eq_nil_of_le (by simp),
    List.nil_append]
  refine List.Pairwise.sublist (List.drop_sublist _ _) (List.pairwise_map.2 ?_)
  exact (rising.and apart).imp fun both => Label.lt_of_le_of_ne both.1 both.2

end

namespace Table

variable {α : Type} [Row α] {t u : Table α}

theorem texts_eq (t : Table α) : t.texts = t.labels.map Label.text := by
  rw [texts, labels, List.map_map]
  rfl

theorem Distinct.nodup_texts (distinct : t.Distinct) : t.texts.Nodup := by
  rw [texts_eq]
  exact distinct.map fun _ _ same => Label.text_injective same

theorem Distinct.lookup_label (distinct : t.Distinct) {i : Nat} {label : Label}
    (here : t.labelAt? i = some label) : t.lookup label.text = some i := by
  obtain ⟨row, there, rfl⟩ := Option.map_eq_some_iff.1 here
  exact distinct.lookup there

theorem texts_take (kept : ∀ i label, t.labelAt? i = some label → u.labelAt? i = some label) :
    u.texts.take t.size = t.texts := by
  have length : t.labels.length = t.size := by simp [labels, size]
  rw [texts_eq, texts_eq, ← List.map_take]
  refine congrArg _ (List.ext_getElem? fun i => ?_)
  by_cases lt : i < t.size
  · have here := List.getElem?_eq_getElem (length ▸ lt)
    rw [List.getElem?_take_of_lt lt, here, labels_getElem?]
    rw [labels_getElem?] at here
    exact kept i _ here
  · rw [List.getElem?_take_eq_none (by omega), List.getElem?_eq_none (by omega)]

end Table

namespace UriTable

variable {t u : UriTable}

/-- Opening a table of local names gives no row another one, but perhaps a new one without rows. -/
theorem names?_of_opened {i j : Nat} {names : NameTable} (lt : i < t.size)
    (has : (t.opened i).names? j = some names) : t.names? j = some names ∨ names = .empty := by
  by_cases same : i = j
  · subst same
    cases (names?_opened lt).symm.trans has
    cases t.names? i with
    | none => exact .inr rfl
    | some names => exact .inl rfl
  · simp only [names?, opened, Table.get?_modifyRow, if_neg same] at has
    exact .inl has

theorem names?_of_withName {i j : Nat} {old names : NameTable} {label : Label}
    (had : t.names? i = some old) (has : (t.withName i label).names? j = some names) :
    t.names? j = some names ∨ names = old.append { label } := by
  by_cases same : i = j
  · subst same
    cases (names?_withName had).symm.trans has
    exact .inr rfl
  · simp only [names?, withName, Table.get?_modifyRow, if_neg same] at has
    exact .inl has

theorem Change.unique (change : Change t u) (unique : t.Unique) : u.Unique := by
  cases change with
  | @uri label absent _ =>
    refine ⟨unique.uris.append absent, fun i names has => unique.names i names ?_⟩
    rwa [names?_append] at has
  | @opened i lt =>
    refine ⟨?_, fun j names has => ?_⟩
    · rw [Table.Distinct, UriTable.opened, Table.labels_modifyRow]
      exact unique.uris
    · rcases names?_of_opened lt has with had | rfl
      · exact unique.names j names had
      · exact Table.distinct_empty
  | @name i old label has absent _ =>
    refine ⟨?_, fun j names has' => ?_⟩
    · rw [Table.Distinct, withName, Table.labels_modifyRow]
      exact unique.uris
    · rcases names?_of_withName has has' with had | rfl
      · exact unique.names j names had
      · exact (unique.names i old has).append absent

theorem Grows.unique (grows : t.Grows u) (unique : t.Unique) : u.Unique := by
  induction grows with
  | refl => exact unique
  | tail _ change ih => exact change.unique ih

/-- The reserved rows keep what they have: sorting moves only what stands behind their first names. -/
theorem Extends.sorted (ext : initial.Extends t) : initial.Extends t.sorted.uris := by
  intro i row₀ first
  have lt : i < reservedUris := by
    have size : initial.size = reservedUris := by decide +kernel
    exact size ▸ Table.lt_size_of_get? first
  obtain ⟨row, here, kept⟩ := ext i row₀ first
  refine ⟨(sortedRow row i).1, ?_, (label_sortedRow row i).trans kept.label, ?_, ?_⟩
  · rw [get?_sorted]
    exact getElem?_sortedRows_of_lt lt (getElem?_sortedRows here)
  · rw [← kept.prefixes, sortedRow]
    split <;> rfl
  · intro names₀ has₀
    obtain ⟨names, has, rows⟩ := kept.names names₀ has₀
    obtain ⟨_, _, first', has', size⟩ := exists_reserved lt
    cases first.symm.trans first'
    cases has₀.symm.trans has'
    refine ⟨_, by rw [sortedRow_of_names has], fun j name here' => ?_⟩
    have front : j < reservedNames[i]?.getD 0 := size ▸ Table.lt_size_of_get? here'
    have there := rows j name here'
    rw [Table.get?, ← Array.getElem?_toList] at there
    rw [sortedNames, Table.get?, Table.rows_ofRows, List.getElem?_toArray]
    exact getElem?_sortedRows_of_lt front there

/-- No text stands twice, every text is found where it stands, and the first rows are those that
every compilation starts with. -/
structure Proper (t : UriTable) : Prop where
  uris : t.texts.Nodup
  names : ∀ uri names, t.names? uri = some names → names.texts.Nodup
  lookup_uri : ∀ i label, t.labelAt? i = some label → t.lookup label.text = some i
  lookup_name : ∀ uri names, t.names? uri = some names → ∀ j label,
    names.labelAt? j = some label → names.lookup label.text = some j
  kept : initial.Extends t
  first_uris : t.texts.take reservedUris = initial.texts
  first_names : ∀ uri < reservedUris, ∃ names names₀, t.names? uri = some names ∧
    initial.names? uri = some names₀ ∧ names.texts.take (reservedNames[uri]?.getD 0) = names₀.texts

theorem Unique.proper (unique : t.Unique) (kept : initial.Extends t) : t.Proper where
  uris := unique.uris.nodup_texts
  names uri names has := (unique.names uri names has).nodup_texts
  lookup_uri _ _ here := unique.uris.lookup_label here
  lookup_name uri names has _ _ here := (unique.names uri names has).lookup_label here
  kept := kept
  first_uris := Table.texts_take fun _ _ here => kept.labelAt? here
  first_names uri lt := by
    obtain ⟨row₀, names₀, first, has₀, size⟩ := exists_reserved lt
    have had : initial.names? uri = some names₀ := by rw [names?, first, Option.bind_some, has₀]
    obtain ⟨names, has, rows⟩ := kept.names? had
    refine ⟨names, names₀, has, had, size ▸ Table.texts_take fun j label here => ?_⟩
    obtain ⟨name, there, rfl⟩ := Option.map_eq_some_iff.1 here
    rw [Table.labelAt?, rows j name there, Option.map_some]

/-- Behind the reserved rows each label is greater than the one before, and so it is with the local
names of each URI. -/
structure Increasing (t : UriTable) : Prop where
  uris : (t.labels.drop reservedUris).Pairwise fun a b => Label.compare a b = .lt
  names : ∀ uri names, t.names? uri = some names →
    (names.labels.drop (reservedNames[uri]?.getD 0)).Pairwise fun a b => Label.compare a b = .lt

theorem Unique.increasing_sorted (unique : t.Unique) : t.sorted.uris.Increasing := by
  constructor
  · rw [sorted_uris, Table.labels_ofRows, List.toList_toArray]
    refine pairwise_sortedRows ?_
    rw [map_label_sortedRows]
    exact unique.uris
  · intro uri names has
    obtain ⟨j, names', has', rfl, fixed⟩ := exists_of_names?_sorted has
    rw [fixed, sortedNames, Table.labels_ofRows, List.toList_toArray]
    exact pairwise_sortedRows (unique.names j names' has')

end UriTable

end ExiSchema
