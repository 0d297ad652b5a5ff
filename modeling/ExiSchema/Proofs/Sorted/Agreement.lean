import ExiSchema.Proofs.Sorted.Order
import ExiSchema.Proofs.Table.Entries
import ExiSchema.Proofs.Text.Order

/-!
Canonical tables do not tell in which order their names were entered: tables with the same names
become equal when they are sorted, and each name comes to the same rows.
-/

set_option autoImplicit false

namespace ExiSchema

section

variable {α : Type} [Row α] {rows rows' : List α} {row : α} {fixed i : Nat}

theorem map_fst_sortedRows (rows : List α) (fixed : Nat) :
    (sortedRows rows fixed).map Prod.fst =
      rows.take fixed ++ (rows.drop fixed).mergeSort fun a b => (Row.label a).le (Row.label b) := by
  have sorted := List.map_mergeSort (f := Prod.fst) (l := rows.zipIdx.drop fixed)
    (s := fun a b => (Row.label a).le (Row.label b)) fun _ _ _ _ => rfl
  rw [sortedRows, List.map_append, List.map_take, List.zipIdx_map_fst, sorted, List.map_drop,
    List.zipIdx_map_fst]

theorem map_fst_sortedRows_perm (rows : List α) (fixed : Nat) :
    ((sortedRows rows fixed).map Prod.fst).Perm rows := by
  have perm := (sortedRows_perm rows fixed).map Prod.fst
  rwa [List.zipIdx_map_fst] at perm

theorem getElem?_sortedRows_of_lt (lt : i < fixed) (here : rows[i]? = some row) :
    ((sortedRows rows fixed).map Prod.fst)[i]? = some row := by
  have inside : i < rows.length := (List.getElem?_eq_some_iff.1 here).1
  rw [map_fst_sortedRows, List.getElem?_append_left (by simp; omega), List.getElem?_take_of_lt lt, here]

/-- The fixed rows are where they were, and the others come from behind them. -/
theorem exists_of_sortedRows (here : ((sortedRows rows fixed).map Prod.fst)[i]? = some row) :
    ∃ j, rows[j]? = some row ∧ (i < fixed → j = i) ∧ (fixed ≤ i → fixed ≤ j) := by
  rw [map_fst_sortedRows] at here
  have length : (rows.take fixed).length = min fixed rows.length := List.length_take
  by_cases front : i < (rows.take fixed).length
  · rw [List.getElem?_append_left front, List.getElem?_take_of_lt (by omega)] at here
    exact ⟨i, here, fun _ => rfl, id⟩
  · rw [List.getElem?_append_right (by omega)] at here
    have mem := List.mem_mergeSort.1 (List.mem_of_getElem? here)
    obtain ⟨k, there⟩ := List.mem_iff_getElem?.1 mem
    rw [List.getElem?_drop] at there
    have inside : fixed + k < rows.length := (List.getElem?_eq_some_iff.1 there).1
    exact ⟨fixed + k, there, by omega, by omega⟩

/-- The order of the rows behind the fixed ones does not matter if no label stands for two rows. -/
theorem map_fst_sortedRows_eq (perm : rows.Perm rows') (front : rows.take fixed = rows'.take fixed)
    (one : ∀ a ∈ rows, ∀ b ∈ rows', Row.label a = Row.label b → a = b) :
    (sortedRows rows fixed).map Prod.fst = (sortedRows rows' fixed).map Prod.fst := by
  have back : (rows.drop fixed).Perm (rows'.drop fixed) := by
    rw [← List.perm_append_left_iff (rows.take fixed), List.take_append_drop, front,
      List.take_append_drop]
    exact perm
  rw [map_fst_sortedRows, map_fst_sortedRows, front]
  refine congrArg (rows'.take fixed ++ ·) (List.Perm.eq_of_pairwise ?_
    (Label.pairwise_mergeSort Row.label _) (Label.pairwise_mergeSort Row.label _) ?_)
  · intro a b mem mem' first second
    have inside := List.mem_of_mem_drop (List.mem_mergeSort.1 mem)
    have inside' := List.mem_of_mem_drop (List.mem_mergeSort.1 mem')
    exact one a inside b inside' (Label.le_antisymm first second)
  · exact (List.mergeSort_perm _ _).trans (back.trans (List.mergeSort_perm _ _).symm)

end

namespace Table

variable {α : Type} [Row α] {t u : Table α}

theorem mem_labels_iff {label : Label} : label ∈ t.labels ↔ (t.lookup label.text).isSome := by
  rw [lookup_isSome_iff, List.mem_iff_getElem?]
  simp only [labels_getElem?, Option.map_eq_some_iff]
  constructor
  · rintro ⟨i, row, here, rfl⟩
    exact ⟨i, row, here, rfl⟩
  · rintro ⟨i, row, here, same⟩
    exact ⟨i, row, here, Label.text_injective same⟩

theorem labels_perm (distinct : t.Distinct) (distinct' : u.Distinct)
    (same : ∀ text, (t.lookup text).isSome ↔ (u.lookup text).isSome) : t.labels.Perm u.labels := by
  refine (List.perm_ext_iff_of_nodup distinct distinct').2 fun label => ?_
  rw [mem_labels_iff, mem_labels_iff, same]

/-- Rows that are still there. -/
theorem take_of_extends {n : Nat} (kept : ∀ i row, t.get? i = some row → u.get? i = some row)
    (le : n ≤ t.size) : u.rows.toList.take n = t.rows.toList.take n := by
  apply List.ext_getElem?
  intro i
  by_cases lt : i < n
  · obtain ⟨row, here⟩ := Option.isSome_iff_exists.1 (get?_isSome_iff.2 (Nat.lt_of_lt_of_le lt le))
    rw [List.getElem?_take_of_lt lt, List.getElem?_take_of_lt lt, Array.getElem?_toList,
      Array.getElem?_toList]
    exact (kept i row here).trans here.symm
  · rw [List.getElem?_take_eq_none (Nat.not_lt.1 lt), List.getElem?_take_eq_none (Nat.not_lt.1 lt)]

end Table

theorem Table.Distinct.sortedNames {names : NameTable} (distinct : names.Distinct) (fixed : Nat) :
    (UriTable.sortedNames names fixed).1.Distinct := by
  rw [Distinct, UriTable.sortedNames, labels_ofRows, List.toList_toArray]
  exact ((map_fst_sortedRows_perm names.rows.toList fixed).map Row.label).nodup_iff.2 distinct

namespace UriTable

/-- The same URIs, and the same local names under them. -/
structure SameNames (t u : UriTable) : Prop where
  uri : ∀ text, t.HasUri text ↔ u.HasUri text
  name : ∀ q, t.HasName q ↔ u.HasName q

theorem SameNames.symm {t u : UriTable} (same : t.SameNames u) : u.SameNames t :=
  ⟨fun text => (same.uri text).symm, fun q => (same.name q).symm⟩

/-- Tables of local names without values are sorted alike if they have the same names. -/
theorem sortedNames_eq {names names' : NameTable} {fixed : Nat}
    (distinct : names.Distinct) (distinct' : names'.Distinct)
    (values : ∀ j name, names.get? j = some name → name.values = .empty)
    (values' : ∀ j name, names'.get? j = some name → name.values = .empty)
    (front : names.rows.toList.take fixed = names'.rows.toList.take fixed)
    (same : ∀ text, (names.lookup text).isSome ↔ (names'.lookup text).isSome) :
    (sortedNames names fixed).1 = (sortedNames names' fixed).1 := by
  have rows {n : NameTable} (values : ∀ j name, n.get? j = some name → name.values = .empty) :
      n.rows.toList = n.labels.map fun label => { label } := by
    rw [Table.labels, List.map_map]
    refine (List.map_id _).symm.trans (List.map_congr_left fun name mem => ?_)
    obtain ⟨j, here⟩ := List.mem_iff_getElem?.1 mem
    have empty := values j name (by rwa [Array.getElem?_toList] at here)
    cases name
    cases empty
    rfl
  have perm : names.rows.toList.Perm names'.rows.toList := by
    rw [rows values, rows values']
    exact (Table.labels_perm distinct distinct' same).map _
  unfold sortedNames
  refine congrArg (fun rows => Table.ofRows (List.toArray rows)) (map_fst_sortedRows_eq perm front ?_)
  intro a mem b mem' label
  rw [rows values] at mem
  rw [rows values'] at mem'
  obtain ⟨_, _, rfl⟩ := List.mem_map.1 mem
  obtain ⟨_, _, rfl⟩ := List.mem_map.1 mem'
  cases label
  rfl

theorem exists_reserved {i : Nat} (lt : i < reservedUris) :
    ∃ (row : UriRow) (names : NameTable), initial.get? i = some row ∧ row.names = some names ∧
      names.size = reservedNames[i]?.getD 0 := by
  have sizes : ∀ i < reservedUris, (initial.names? i).map Table.size = reservedNames[i]? := by
    decide +kernel
  have known : i < reservedNames.length := lt
  obtain ⟨names, has, size⟩ := Option.map_eq_some_iff.1
    ((sizes i lt).trans (List.getElem?_eq_getElem known))
  obtain ⟨row, here, has⟩ := Option.bind_eq_some_iff.1 has
  refine ⟨row, names, here, has, ?_⟩
  rw [size, List.getElem?_eq_getElem known, Option.getD_some]

/-- A reserved row keeps its text, its prefixes and the local names that it started with. -/
theorem Regular.reserved_row {t : UriTable} (regular : t.Regular) {i : Nat} {row row₀ : UriRow}
    {names₀ : NameTable} (first : initial.get? i = some row₀) (has₀ : row₀.names = some names₀)
    (here : t.get? i = some row) :
    row.label = row₀.label ∧ row.prefixes = row₀.prefixes ∧ ∃ names, row.names = some names ∧
      names.rows.toList.take names₀.size = names₀.rows.toList.take names₀.size := by
  obtain ⟨_, here', kept⟩ := regular.reserved i row₀ first
  cases here.symm.trans here'
  obtain ⟨names, has, rows⟩ := kept.names names₀ has₀
  exact ⟨kept.label, kept.prefixes, names, has, Table.take_of_extends rows le_rfl⟩

section

variable {t u : UriTable} {i j : Nat} {row row' : UriRow}

theorem Regular.hasName_iff (regular : t.Regular) (here : t.get? i = some row) {localName : String} :
    t.HasName ⟨row.label.text, localName⟩ ↔
      ∃ names, row.names = some names ∧ (names.lookup localName).isSome := by
  have found : t.lookup row.label.text = some i := regular.distinct.lookup here
  have has : t.names? i = row.names := by rw [names?, here, Option.bind_some]
  rw [UriTable.hasName_iff]
  constructor
  · rintro ⟨uri, names, found', has', inner⟩
    cases found.symm.trans found'
    exact ⟨names, has.symm.trans has', inner⟩
  · rintro ⟨names, has', inner⟩
    exact ⟨i, names, found, has.trans has', inner⟩

/-- Rows with one text are reserved alike. -/
theorem Regular.same_place (regular : t.Regular) (regular' : u.Regular) (here : t.get? i = some row)
    (there : u.get? j = some row') (label : row.label = row'.label) (lt : i < reservedUris) :
    j = i := by
  obtain ⟨row₀, names₀, first, has₀, _⟩ := exists_reserved lt
  have same := (regular.reserved_row first has₀ here).1
  obtain ⟨row'', there', kept⟩ := regular'.reserved i row₀ first
  have found : u.lookup row'.label.text = some j := regular'.distinct.lookup there
  have found' : u.lookup row''.label.text = some i := regular'.distinct.lookup there'
  rw [kept.label, ← same, label, found] at found'
  exact Option.some.inj found'

theorem sortedRow_eq_of_names {names names' : NameTable} (regular : t.Regular)
    (regular' : u.Regular) (same : t.SameNames u) (here : t.get? i = some row)
    (there : u.get? j = some row') (label : row.label = row'.label)
    (prefixes : row.prefixes = row'.prefixes) (has : row.names = some names)
    (has' : row'.names = some names') {fixed : Nat} (atI : reservedNames[i]?.getD 0 = fixed)
    (atJ : reservedNames[j]?.getD 0 = fixed)
    (front : names.rows.toList.take fixed = names'.rows.toList.take fixed) :
    (sortedRow row i).1 = (sortedRow row' j).1 := by
  have inner (localName : String) :
      (names.lookup localName).isSome ↔ (names'.lookup localName).isSome := by
    have named := same.name ⟨row.label.text, localName⟩
    rw [regular.hasName_iff here, label, regular'.hasName_iff there, has, has'] at named
    simpa using named
  have names_eq := sortedNames_eq ((regular.row i row here).distinct names has)
    ((regular'.row j row' there).distinct names' has') ((regular.row i row here).values names has)
    ((regular'.row j row' there).values names' has') front inner
  rw [sortedRow_of_names has, sortedRow_of_names has', atI, atJ, names_eq, label, prefixes]

/-- Behind the reserved rows there are local names only where one was entered. -/
theorem Regular.names_isSome (regular : t.Regular) (regular' : u.Regular) (same : t.SameNames u)
    (here : t.get? i = some row) (there : u.get? j = some row') (label : row.label = row'.label)
    (le : reservedUris ≤ i) {names : NameTable} (has : row.names = some names) :
    ∃ names', row'.names = some names' := by
  have filled := (regular.row i row here).inhabited le names has
  obtain ⟨name, first⟩ := Option.isSome_iff_exists.1 (Table.get?_isSome_iff.2 filled)
  have found := ((regular.row i row here).distinct names has).lookup first
  have named := (same.name ⟨row.label.text, name.label.text⟩).1
    ((regular.hasName_iff here).2 ⟨names, has, Option.isSome_iff_exists.2 ⟨0, found⟩⟩)
  rw [label, regular'.hasName_iff there] at named
  obtain ⟨names', has', _⟩ := named
  exact ⟨names', has'⟩

/-- Rows with one text become equal. -/
theorem sortedRow_eq (regular : t.Regular) (regular' : u.Regular) (same : t.SameNames u)
    (here : t.get? i = some row) (there : u.get? j = some row') (label : row.label = row'.label) :
    (sortedRow row i).1 = (sortedRow row' j).1 := by
  by_cases lt : i < reservedUris
  · cases regular.same_place regular' here there label lt
    obtain ⟨row₀, names₀, first, has₀, size⟩ := exists_reserved lt
    obtain ⟨_, prefixes, names, has, front⟩ := regular.reserved_row first has₀ here
    obtain ⟨_, prefixes', names', has', front'⟩ := regular'.reserved_row first has₀ there
    exact sortedRow_eq_of_names regular regular' same here there label
      (prefixes.trans prefixes'.symm) has has' size.symm size.symm (front.trans front'.symm)
  · have le : reservedUris ≤ i := Nat.not_lt.1 lt
    have le' : reservedUris ≤ j := by
      refine Nat.not_lt.1 fun lt' => lt ?_
      rwa [regular'.same_place regular there here label.symm lt']
    have prefixes : row.prefixes = row'.prefixes :=
      ((regular.row i row here).prefixes le).trans ((regular'.row j row' there).prefixes le').symm
    have unfixed {k : Nat} (le : reservedUris ≤ k) : reservedNames[k]?.getD 0 = 0 := by
      rw [List.getElem?_eq_none (show reservedNames.length ≤ k from le)]
      rfl
    cases has : row.names with
    | some names =>
      obtain ⟨names', has'⟩ := regular.names_isSome regular' same here there label le has
      exact sortedRow_eq_of_names regular regular' same here there label prefixes has has' (unfixed le)
        (unfixed le') rfl
    | none =>
      have has' : row'.names = none := by
        cases has' : row'.names with
        | none => rfl
        | some names' =>
          obtain ⟨names, has''⟩ :=
            regular'.names_isSome regular same.symm there here label.symm le' has'
          cases has.symm.trans has''
      cases row
      cases row'
      cases label
      cases prefixes
      cases has
      cases has'
      rfl

/-- The rows of a table with their local names sorted, in the order in which they were entered. -/
def sortedRows (t : UriTable) : List UriRow :=
  (t.rows.toList.zipIdx.map fun e => sortedRow e.1 e.2).map Prod.fst

theorem getElem?_sortedRows (here : t.get? i = some row) :
    t.sortedRows[i]? = some (sortedRow row i).1 := by
  rw [sortedRows, List.getElem?_map, sortedRow_at here, Option.map_some]

theorem exists_of_getElem?_sortedRows (here : t.sortedRows[i]? = some row) :
    ∃ row', t.get? i = some row' ∧ row = (sortedRow row' i).1 := by
  rw [sortedRows, List.getElem?_map, List.getElem?_map, List.getElem?_zipIdx, Nat.zero_add,
    Array.getElem?_toList, Option.map_map, Option.map_map] at here
  obtain ⟨row', old, rfl⟩ := Option.map_eq_some_iff.1 here
  exact ⟨row', old, rfl⟩

theorem exists_of_mem_sortedRows (mem : row ∈ t.sortedRows) :
    ∃ i row', t.get? i = some row' ∧ row = (sortedRow row' i).1 := by
  obtain ⟨i, here⟩ := List.mem_iff_getElem?.1 mem
  exact ⟨i, exists_of_getElem?_sortedRows here⟩

theorem length_sortedRows (t : UriTable) : t.sortedRows.length = t.size := by
  simp [sortedRows, Table.size]

theorem map_label_sortedRows (t : UriTable) : t.sortedRows.map Row.label = t.labels := by
  apply List.ext_getElem?
  intro i
  rw [List.getElem?_map, Table.labels_getElem?]
  cases here : t.get? i with
  | some row => rw [getElem?_sortedRows here, Option.map_some, Option.map_some, label_sortedRow]
  | none =>
    have beyond : t.size ≤ i := by
      have absent : ¬(t.get? i).isSome := by simp [here]
      rw [Table.get?_isSome_iff] at absent
      exact Nat.not_lt.1 absent
    rw [List.getElem?_eq_none (by rwa [length_sortedRows])]

theorem sorted_uris (t : UriTable) :
    t.sorted.uris =
      Table.ofRows ((ExiSchema.sortedRows t.sortedRows reservedUris).map Prod.fst).toArray := rfl

theorem mem_sortedRows_of_mem (regular : t.Regular) (regular' : u.Regular) (same : t.SameNames u)
    (mem : row ∈ t.sortedRows) : row ∈ u.sortedRows := by
  obtain ⟨i, row, here, rfl⟩ := exists_of_mem_sortedRows mem
  have known : u.HasUri row.label.text :=
    (same.uri _).1 (Table.lookup_isSome_iff.2 ⟨i, row, here, rfl⟩)
  obtain ⟨j, row', there, text⟩ := Table.lookup_isSome_iff.1 known
  rw [sortedRow_eq regular regular' same here there (Label.text_injective text.symm)]
  exact List.mem_of_getElem? (getElem?_sortedRows there)

theorem take_sortedRows_eq (regular : t.Regular) (regular' : u.Regular) (same : t.SameNames u) :
    t.sortedRows.take reservedUris = u.sortedRows.take reservedUris := by
  apply List.ext_getElem?
  intro i
  by_cases lt : i < reservedUris
  · obtain ⟨row₀, names₀, first, has₀, _⟩ := exists_reserved lt
    obtain ⟨row, here, kept⟩ := regular.reserved i row₀ first
    obtain ⟨row', there, kept'⟩ := regular'.reserved i row₀ first
    rw [List.getElem?_take_of_lt lt, List.getElem?_take_of_lt lt, getElem?_sortedRows here,
      getElem?_sortedRows there,
      sortedRow_eq regular regular' same here there (kept.label.trans kept'.label.symm)]
  · rw [List.getElem?_take_eq_none (Nat.not_lt.1 lt), List.getElem?_take_eq_none (Nat.not_lt.1 lt)]

/-- Tables with the same names become equal. -/
theorem sorted_uris_eq (regular : t.Regular) (regular' : u.Regular) (same : t.SameNames u) :
    t.sorted.uris = u.sorted.uris := by
  have distinct {v : UriTable} (regular : v.Regular) : v.sortedRows.Nodup := by
    refine List.Nodup.of_map Row.label ?_
    rw [map_label_sortedRows]
    exact regular.distinct
  have perm : t.sortedRows.Perm u.sortedRows :=
    (List.perm_ext_iff_of_nodup (distinct regular) (distinct regular')).2 fun row =>
      ⟨mem_sortedRows_of_mem regular regular' same, mem_sortedRows_of_mem regular' regular same.symm⟩
  rw [sorted_uris, sorted_uris]
  refine congrArg (fun rows => Table.ofRows (List.toArray rows))
    (map_fst_sortedRows_eq perm (take_sortedRows_eq regular regular' same) ?_)
  intro a mem b mem' label
  obtain ⟨i, row, here, rfl⟩ := exists_of_mem_sortedRows mem
  obtain ⟨j, row', there, rfl⟩ := exists_of_mem_sortedRows mem'
  rw [label_sortedRow, label_sortedRow] at label
  exact sortedRow_eq regular regular' same here there label

end

/-- No text stands twice, neither of a URI nor of a local name under one. -/
structure Unique (t : UriTable) : Prop where
  uris : t.Distinct
  names : ∀ uri names, t.names? uri = some names → names.Distinct

/-- In a table without doubles a name is found where it stands. -/
theorem Unique.find? {t : UriTable} (unique : t.Unique) {ref : NameRef} {q : QName}
    (here : t.resolve? ref = some q) : t.find? q = some ref := by
  obtain ⟨uri, name, label, label', rfl⟩ := resolve?_eq_some_iff.1 here
  obtain ⟨row, there, rfl⟩ := Option.map_eq_some_iff.1 label
  obtain ⟨names, has, inner⟩ := Option.bind_eq_some_iff.1 label'
  obtain ⟨row', there', rfl⟩ := Option.map_eq_some_iff.1 inner
  exact find?_eq_some_iff.2
    ⟨unique.uris.lookup there, names, has, (unique.names _ names has).lookup there'⟩

theorem get?_sorted (t : UriTable) (i : Nat) :
    t.sorted.uris.get? i = ((ExiSchema.sortedRows t.sortedRows reservedUris).map Prod.fst)[i]? := by
  rw [sorted_uris, Table.get?, Table.rows_ofRows, List.getElem?_toArray]

/-- The local names of a canonical row are those of an old row; and behind the reserved rows none of
them are fixed, wherever the row stood before. -/
theorem exists_of_names?_sorted {t : UriTable} {i : Nat} {names : NameTable}
    (has : t.sorted.uris.names? i = some names) :
    ∃ j old, t.names? j = some old ∧ names = (sortedNames old (reservedNames[j]?.getD 0)).1 ∧
      reservedNames[i]?.getD 0 = reservedNames[j]?.getD 0 := by
  obtain ⟨row, here, has⟩ := Option.bind_eq_some_iff.1 has
  rw [get?_sorted] at here
  obtain ⟨j, there, front, back⟩ := exists_of_sortedRows here
  obtain ⟨row', known, rfl⟩ := exists_of_getElem?_sortedRows there
  have fixed : reservedNames[i]?.getD 0 = reservedNames[j]?.getD 0 := by
    rcases Nat.lt_or_ge i reservedUris with lt | le
    · rw [front lt]
    · rw [List.getElem?_eq_none (show reservedNames.length ≤ i from le),
        List.getElem?_eq_none (show reservedNames.length ≤ j from back le)]
  cases has' : row'.names with
  | none =>
    rw [sortedRow, has'] at has
    cases has'.symm.trans has
  | some old =>
    rw [sortedRow_of_names has'] at has
    cases has
    exact ⟨j, old, by rw [names?, known, Option.bind_some, has'], rfl, fixed⟩

theorem Regular.unique {t : UriTable} (regular : t.Regular) : t.Unique := by
  refine ⟨regular.distinct, fun uri names has => ?_⟩
  obtain ⟨row, here, has⟩ := Option.bind_eq_some_iff.1 has
  exact (regular.row uri row here).distinct names has

/-- Sorting makes no doubles. -/
theorem Unique.sorted {t : UriTable} (unique : t.Unique) : t.sorted.uris.Unique := by
  constructor
  · rw [Table.Distinct, sorted_uris, Table.labels_ofRows, List.toList_toArray]
    refine ((map_fst_sortedRows_perm t.sortedRows reservedUris).map Row.label).nodup_iff.2 ?_
    rw [map_label_sortedRows]
    exact unique.uris
  · intro uri names has
    obtain ⟨j, old, known, rfl, _⟩ := exists_of_names?_sorted has
    exact (unique.names j old known).sortedNames _

/-- A name of the table goes to the row where the canonical table has it. -/
theorem sorted_ref {t : UriTable} (regular : t.Regular) {q : QName} {ref : NameRef}
    (found : t.find? q = some ref) :
    ∃ new, t.sorted.mapping.ref ref = .ok new ∧ t.sorted.uris.find? q = some new := by
  obtain ⟨new, goes, there⟩ := resolve?_sorted (resolve?_of_find? found)
  exact ⟨new, goes, regular.unique.sorted.find? there⟩

end UriTable

namespace Registration

variable {rs rs' : List Registration} {t t' : UriTable}

theorem regular_of_runAll (run : runAll rs .initial = .ok () t) : t.Regular :=
  (gains_of_runAll run).regular UriTable.regular_initial

theorem sameNames_of_runAll (run : runAll rs .initial = .ok () t)
    (run' : runAll rs' .initial = .ok () t') (sameUris : ∀ uri, uri ∈ uris rs ↔ uri ∈ uris rs')
    (sameNames : ∀ q, q ∈ names rs ↔ q ∈ names rs') : t.SameNames t' := by
  have gains := gains_of_runAll run
  have gains' := gains_of_runAll run'
  constructor
  · intro text
    rw [gains.uri, gains'.uri, sameUris]
  · intro q
    rw [gains.name, gains'.name, sameNames]

/-- Registrations of the same names lead to the same canonical tables, in whatever order and however
often they are made, and each name comes to the same canonical rows. -/
theorem sorted_agree (run : runAll rs .initial = .ok () t) (run' : runAll rs' .initial = .ok () t')
    (sameUris : ∀ uri, uri ∈ uris rs ↔ uri ∈ uris rs')
    (sameNames : ∀ q, q ∈ names rs ↔ q ∈ names rs') :
    t.sorted.uris = t'.sorted.uris ∧
      ∀ q ∈ names rs, ∃ old old' new, t.find? q = some old ∧ t'.find? q = some old' ∧
        t.sorted.mapping.ref old = .ok new ∧ t'.sorted.mapping.ref old' = .ok new := by
  have regular := regular_of_runAll run
  have regular' := regular_of_runAll run'
  have tables := UriTable.sorted_uris_eq regular regular'
    (sameNames_of_runAll run run' sameUris sameNames)
  refine ⟨tables, fun q mem => ?_⟩
  obtain ⟨old, found⟩ := Option.isSome_iff_exists.1 (((gains_of_runAll run).name q).2 (.inr mem))
  obtain ⟨old', found'⟩ := Option.isSome_iff_exists.1
    (((gains_of_runAll run').name q).2 (.inr ((sameNames q).1 mem)))
  obtain ⟨new, goes, there⟩ := UriTable.sorted_ref regular found
  obtain ⟨new', goes', there'⟩ := UriTable.sorted_ref regular' found'
  rw [← tables, there] at there'
  cases there'
  exact ⟨old, old', new, found, found', goes, goes'⟩

theorem exists_of_check {p : UriTable → Bool}
    (check : (match runAll rs .initial with | .ok _ t => p t | .error _ _ => false) = true) :
    ∃ t, runAll rs .initial = .ok () t ∧ p t = true := by
  split at check
  · next t run => exact ⟨t, run, check⟩
  · cases check

theorem sorted_agree_two_orders : ∃ t t' : UriTable,
    runAll [.ofName ⟨"urn:b", "x"⟩, .ofUri "urn:a"] .initial = .ok () t ∧
      runAll [.ofUri "urn:a", .ofUri "urn:b", .ofName ⟨"urn:b", "x"⟩] .initial = .ok () t' ∧
      t.find? ⟨"urn:b", "x"⟩ = some ⟨4, 0⟩ ∧ t'.find? ⟨"urn:b", "x"⟩ = some ⟨5, 0⟩ ∧
      t.sorted.uris = t'.sorted.uris := by
  obtain ⟨t, run, old⟩ := @exists_of_check [.ofName ⟨"urn:b", "x"⟩, .ofUri "urn:a"]
    (fun t => t.find? ⟨"urn:b", "x"⟩ = some ⟨4, 0⟩) (by decide +kernel)
  obtain ⟨t', run', old'⟩ :=
    @exists_of_check [.ofUri "urn:a", .ofUri "urn:b", .ofName ⟨"urn:b", "x"⟩]
      (fun t => t.find? ⟨"urn:b", "x"⟩ = some ⟨5, 0⟩) (by decide +kernel)
  refine ⟨t, t', run, run', of_decide_eq_true old, of_decide_eq_true old', ?_⟩
  refine (sorted_agree run run' (fun uri => ?_) fun q => ?_).1
  · simp only [uris, List.map_cons, List.map_nil, List.mem_cons, List.not_mem_nil, or_false]
    tauto
  · simp [names]

end Registration

end ExiSchema
