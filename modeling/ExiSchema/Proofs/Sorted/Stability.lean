import ExiSchema.Proofs.Sorted.Agreement
import ExiSchema.Proofs.Table.Lookup
import ExiSchema.Sorted.Relocation

/-!
What sorting does to any table, with doubles or without, and however few rows it has. Each row has one
place; the fixed rows keep theirs, and behind them the labels rise and rows of one label keep their
order. A URI row takes its prefixes and its local names along, and these are sorted in the same way.
-/

set_option autoImplicit false

namespace ExiSchema

theorem size_inverse (order : List Nat) : (inverse order).size = order.length := by
  refine List.foldlRecOn (motive := fun places : Array Nat => places.size = order.length) _ _
    Array.size_replicate fun places size entry _ => ?_
  rw [Array.size_setIfInBounds, size]

theorem getElem?_inverse_iff {order : List Nat} (perm : order.Perm (List.range order.length))
    {old new : Nat} : (inverse order)[old]? = some new ↔ order[new]? = some old := by
  refine ⟨fun here => ?_, getElem?_inverse perm⟩
  have lt : old < order.length := size_inverse order ▸ (Array.getElem?_eq_some_iff.1 here).1
  obtain ⟨new', there⟩ := List.mem_iff_getElem?.1 (perm.mem_iff.2 (List.mem_range.2 lt))
  cases here.symm.trans (getElem?_inverse perm there)
  exact there

section

variable {α : Type} [Row α] {rows : List α} {fixed old new : Nat}

/-- Where the old row goes. -/
def sortedPlace? (rows : List α) (fixed old : Nat) : Option Nat :=
  (inverse ((sortedRows rows fixed).map Prod.snd))[old]?

theorem sortedPlace?_eq_some_iff :
    sortedPlace? rows fixed old = some new ↔ ∃ row, (sortedRows rows fixed)[new]? = some (row, old) := by
  have perm := sortedRows_order_perm rows fixed
  have length : rows.length = ((sortedRows rows fixed).map Prod.snd).length := by
    rw [perm.length_eq, List.length_range]
  rw [sortedPlace?, getElem?_inverse_iff (length ▸ perm), List.getElem?_map, Option.map_eq_some_iff]
  constructor
  · rintro ⟨⟨row, _⟩, here, rfl⟩
    exact ⟨row, here⟩
  · rintro ⟨row, here⟩
    exact ⟨_, here, rfl⟩

/-- The row that comes to a place is the old one. -/
theorem row_of_sortedRows {row : α} (here : (sortedRows rows fixed)[new]? = some (row, old)) :
    rows[old]? = some row :=
  List.mk_mem_zipIdx_iff_getElem?.1 ((sortedRows_perm rows fixed).mem_iff.1 (List.mem_of_getElem? here))

theorem length_sortedRows (rows : List α) (fixed : Nat) :
    (sortedRows rows fixed).length = rows.length := by
  rw [(sortedRows_perm rows fixed).length_eq, List.length_zipIdx]

theorem sortedPlace?_lt (goes : sortedPlace? rows fixed old = some new) : new < rows.length := by
  obtain ⟨row, here⟩ := sortedPlace?_eq_some_iff.1 goes
  exact length_sortedRows rows fixed ▸ (List.getElem?_eq_some_iff.1 here).1

theorem isSome_sortedPlace? : (sortedPlace? rows fixed old).isSome ↔ old < rows.length := by
  constructor
  · intro goes
    obtain ⟨new, goes⟩ := Option.isSome_iff_exists.1 goes
    obtain ⟨row, here⟩ := sortedPlace?_eq_some_iff.1 goes
    exact (List.getElem?_eq_some_iff.1 (row_of_sortedRows here)).1
  · intro lt
    obtain ⟨new, goes, _⟩ := @sortedRows_place _ _ _ fixed _ _ (List.getElem?_eq_getElem lt)
    exact Option.isSome_iff_exists.2 ⟨new, goes⟩

theorem sortedPlace?_injective {other : Nat} (goes : sortedPlace? rows fixed old = some new)
    (goes' : sortedPlace? rows fixed other = some new) : old = other := by
  obtain ⟨row, here⟩ := sortedPlace?_eq_some_iff.1 goes
  obtain ⟨row', here'⟩ := sortedPlace?_eq_some_iff.1 goes'
  cases here.symm.trans here'
  rfl

/-- Every row goes to one place, and to every place one row. -/
theorem exists_perm_sortedPlace? (rows : List α) (fixed : Nat) :
    ∃ σ : Equiv.Perm (Fin rows.length), ∀ i : Fin rows.length,
      sortedPlace? rows fixed i = some (σ i : Nat) := by
  have somewhere (i : Fin rows.length) :
      ∃ p : Fin rows.length, sortedPlace? rows fixed i = some (p : Nat) := by
    obtain ⟨p, goes⟩ := Option.isSome_iff_exists.1 (isSome_sortedPlace?.2 i.isLt)
    exact ⟨⟨p, sortedPlace?_lt goes⟩, goes⟩
  choose σ goes using somewhere
  have injective : Function.Injective σ := fun i j same =>
    Fin.ext (sortedPlace?_injective (goes i) (same ▸ goes j))
  exact ⟨Equiv.ofBijective σ (Finite.injective_iff_bijective.1 injective), goes⟩

theorem sortedPlace?_of_lt (lt : old < fixed) (inside : old < rows.length) :
    sortedPlace? rows fixed old = some old := by
  refine sortedPlace?_eq_some_iff.2 ⟨rows[old], ?_⟩
  have length : (rows.zipIdx.take fixed).length = min fixed rows.length := by simp
  rw [sortedRows, List.getElem?_append_left (by omega), List.getElem?_take_of_lt lt,
    List.getElem?_zipIdx, List.getElem?_eq_getElem inside, Nat.zero_add]
  rfl

/-- The rows behind the fixed ones stand in the order of their labels. -/
theorem sortedRows_rising {p q : Nat} {a b : α} (behind : fixed ≤ p) (lt : p < q)
    (here : ((sortedRows rows fixed).map Prod.fst)[p]? = some a)
    (there : ((sortedRows rows fixed).map Prod.fst)[q]? = some b) :
    (Row.label a).le (Row.label b) = true := by
  have front : (rows.take fixed).length ≤ p := by simp; omega
  rw [map_fst_sortedRows, List.getElem?_append_right (by omega)] at here there
  obtain ⟨inside, rfl⟩ := List.getElem?_eq_some_iff.1 here
  obtain ⟨inside', rfl⟩ := List.getElem?_eq_some_iff.1 there
  exact List.pairwise_iff_getElem.1 (Label.pairwise_mergeSort Row.label (rows.drop fixed)) _ _
    inside inside' (by omega)

theorem pair_sublist_of_lt {β : Type} {l : List β} {a b : β} {i j : Nat} (lt : i < j)
    (first : l[i]? = some a) (second : l[j]? = some b) : [a, b].Sublist l := by
  obtain ⟨inside, rfl⟩ := List.getElem?_eq_some_iff.1 first
  have later : b ∈ l.drop (i + 1) := by
    refine List.mem_of_getElem? (i := j - (i + 1)) ?_
    rwa [List.getElem?_drop, Nat.add_sub_cancel' lt]
  have tail : [l[i], b].Sublist (l.drop i) := by
    rw [List.drop_eq_getElem_cons inside]
    exact (List.singleton_sublist.2 later).cons_cons _
  exact tail.trans (List.drop_sublist i l)

theorem exists_lt_of_pair_sublist {β : Type} {l : List β} {a b : β} (sublist : [a, b].Sublist l) :
    ∃ i j : Nat, i < j ∧ l[i]? = some a ∧ l[j]? = some b := by
  obtain ⟨f, same⟩ := List.sublist_iff_exists_orderEmbedding_getElem?_eq.1 sublist
  exact ⟨f 0, f 1, f.lt_iff_lt.2 Nat.zero_lt_one, (same 0).symm, (same 1).symm⟩

/-- Of two rows with one label behind the fixed ones, the first stays the first. -/
theorem sortedPlace?_lt_of_lt {i j p q : Nat} {a b : α} (behind : fixed ≤ i) (lt : i < j)
    (first : rows[i]? = some a) (second : rows[j]? = some b) (same : Row.label a = Row.label b)
    (goes : sortedPlace? rows fixed i = some p) (goes' : sortedPlace? rows fixed j = some q) : p < q := by
  have numbered {k : Nat} {row : α} (le : fixed ≤ k) (here : rows[k]? = some row) :
      (rows.zipIdx.drop fixed)[k - fixed]? = some (row, k) := by
    rw [List.getElem?_drop, Nat.add_sub_cancel' le, List.getElem?_zipIdx, here, Nat.zero_add]
    rfl
  have sublist := Label.pair_sublist_mergeSort (fun x : α × Nat => Row.label x.1) same
    (pair_sublist_of_lt (by omega) (numbered behind first) (numbered (by omega) second))
  obtain ⟨p', q', lt', here, there⟩ := exists_lt_of_pair_sublist sublist
  have length : (rows.zipIdx.take fixed).length = fixed := by
    have := (List.getElem?_eq_some_iff.1 first).1
    simp
    omega
  have place {k m : Nat} {row : α} (here : ((rows.zipIdx.drop fixed).mergeSort
      fun x y => (Row.label x.1).le (Row.label y.1))[m]? = some (row, k)) :
      sortedPlace? rows fixed k = some (fixed + m) := by
    refine sortedPlace?_eq_some_iff.2 ⟨row, ?_⟩
    rw [sortedRows, List.getElem?_append_right (by omega), length, Nat.add_sub_cancel_left, here]
  cases goes.symm.trans (place here)
  cases goes'.symm.trans (place there)
  omega

end

namespace Table

variable {α : Type} [Row α]

/-- Looking a text up gives the first row that carries it. -/
def FindsFirst (t : Table α) : Prop := ∀ text, t.lookup text = firstOf t.rows.toList text

theorem findsFirst (t : Table α) : t.FindsFirst :=
  fun text => (lookup_eq_firstRow t text).trans (firstRow_eq_firstOf t.rows text)

/-- The rows of one table in the order of another: each goes to one place, the first ones to their own.
Behind these the labels do not fall, and rows with one label keep their order. `carries` says what the
row at the new place has of the old one. -/
structure Arranges (fixed : Nat) (place : Nat → Except Fault Nat) (carries : Nat → α → α → Prop)
    (old new : Table α) : Prop where
  bijective : ∃ σ : Equiv.Perm (Fin old.size), ∀ i : Fin old.size, place i = .ok (σ i : Nat)
  outside : ∀ i, old.size ≤ i → ∃ fault, place i = .error fault
  size : new.size = old.size
  front : ∀ i < min fixed old.size, place i = .ok i
  rising : ∀ p q a b, fixed ≤ p → p < q → new.labelAt? p = some a → new.labelAt? q = some b →
    Label.compare a b ≠ .gt
  stable : ∀ i j label p q, fixed ≤ i → i < j → old.labelAt? i = some label →
    old.labelAt? j = some label → place i = .ok p → place j = .ok q → p < q
  carried : ∀ i row, old.get? i = some row →
    ∃ p row', place i = .ok p ∧ new.get? p = some row' ∧ carries i row row'
  finds : new.FindsFirst

variable {fixed : Nat} {place : Nat → Except Fault Nat} {carries : Nat → α → α → Prop} {old : Table α}
  {rows : List α}

/-- A table is arranged by sorting rows that carry its labels in its order. -/
theorem arranges_ofRows (labels : rows.map Row.label = old.labels)
    (goes : ∀ i p, place i = .ok p ↔ sortedPlace? rows fixed i = some p)
    (kept : ∀ i row, old.get? i = some row → ∃ row', rows[i]? = some row' ∧ carries i row row') :
    Arranges fixed place carries old (ofRows ((sortedRows rows fixed).map Prod.fst).toArray) := by
  have length : rows.length = old.size := by
    have lengths := congrArg List.length labels
    rwa [List.length_map, Table.labels, List.length_map, Array.length_toList] at lengths
  have labelAt (i : Nat) : old.labelAt? i = (rows[i]?).map Row.label := by
    rw [labelAt?, ← labels_getElem?, ← labels, List.getElem?_map]
  have newRow (i : Nat) : (ofRows ((sortedRows rows fixed).map Prod.fst).toArray).get? i =
      ((sortedRows rows fixed).map Prod.fst)[i]? := by
    rw [get?, rows_ofRows, List.getElem?_toArray]
  constructor
  case bijective =>
    obtain ⟨σ, here⟩ := exists_perm_sortedPlace? rows fixed
    rw [← length]
    exact ⟨σ, fun i => (goes i _).2 (here i)⟩
  case outside =>
    intro i beyond
    cases gone : place i with
    | error fault => exact ⟨fault, rfl⟩
    | ok p =>
      have inside : i < rows.length :=
        isSome_sortedPlace?.1 (Option.isSome_of_eq_some ((goes i p).1 gone))
      omega
  case size => rw [size, rows_ofRows, List.size_toArray, List.length_map, length_sortedRows, length]
  case front =>
    intro i lt
    exact (goes i i).2 (sortedPlace?_of_lt (by omega) (by omega))
  case rising =>
    intro p q a b behind lt here there
    rw [labelAt?, newRow] at here there
    obtain ⟨row, atP, rfl⟩ := Option.map_eq_some_iff.1 here
    obtain ⟨row', atQ, rfl⟩ := Option.map_eq_some_iff.1 there
    exact Ordering.isLE_iff_ne_gt.1 (sortedRows_rising behind lt atP atQ)
  case stable =>
    intro i j label p q behind lt first second gone gone'
    rw [labelAt] at first second
    obtain ⟨row, atI, rfl⟩ := Option.map_eq_some_iff.1 first
    obtain ⟨row', atJ, same⟩ := Option.map_eq_some_iff.1 second
    exact sortedPlace?_lt_of_lt behind lt atI atJ same.symm ((goes i p).1 gone)
      ((goes j q).1 gone')
  case carried =>
    intro i row here
    obtain ⟨row', there, carried⟩ := kept i row here
    obtain ⟨p, place, entry⟩ := @sortedRows_place _ _ _ fixed _ _ there
    exact ⟨p, row', (goes i p).2 place, (newRow p).trans entry, carried⟩
  case finds => exact findsFirst _

end Table

namespace UriTable

/-- What the canonical row of a URI has of its old row: the text, the prefixes, and the old local names
in canonical order where the old row had any. -/
structure RowSorts (t : UriTable) (i : Nat) (row row' : UriRow) : Prop where
  label : row'.label = row.label
  prefixes : row'.prefixes = row.prefixes
  findsPrefix : ∀ prefixes, row'.prefixes = some prefixes → prefixes.FindsFirst
  noNames : row.names = none → row'.names = none
  names : ∀ names, row.names = some names → ∃ names', row'.names = some names' ∧
    names.Arranges (reservedNames[i]?.getD 0) (fun l => t.sorted.mapping.name ⟨i, l⟩)
      (fun _ name name' => name' = name ∧ name'.values.FindsFirst) names'

variable {t : UriTable} {i : Nat} {row : UriRow}

theorem uri_eq_ok_iff {p : Nat} :
    t.sorted.mapping.uri i = .ok p ↔ sortedPlace? t.sortedRows reservedUris i = some p := by
  have places : t.sorted.mapping.uris[i]? = sortedPlace? t.sortedRows reservedUris i := rfl
  rw [Relocation.uri, places]
  split
  · next here => rw [here, Except.ok.injEq, Option.some.injEq]
  · next gone => simp [gone]

theorem name_eq_ok_iff {names : NameTable} (here : t.get? i = some row)
    (has : row.names = some names) {l p : Nat} :
    t.sorted.mapping.name ⟨i, l⟩ = .ok p ↔
      sortedPlace? names.rows.toList (reservedNames[i]?.getD 0) l = some p := by
  have places : t.sorted.mapping.names[i]? =
      some (some (inverse ((ExiSchema.sortedRows names.rows.toList (reservedNames[i]?.getD 0)).map
        Prod.snd))) := by
    rw [sorted_names here, sortedRow_of_names has]
    rfl
  simp only [Relocation.name, places, sortedPlace?]
  split
  · next there => rw [there, Except.ok.injEq, Option.some.injEq]
  · next gone => simp [gone]

theorem rowSorts (here : t.get? i = some row) : RowSorts t i row (sortedRow row i).1 := by
  constructor
  case label => exact label_sortedRow row i
  case prefixes =>
    unfold sortedRow
    split <;> rfl
  case findsPrefix => exact fun prefixes _ => prefixes.findsFirst
  case noNames =>
    intro without
    rw [sortedRow, without]
    exact without
  case names =>
    intro names has
    refine ⟨(sortedNames names (reservedNames[i]?.getD 0)).1, by rw [sortedRow_of_names has], ?_⟩
    refine Table.arranges_ofRows rfl (fun l p => name_eq_ok_iff here has) fun l name there => ?_
    exact ⟨name, Array.getElem?_toList.trans there, rfl, name.values.findsFirst⟩

/-- Sorting any tables, where no reference is to be moved: the grammars stay, the URI rows are arranged
behind the reserved ones, and so are the local names of each below the row it had. -/
theorem sorted_arranges (t : UriTable) (grammars : Array Grammar) :
    t.sorted.mapping.moveAll grammars [] = .ok grammars ∧
      t.Arranges reservedUris t.sorted.mapping.uri t.RowSorts t.sorted.uris := by
  refine ⟨rfl, ?_⟩
  rw [sorted_uris]
  refine Table.arranges_ofRows t.map_label_sortedRows (fun i p => uri_eq_ok_iff) fun i row here => ?_
  exact ⟨_, getElem?_sortedRows here, rowSorts here⟩

end UriTable

end ExiSchema
