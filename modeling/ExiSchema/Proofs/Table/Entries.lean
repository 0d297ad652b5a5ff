import ExiSchema.Table.Registration
import ExiSchema.Proofs.Table.Growth

/-!
What registrations that succeed make of the tables: no text stands twice, each table has the names
that were entered and those that it started with, and a URI has local names only if one was entered.
-/

set_option autoImplicit false

namespace ExiSchema

namespace Table

variable {α : Type} [Row α] {t : Table α} {i : Nat} {row : α}

def labels (t : Table α) : List Label := t.rows.toList.map Row.label

/-- No two rows have one text. -/
def Distinct (t : Table α) : Prop := t.labels.Nodup

theorem labels_getElem? : t.labels[i]? = (t.get? i).map Row.label := by
  rw [labels, List.getElem?_map, Array.getElem?_toList]
  rfl

theorem labels_append (row : α) : (t.append row).labels = t.labels ++ [Row.label row] := by
  simp [labels]

theorem labels_modifyRow (f : α → α) (keeps : ∀ r, Row.label (f r) = Row.label r) :
    (t.modifyRow i f keeps).labels = t.labels := by
  apply List.ext_getElem?
  intro j
  rw [labels_getElem?, labels_getElem?, get?_modifyRow]
  split
  · cases t.get? j <;> simp [keeps]
  · rfl

theorem labels_ofRows (rows : Array α) : (ofRows rows).labels = rows.toList.map Row.label := by
  rw [labels, rows_ofRows]

theorem isSome_lookup_append {text : String} (row : α) :
    ((t.append row).lookup text).isSome ↔ (t.lookup text).isSome ∨ (Row.label row).text = text := by
  rw [lookup_append, Option.isSome_or, Bool.or_eq_true]
  refine or_congr_right ?_
  by_cases same : (Row.label row).text = text
  · rw [if_pos same]
    exact iff_of_true rfl same
  · rw [if_neg same]
    exact iff_of_false Bool.false_ne_true same

theorem distinct_empty : (empty : Table α).Distinct := List.nodup_nil

theorem Distinct.append (distinct : t.Distinct) (absent : t.lookup (Row.label row).text = none) :
    (t.append row).Distinct := by
  rw [Distinct, labels_append, List.nodup_append_comm, List.singleton_append, List.nodup_cons]
  refine ⟨fun mem => ?_, distinct⟩
  obtain ⟨j, here⟩ := List.mem_iff_getElem?.1 mem
  rw [labels_getElem?] at here
  obtain ⟨other, there, same⟩ := Option.map_eq_some_iff.1 here
  exact lookup_eq_none_iff.1 absent j other there (congrArg Label.text same)

/-- Where no text stands twice, every row is the first of its text. -/
theorem Distinct.lookup (distinct : t.Distinct) (here : t.get? i = some row) :
    t.lookup (Row.label row).text = some i := by
  obtain ⟨j, found⟩ := Option.isSome_iff_exists.1 (lookup_isSome_iff.2 ⟨i, row, here, rfl⟩)
  obtain ⟨other, there, text⟩ := text_of_lookup found
  have same : t.labels[i]? = t.labels[j]? := by
    rw [labels_getElem?, labels_getElem?, here, there, Option.map_some, Option.map_some,
      Label.text_injective text]
  have lt : i < t.labels.length := by
    rw [labels, List.length_map, Array.length_toList]
    exact lt_size_of_get? here
  rw [found, (List.getElem?_inj lt distinct).1 same]

end Table

namespace UriRow

/-- The row with one more local name, in a new table if it has none. -/
def entered (row : UriRow) (label : Label) : UriRow :=
  { row with names := some ((row.names.getD .empty).append { label }) }

theorem label_entered (label : Label) (row : UriRow) :
    Row.label (row.entered label) = Row.label row := rfl

/-- No local name stands twice; and, but for the reserved rows, there are no prefixes, and no table
of local names without a name. -/
structure Regular (row : UriRow) (i : Nat) : Prop where
  distinct : ∀ names, row.names = some names → names.Distinct
  values : ∀ names, row.names = some names → ∀ j name, names.get? j = some name →
    name.values = .empty
  inhabited : UriTable.reservedUris ≤ i → ∀ names, row.names = some names → 0 < names.size
  prefixes : UriTable.reservedUris ≤ i → row.prefixes = none

theorem regular_new (label : Label) (i : Nat) : Regular { label } i := by
  constructor
  · rintro names ⟨⟩
  · rintro names ⟨⟩
  · rintro _ names ⟨⟩
  · exact fun _ => rfl

theorem Regular.entered {row : UriRow} {i : Nat} {label : Label} (regular : row.Regular i)
    (absent : (row.names.getD .empty).lookup label.text = none) : (row.entered label).Regular i := by
  have before : (row.names.getD .empty).Distinct ∧
      ∀ j name, (row.names.getD .empty).get? j = some name → name.values = .empty := by
    cases has : row.names with
    | none => exact ⟨Table.distinct_empty, by simp⟩
    | some names => exact ⟨regular.distinct names has, regular.values names has⟩
  constructor
  · rintro _ ⟨⟩
    exact before.1.append absent
  · rintro _ ⟨⟩ j name here
    rw [Table.get?_append] at here
    split at here
    · cases here
      rfl
    · exact before.2 j name here
  · rintro _ _ ⟨⟩
    rw [Table.size_append]
    exact Nat.succ_pos _
  · exact regular.prefixes

end UriRow

namespace UriTable

variable {t u : UriTable} {q : QName} {uri : Nat} {label : Label}

/-- No text stands twice, and the tables that every compilation starts with are still there. -/
structure Regular (t : UriTable) : Prop where
  reserved : initial.Extends t
  distinct : t.Distinct
  row : ∀ i row, t.get? i = some row → row.Regular i

def HasUri (t : UriTable) (uri : String) : Prop := (t.lookup uri).isSome

def HasName (t : UriTable) (q : QName) : Prop := (t.find? q).isSome

/-- The table with one more local name under a URI row, in a new table if it has none. -/
def entered (t : UriTable) (uri : Nat) (label : Label) : UriTable :=
  t.modifyRow uri (·.entered label) (UriRow.label_entered label)

theorem withName_opened (t : UriTable) (uri : Nat) (label : Label) :
    (t.opened uri).withName uri label = t.entered uri label :=
  Table.modifyRow_modifyRow fun _ => rfl

theorem opened_eq_self {names : NameTable} (has : t.names? uri = some names) :
    t.opened uri = t := by
  refine Table.modifyRow_eq_self fun row here => ?_
  have has' : row.names = some names := by
    rwa [names?, here, Option.bind_some] at has
  cases row
  cases has'
  rfl

theorem labels_nameTable (names : List String) :
    (nameTable names).labels = names.filterMap Label.ofText? := by
  rw [nameTable, Table.labels_ofRows, List.toList_toArray, List.map_map]
  exact List.map_id _

theorem regular_reservedRow {uri : String} {names prefixes : List String} {row : UriRow} {i : Nat}
    (distinct : (names.filterMap Label.ofText?).Nodup) (lt : i < reservedUris)
    (here : reservedRow uri names prefixes = some row) : row.Regular i := by
  obtain ⟨label, _, rfl⟩ := Option.map_eq_some_iff.1 here
  constructor
  · rintro _ ⟨⟩
    rwa [Table.Distinct, labels_nameTable]
  · rintro _ ⟨⟩ j name entry
    rw [nameTable, Table.get?, Table.rows_ofRows, List.getElem?_toArray, List.getElem?_map] at entry
    obtain ⟨_, _, rfl⟩ := Option.map_eq_some_iff.1 entry
    rfl
  · exact fun le => absurd lt (Nat.not_lt.2 le)
  · exact fun le => absurd lt (Nat.not_lt.2 le)

theorem regular_initial : initial.Regular := by
  have distinct : initial.labels.Nodup := by decide +kernel
  refine ⟨.refl _, distinct, fun i row here => ?_⟩
  have lt : i < reservedUris := by
    have size : initial.size = reservedUris := by decide +kernel
    exact size ▸ Table.lt_size_of_get? here
  rw [initial, Table.get?, Table.rows_ofRows, List.getElem?_toArray] at here
  have mem := List.mem_of_getElem? here
  rw [List.reduceOption_mem_iff] at mem
  simp only [List.mem_cons, List.not_mem_nil, or_false] at mem
  rcases mem with first | second | third | fourth
  · exact regular_reservedRow (by decide) lt first.symm
  · exact regular_reservedRow (by decide +kernel) lt second.symm
  · exact regular_reservedRow (by decide +kernel) lt third.symm
  · exact regular_reservedRow (by decide +kernel) lt fourth.symm

theorem Regular.append (regular : t.Regular) (absent : t.lookup label.text = none) :
    Regular (t.append { label }) := by
  refine ⟨regular.reserved.trans fun i row here => ?_, regular.distinct.append absent, ?_⟩
  · exact ⟨row, Table.get?_append_of_some here, .refl row⟩
  · intro i row here
    rw [Table.get?_append] at here
    split at here
    · cases here
      exact UriRow.regular_new label i
    · exact regular.row i row here

theorem Regular.entered (regular : t.Regular)
    (absent : ((t.names? uri).getD .empty).lookup label.text = none) :
    (t.entered uri label).Regular := by
  refine ⟨regular.reserved.trans (extends_modifyRow fun row _ => ⟨rfl, rfl, ?_⟩), ?_, ?_⟩
  · intro names has
    refine ⟨_, rfl, fun i name here => ?_⟩
    rw [has]
    exact Table.get?_append_of_some here
  · rw [Table.Distinct, UriTable.entered, Table.labels_modifyRow]
    exact regular.distinct
  · intro i row here
    rw [UriTable.entered, Table.get?_modifyRow] at here
    split at here
    · next same =>
      subst same
      obtain ⟨row, there, rfl⟩ := Option.map_eq_some_iff.1 here
      rw [names?, there, Option.bind_some] at absent
      exact (regular.row _ row there).entered absent
    · exact regular.row i row here

theorem hasName_iff : t.HasName q ↔ ∃ uri names, t.lookup q.uri = some uri ∧
    t.names? uri = some names ∧ (names.lookup q.localName).isSome := by
  simp only [HasName, Option.isSome_iff_exists, find?_eq_some_iff]
  constructor
  · rintro ⟨ref, found, names, has, inner⟩
    exact ⟨ref.uri, names, found, has, ref.name, inner⟩
  · rintro ⟨uri, names, found, has, name, inner⟩
    exact ⟨⟨uri, name⟩, found, names, has, inner⟩

theorem hasUri_append {text : String} :
    HasUri (t.append { label }) text ↔ t.HasUri text ∨ label.text = text :=
  Table.isSome_lookup_append _

theorem names?_append (i : Nat) : names? (t.append { label }) i = t.names? i := by
  rw [names?, names?, Table.get?_append]
  split
  · next last =>
    have beyond : ¬(t.get? i).isSome := by
      rw [Table.get?_isSome_iff, last]
      exact Nat.lt_irrefl _
    rw [Option.not_isSome_iff_eq_none.1 beyond]
    rfl
  · rfl

theorem hasName_append : HasName (t.append { label }) q ↔ t.HasName q := by
  rw [hasName_iff, hasName_iff]
  constructor
  · rintro ⟨uri, names, found, has, inner⟩
    rw [names?_append] at has
    rw [Table.lookup_append] at found
    cases before : t.lookup q.uri with
    | some i =>
      rw [before] at found
      cases found
      exact ⟨_, names, rfl, has, inner⟩
    | none =>
      -- The URI is the new one, which has no local names.
      rw [before, Option.none_or, Option.ite_none_right_eq_some] at found
      cases found.2
      obtain ⟨row, here, _⟩ := Option.bind_eq_some_iff.1 has
      exact absurd (Table.lt_size_of_get? here) (Nat.lt_irrefl _)
  · rintro ⟨uri, names, found, has, inner⟩
    refine ⟨uri, names, ?_, (names?_append uri).trans has, inner⟩
    rw [Table.lookup_append, found]
    rfl

theorem names?_entered (lt : uri < t.size) :
    (t.entered uri label).names? uri = some (((t.names? uri).getD .empty).append { label }) := by
  obtain ⟨row, here⟩ := Option.isSome_iff_exists.1 (Table.get?_isSome_iff.2 lt)
  simp only [names?, UriTable.entered, Table.get?_modifyRow, if_true, here, Option.map_some,
    Option.bind_some, UriRow.entered]

theorem names?_entered_of_ne {i : Nat} (ne : uri ≠ i) :
    (t.entered uri label).names? i = t.names? i := by
  simp only [names?, UriTable.entered, Table.get?_modifyRow, if_neg ne]

theorem eq_of_lookup_eq {text text' : String} (found : t.lookup text = some uri)
    (found' : t.lookup text' = some uri) : text = text' := by
  obtain ⟨row, here, rfl⟩ := Table.text_of_lookup found
  obtain ⟨row', here', rfl⟩ := Table.text_of_lookup found'
  cases here.symm.trans here'
  rfl

theorem hasName_entered (found : t.lookup q.uri = some uri) (text : label.text = q.localName)
    {q' : QName} : (t.entered uri label).HasName q' ↔ t.HasName q' ∨ q' = q := by
  have lt := Table.lt_size_of_lookup found
  have lookup (s : String) : (t.entered uri label).lookup s = t.lookup s := Table.lookup_modifyRow _ _
  simp only [hasName_iff, lookup]
  constructor
  · rintro ⟨uri', names, found', has, inner⟩
    by_cases same : uri = uri'
    · subst same
      cases (names?_entered lt).symm.trans has
      rcases (Table.isSome_lookup_append _).1 inner with old | new
      · cases before : t.names? uri with
        | none =>
          rw [before, Option.getD_none, Table.lookup_empty] at old
          cases old
        | some names =>
          rw [before] at old
          exact .inl ⟨uri, names, found', before, old⟩
      · right
        cases q
        cases q'
        cases eq_of_lookup_eq found found'
        exact congrArg _ (new.symm.trans text)
    · rw [names?_entered_of_ne same] at has
      exact .inl ⟨uri', names, found', has, inner⟩
  · rintro (⟨uri', names, found', has, inner⟩ | rfl)
    · by_cases same : uri = uri'
      · subst same
        refine ⟨uri, _, found', names?_entered lt, ?_⟩
        rw [has]
        exact (Table.isSome_lookup_append _).2 (.inl inner)
      · exact ⟨uri', names, found', (names?_entered_of_ne same).trans has, inner⟩
    · refine ⟨uri, _, found, names?_entered lt, ?_⟩
      exact (Table.isSome_lookup_append _).2 (.inr text)

/-- The tables have just these names besides those that they had. -/
structure Gains (t u : UriTable) (uris : List String) (names : List QName) : Prop where
  regular : t.Regular → u.Regular
  uri : ∀ text, u.HasUri text ↔ t.HasUri text ∨ text ∈ uris
  name : ∀ q, u.HasName q ↔ t.HasName q ∨ q ∈ names

theorem Gains.refl (t : UriTable) : t.Gains t [] [] :=
  ⟨id, fun _ => (or_iff_left List.not_mem_nil).symm, fun _ => (or_iff_left List.not_mem_nil).symm⟩

theorem Gains.trans {v : UriTable} {uris uris' : List String} {names names' : List QName}
    (first : t.Gains u uris names) (second : u.Gains v uris' names') :
    t.Gains v (uris ++ uris') (names ++ names') := by
  refine ⟨second.regular ∘ first.regular, fun text => ?_, fun q => ?_⟩
  · rw [second.uri, first.uri, List.mem_append, or_assoc]
  · rw [second.name, first.name, List.mem_append, or_assoc]

theorem yields_enterUri_gains (text : String) (t : UriTable) :
    Yields (enterUri text) t (fun row u => u.lookup text = some row ∧ t.Gains u [text] [])
      fun _ _ => True := by
  refine (yields_enterUri_cases text t).mono ?_ fun _ _ _ => trivial
  rintro row u (⟨rfl, found⟩ | ⟨label, rfl, absent, rfl, _, rfl⟩)
  · refine ⟨found, id, fun text' => ?_, fun q => (or_iff_left List.not_mem_nil).symm⟩
    rw [List.mem_singleton, iff_self_or]
    rintro rfl
    rw [HasUri, found]
    rfl
  · refine ⟨?_, (·.append absent), fun text' => ?_, fun q => ?_⟩
    · rw [Table.lookup_append, absent]
      exact if_pos rfl
    · rw [hasUri_append, List.mem_singleton, @eq_comm _ text']
    · rw [hasName_append, or_iff_left List.not_mem_nil]

theorem yields_enterLocal_gains (found : t.lookup q.uri = some uri) :
    Yields (enterLocal uri q.localName) t (fun name u => u.find? q = some ⟨uri, name⟩ ∧
      t.Gains u [] [q]) fun _ _ => True := by
  have lt := Table.lt_size_of_lookup found
  refine (yields_enterLocal_cases q.localName lt).mono ?_ fun _ _ _ => trivial
  rintro name u (⟨rfl, here⟩ | ⟨label, text, absent, rfl, _, rfl⟩)
  · obtain ⟨names, has⟩ : ∃ names, t.names? uri = some names := by
      cases has : t.names? uri with
      | none =>
        rw [has, Option.getD_none, Table.lookup_empty] at here
        cases here
      | some names => exact ⟨names, rfl⟩
    rw [has, Option.getD_some] at here
    have found' : t.find? q = some ⟨uri, name⟩ := find?_eq_some_iff.2 ⟨found, names, has, here⟩
    rw [opened_eq_self has]
    refine ⟨found', id, fun _ => (or_iff_left List.not_mem_nil).symm, fun q' => ?_⟩
    rw [List.mem_singleton, iff_self_or]
    rintro rfl
    rw [HasName, found']
    rfl
  · rw [← text] at absent
    rw [withName_opened]
    have lookup (s : String) : (t.entered uri label).lookup s = t.lookup s :=
      Table.lookup_modifyRow _ _
    refine ⟨?_, (·.entered absent), fun s => ?_, fun q' => ?_⟩
    · refine find?_eq_some_iff.2 ⟨(lookup _).trans found, _, names?_entered lt, ?_⟩
      rw [Table.lookup_append, ← text, absent]
      exact if_pos rfl
    · rw [HasUri, lookup, or_iff_left List.not_mem_nil]
      rfl
    · rw [hasName_entered found text, List.mem_singleton]

theorem yields_enterName_gains (q : QName) (t : UriTable) :
    Yields (enterName q) t (fun ref u => u.find? q = some ref ∧ t.Gains u [q.uri] [q])
      fun _ _ => True := by
  refine (yields_enterUri_gains q.uri t).bind ?_
  rintro uri u ⟨found, gains⟩
  refine (yields_enterLocal_gains found).bind ?_
  rintro name v ⟨here, more⟩
  exact yields_pure ⟨here, gains.trans more⟩

end UriTable

namespace Registration

open UriTable

variable {t u : UriTable}

theorem discard_eq_ok {α : Type} {action : Action α} (run : (discard action) t = .ok () u) :
    ∃ a, action t = .ok a u := by
  change (action >>= fun _ => pure ()) t = .ok () u at run
  obtain ⟨a, _, here, rest⟩ := bind_eq_ok.1 run
  cases rest
  exact ⟨a, here⟩

theorem gains_of_run {r : Registration} (run : r.run t = .ok () u) :
    t.Gains u (uris [r]) (names [r]) := by
  cases r with
  | ofUri uri =>
    obtain ⟨row, here⟩ := discard_eq_ok run
    exact ((yields_enterUri_gains uri t).ok_of_eq here).2
  | ofName q =>
    obtain ⟨ref, here⟩ := discard_eq_ok run
    exact ((yields_enterName_gains q t).ok_of_eq here).2

theorem gains_of_runAll {rs : List Registration} (run : runAll rs t = .ok () u) :
    t.Gains u (uris rs) (names rs) := by
  induction rs generalizing t with
  | nil =>
    cases run
    exact .refl _
  | cons r rs ih =>
    obtain ⟨_, v, first, rest⟩ := bind_eq_ok.1 run
    have more := (gains_of_run first).trans (ih rest)
    rwa [uris, uris, ← List.map_append, names, names, ← List.filterMap_append] at more

end Registration

end ExiSchema
