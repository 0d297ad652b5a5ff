import Mathlib
import ExiSchema.Proofs.Actions
import ExiSchema.Proofs.Table.Rows
import ExiSchema.Schema.Meaning

/-!
How the string tables grow. Registering changes them in three ways only: a URI is added, a URI gets
its table of local names, or a local name is added. Every row keeps its number and its text, so what
a name was once found to be stays so.
-/

set_option autoImplicit false

namespace ExiSchema

/-- Row numbers for the names that a type model may mention. -/
structure Naming where
  uri : String → Nat
  name : QName → NameRef

theorem Label.text_of_ofText {text : String} {label : Label} (checked : ofText text = .ok label) :
    label.text = text := by
  unfold ofText at checked
  split at checked
  · next found =>
    cases checked
    exact ofText?_eq_some_iff.1 found
  · cases checked

theorem Label.ofText_eq_ok {text : String} (ascii : Text.isAscii text = true) :
    ofText text = .ok ⟨text, ascii⟩ := by
  have found : ofText? text = some ⟨text, ascii⟩ := ofText?_eq_some_iff.2 rfl
  rw [ofText, found]

/-- Whether the tables can hold a name. -/
def QName.check (q : QName) : Except Fault Unit := do
  let _ ← Label.ofText q.uri
  let _ ← Label.ofText q.localName
  return ()

theorem QName.check_eq_ok {q : QName} (uri : Text.isAscii q.uri = true)
    (localName : Text.isAscii q.localName = true) : q.check = .ok () := by
  rw [check, Label.ofText_eq_ok uri, Label.ofText_eq_ok localName]
  rfl

theorem QName.check_of_uri {q : QName} {f : Fault} (bad : Label.ofText q.uri = .error f) :
    q.check = .error f := by
  rw [check, bad]
  rfl

theorem QName.check_of_localName {q : QName} {f : Fault} (uri : Text.isAscii q.uri = true)
    (bad : Label.ofText q.localName = .error f) : q.check = .error f := by
  rw [check, Label.ofText_eq_ok uri, bad]
  rfl

namespace UriRow

/-- The row with its table of local names, or an empty one. -/
def opened (row : UriRow) : UriRow := { row with names := some (row.names.getD .empty) }

/-- The row with one more local name, if it has a table of them. -/
def withName (row : UriRow) (label : Label) : UriRow :=
  { row with names := row.names.map (Table.append · { label }) }

theorem label_opened (row : UriRow) : Row.label row.opened = Row.label row := rfl

theorem label_withName (label : Label) (row : UriRow) :
    Row.label (row.withName label) = Row.label row := rfl

end UriRow

namespace UriTable

/-- The numbers that a table gives to the names that it has. -/
def naming (t : UriTable) : Naming where
  uri text := (t.lookup text).getD 0
  name q := (t.find? q).getD default

/-- The naming gives every name of the table the row that the table has for it. -/
structure Fits (t : UriTable) (ν : Naming) : Prop where
  uri : ∀ text row, t.lookup text = some row → ν.uri text = row
  name : ∀ q ref, t.find? q = some ref → ν.name q = ref

theorem fits_naming (t : UriTable) : t.Fits t.naming :=
  ⟨fun _ _ found => by simp only [naming, found, Option.getD_some],
    fun _ _ found => by simp only [naming, found, Option.getD_some]⟩

/-- The table with a table of local names under a URI row. -/
def opened (t : UriTable) (uri : Nat) : UriTable :=
  t.modifyRow uri UriRow.opened UriRow.label_opened

/-- The table with one more local name under a URI row. -/
def withName (t : UriTable) (uri : Nat) (label : Label) : UriTable :=
  t.modifyRow uri (·.withName label) (UriRow.label_withName label)

inductive Change : UriTable → UriTable → Prop where
  | uri {t : UriTable} {label : Label} (absent : t.lookup label.text = none)
      (room : t.size < Table.rowLimit) : Change t (t.append { label })
  | opened {t : UriTable} {uri : Nat} (lt : uri < t.size) : Change t (t.opened uri)
  | name {t : UriTable} {uri : Nat} {names : NameTable} {label : Label}
      (has : t.names? uri = some names) (absent : names.lookup label.text = none)
      (room : names.size < Table.rowLimit) : Change t (t.withName uri label)

def Grows : UriTable → UriTable → Prop := Relation.ReflTransGen Change

theorem Grows.refl (t : UriTable) : t.Grows t := Relation.ReflTransGen.refl

theorem Grows.trans {t u v : UriTable} (first : t.Grows u) (second : u.Grows v) : t.Grows v :=
  Relation.ReflTransGen.trans first second

theorem Change.grows {t u : UriTable} (change : Change t u) : t.Grows u := .single change

/-- The row with its local names, and perhaps more behind them. -/
structure RowExtends (old new : UriRow) : Prop where
  label : new.label = old.label
  prefixes : new.prefixes = old.prefixes
  names : ∀ names, old.names = some names → ∃ names', new.names = some names' ∧
    ∀ i row, names.get? i = some row → names'.get? i = some row

theorem RowExtends.refl (row : UriRow) : RowExtends row row :=
  ⟨rfl, rfl, fun names has => ⟨names, has, fun _ _ here => here⟩⟩

theorem RowExtends.trans {a b c : UriRow} (first : RowExtends a b) (second : RowExtends b c) :
    RowExtends a c := by
  refine ⟨second.label.trans first.label, second.prefixes.trans first.prefixes, ?_⟩
  intro names has
  obtain ⟨names', has', kept⟩ := first.names names has
  obtain ⟨names'', has'', kept'⟩ := second.names names' has'
  exact ⟨names'', has'', fun i row here => kept' i row (kept i row here)⟩

/-- Every row is still there. -/
def Extends (t u : UriTable) : Prop :=
  ∀ i row, t.get? i = some row → ∃ row', u.get? i = some row' ∧ RowExtends row row'

theorem Extends.refl (t : UriTable) : t.Extends t :=
  fun _ row here => ⟨row, here, .refl row⟩

theorem Extends.trans {t u v : UriTable} (first : t.Extends u) (second : u.Extends v) :
    t.Extends v := by
  intro i row here
  obtain ⟨row', here', kept⟩ := first i row here
  obtain ⟨row'', here'', kept'⟩ := second i row' here'
  exact ⟨row'', here'', kept.trans kept'⟩

theorem extends_modifyRow {t : UriTable} {uri : Nat} {f : UriRow → UriRow}
    {keeps : ∀ r, Row.label (f r) = Row.label r}
    (kept : ∀ row, t.get? uri = some row → RowExtends row (f row)) :
    t.Extends (t.modifyRow uri f keeps) := by
  intro i row here
  rw [Table.get?_modifyRow]
  by_cases changed : uri = i
  · subst changed
    exact ⟨f row, by rw [if_pos rfl, here]; rfl, kept row here⟩
  · exact ⟨row, by rw [if_neg changed, here], .refl row⟩

theorem Change.extends {t u : UriTable} (change : Change t u) : t.Extends u := by
  cases change with
  | uri _ _ => exact fun i row here => ⟨row, Table.get?_append_of_some here, .refl row⟩
  | opened _ =>
    refine extends_modifyRow fun row _ => ⟨rfl, rfl, fun names has => ?_⟩
    exact ⟨names, by rw [UriRow.opened, has]; rfl, fun _ _ here => here⟩
  | name _ _ _ =>
    refine extends_modifyRow fun row _ => ⟨rfl, rfl, fun names has => ?_⟩
    exact ⟨_, by rw [UriRow.withName, has]; rfl, fun _ _ here => Table.get?_append_of_some here⟩

theorem Grows.extends {t u : UriTable} (grows : t.Grows u) : t.Extends u := by
  induction grows with
  | refl => exact .refl t
  | tail _ change ih => exact ih.trans change.extends

section

variable {t u : UriTable}

theorem Extends.labelAt? (ext : t.Extends u) {i : Nat} {label : Label}
    (here : t.labelAt? i = some label) : u.labelAt? i = some label := by
  obtain ⟨row, here', rfl⟩ := Option.map_eq_some_iff.1 here
  obtain ⟨row', there, kept⟩ := ext i row here'
  exact Option.map_eq_some_iff.2 ⟨row', there, kept.label⟩

theorem Extends.lookup (ext : t.Extends u) {text : String} {i : Nat}
    (found : t.lookup text = some i) : u.lookup text = some i := by
  refine Table.lookup_of_extends (fun i row here => ?_) found
  obtain ⟨row', there, kept⟩ := ext i row here
  exact ⟨row', there, kept.label⟩

theorem Extends.names? (ext : t.Extends u) {uri : Nat} {names : NameTable}
    (has : t.names? uri = some names) : ∃ names', u.names? uri = some names' ∧
      ∀ i row, names.get? i = some row → names'.get? i = some row := by
  obtain ⟨row, here, has'⟩ := Option.bind_eq_some_iff.1 has
  obtain ⟨row', there, kept⟩ := ext uri row here
  obtain ⟨names', has'', rows⟩ := kept.names names has'
  exact ⟨names', Option.bind_eq_some_iff.2 ⟨row', there, has''⟩, rows⟩

theorem find?_eq_some_iff {q : QName} {ref : NameRef} :
    t.find? q = some ref ↔ t.lookup q.uri = some ref.uri ∧
      ∃ names, t.names? ref.uri = some names ∧ names.lookup q.localName = some ref.name := by
  simp only [find?, Option.bind_eq_bind, Option.bind_eq_some_iff, Option.pure_def,
    Option.some.injEq]
  constructor
  · rintro ⟨_, found, _, ⟨names, has, local_⟩, rfl⟩
    exact ⟨found, names, has, local_⟩
  · rintro ⟨found, names, has, local_⟩
    exact ⟨_, found, _, ⟨names, has, local_⟩, rfl⟩

theorem Extends.find? (ext : t.Extends u) {q : QName} {ref : NameRef}
    (found : t.find? q = some ref) : u.find? q = some ref := by
  obtain ⟨uri, names, has, local_⟩ := find?_eq_some_iff.1 found
  obtain ⟨names', has', kept⟩ := ext.names? has
  refine find?_eq_some_iff.2 ⟨ext.lookup uri, names', has', ?_⟩
  exact Table.lookup_of_extends (fun i row here => ⟨row, kept i row here, rfl⟩) local_

theorem Extends.nameLabel? (ext : t.Extends u) {ref : NameRef} {label : Label}
    (here : t.nameLabel? ref = some label) : u.nameLabel? ref = some label := by
  obtain ⟨names, has, row⟩ := Option.bind_eq_some_iff.1 here
  obtain ⟨names', has', kept⟩ := ext.names? has
  obtain ⟨r, there, rfl⟩ := Option.map_eq_some_iff.1 row
  exact Option.bind_eq_some_iff.2 ⟨names', has', Option.map_eq_some_iff.2 ⟨r, kept _ r there, rfl⟩⟩

theorem resolve?_eq_some_iff {q : QName} {ref : NameRef} :
    t.resolve? ref = some q ↔
      ∃ uri name, t.labelAt? ref.uri = some uri ∧ t.nameLabel? ref = some name ∧
        q = ⟨uri.text, name.text⟩ := by
  simp only [resolve?, Option.bind_eq_bind, Option.bind_eq_some_iff, Option.pure_def,
    Option.some.injEq]
  constructor
  · rintro ⟨uri, label, name, label', rfl⟩
    exact ⟨uri, name, label, label', rfl⟩
  · rintro ⟨uri, name, label, label', rfl⟩
    exact ⟨uri, label, name, label', rfl⟩

theorem Extends.resolve? (ext : t.Extends u) {q : QName} {ref : NameRef}
    (here : t.resolve? ref = some q) : u.resolve? ref = some q := by
  obtain ⟨uri, name, label, label', rfl⟩ := resolve?_eq_some_iff.1 here
  exact resolve?_eq_some_iff.2 ⟨uri, name, ext.labelAt? label, ext.nameLabel? label', rfl⟩

/-- A name is found where it stands. -/
theorem resolve?_of_find? {q : QName} {ref : NameRef} (found : t.find? q = some ref) :
    t.resolve? ref = some q := by
  obtain ⟨uri, names, has, local_⟩ := find?_eq_some_iff.1 found
  obtain ⟨row, here, text⟩ := Table.text_of_lookup uri
  obtain ⟨row', here', text'⟩ := Table.text_of_lookup local_
  refine resolve?_eq_some_iff.2 ⟨row.label, row'.label, ?_, ?_, ?_⟩
  · exact Option.map_eq_some_iff.2 ⟨row, here, rfl⟩
  · exact Option.bind_eq_some_iff.2 ⟨names, has, Option.map_eq_some_iff.2 ⟨row', here', rfl⟩⟩
  · cases q
    exact congrArg₂ _ text.symm text'.symm

theorem Fits.of_extends {ν : Naming} (fits : u.Fits ν) (ext : t.Extends u) : t.Fits ν :=
  ⟨fun text row found => fits.uri text row (ext.lookup found),
    fun q ref found => fits.name q ref (ext.find? found)⟩

end

theorem names?_opened {t : UriTable} {uri : Nat} (lt : uri < t.size) :
    (t.opened uri).names? uri = some ((t.names? uri).getD .empty) := by
  obtain ⟨row, here⟩ := Option.isSome_iff_exists.1 (Table.get?_isSome_iff.2 lt)
  simp only [names?, opened, Table.get?_modifyRow, if_true, here, Option.map_some,
    Option.bind_some, UriRow.opened]

theorem names?_withName {t : UriTable} {uri : Nat} {names : NameTable} {label : Label}
    (has : t.names? uri = some names) :
    (t.withName uri label).names? uri = some (names.append { label }) := by
  obtain ⟨row, here, has'⟩ := Option.bind_eq_some_iff.1 has
  simp only [names?, withName, Table.get?_modifyRow, if_true, here, Option.map_some,
    Option.bind_some, UriRow.withName, has']

theorem opened_opened (t : UriTable) (uri : Nat) : (t.opened uri).opened uri = t.opened uri :=
  Table.modifyRow_modifyRow fun _ => rfl

/-- A URI is there already, or it gets the next row. -/
theorem yields_enterUri_cases (uri : String) (t : UriTable) :
    Yields (enterUri uri) t
      (fun row u => u = t ∧ t.lookup uri = some row ∨
        ∃ label : Label, label.text = uri ∧ t.lookup uri = none ∧ row = t.size ∧
          t.size < Table.rowLimit ∧ u = t.append { label })
      (fun f u => u = t ∧
        (f = .memoryAllocation ∧ Table.rowLimit ≤ t.size ∨ Label.ofText uri = .error f)) := by
  unfold Yields enterUri
  cases found : t.lookup uri with
  | some row => exact .inl ⟨rfl, rfl⟩
  | none =>
    cases checked : Label.ofText uri with
    | error fault => exact ⟨rfl, .inr rfl⟩
    | ok label =>
      have text : label.text = uri := Label.text_of_ofText checked
      by_cases room : t.size < Table.rowLimit
      · simp only [addUri, Table.push, if_pos room]
        exact .inr ⟨label, text, trivial, trivial, room, rfl⟩
      · simp only [addUri, Table.push, if_neg room]
        exact ⟨trivial, .inl ⟨trivial, Nat.not_lt.1 room⟩⟩

/-- A local name is there already, or it gets the next row of its table. -/
theorem yields_enterLocal_cases {uri : Nat} (localName : String) {t : UriTable} (lt : uri < t.size) :
    Yields (enterLocal uri localName) t
      (fun row u => u = t.opened uri ∧ ((t.names? uri).getD .empty).lookup localName = some row ∨
        ∃ label : Label, label.text = localName ∧
          ((t.names? uri).getD .empty).lookup localName = none ∧
          row = ((t.names? uri).getD .empty).size ∧
          ((t.names? uri).getD .empty).size < Table.rowLimit ∧ u = (t.opened uri).withName uri label)
      (fun f u => u = t.opened uri ∧ (f = .memoryAllocation ∨ Label.ofText localName = .error f)) := by
  have opens : openNames uri t = .ok () (t.opened uri) := if_pos lt
  have again : openNames uri (t.opened uri) = .ok () ((t.opened uri).opened uri) :=
    if_pos (by rwa [opened, Table.size_modifyRow])
  rw [opened_opened] at again
  have here := names?_opened lt
  unfold Yields enterLocal
  simp only [bind, EStateM.bind, opens, here, Option.bind_some]
  cases found : ((t.names? uri).getD .empty).lookup localName with
  | some row => exact .inl ⟨rfl, rfl⟩
  | none =>
    cases checked : Label.ofText localName with
    | error fault => exact ⟨rfl, .inr rfl⟩
    | ok label =>
      have text : label.text = localName := Label.text_of_ofText checked
      simp only [addName, bind, EStateM.bind, again, here, Option.map_some, Option.getD_some]
      by_cases room : ((t.names? uri).getD .empty).size < Table.rowLimit
      · rw [if_pos room]
        exact .inr ⟨label, text, trivial, rfl, room, rfl⟩
      · rw [if_neg room]
        exact ⟨rfl, .inl rfl⟩

/-- A URI that is entered has its row from then on. -/
theorem yields_enterUri (uri : String) (t : UriTable) :
    Yields (enterUri uri) t
      (fun row u => t.Grows u ∧ u.lookup uri = some row ∧ Text.isAscii uri = true)
      (fun f u => t.Grows u ∧ (f = .memoryAllocation ∨ Label.ofText uri = .error f)) := by
  refine (yields_enterUri_cases uri t).mono ?_ ?_
  · rintro row u (⟨rfl, found⟩ | ⟨label, rfl, absent, rfl, room, rfl⟩)
    · obtain ⟨r, _, rfl⟩ := Table.text_of_lookup found
      exact ⟨.refl u, found, r.label.ascii⟩
    · refine ⟨(Change.uri absent room).grows, ?_, label.ascii⟩
      rw [Table.lookup_append, absent]
      exact if_pos rfl
  · rintro f u ⟨rfl, cause⟩
    exact ⟨.refl u, cause.imp_left And.left⟩

/-- A URI takes one row at most. It is refused for its text, or if no row is left. -/
theorem yields_enterUri_room (uri : String) (t : UriTable) :
    Yields (enterUri uri) t (fun _ u => u.size ≤ t.size + 1)
      (fun f _ => f = .memoryAllocation ∧ Table.rowLimit ≤ t.size ∨ Label.ofText uri = .error f) := by
  refine (yields_enterUri_cases uri t).mono ?_ fun _ _ bad => bad.2
  rintro row u (⟨rfl, _⟩ | ⟨label, _, _, _, _, rfl⟩)
  · omega
  · simp

theorem yields_enterLocal {uri : Nat} (localName : String) {t : UriTable} (lt : uri < t.size) :
    Yields (enterLocal uri localName) t
      (fun row u => t.Grows u ∧ Text.isAscii localName = true ∧
        ∃ names, u.names? uri = some names ∧ names.lookup localName = some row)
      (fun f u => t.Grows u ∧ (f = .memoryAllocation ∨ Label.ofText localName = .error f)) := by
  have opens : t.Grows (t.opened uri) := (Change.opened lt).grows
  have here := names?_opened lt
  refine (yields_enterLocal_cases localName lt).mono ?_ ?_
  · rintro row u (⟨rfl, found⟩ | ⟨label, rfl, absent, rfl, room, rfl⟩)
    · obtain ⟨r, _, rfl⟩ := Table.text_of_lookup found
      exact ⟨opens, r.label.ascii, _, here, found⟩
    · refine ⟨opens.trans (Change.name here absent room).grows, label.ascii, _,
        names?_withName here, ?_⟩
      rw [Table.lookup_append, absent]
      exact if_pos rfl
  · rintro f u ⟨rfl, cause⟩
    exact ⟨opens, cause⟩

/-- A name that is entered is found from then on. -/
theorem yields_enterName (q : QName) (t : UriTable) :
    Yields (enterName q) t
      (fun ref u => t.Grows u ∧ u.find? q = some ref ∧ q.check = .ok ())
      (fun f u => t.Grows u ∧ (f = .memoryAllocation ∨ q.check = .error f)) := by
  refine ((yields_enterUri q.uri t).mono_fails ?_).bind ?_
  · rintro f u ⟨grows, cause⟩
    exact ⟨grows, cause.imp_right QName.check_of_uri⟩
  rintro row u ⟨grows, found, ascii⟩
  refine ((yields_enterLocal q.localName (Table.lt_size_of_lookup found)).mono_fails
    ?_).bind ?_
  · rintro f v ⟨more, cause⟩
    exact ⟨grows.trans more, cause.imp_right (QName.check_of_localName ascii)⟩
  rintro name v ⟨more, ascii', names, has, found'⟩
  refine yields_pure ⟨grows.trans more, ?_, QName.check_eq_ok ascii ascii'⟩
  exact find?_eq_some_iff.2 ⟨more.extends.lookup found, names, has, found'⟩

end UriTable

end ExiSchema
