import ExiSchema.Table.Basic

/-!
The string tables of a schema: URI rows, each with a table of local names and a table of prefixes
where it has one, and each local name with a table of values. A name that is entered is looked up
first and added only if it is not there; an action that fails keeps what it has added by then.
-/

set_option autoImplicit false

namespace ExiSchema

structure ValueRow where
  label : Label

instance : Row ValueRow := ⟨ValueRow.label⟩

structure PrefixRow where
  label : Label

instance : Row PrefixRow := ⟨PrefixRow.label⟩

abbrev ValueTable := Table ValueRow
abbrev PrefixTable := Table PrefixRow

/-- A local name, with the values met under it: none while a schema is compiled. -/
structure NameRow where
  label : Label
  values : ValueTable := .empty

instance : Row NameRow := ⟨NameRow.label⟩

abbrev NameTable := Table NameRow

/-- A URI. It has a table of local names from the first name registered under it on; a URI that
only wildcards mention has none. -/
structure UriRow where
  label : Label
  names : Option NameTable := none
  prefixes : Option PrefixTable := none

instance : Row UriRow := ⟨UriRow.label⟩

abbrev UriTable := Table UriRow

/-- The rows of a qualified name: of its URI, and of its local name under that URI. -/
structure NameRef where
  uri : Nat
  name : Nat
deriving DecidableEq, Hashable, Repr, Inhabited

namespace UriTable

/-- The local names under a URI row, if there is such a row and it has a table. -/
def names? (t : UriTable) (uri : Nat) : Option NameTable := (t.get? uri).bind UriRow.names

def nameLabel? (t : UriTable) (ref : NameRef) : Option Label :=
  (t.names? ref.uri).bind fun names => names.labelAt? ref.name

/-- The two texts of a name. -/
def resolve? (t : UriTable) (ref : NameRef) : Option QName := do
  let uri ← t.labelAt? ref.uri
  let name ← t.nameLabel? ref
  return ⟨uri.text, name.text⟩

/-- Actions on the tables. A failing action keeps what it has done up to the fault. -/
abbrev Action := EStateM Fault UriTable

def addUri (label : Label) : Action Nat := fun t =>
  let row := t.size
  match t.push { label } with
  | .ok t => .ok row t
  | .error fault => .error fault t

/-- Gives a URI row its table of local names, if it has none yet. -/
def openNames (uri : Nat) : Action Unit := fun t =>
  if uri < t.size then
    .ok () (t.modifyRow uri (fun row => { row with names := some (row.names.getD .empty) })
      fun _ => rfl)
  else .error (.outOfBounds uri t.size) t

/-- Adds a local name under a URI row, whether or not it is there. -/
def addName (uri : Nat) (label : Label) : Action Nat := do
  openNames uri
  fun t =>
    let row := ((t.names? uri).map Table.size).getD 0
    if row < Table.rowLimit then
      .ok row (t.modifyRow uri
        (fun r => { r with names := r.names.map (Table.append · { label }) }) fun _ => rfl)
    else .error .memoryAllocation t

/-- The row of a URI, added if the table has none. -/
def enterUri (uri : String) : Action Nat := fun t =>
  match t.lookup uri with
  | some row => .ok row t
  | none =>
    match Label.ofText uri with
    | .ok label => addUri label t
    | .error fault => .error fault t

/-- The row of a local name under a URI row, added if that table has none. -/
def enterLocal (uri : Nat) (localName : String) : Action Nat := do
  openNames uri
  fun t =>
    match (t.names? uri).bind fun names => names.lookup localName with
    | some row => .ok row t
    | none =>
      match Label.ofText localName with
      | .ok label => addName uri label t
      | .error fault => .error fault t

def enterName (q : QName) : Action NameRef := do
  let uri ← enterUri q.uri
  let name ← enterLocal uri q.localName
  return ⟨uri, name⟩

end UriTable

end ExiSchema
