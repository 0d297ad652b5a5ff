import ExiSchema.Table.Initial

/-!
The canonical order of the string tables. Reserved rows keep their places; behind them the rows of a
table stand in the order of their texts, and rows with one text in their old order. A `Relocation`
says where each old row went.
-/

set_option autoImplicit false

namespace ExiSchema

/-- The rows of a table in canonical order, each with its old number. -/
def sortedRows {α : Type} [Row α] (rows : List α) (fixed : Nat) : List (α × Nat) :=
  let numbered := rows.zipIdx
  numbered.take fixed ++
    (numbered.drop fixed).mergeSort fun a b => (Row.label a.1).le (Row.label b.1)

/-- From old numbers in their new order to the new number of each old one. -/
def inverse (order : List Nat) : Array Nat :=
  order.zipIdx.foldl (fun places (old, new) => places.setIfInBounds old new)
    (Array.replicate order.length 0)

/-- New rows by old rows. Rows of local names are given below the old row of their URI, where that
has a table. -/
structure Relocation where
  uris : Array Nat
  names : Array (Option (Array Nat))
deriving Inhabited

namespace Relocation

def uri (m : Relocation) (old : Nat) : Except Fault Nat :=
  match m.uris[old]? with
  | some new => .ok new
  | none => .error (.inconsistent (.uriRowOutOfRange old))

/-- The new row of a local name, within the table of its URI. -/
def name (m : Relocation) (old : NameRef) : Except Fault Nat :=
  match m.names[old.uri]? with
  | none => .error (.inconsistent (.uriRowOutOfRange old.uri))
  | some none => .error (.inconsistent .noNameTable)
  | some (some names) =>
    match names[old.name]? with
    | some new => .ok new
    | none => .error (.inconsistent (.nameRowOutOfRange old.name old.uri))

def ref (m : Relocation) (old : NameRef) : Except Fault NameRef := do
  let uri ← m.uri old.uri
  let name ← m.name old
  return ⟨uri, name⟩

end Relocation

/-- Canonical tables, with the way from the old rows to the new ones. -/
structure CanonicalTables where
  uris : UriTable
  mapping : Relocation

namespace UriTable

def sortedNames (names : NameTable) (fixed : Nat) : NameTable × Array Nat :=
  let sorted := sortedRows names.rows.toList fixed
  (Table.ofRows (sorted.map Prod.fst).toArray, inverse (sorted.map Prod.snd))

/-- A URI row with its local names sorted, and where they went. -/
def sortedRow (row : UriRow) (old : Nat) : UriRow × Option (Array Nat) :=
  match row.names with
  | none => (row, none)
  | some names =>
    let (names, places) := sortedNames names (reservedNames[old]?.getD 0)
    ({ row with names := some names }, some places)

def sorted (t : UriTable) : CanonicalTables :=
  let rows := t.rows.toList.zipIdx.map fun (row, old) => sortedRow row old
  let order := sortedRows (rows.map Prod.fst) reservedUris
  { uris := Table.ofRows (order.map Prod.fst).toArray
    mapping := ⟨inverse (order.map Prod.snd), (rows.map Prod.snd).toArray⟩ }

end UriTable

end ExiSchema
