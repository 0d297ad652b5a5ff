import ExiSchema.Sorted.Tables
import ExiSchema.Grammar.Basic

/-!
Elements under their canonical names, in the order of their names. Elements of one name keep their
order among each other.
-/

set_option autoImplicit false

namespace ExiSchema

structure NamedElement where
  uri : Label
  localName : Label
  ref : NameRef
  grammar : GrammarId
deriving DecidableEq

namespace NamedElement

def name (e : NamedElement) : QName := ⟨e.uri.text, e.localName.text⟩

/-- Namespaces decide first, then local names. -/
def compareName (uri localName : Label) (e : NamedElement) : Ordering :=
  (Label.compare e.uri uri).then (Label.compare e.localName localName)

def le (a b : NamedElement) : Bool := (compareName b.uri b.localName a).isLE

/-- The entry of an element that is known by its rows before sorting. -/
def ofOld (sorted : CanonicalTables) (old : NameRef) (grammar : GrammarId) :
    Except Fault NamedElement := do
  let ref ← sorted.mapping.ref old
  match sorted.uris.labelAt? ref.uri, sorted.uris.nameLabel? ref with
  | none, _ => .error (.inconsistent .noElementUri)
  | some _, none => .error (.inconsistent .noNameTable)
  | some uri, some localName => .ok ⟨uri, localName, ref, grammar⟩

def sortedEntries (sorted : CanonicalTables) (elements : List (NameRef × GrammarId)) :
    Except Fault (List NamedElement) := do
  let entries ← elements.mapM fun (old, grammar) => ofOld sorted old grammar
  return entries.mergeSort le

end NamedElement

/-- Elements in the order of their names, for looking up a name. -/
structure ElementIndex where
  entries : Array NamedElement
deriving Inhabited

namespace ElementIndex

def size (index : ElementIndex) : Nat := index.entries.size

def isEmpty (index : ElementIndex) : Bool := index.entries.isEmpty

def get? (index : ElementIndex) (i : Nat) : Option NamedElement := index.entries[i]?

/-- Halves the entries `first`, …, `first + count - 1` until one is left. Of several equal ones this
comes to the last. -/
def bisect (index : ElementIndex) (uri localName : Label) (first count : Nat) : Nat :=
  if _ : 1 < count then
    let middle := first + count / 2
    match (index.get? middle).map (NamedElement.compareName uri localName) with
    | some .gt => bisect index uri localName first (count - count / 2)
    | _ => bisect index uri localName middle (count - count / 2)
  else first
termination_by count

/-- The entry of a name. A name that no table could hold has none. -/
def lookup (index : ElementIndex) (name : QName) : Option NamedElement := do
  let uri ← Label.ofText? name.uri
  let localName ← Label.ofText? name.localName
  let entry ← index.get? (index.bisect uri localName 0 index.size)
  if NamedElement.compareName uri localName entry = .eq then some entry else none

end ElementIndex

end ExiSchema
