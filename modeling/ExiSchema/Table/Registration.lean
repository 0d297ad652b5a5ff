import ExiSchema.Table.Initial

/-!
Registrations as data: sequences of names and namespaces that are entered into the tables one after
the other.
-/

set_option autoImplicit false

namespace ExiSchema

inductive Registration where
  | ofUri (uri : String)
  | ofName (name : QName)
deriving DecidableEq, Repr

namespace Registration

def run : Registration → UriTable.Action Unit
  | .ofUri uri => discard (UriTable.enterUri uri)
  | .ofName name => discard (UriTable.enterName name)

/-- One after the other, up to the first fault. -/
def runAll : List Registration → UriTable.Action Unit
  | [] => return ()
  | r :: rs => do
    r.run
    runAll rs

/-- The namespaces that registrations enter, those of names included. -/
def uris (rs : List Registration) : List String :=
  rs.map fun
    | .ofUri uri => uri
    | .ofName name => name.uri

def names (rs : List Registration) : List QName :=
  rs.filterMap fun
    | .ofUri _ => none
    | .ofName name => some name

end Registration

end ExiSchema
