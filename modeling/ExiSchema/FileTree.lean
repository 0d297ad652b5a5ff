import ExiSchema.Text.Runs

/-!
A tree of files, and what a path finds in it. A path leads name by name from the root, or from the
place where the program started, and only a directory can be left by a name. Reading needs
something other than a directory at the end. Writing also makes a new file, where only the last
name is missing.
-/

set_option autoImplicit false

namespace ExiSchema

/-- Why a path cannot be read or written. -/
inductive FileFault where
  | notFound
  | notDirectory
  | isDirectory
  | noSpace
  | nameTooLong
  /-- Another fault of the system, by its number and its wording. -/
  | other (code : Nat) (text : String)
deriving DecidableEq, Repr

namespace FileFault

def message : FileFault → String
  | .notFound => "No such file or directory (os error 2)"
  | .notDirectory => "Not a directory (os error 20)"
  | .isDirectory => "Is a directory (os error 21)"
  | .noSpace => "No space left on device (os error 28)"
  | .nameTooLong => "File name too long (os error 36)"
  | .other code text => text ++ " (os error " ++ toString code ++ ")"

end FileFault

/-- A path, taken apart. -/
structure Path where
  fromRoot : Bool
  names : List String
  /-- A slash stands at the end, so that only a directory is meant. -/
  toDirectory : Bool
deriving DecidableEq, Repr

namespace Path

/-- The longest path, in bytes. -/
def sizeLimit : Nat := 4095

/-- The longest name, in bytes. -/
def nameLimit : Nat := 255

/-- The empty text leads nowhere. -/
def ofText (text : String) : Except FileFault Path :=
  if text.isEmpty then .error .notFound
  else if sizeLimit < text.utf8ByteSize then .error .nameTooLong
  else
    let cs := text.toList
    .ok ⟨cs.head? == some '/', (Text.runs (· == '/') cs).map String.ofList,
      cs.getLast? == some '/'⟩

end Path

/-- What stands at a place of the tree. -/
inductive FileEntry where
  | directory
  | file (contents : ByteArray)
  /-- Empty to read, and drops what is written. -/
  | sink
  /-- Empty to read, and has no room. -/
  | full

def FileEntry.isDirectory : FileEntry → Bool
  | .directory => true
  | _ => false

/-- A place is given by the names from the root down to it. Of two entries for one place the first
counts. -/
structure FileTree where
  entries : List (List String × FileEntry)
  /-- Where paths begin that do not begin at the root. -/
  start : List String

namespace FileTree

/-- The root is a directory in every tree. -/
def find? (t : FileTree) (place : List String) : Option FileEntry :=
  if place.isEmpty then some .directory else t.entries.lookup place

def isDirectory (t : FileTree) (place : List String) : Bool :=
  (t.find? place).any FileEntry.isDirectory

def put (t : FileTree) (place : List String) (entry : FileEntry) : FileTree :=
  { t with entries := (place, entry) :: t.entries }

def origin (t : FileTree) (path : Path) : List String := if path.fromRoot then [] else t.start

/-- One name down from a directory. -/
def child (place : List String) (name : String) : Except FileFault (List String) :=
  if Path.nameLimit < name.utf8ByteSize then .error .nameTooLong else .ok (place ++ [name])

/-- The place that names lead to. One dot stays and two dots go up, the root being above itself. -/
def walk (t : FileTree) (place : List String) : List String → Except FileFault (List String)
  | [] => .ok place
  | name :: rest =>
    if !t.isDirectory place then .error .notDirectory
    else if name = "." then t.walk place rest
    else if name = ".." then t.walk place.dropLast rest
    else
      match child place name with
      | .error fault => .error fault
      | .ok next => if (t.find? next).isNone then .error .notFound else t.walk next rest

/-- What the file at a path holds. -/
def read (t : FileTree) (text : String) : Except FileFault ByteArray := do
  let path ← Path.ofText text
  let place ← t.walk (t.origin path) path.names
  match t.find? place with
  | none => .error .notFound
  | some .directory => .error .isDirectory
  | some entry =>
    if path.toDirectory then .error .notDirectory
    else
      match entry with
      | .file contents => .ok contents
      | _ => .ok .empty

/-- Puts `contents` at a place in place of what the file there holds. -/
def fill (t : FileTree) (place : List String) (contents : ByteArray) :
    Except FileFault FileTree :=
  match t.find? place with
  | some .directory => .error .isDirectory
  | some .sink => .ok t
  | some .full => if contents.isEmpty then .ok t else .error .noSpace
  | some (.file _) | none => .ok (t.put place (.file contents))

/-- The tree after writing a file at a path. -/
def write (t : FileTree) (text : String) (contents : ByteArray) : Except FileFault FileTree := do
  let path ← Path.ofText text
  match path.names.getLast? with
  | none => .error .isDirectory
  | some name =>
    let parent ← t.walk (t.origin path) path.names.dropLast
    if !t.isDirectory parent then .error .notDirectory
    else if path.toDirectory || name == "." || name == ".." then .error .isDirectory
    else
      let place ← child parent name
      t.fill place contents

theorem find?_put_self (t : FileTree) {place : List String} (entry : FileEntry)
    (h : place ≠ []) : (t.put place entry).find? place = some entry := by
  simp [find?, put, h]

theorem find?_put_of_ne (t : FileTree) {place other : List String} (entry : FileEntry)
    (h : other ≠ place) : (t.put place entry).find? other = t.find? other := by
  have apart : (other == place) = false := by simpa using h
  simp [find?, put, List.lookup_cons, apart]

end FileTree

end ExiSchema
