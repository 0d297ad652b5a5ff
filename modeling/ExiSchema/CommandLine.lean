import ExiSchema.FileTree
import ExiSchema.Report
import ExiSchema.Schema.FromJson
import ExiSchema.Text.Utf8

/-!
The command line. Arguments name a subcommand and its options, each at most once and in any order;
what runs is a function from the bytes of the model to the text of the listing, between a reader and
a writer. Nothing is written before the whole listing is there.
-/

set_option autoImplicit false

namespace ExiSchema.CommandLine

/-- What to list. -/
inductive Listing where
  /-- Grammars: all of them, or that of one type. -/
  | grammars (type : Option String)
  | tables
deriving DecidableEq, Repr

structure Request where
  listing : Listing
  /-- A path, or `-` for standard input. -/
  input : String
  /-- A path; without one, or with `-`, standard output. -/
  output : Option String
  options : Options
deriving DecidableEq, Repr

/-- The options given so far. -/
structure Given where
  input : Option String := none
  output : Option String := none
  type : Option String := none
  skipUnsupported : Bool := false
  sortAttributes : Bool := false
deriving DecidableEq, Repr

inductive Subcommand where
  | compile
  | tables
deriving DecidableEq, Repr

/-- Options that take a value. -/
inductive Key where
  | input
  | output
  | type
deriving DecidableEq, Repr

namespace Given

/-- Sets an option. A second time is refused. -/
def set? (g : Given) (key : Key) (value : String) : Option Given :=
  match key with
  | .input => if g.input.isNone then some { g with input := some value } else none
  | .output => if g.output.isNone then some { g with output := some value } else none
  | .type => if g.type.isNone then some { g with type := some value } else none

end Given

/-- What one argument says. -/
inductive Argument where
  /-- An option whose value is the next argument. -/
  | key (key : Key)
  | keyValue (key : Key) (value : String)
  | skipUnsupported
  | sortAttributes
deriving DecidableEq, Repr

def shortKey? : Char → Option Key
  | 'i' => some .input
  | 'o' => some .output
  | _ => none

def longKey? (command : Subcommand) (name : String) : Option Key :=
  match name, command with
  | "input", _ => some .input
  | "output", _ => some .output
  | "type", .compile => some .type
  | _, _ => none

/-- Reads one argument that is no value. After a short option its value may stand at once or behind
an equals sign, after a long one behind an equals sign. -/
def argument? (command : Subcommand) (text : String) : Option Argument :=
  match text.toList with
  | '-' :: '-' :: name =>
    match name.span (· != '=') with
    | (name, []) =>
      match String.ofList name with
      | "skip-unsupported" => some .skipUnsupported
      | "sort-attributes" => some .sortAttributes
      | name => (longKey? command name).map .key
    | (name, _ :: value) =>
      (longKey? command (String.ofList name)).map fun key => .keyValue key (String.ofList value)
  | ['-', c] => (shortKey? c).map .key
  | '-' :: c :: '=' :: value => (shortKey? c).map fun key => .keyValue key (String.ofList value)
  | '-' :: c :: value => (shortKey? c).map fun key => .keyValue key (String.ofList value)
  | _ => none

/-- Whether an argument can be the value of the option before it. -/
def isValue (text : String) : Bool := text == "-" || !text.startsWith "-"

/-- Reads arguments on top of what is given. A double hyphen ends them. -/
def collect? (command : Subcommand) (given : Given) : List String → Option Given
  | [] => some given
  | ["--"] => some given
  | text :: rest =>
    match argument? command text with
    | none => none
    | some .skipUnsupported =>
      if given.skipUnsupported then none
      else collect? command { given with skipUnsupported := true } rest
    | some .sortAttributes =>
      if given.sortAttributes then none
      else collect? command { given with sortAttributes := true } rest
    | some (.keyValue key value) =>
      (given.set? key value).bind fun given => collect? command given rest
    | some (.key key) =>
      match rest with
      | [] => none
      | value :: rest =>
        if isValue value then (given.set? key value).bind fun given => collect? command given rest
        else none

def subcommand? : String → Option Subcommand
  | "compile" => some .compile
  | "tables" => some .tables
  | _ => none

/-- The request that the arguments make, if they make one. -/
def request? : List String → Option Request
  | [] => none
  | name :: arguments => do
    let command ← subcommand? name
    let given ← collect? command {} arguments
    let input ← given.input
    let listing :=
      match command with
      | .compile => .grammars given.type
      | .tables => .tables
    return ⟨listing, input, given.output, ⟨given.skipUnsupported, given.sortAttributes⟩⟩

inductive RunFault where
  | notReadable (path : String) (fault : FileFault)
  | notWritable (path : String) (fault : FileFault)
  | notUtf8 (path : String) (fault : Text.Utf8Fault)
  | schema (fault : Fault)
  | report (fault : ReportFault)
deriving DecidableEq, Repr

namespace RunFault

def message : RunFault → String
  | .notReadable path fault => "read error '" ++ path ++ "': " ++ fault.message
  | .notWritable path fault => "write error '" ++ path ++ "': " ++ fault.message
  | .notUtf8 path fault => "input '" ++ path ++ "' is not UTF-8: " ++ fault.message
  | .schema fault => fault.message
  | .report fault => fault.message

/-- What is shown of a fault. -/
def shown (fault : RunFault) : String := "error: " ++ fault.message

end RunFault

/-- The listing that a request asks for, from the bytes of its model. -/
def listing (r : Request) (model : ByteArray) : Except RunFault String := do
  let text ←
    match Text.ofUtf8 model with
    | .ok text => .ok text
    | .error fault => .error (.notUtf8 r.input fault)
  let compiled ←
    match Schema.parse text >>= fun s => s.compile r.options with
    | .ok compilation => .ok compilation.schema
    | .error fault => .error (.schema fault)
  let report :=
    match r.listing with
    | .grammars none => compiled.fullListing
    | .grammars (some type) => compiled.typeListing type
    | .tables => .ok compiled.tableListing
  match report with
  | .ok text => .ok text
  | .error fault => .error (.report fault)

/-- Where models are read and listings are written. -/
structure Streams (m : Type → Type) where
  readStandard : m ByteArray
  readFile : String → m (Except FileFault ByteArray)
  writeStandard : String → m Unit
  writeFile : String → String → m (Except FileFault Unit)

namespace Streams

variable {m : Type → Type} [Monad m]

def model (s : Streams m) (path : String) : m (Except RunFault ByteArray) := do
  if path == "-" then
    return .ok (← s.readStandard)
  return (← s.readFile path).mapError (.notReadable path)

def deliver (s : Streams m) (path : Option String) (text : String) : m (Except RunFault Unit) := do
  match path with
  | none | some "-" => return .ok (← s.writeStandard text)
  | some path => return (← s.writeFile path text).mapError (.notWritable path)

/-- Reads the model, lists it and writes the listing. -/
def run (s : Streams m) (r : Request) : m (Except RunFault Unit) := do
  match (← s.model r.input) >>= listing r with
  | .ok text => s.deliver r.output text
  | .error fault => return .error fault

end Streams

end ExiSchema.CommandLine
