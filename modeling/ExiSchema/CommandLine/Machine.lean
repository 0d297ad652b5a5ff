import ExiSchema.CommandLine

/-!
The command line on a machine that is a value: a tree of files and the two standard streams. A run
is then a function from machines to machines.
-/

set_option autoImplicit false

namespace ExiSchema.CommandLine

structure Machine where
  files : FileTree
  standardInput : ByteArray
  standardOutput : String

namespace Machine

/-- Standard input is read once, and standard output grows. -/
def streams : Streams (StateM Machine) where
  readStandard := modifyGet fun machine =>
    (machine.standardInput, { machine with standardInput := .empty })
  readFile path := return (← get).files.read path
  writeStandard text := modify fun machine =>
    { machine with standardOutput := machine.standardOutput ++ text }
  writeFile path text := do
    match (← get).files.write path text.toUTF8 with
    | .ok files => return .ok (← modify fun machine => { machine with files })
    | .error fault => return .error fault

def run (machine : Machine) (r : Request) : Except RunFault Unit × Machine :=
  (streams.run r).run machine

end Machine

end ExiSchema.CommandLine
