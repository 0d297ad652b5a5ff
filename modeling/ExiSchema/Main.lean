import ExiSchema.CommandLine

/-!
The program: reads the arguments and the model, and writes the listing that they ask for.
-/

set_option autoImplicit false

open ExiSchema ExiSchema.CommandLine

/-- The number of a fault, whichever sign it comes with. -/
private def faultNumber (code : UInt32) : Nat := (min code (0 - code)).toNat

/-- The number and the wording that the system gives a fault. -/
private def systemFault? : IO.Error → Option (Nat × String)
  | .alreadyExists _ code text | .invalidArgument _ code text | .permissionDenied _ code text
  | .resourceExhausted _ code text | .inappropriateType _ code text | .noSuchThing _ code text
  | .interrupted _ code text | .noFileOrDirectory _ code text
  | .otherError code text | .resourceBusy code text | .resourceVanished code text
  | .unsupportedOperation code text | .hardwareFault code text
  | .unsatisfiedConstraints code text | .illegalOperation code text | .protocolError code text
  | .timeExpired code text => some (faultNumber code, text)
  | .unexpectedEof | .userError _ => none

private def fileFault (error : IO.Error) : FileFault :=
  match systemFault? error with
  | some (2, _) => .notFound
  | some (20, _) => .notDirectory
  | some (21, _) => .isDirectory
  | some (28, _) => .noSpace
  | some (36, _) => .nameTooLong
  | some (code, text) => .other code text
  | none => .other 0 (toString error)

private def attempt {α : Type} (action : IO α) : IO (Except FileFault α) := do
  try return .ok (← action)
  catch error => return .error (fileFault error)

private def streams : Streams IO where
  readStandard := do (← IO.getStdin).readBinToEnd
  readFile path := attempt (IO.FS.readBinFile path)
  writeStandard text := do
    let out ← IO.getStdout
    out.putStr text
    out.flush
  writeFile path text := attempt do
    let file ← IO.FS.Handle.mk path .write
    file.putStr text
    file.flush

def main (arguments : List String) : IO UInt32 := do
  match request? arguments with
  | none =>
    IO.eprintln ("usage: (compile | tables) -i MODEL [-o FILE] [--skip-unsupported] "
      ++ "[--sort-attributes] [--type NS:NAME]")
    return 2
  | some r =>
    match ← streams.run r with
    | .ok () => return 0
    | .error fault =>
      IO.eprintln fault.shown
      return 1
