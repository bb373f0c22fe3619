import XsdSynthesis.CommandLine.Run

/-!
# XsdSynthesis.Main

The command line on the files of the machine. Everything is decided by the library; here files are
read and written, and texts are printed.
-/

open XsdSynthesis CommandLine

def findFile (path : String) : IO Found := do
  match ← (IO.FS.Handle.mk path .read).toBaseIO with
  | .error _ => return .missing
  | .ok handle =>
    match ← handle.readBinToEnd.toBaseIO with
    | .error _ => return .unreadable
    | .ok bytes => return .file bytes

def tellEvent (e : Event) : IO Unit :=
  IO.eprintln (e.level ++ " " ++ e.message ++
    String.join (e.fields.map fun (name, value) => " " ++ name ++ "=" ++ value))

def tellFailure (failure : Failure) : IO UInt32 := do
  IO.eprintln ("Error: " ++ failure.message)
  if let some cause := failure.cause? then
    IO.eprintln ("\nCaused by:\n    " ++ cause)
  return 1

def writeAll (handle : IO.FS.Handle) (text : String) : IO Unit := do
  handle.putStr text
  handle.flush

def convertFiles (settings : Settings) : IO UInt32 := do
  let schema ← findFile settings.input
  let metadata ← findFile settings.metadata
  (told settings schema metadata).forM tellEvent
  match product settings schema metadata with
  | .error failure => tellFailure failure
  | .ok text =>
    match settings.output with
    | none =>
      IO.print text
      return 0
    | some path =>
      match ← (IO.FS.Handle.mk path .write).toBaseIO with
      | .error _ => tellFailure (.cannotCreate path)
      | .ok handle =>
        match ← (writeAll handle text).toBaseIO with
        | .error _ => tellFailure (noRoom settings.format text.utf8ByteSize)
        | .ok () => return 0

def main (args : List String) : IO UInt32 := do
  match Invocation.ofArguments args with
  | .convert settings => convertFiles settings
  | .help =>
    IO.print helpText
    return 0
  | .version =>
    IO.print versionText
    return 0
  | .misuse =>
    IO.eprintln "error: invalid arguments; for more information, try '--help'"
    return 2
