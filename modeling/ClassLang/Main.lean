import ClassLang.CommandLine.Execute

/-!
# The program

Reads the command line and the file, carries out the command, and prints what it gave.
-/

namespace ClassLang

/-- The fault that an error of the system stands for. -/
def ReadFault.ofError : IO.Error → ReadFault
  | .noFileOrDirectory .. => .missing
  | .inappropriateType none .. => .isFolder
  | .inappropriateType (some _) .. => .throughFile
  | .invalidArgument _ 22 _ => .nullCharacter
  | .invalidArgument .. => .tooLong
  | .permissionDenied .. => .refused "Permission denied (os error 13)"
  | e => .refused (toString e)

/-- Read a file. -/
def readContent (path : String) : IO FileContent := do
  try
    return .ofBytes (← IO.FS.readBinFile path)
  catch e =>
    return .error (.ofError e)

/-- How the program is used. -/
def usage : String :=
  "usage: (run | check | fmt) FILE [--entry-class NAME] [--entry-method NAME] " ++
    "[--max-call-depth N] [-v | --verbose]"

end ClassLang

/-- The program. It exits with code 2 if the command line makes no sense. -/
def main (arguments : List String) : IO UInt32 := do
  match ClassLang.Invocation.parse? arguments with
  | none => do
    IO.eprintln ClassLang.usage
    return 2
  | some invocation => do
    let result := invocation.execute (← ClassLang.readContent invocation.file)
    IO.print result.output
    IO.eprint result.errors
    return result.code.toUInt32
