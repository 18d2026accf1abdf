/-
The program: reads arguments, variables and files, and writes what the run has to say.
-/
import UniqueEvidence.CommandLine.Run
import UniqueEvidence.Encoding.ObligationFile
import UniqueEvidence.Examples

open UniqueEvidence

namespace UniqueEvidence.CommandLine

/-- The error of the system that a failed operation reports, if it is one. -/
def systemError? : IO.Error → Option SystemError
  | .alreadyExists _ n text | .inappropriateType _ n text | .interrupted _ n text
  | .invalidArgument _ n text | .noFileOrDirectory _ n text | .noSuchThing _ n text
  | .permissionDenied _ n text | .resourceExhausted _ n text
  | .hardwareFault n text | .illegalOperation n text | .otherError n text | .protocolError n text
  | .resourceBusy n text | .resourceVanished n text | .timeExpired n text
  | .unsatisfiedConstraints n text | .unsupportedOperation n text => some ⟨n.toNat, text⟩
  | .unexpectedEof | .userError _ => none

/-- What is found at a path: a built-in file, or one on disk. -/
def readSource (path : String) : IO Source := do
  match Examples.source? path with
  | some found => return found
  | none =>
    try
      let bytes ← (← IO.FS.Handle.mk path .read).readBinToEnd
      match String.fromUTF8? bytes with
      | some text => return .file (ObligationFile.read text)
      | none => return .illegible .undecodable
    catch e =>
      match systemError? e with
      | some e => return .refused e
      | none => throw e

/-- The file of variables, if there is one. -/
def readVariableFile : IO String := do
  try
    IO.FS.readFile ".env"
  catch _ => return ""

/-- The variables of the process that settings are read from, and those that a file refers to. -/
def readVariables (file : String) : IO Settings.Variables := do
  let names := ["UIPDEC_SEARCH_DEPTH", "UIPDEC_MAX_DESTRUCT_STEPS", "UIPDEC_LOG_LEVEL"] ++
    Settings.referredTo (Settings.readAssignments file)
  let values ← names.mapM fun name => do return (name, ← IO.getEnv name)
  return fun name => (values.lookup name).join

end UniqueEvidence.CommandLine

open UniqueEvidence.CommandLine in
/-- Runs the program and exits with its status. -/
def main (args : List String) : IO UInt32 := do
  let found ← args.mapM fun arg => do return (arg, ← readSource arg)
  let sources (path : String) : Source := (found.lookup path).getD (.refused .missing)
  let file ← readVariableFile
  let result := run sources (← readVariables file) file args
  IO.print result.output
  IO.eprint result.errors
  match result.ending with
  | .stopped status | .finished status => return status.toUInt32
  | .illegible why =>
    IO.eprintln why.message
    return 1
  | .broken fault =>
    IO.eprintln fault.message
    return 1
