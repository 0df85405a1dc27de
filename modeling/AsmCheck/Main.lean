import AsmCheck.Command.Run

/-! # The command line

    Reads the arguments and the files they name, and prints what the command
    has to say. -/

namespace AsmCheck.Command

/-- The number of a reason, which the system gives with a minus sign or without. -/
def reasonNumber (code : UInt32) : Nat :=
  min code.toNat (-code).toNat

/-- Why the system could not read a file. -/
def failureOf (e : IO.Error) : ReadFailure :=
  match e with
  | .noFileOrDirectory .. => .notFound
  | .inappropriateType _ code _ | .invalidArgument _ code _ =>
    match reasonNumber code with
    | 20 => .notDirectory
    | 21 => .isDirectory
    | 36 => .nameTooLong
    | _ => .other (toString e)
  | _ => .other (toString e)

/-- Reads a file of the disk. -/
def readFile (path : String) : IO (Except ReadFailure String) := do
  try
    return decodeText (← IO.FS.readBinFile path)
  catch e => return .error (failureOf e)

/-- Reads files of the disk beforehand. -/
def readFiles (paths : List String) : IO Reader := do
  let texts ← paths.mapM fun path => do return (path, ← readFile path)
  return fun path => (texts.lookup path).getD (.error .notFound)

/-- How the program is used. -/
def usage : String :=
  "usage: asmcheck [-v | -s] check [-j N] [--all] [SETTING...] FILE...\n" ++
  "       asmcheck [-v | -s] dump [--registers] [SETTING...] FILE\n" ++
  "settings: --max-rounds N, --marker TEXT, --no-subroutines\n"

/-- What is said about arguments that ask for no command. -/
def usageText : UsageError → String
  | .noArguments | .help => usage
  | .version => "asmcheck 1.0\n"
  | .missingCommand => "error: no command is given\n"
  | .unknownCommand => "error: there is no such command\n"
  | .unknownArgument => "error: unexpected argument\n"
  | .missingValue => "error: an option lacks its value\n"
  | .emptyFile => "error: the name of a file is empty\n"
  | .badNumber => "error: a value is no number\n"
  | .unexpectedValue => "error: an option takes no value\n"
  | .conflict => "error: an option is given twice, or with another that excludes it\n"
  | .missingFile => "error: no file is given\n"

/-- Prints what a command has to say: its output, then its errors, then its summary. -/
def Outcome.print (o : Outcome) : IO Unit := do
  IO.print o.stdout
  o.log.forM IO.eprintln
  IO.eprint o.stderr

end AsmCheck.Command

open AsmCheck.Command in
/-- Runs the command that the arguments ask for. -/
def main (args : List String) : IO UInt32 := do
  match readArguments args with
  | .error e =>
    if e.status = 0 then IO.print (usageText e) else IO.eprint (usageText e)
    return e.status.toUInt32
  | .ok request =>
    let outcome := run (← readFiles request.files) request
    outcome.print
    return outcome.status.toUInt32
