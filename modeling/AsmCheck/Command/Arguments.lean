import AsmCheck.Config

/-! # Command-line arguments

    Arguments are read from left to right: options first, then the name of a
    command, then its options and files in any order.  An option's separate
    value, and files, wait until the next option is recognised or the arguments
    end; only then are they looked at.  So of two mistakes the one that is
    noticed first is reported. -/

namespace AsmCheck.Command

/-- Why arguments cannot be used. -/
inductive UsageError where
  /-- There is nothing to do. -/
  | noArguments
  /-- Help was asked for. -/
  | help
  /-- The version was asked for. -/
  | version
  | missingCommand
  | unknownCommand
  | unknownArgument
  /-- An option lacks its value. -/
  | missingValue
  /-- A file's name is empty. -/
  | emptyFile
  /-- A value is no number. -/
  | badNumber
  /-- An option takes no value. -/
  | unexpectedValue
  /-- An option is given twice, or with another that excludes it. -/
  | conflict
  | missingFile
deriving DecidableEq, Repr

namespace UsageError

/-- The exit status that goes with an error; to be asked for help or the version is no failure. -/
def status : UsageError → Nat
  | .help | .version => 0
  | _ => 2

end UsageError

/-- An option that is on or off. -/
inductive Switch where
  | verbose
  | silent
  | all
  | noSubroutines
  | registers
deriving DecidableEq, Repr

/-- An option that takes a value. -/
inductive Setting where
  | jobs
  | maxRounds
  | marker
deriving DecidableEq, Repr

/-- What an option does. -/
inductive Choice where
  | switch (s : Switch)
  | setting (s : Setting)
  | help
  | version
deriving DecidableEq, Repr

/-- The part of the command line that an option stands in. -/
inductive Level where
  /-- Before the command. -/
  | top
  | check
  | dump
deriving DecidableEq, Repr

namespace Level

/-- The options that a level has under their long names. -/
def long : Level → List (String × Choice)
  | .top => [("verbose", .switch .verbose), ("silent", .switch .silent), ("help", .help),
      ("version", .version)]
  | .check => [("verbose", .switch .verbose), ("silent", .switch .silent), ("help", .help),
      ("jobs", .setting .jobs), ("all", .switch .all), ("max-rounds", .setting .maxRounds),
      ("marker", .setting .marker), ("no-subroutines", .switch .noSubroutines)]
  | .dump => [("verbose", .switch .verbose), ("silent", .switch .silent), ("help", .help),
      ("registers", .switch .registers), ("max-rounds", .setting .maxRounds),
      ("marker", .setting .marker), ("no-subroutines", .switch .noSubroutines)]

/-- The options that a level has under one letter. -/
def short : Level → List (Char × Choice)
  | .top => [('v', .switch .verbose), ('s', .switch .silent), ('h', .help), ('V', .version)]
  | .check => [('v', .switch .verbose), ('s', .switch .silent), ('h', .help),
      ('j', .setting .jobs)]
  | .dump => [('v', .switch .verbose), ('s', .switch .silent), ('h', .help)]

/-- How many files a level takes at most, if there is a limit. -/
def fileLimit : Level → Option Nat
  | .top => some 0
  | .check => none
  | .dump => some 1

end Level

/-- What waits to be looked at. -/
inductive Pending where
  | nothing
  /-- An option, and its value if that has come. -/
  | setting (s : Setting) (value : Option String)
  | files (names : List String)
deriving DecidableEq, Repr

/-- The arguments of one level, as far as they have been read. -/
structure Given where
  switches : List Switch := []
  settings : List (Setting × String) := []
  files : List String := []
  /-- How many files have come, those that wait included. -/
  fileCount : Nat := 0
  pending : Pending := .nothing
deriving DecidableEq, Repr

/-- The greatest number that an option takes. -/
def numberLimit : Nat := 18446744073709551615

/-- Reads a number: decimal digits, after a plus sign if there is one. -/
def readNumber (value : String) : Option Nat :=
  let digits := match value.toList with
    | '+' :: cs => cs
    | cs => cs
  let n := Nat.ofDigitChars 10 digits 0
  if !digits.isEmpty && digits.all Char.isDigit && n ≤ numberLimit then some n else none

namespace Given

/-- Takes a value for an option. -/
def set (g : Given) (s : Setting) (value : String) : Except UsageError Given :=
  if (g.settings.lookup s).isSome then .error .conflict
  else if s != .marker && (readNumber value).isNone then .error .badNumber
  else .ok { g with settings := g.settings ++ [(s, value)] }

/-- Looks at what waits. -/
def resolve (g : Given) : Except UsageError Given :=
  let rest := { g with pending := .nothing }
  match g.pending with
  | .nothing => .ok rest
  | .setting _ none => .error .missingValue
  | .setting s (some value) => rest.set s value
  | .files names =>
    if names.contains "" then .error .emptyFile else .ok { rest with files := g.files ++ names }

/-- Takes an option that is on or off. -/
def turnOn (g : Given) (s : Switch) : Except UsageError Given := do
  let g ← g.resolve
  if g.switches.contains s then .error .conflict
  else .ok { g with switches := g.switches ++ [s] }

/-- Takes an option with or without a value attached to it. -/
def choose (g : Given) (c : Choice) (value : Option String) : Except UsageError Given :=
  match c, value with
  | .setting s, some v => do (← g.resolve).set s v
  | .setting s, none => do return { ← g.resolve with pending := .setting s none }
  | _, some _ => .error .unexpectedValue
  | .switch s, none => g.turnOn s
  | .help, none => do
    let _ ← g.resolve
    .error .help
  | .version, none => do
    let _ ← g.resolve
    .error .version

/-- Takes a long option, without its dashes. -/
def takeLong (g : Given) (level : Level) (cs : List Char) : Except UsageError Given :=
  let name := cs.takeWhile (· != '=')
  let value := match cs.drop name.length with
    | [] => none
    | _ :: rest => some (String.ofList rest)
  match level.long.lookup (String.ofList name) with
  | none => .error .unknownArgument
  | some c => g.choose c value

/-- Takes one-letter options written together, without their dash.  What follows an option with a
    value is that value, less an equals sign. -/
def takeShort (g : Given) (level : Level) : List Char → Except UsageError Given
  | [] => .ok g
  | c :: cs =>
    match level.short.lookup c, cs with
    | none, _ => .error .unknownArgument
    | some (.setting s), [] => g.choose (.setting s) none
    | some (.setting s), '=' :: rest => g.choose (.setting s) (some (String.ofList rest))
    | some (.setting s), rest => g.choose (.setting s) (some (String.ofList rest))
    | some choice, rest => do (← g.choose choice none).takeShort level rest

/-- Takes a file. -/
def takeFile (g : Given) (level : Level) (name : String) : Except UsageError Given :=
  if level.fileLimit.any (· ≤ g.fileCount) then .error .unknownArgument
  else
    let counted := { g with fileCount := g.fileCount + 1 }
    match g.pending with
    | .files names => .ok { counted with pending := .files (names ++ [name]) }
    | _ => do return { ← counted.resolve with pending := .files [name] }

/-- Takes an argument that is no option: the value that the last option waits for, else a file. -/
def takePlain (g : Given) (level : Level) (arg : String) : Except UsageError Given :=
  match g.pending with
  | .setting s none => .ok { g with pending := .setting s (some arg) }
  | _ => g.takeFile level arg

/-- Whether both of two options that exclude each other are given. -/
def clashes (g : Given) : Bool :=
  g.switches.contains .verbose && g.switches.contains .silent

/-- Looks at the arguments of a command as a whole when all have been read. -/
def finish (g : Given) : Except UsageError Given := do
  let g ← g.resolve
  if g.clashes then .error .conflict
  else if g.files.isEmpty then .error .missingFile
  else .ok g

end Given

/-- An argument by its looks. -/
inductive Form where
  /-- Two dashes alone. -/
  | dashes
  | long (cs : List Char)
  | short (cs : List Char)
  | plain
deriving DecidableEq, Repr

/-- The looks of an argument. -/
def formOf (arg : String) : Form :=
  match arg.toList with
  | ['-', '-'] => .dashes
  | '-' :: '-' :: cs => .long cs
  | ['-'] => .plain
  | '-' :: cs => .short cs
  | _ => .plain

/-- Reads the arguments after a command.  After two dashes everything is a file. -/
def readCommand (level : Level) (g : Given) : List String → Except UsageError Given
  | [] => g.finish
  | arg :: args =>
    match formOf arg with
    | .dashes => do (← args.foldlM (fun g name => g.takeFile level name) g).finish
    | .long cs => do readCommand level (← g.takeLong level cs) args
    | .short cs => do readCommand level (← g.takeShort level cs) args
    | .plain => do readCommand level (← g.takePlain level arg) args

/-- What the arguments ask for. -/
inductive Request where
  | check (files : List String) (all silent : Bool) (config : Config)
  | dump (file : String) (registers : Bool) (config : Config)
deriving DecidableEq, Repr

namespace Given

/-- The settings of an analysis that options ask for. -/
def config (g : Given) : Config :=
  let base : Config := {}
  { maxRounds := ((g.settings.lookup .maxRounds).bind readNumber).getD base.maxRounds
    marker := (g.settings.lookup .marker).getD base.marker
    checksSubroutines := !g.switches.contains .noSubroutines }

end Given

/-- Reads the arguments after a command and puts them together with those before it. -/
def readRequest (top : Given) (level : Level) (args : List String) : Except UsageError Request := do
  let g ← readCommand level {} args
  if top.clashes then throw .conflict
  let has (s : Switch) : Bool := g.switches.contains s
  if level = .dump then
    return .dump (g.files.headD "") (has .registers) g.config
  else
    return .check g.files (has .all) (has .silent || top.switches.contains .silent) g.config

/-- The names of the commands. -/
def commandNames : List String :=
  ["check", "dump", "help"]

/-- Where the names after the help command lead: commands have no commands of their own. -/
def readHelp : List String → UsageError
  | [] => .help
  | [name] => if commandNames.contains name then .help else .unknownCommand
  | _ => .unknownCommand

/-- Reads the arguments from the start, with the options that have come. -/
def readTop (top : Given) : List String → Except UsageError Request
  | [] => .error (if top.switches.isEmpty then .noArguments else .missingCommand)
  | "check" :: args => readRequest top .check args
  | "dump" :: args => readRequest top .dump args
  | "help" :: args => .error (readHelp args)
  | arg :: args =>
    match formOf arg with
    | .dashes =>
      match args with
      | [] => readTop top []
      | name :: _ =>
        .error (if commandNames.contains name then .unknownArgument else .unknownCommand)
    | .long cs => do readTop (← top.takeLong .top cs) args
    | .short cs => do readTop (← top.takeShort .top cs) args
    | .plain => .error .unknownCommand

/-- What the arguments ask for. -/
def readArguments (args : List String) : Except UsageError Request :=
  readTop {} args

end AsmCheck.Command
