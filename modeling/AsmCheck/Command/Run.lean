import AsmCheck.Command.Arguments
import AsmCheck.Command.Dump
import AsmCheck.Report

/-! # Running a command -/

namespace AsmCheck.Command

/-- What a command prints, and its exit status. -/
structure Outcome where
  status : Nat
  stdout : String := ""
  stderr : String := ""
  /-- The errors that it logs. -/
  log : List String := []
deriving DecidableEq, Repr

/-- A finding as it is printed, with its line counted from one. -/
def findingLine (path : String) (f : Finding) : String :=
  path ++ ":" ++ toString (f.line + 1) ++ ": " ++ f.severity.name ++ ": " ++ f.issue.render ++ "\n"

/-- The lines of a report; remarks that are no more than information only if all are wanted. -/
def reportLines (all : Bool) (r : FileReport) : List String :=
  (r.findings.filter fun f => all || f.severity != .info).map (findingLine r.path)

/-- The line that sums up reports. -/
def summary (files errors warnings : Nat) : String :=
  let sign := if 0 < errors then "✗ " else if 0 < warnings then "! " else "✓ "
  sign ++ toString files ++ " file(s): " ++ toString errors ++ " error(s), " ++
    toString warnings ++ " warning(s)\n"

/-- The report, if there is one. -/
def report? : Except Error FileReport → Option FileReport
  | .ok r => some r
  | .error _ => none

/-- The log line of a file without a report. -/
def skipped? : Except Error FileReport → Option String
  | .ok _ => none
  | .error e => some ("ERROR skipping file error=" ++ e.message)

/-- Reports on files, and fails if one cannot be read or has errors. -/
def runCheck (read : Reader) (files : List String) (all silent : Bool) (config : Config) :
    Outcome :=
  match FileReport.ofFiles read config files with
  | .error e => { status := 1, log := ["ERROR check failed error=" ++ e.message] }
  | .ok results =>
    let reports := results.filterMap report?
    let log := results.filterMap skipped?
    let errors := FileReport.totalCount reports .error
    let warnings := FileReport.totalCount reports .warning
    { status := if 0 < errors || !log.isEmpty then 1 else 0
      stdout := String.join (reports.flatMap (reportLines all))
      stderr := if silent then "" else summary results.length errors warnings
      log }

/-- Lists an analysed program. -/
def runDump (read : Reader) (file : String) (registers : Bool) (config : Config) : Outcome :=
  match read file with
  | .error why =>
    { status := 1
      log := ["ERROR failed to read source error=" ++ why.message ++ " path=" ++ file] }
  | .ok text =>
    match Analysis.ofSource text config with
    | .error why =>
      { status := 1
        log := ["ERROR invalid configuration error=" ++ (Error.config why).message] }
    | .ok a => { status := 0, stdout := dump a registers }

/-- Does what the arguments ask for. -/
def run (read : Reader) : Request → Outcome
  | .check files all silent config => runCheck read files all silent config
  | .dump file registers config => runDump read file registers config

namespace Request

/-- The files that a request needs. -/
def files : Request → List String
  | .check files _ _ _ => files
  | .dump file _ _ => [file]

end Request

end AsmCheck.Command
