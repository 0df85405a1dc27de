import AsmCheck.Finding
import AsmCheck.Volume

/-! # Reports on files -/

namespace AsmCheck

/-- The analysis of a file and what it has to report. -/
structure FileReport where
  path : String
  analysis : Analysis
  findings : List Finding
deriving DecidableEq

namespace FileReport

/-- Reads and analyses a file. -/
def ofFile (read : Reader) (config : Config) (path : String) : Except Error FileReport :=
  match read path with
  | .error why => .error (.read path why)
  | .ok text =>
    match Analysis.ofSource text config with
    | .error why => .error (.config why)
    | .ok analysis => .ok { path, analysis, findings := analysis.findings }

/-- Reads and analyses files, each on its own, if the settings can be used. -/
def ofFiles (read : Reader) (config : Config) (paths : List String) :
    Except Error (List (Except Error FileReport)) :=
  match config.validate with
  | .error why => .error (.config why)
  | .ok () => .ok (paths.map (ofFile read config))

/-- How many findings have a severity. -/
def count (r : FileReport) (s : Severity) : Nat :=
  r.findings.countP fun f => f.severity == s

/-- How many findings of several reports have a severity. -/
def totalCount (rs : List FileReport) (s : Severity) : Nat :=
  (rs.flatMap FileReport.findings).countP fun f => f.severity == s

/-- Whether there is a finding of the worst kind. -/
def hasErrors (r : FileReport) : Bool :=
  0 < r.count .error

end FileReport

end AsmCheck
