import AsmCheck.Analysis

/-! # Findings

    What an analysis has to report: faults of single statements, statements in
    the wrong section, and what the flow of control and the use of registers
    give away.  Findings are listed by line, the more severe ones first. -/

namespace AsmCheck

/-- How bad a finding is. -/
inductive Severity where
  | error
  | warning
  | info
deriving DecidableEq, Repr

namespace Severity

/-- The name of a severity. -/
def name : Severity → String
  | .error => "error"
  | .warning => "warning"
  | .info => "info"

/-- The place of a severity in a list: the worst comes first. -/
def rank : Severity → Nat
  | .error => 0
  | .warning => 1
  | .info => 2

end Severity

/-- What a finding is about. -/
inductive Issue where
  /-- A fault of one statement's spelling. -/
  | fault (flag : Flag)
  | outsideProgram
  | codeInData
  | dataInText
  | afterEnd
  | unreachable
  | deadStore
  | neverTaken
  | alwaysTaken
  | redundantCondition (codes : CodeSet)
  | subroutineOverlap (other : Nat)
  | uninitializedRead (reg : Reg)
  | unsavedRegister (reg : Reg)
deriving DecidableEq

namespace Issue

/-- How bad an issue is. -/
def severity : Issue → Severity
  | .fault .sharesLine => .info
  | .fault _ | .outsideProgram | .codeInData | .dataInText | .afterEnd => .error
  | _ => .warning

/-- The name of a fault in a report. -/
def faultName : Flag → String
  | .unknownMnemonic => "unknown-mnemonic"
  | .missingDollar => "missing-immediate-prefix"
  | .missingPercent => "missing-register-prefix"
  | .outOfRange => "immediate-out-of-range"
  | .sharesLine => "shares-line-with-label"
  | f => f.name

/-- An issue as it is reported: its name, and what it is about in brackets. -/
def render : Issue → String
  | .fault f => faultName f
  | .outsideProgram => "outside-program"
  | .codeInData => "code-in-data"
  | .dataInText => "data-in-text"
  | .afterEnd => "after-end"
  | .unreachable => "unreachable"
  | .deadStore => "dead-store"
  | .neverTaken => "never-taken"
  | .alwaysTaken => "always-taken"
  | .redundantCondition codes => "redundant-condition [" ++ CodeSet.render codes ++ "]"
  | .subroutineOverlap other => "subroutine-overlap [" ++ Literal.hexText other ++ "]"
  | .uninitializedRead reg => "uninitialized-read [%" ++ reg.name ++ "]"
  | .unsavedRegister reg => "unsaved-register [%" ++ reg.name ++ "]"

end Issue

/-- Something to report at a line. -/
structure Finding where
  line : Nat
  issue : Issue
deriving DecidableEq

namespace Finding

/-- How bad a finding is. -/
def severity (f : Finding) : Severity :=
  f.issue.severity

/-- Whether one finding may stand before another. -/
def le (a b : Finding) : Bool :=
  a.line < b.line || (a.line == b.line && a.severity.rank ≤ b.severity.rank)

end Finding

namespace Analysis

/-! ## Single statements -/

/-- The faults that are reported, in the order in which they are. -/
def reportedFaults : List Flag :=
  [.incomplete, .unknownMnemonic, .badCount, .memoryTwice, .immediateTwice, .missingDollar,
    .missingPercent, .unknownRegister, .outOfRange, .sizeMismatch, .unsupportedWidth, .sharesLine]

/-- The faults of statements. -/
def faultFindings (p : Program) : List Finding :=
  p.statements.toList.flatMap fun s =>
    (reportedFaults.filter s.faults.contains).map fun f => { line := s.line, issue := .fault f }

/-- What is wrong with the section that a statement stands in. -/
def misplacement (p : Program) (s : Placed) : Option Issue :=
  if s.kind.isMark || s.kind == .global then none
  else
    match p.sectionOf s.line with
    | .afterEnd => some .afterEnd
    | .beforeData => if p.data.isSome || p.text.isSome then some .outsideProgram else none
    | .data => if s.isCode then some .codeInData else none
    | .text => if s.isData && p.text.isSome then some .dataInText else none

/-- Statements in the wrong section. -/
def placementFindings (p : Program) : List Finding :=
  p.statements.toList.filterMap fun s =>
    (misplacement p s).map fun issue => { line := s.line, issue }

/-! ## Flow -/

/-- What the flow of control says about a statement that is reached. -/
def reachedIssues (a : Analysis) (s : Placed) (i : Nat) : List Issue :=
  let v := a.program.verdictOf a.last.arrivals i
  (if a.last.dead[i]?.getD false then [.deadStore] else []) ++
    match s.branch with
    | some (.conditional _) =>
      (if v.never then [.neverTaken] else []) ++ (if v.always then [.alwaysTaken] else []) ++
        (if v.redundant.isEmpty then [] else [.redundantCondition v.redundant])
    | _ => []

/-- What the flow of control says about executable statements.  A stretch that is not reached is
    reported where it starts, if that is in the text section; `inStretch` says whether the statement
    before was not reached either. -/
def flowFrom (a : Analysis) (inStretch : Bool) : List (Placed × Nat) → List Finding
  | [] => []
  | (s, i) :: rest =>
    if !s.isCode then flowFrom a inStretch rest
    else if a.last.ownership.isFound i then
      (reachedIssues a s i).map (fun issue => { line := s.line, issue }) ++ flowFrom a false rest
    else if !inStretch && a.program.sectionOf s.line == .text then
      { line := s.line, issue := .unreachable } :: flowFrom a true rest
    else flowFrom a true rest

/-- What the flow of control says. -/
def flowFindings (a : Analysis) : List Finding :=
  flowFrom a false a.program.statements.toList.zipIdx

/-- The first statement that each two routines share, past those in `seen`. -/
def overlapsFrom (o : Ownership) (seen : List (Nat × Nat)) :
    List (Placed × Nat) → List Finding
  | [] => []
  | (s, i) :: rest =>
    match o.ownerOf i, o.overlapOf i with
    | some owner, some other =>
      if owner = other ∨ (owner, other) ∈ seen then overlapsFrom o seen rest
      else
        { line := s.line, issue := .subroutineOverlap other } ::
          overlapsFrom o ((owner, other) :: seen) rest
    | _, _ => overlapsFrom o seen rest

/-- The first statement that each two routines share. -/
def overlapFindings (a : Analysis) : List Finding :=
  overlapsFrom a.last.ownership [] a.program.statements.toList.zipIdx

/-! ## Registers -/

/-- Whether a statement of the routine writes a register. -/
def writesIn (a : Analysis) (id : Nat) (r : Reg) : Bool :=
  a.program.statements.toList.zipIdx.any fun (s, i) =>
    a.last.ownership.ownerOf i == some id && s.effects.writes.contains r

/-- What is wrong with a routine's use of registers: the main routine may not use a value that
    nobody gave it, any other has to hand some registers back as they were. -/
def registerIssues (a : Analysis) (s : Subroutine) (t : RegisterTable) : List Issue :=
  if s.isMain then
    (Reg.listed.filter fun r => (t.get r).save.contains .input).map .uninitializedRead
  else
    (Reg.calleeSaved.filter fun r =>
      a.writesIn s.id r && !(t.get r).save.includes {.saved, .restored}).map .unsavedRegister

/-- What is wrong with the routines' use of registers. -/
def registerFindings (a : Analysis) : List Finding :=
  a.last.subroutines.flatMap fun s =>
    match s.block with
    | none => []
    | some b =>
      (registerIssues a s (a.last.tableOf b)).map fun issue =>
        { line := a.program.lineOf s.entry, issue }

/-! ## Everything -/

/-- All there is to report, as it comes. -/
def rawFindings (a : Analysis) : List Finding :=
  faultFindings a.program ++ placementFindings a.program ++ flowFindings a ++
    overlapFindings a ++ registerFindings a

/-- All there is to report: by line, the more severe first, and nothing twice in a row. -/
def findings (a : Analysis) : List Finding :=
  (a.rawFindings.mergeSort Finding.le).eraseReps

end Analysis

end AsmCheck
