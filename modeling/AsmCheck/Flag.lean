import AsmCheck.EnumSet

/-! # Statement flags

    What there is to say about one statement: faults of its spelling, found
    when it is read, and verdicts of the flow analysis, found round by
    round. -/

namespace AsmCheck

/-- A remark on one statement. -/
inductive Flag where
  /-- An operand or value that cannot be made out. -/
  | incomplete
  /-- The entry of a marked subroutine. -/
  | subroutineStart
  /-- Some routine reaches the statement. -/
  | found
  /-- The value stored is overwritten before any use. -/
  | dead
  /-- The jump leaves no other way on. -/
  | alwaysTaken
  /-- The jump's condition never holds. -/
  | neverTaken
  /-- The jump tests codes that cannot hold, or nothing is left to decide. -/
  | redundantTest
  /-- Both operands are in memory. -/
  | memoryTwice
  /-- Both operands are immediates. -/
  | immediateTwice
  /-- No operation has this mnemonic. -/
  | unknownMnemonic
  /-- The operation does not take this many operands. -/
  | badCount
  /-- A number without the dollar sign of an immediate. -/
  | missingDollar
  /-- A register without its percent sign. -/
  | missingPercent
  /-- A label stands on the same line. -/
  | sharesLine
  /-- An immediate does not fit the operation's width. -/
  | outOfRange
  /-- A register's width is not the operation's. -/
  | sizeMismatch
  /-- A width the machine does not have. -/
  | unsupportedWidth
  /-- A percent sign in front of no register's name. -/
  | unknownRegister
deriving DecidableEq, Repr

namespace Flag

/-- Every flag, in the order in which flags are listed. -/
def listed : List Flag :=
  [.incomplete, .subroutineStart, .found, .dead, .alwaysTaken, .neverTaken, .redundantTest,
    .memoryTwice, .immediateTwice, .unknownMnemonic, .badCount, .missingDollar, .missingPercent,
    .sharesLine, .outOfRange, .sizeMismatch, .unsupportedWidth, .unknownRegister]

instance : Enumerated Flag where
  card := 18
  index
    | .incomplete => 0
    | .subroutineStart => 1
    | .found => 2
    | .dead => 3
    | .alwaysTaken => 4
    | .neverTaken => 5
    | .redundantTest => 6
    | .memoryTwice => 7
    | .immediateTwice => 8
    | .unknownMnemonic => 9
    | .badCount => 10
    | .missingDollar => 11
    | .missingPercent => 12
    | .sharesLine => 13
    | .outOfRange => 14
    | .sizeMismatch => 15
    | .unsupportedWidth => 16
    | .unknownRegister => 17
  element := listed.get
  element_index a := by cases a <;> rfl
  index_element := by decide

/-- The name a flag is listed under. -/
def name : Flag → String
  | .incomplete => "incomplete"
  | .subroutineStart => "subroutine-start"
  | .found => "found"
  | .dead => "dead"
  | .alwaysTaken => "always-br"
  | .neverTaken => "never-br"
  | .redundantTest => "redundant-cc"
  | .memoryTwice => "memory-twice"
  | .immediateTwice => "immediate-twice"
  | .unknownMnemonic => "nonexistent"
  | .badCount => "bad-arg-count"
  | .missingDollar => "missing-imm-prefix"
  | .missingPercent => "missing-reg-prefix"
  | .sharesLine => "shares-line"
  | .outOfRange => "imm-range"
  | .sizeMismatch => "size-mismatch"
  | .unsupportedWidth => "unsupported-width"
  | .unknownRegister => "unknown-register"

end Flag

/-- A set of remarks on one statement. -/
abbrev FlagSet := EnumSet Flag

namespace FlagSet

/-- The verdicts that every round of the analysis starts afresh. -/
def roundLocal : FlagSet :=
  {.found, .dead, .subroutineStart}

/-- The faults of a malformed statement. -/
def malformed : FlagSet :=
  {.incomplete, .memoryTwice, .immediateTwice, .unknownMnemonic, .badCount, .missingDollar,
    .missingPercent, .outOfRange, .sizeMismatch, .unsupportedWidth, .unknownRegister}

/-- Whether the two sets have a flag in common. -/
def meets (s t : FlagSet) : Bool :=
  !(s ∩ t).isEmpty

/-- The names of the flags, separated by commas. -/
def render (s : FlagSet) : String :=
  ",".intercalate (s.toList.map Flag.name)

end FlagSet

end AsmCheck
