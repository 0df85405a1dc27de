import AsmCheck.Flag
import AsmCheck.Opcode
import AsmCheck.Operand

/-! # Statements

    A statement is what one line of source text tells the assembler to do: an
    instruction or a directive, with what is wrong with it. -/

namespace AsmCheck

/-- One statement as it was read. -/
structure Statement where
  /-- The line it stands on, counted from zero. -/
  line : Nat
  /-- Its text, without comments. -/
  text : String
  /-- Its first word, in small letters. -/
  mnemonic : String
  /-- What the mnemonic stands for, if it is known. -/
  opcode : Option Opcode := none
  operands : List Operand := []
  /-- The strings of a string directive, with their quotes. -/
  strings : List String := []
  /-- What is wrong with its spelling, and whether a label shares the line. -/
  faults : FlagSet := ∅
  /-- How many address units it occupies; for an alignment this depends on its place. -/
  size : Nat := 0
  /-- The alignment it asks for. -/
  align : Option Nat := none
deriving DecidableEq

namespace Statement

/-- The kind of the statement. -/
def kind (s : Statement) : Kind :=
  (s.opcode.map Opcode.kind).getD .unknown

/-- Whether the machine would execute the statement. -/
def isCode (s : Statement) : Bool :=
  s.kind.isCode

/-- Whether the statement occupies data bytes. -/
def isData (s : Statement) : Bool :=
  s.kind.isData

/-- Whether the statement transfers control. -/
def isControl (s : Statement) : Bool :=
  s.kind == .control

/-- How a control instruction goes on. -/
def branch (s : Statement) : Option Branch :=
  s.opcode.bind Opcode.branch

/-- Whether the statement is a call. -/
def isCall (s : Statement) : Bool :=
  s.branch == some .call

/-- Whether the statement returns from the current routine. -/
def isReturn (s : Statement) : Bool :=
  s.mnemonic == "ret" || s.mnemonic == "iret"

/-- Whether control never goes on to the statement after this one. -/
def terminates (s : Statement) : Bool :=
  (s.opcode.map Opcode.terminates).getD false

/-- Whether the statement leaves a condition code behind. -/
def setsCodes (s : Statement) : Bool :=
  (s.opcode.map Opcode.setsCodes).getD false && !s.faults.contains .badCount

/-- The condition codes that the statement leaves behind or tests. -/
def codes (s : Statement) : CodeSet :=
  match s.branch with
  | some (.conditional test) => test
  | some .jump => EnumSet.full
  | _ => EnumSet.when EnumSet.full s.setsCodes

/-- Everything there is to say about the statement before any analysis. -/
def flags (s : Statement) : FlagSet :=
  s.faults ∪ EnumSet.when {.alwaysTaken} (s.branch == some .jump)

/-- Whether control may go on to the statement after this one. -/
def fallsThrough (s : Statement) : Bool :=
  s.isCode && !s.terminates && !s.flags.contains .alwaysTaken

/-- The source of a statement with two operands. -/
def source (s : Statement) : Option Operand :=
  match s.operands with
  | [src, _] => some src
  | _ => none

/-- The destination: the last operand of those shapes that have one. -/
def destination (s : Statement) : Option Operand :=
  match s.opcode.map Opcode.shape with
  | some .unary | some .binary | some .unaryOrBinary => s.operands.getLast?
  | _ => none

/-- The place that a direct control transfer goes to. -/
def target (s : Statement) : Option MemoryRef :=
  if s.isControl then
    (s.operands.head?.bind Operand.memory?).filter fun m => !m.indirect
  else none

/-- The label that a direct jump or call names. -/
def targetSymbol (s : Statement) : Option String :=
  (s.target.filter fun m => m.registers.isEmpty).bind MemoryRef.symbol

/-- The offset of a jump or call to a bare number, from the statement after it. -/
def targetOffset (s : Statement) : Option Int :=
  s.target.bind MemoryRef.bareNumber

/-- The written form: the mnemonic, then the strings or the operands. -/
def render (s : Statement) : String :=
  let parts := if s.strings.isEmpty then s.operands.map Operand.render else s.strings
  if parts.isEmpty then s.mnemonic else s.mnemonic ++ " " ++ ", ".intercalate parts

end Statement

end AsmCheck
