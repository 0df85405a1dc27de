import AsmCheck.CondCode
import AsmCheck.Register

/-! # Operations

    What a mnemonic stands for: the kind of statement, the operands it takes,
    what it does to registers and condition codes, and how control leaves it.
    Mnemonics stand in two tables: those that are spelled in one way only, and
    families that may carry a width letter.  Conditional jumps are `j` and a
    condition. -/

namespace AsmCheck

/-- The kind of a statement. -/
inductive Kind where
  | arithmetic
  | unaryArithmetic
  | move
  | stack
  | control
  /-- An instruction without operands. -/
  | alone
  /-- A directive that stores numbers. -/
  | number
  /-- A directive that stores strings. -/
  | string
  | global
  | align
  /-- The start of the data section. -/
  | dataMark
  /-- The start of the text section. -/
  | textMark
  /-- The end of the program. -/
  | endMark
  /-- A statement with no known mnemonic; the machine would execute it. -/
  | unknown
deriving DecidableEq, Repr

namespace Kind

/-- Whether the statement occupies data bytes. -/
def isData : Kind → Bool
  | .number | .string => true
  | _ => false

/-- Whether the machine would execute the statement. -/
def isCode : Kind → Bool
  | .arithmetic | .unaryArithmetic | .move | .stack | .control | .alone | .unknown => true
  | _ => false

/-- Whether the statement divides the program into sections. -/
def isMark : Kind → Bool
  | .dataMark | .textMark | .endMark => true
  | _ => false

/-- Whether control passes over the statement to the one after it, as if it were not there. -/
def isTransparent : Kind → Bool
  | .global | .align | .dataMark | .textMark => true
  | _ => false

end Kind

/-- How a control instruction goes on. -/
inductive Branch where
  /-- Always to its target. -/
  | jump
  /-- To its target if the code at hand is one of those tested. -/
  | conditional (test : CodeSet)
  /-- To its target on a condition that the codes do not tell. -/
  | untracked
  /-- To its target, and on after the return. -/
  | call
deriving DecidableEq

/-- The operands that an operation takes. -/
inductive Shape where
  | nullary
  | unary
  /-- A source and a destination. -/
  | binary
  /-- A destination alone, or a source and a destination. -/
  | unaryOrBinary
  /-- Two immediates that describe a stack frame. -/
  | frame
  /-- Where to jump to. -/
  | target
  /-- Numbers to store. -/
  | values
  | alignment
  /-- The name of a label. -/
  | symbol
  /-- Strings to store. -/
  | strings
deriving DecidableEq, Repr

namespace Shape

/-- Whether so many operands fit. -/
def accepts : Shape → Nat → Bool
  | .nullary, n => n == 0
  | .unary, n | .target, n | .alignment, n | .symbol, n => n == 1
  | .binary, n | .frame, n => n == 2
  | .unaryOrBinary, n => n == 1 || n == 2
  | .values, n | .strings, n => 1 ≤ n

end Shape

/-- What an operation does to registers. -/
inductive Effect where
  /-- Reads both operands and writes the destination. -/
  | update
  /-- Reads both operands. -/
  | compare
  /-- Reads the source and writes the destination. -/
  | assign
  /-- Multiplies or divides, with the accumulator implied. -/
  | mulDiv
  | push
  | pop
  /-- Sets up or takes down a stack frame. -/
  | frame
  /-- Returns: every register may be read afterwards. -/
  | return
  | none
deriving DecidableEq, Repr

/-- What a mnemonic stands for. -/
structure Opcode where
  kind : Kind
  shape : Shape
  effect : Effect
  /-- The width that the mnemonic names. -/
  width : Option Width := none
  /-- Whether the result's sign becomes the condition code. -/
  setsCodes : Bool := false
  branch : Option Branch := none
  /-- Whether the first of two operands is a count, whose width is its own affair. -/
  hasCount : Bool := false
  /-- Whether control never goes on to the next statement. -/
  terminates : Bool := false
deriving DecidableEq

namespace Opcode

/-- Mnemonics that are spelled in one way only. -/
def fixed : List (List String × Opcode) :=
  [([".byte"], { kind := .number, shape := .values, effect := .none, width := some .byte }),
    ([".word", ".short"],
      { kind := .number, shape := .values, effect := .none, width := some .word }),
    ([".long", ".int"],
      { kind := .number, shape := .values, effect := .none, width := some .long }),
    ([".quad"], { kind := .number, shape := .values, effect := .none, width := some .quad }),
    ([".ascii", ".asciz", ".string"], { kind := .string, shape := .strings, effect := .none }),
    ([".globl", ".global"], { kind := .global, shape := .symbol, effect := .none }),
    ([".align"], { kind := .align, shape := .alignment, effect := .none }),
    ([".data"], { kind := .dataMark, shape := .nullary, effect := .none }),
    ([".text"], { kind := .textMark, shape := .nullary, effect := .none }),
    ([".end"], { kind := .endMark, shape := .nullary, effect := .none }),
    (["ret", "iret"], { kind := .alone, shape := .nullary, effect := .return, terminates := true }),
    (["hlt"], { kind := .alone, shape := .nullary, effect := .none, terminates := true }),
    (["nop", "cli", "sti", "cld", "std"],
      { kind := .alone, shape := .nullary, effect := .none }),
    (["leave"], { kind := .alone, shape := .nullary, effect := .frame }),
    (["enter"], { kind := .stack, shape := .frame, effect := .frame }),
    (["jmp", "j"],
      { kind := .control, shape := .target, effect := .none, branch := some .jump,
        terminates := true }),
    (["call"], { kind := .control, shape := .target, effect := .none, branch := some .call }),
    (["movzbl", "movzbw", "movzwl", "movsbl", "movsbw", "movswl"],
      { kind := .move, shape := .binary, effect := .assign }),
    (["jo", "jno", "jp", "jpe", "jnp", "jpo", "jcxz", "jecxz"],
      { kind := .control, shape := .target, effect := .none, branch := some .untracked })]

/-- Mnemonics that may carry a width letter. -/
def families : List (List String × Opcode) :=
  [(["add", "sub", "adc", "sbb", "and", "or", "xor"],
      { kind := .arithmetic, shape := .binary, effect := .update, setsCodes := true }),
    (["cmp", "test"],
      { kind := .arithmetic, shape := .binary, effect := .compare, setsCodes := true }),
    (["sal", "shl", "sar", "shr", "rol", "ror", "rcl", "rcr"],
      { kind := .arithmetic, shape := .unaryOrBinary, effect := .update, setsCodes := true,
        hasCount := true }),
    (["mul", "imul", "div", "idiv"],
      { kind := .arithmetic, shape := .unaryOrBinary, effect := .mulDiv, setsCodes := true }),
    (["inc", "dec", "neg"],
      { kind := .unaryArithmetic, shape := .unary, effect := .update, setsCodes := true }),
    (["mov", "lea"], { kind := .move, shape := .binary, effect := .assign }),
    (["not"], { kind := .unaryArithmetic, shape := .unary, effect := .update }),
    (["push"], { kind := .stack, shape := .unary, effect := .push }),
    (["pop"], { kind := .stack, shape := .unary, effect := .pop })]

/-- The conditions of conditional jumps, with the codes that meet them. -/
def conditions : List (List String × CodeSet) :=
  [(["l", "b", "nge", "nae", "c", "s"], {.negative}),
    (["e", "z"], {.zero}),
    (["g", "a", "nle", "nbe"], {.positive}),
    (["le", "be", "ng", "na"], {.negative, .zero}),
    (["ge", "ae", "nl", "nb", "nc", "ns"], {.zero, .positive}),
    (["ne", "nz"], {.negative, .positive})]

/-- The entry of the first row that lists the name. -/
def findRow {α : Type} (table : List (List String × α)) (name : String) : Option α :=
  (table.find? fun row => row.1.contains name).map (·.2)

/-- A conditional jump: `j` and a condition. -/
def conditional? (mnemonic : String) : Option Opcode :=
  match mnemonic.toList with
  | 'j' :: cs =>
    (findRow conditions (String.ofList cs)).map fun test =>
      { kind := .control, shape := .target, effect := .none, branch := some (.conditional test) }
  | _ => none

/-- A member of a family whose mnemonic ends in a width letter. -/
def suffixed? (mnemonic : String) : Option Opcode :=
  let cs := mnemonic.toList
  match cs.getLast?.bind Width.ofSuffix? with
  | some w =>
    (findRow families (String.ofList cs.dropLast)).map fun op => { op with width := some w }
  | none => none

/-- What a mnemonic in small letters stands for. -/
def ofMnemonic? (mnemonic : String) : Option Opcode :=
  (findRow fixed mnemonic).or <|
    (conditional? mnemonic).or <|
      (findRow families mnemonic).or <|
        suffixed? mnemonic

end Opcode

end AsmCheck
