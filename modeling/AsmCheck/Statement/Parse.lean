import AsmCheck.Operand.Classify
import AsmCheck.Source.LogicalLine
import AsmCheck.Source.Token
import AsmCheck.Statement

/-! # Reading statements

    A line holds a label, a statement, or a label and a statement.  Reading
    never fails: a mnemonic nobody knows, operands that do not fit and numbers
    out of range are all kept as faults of the statement. -/

namespace AsmCheck

open AsmCheck.Text AsmCheck.Source

namespace Statement

/-- What a list of operand tokens was read as. -/
structure Reading where
  operands : List Operand := []
  strings : List String := []
  align : Option Nat := none
  faults : FlagSet := ∅

namespace Reading

/-- Operands as they come, each with its own faults. -/
def classified (args : List (List Char)) : Reading where
  operands := args.map fun a => (Operand.classify a).1
  faults := args.foldl (fun fl a => fl ∪ (Operand.classify a).2) ∅

/-- Adds faults to a reading. -/
def flag (r : Reading) (fl : FlagSet) : Reading :=
  { r with faults := r.faults ∪ fl }

/-- The fault of two operands that are both in memory, or both immediate. -/
def pairFault : List Operand → FlagSet
  | [.memory _, .memory _] => {.memoryTwice}
  | [.immediate _, .immediate _] => {.immediateTwice}
  | _ => ∅

/-- A source and a destination. -/
def pair (args : List (List Char)) : Reading :=
  let r := classified args
  r.flag (pairFault r.operands)

/-- The two numbers of a stack frame. -/
def frame (args : List (List Char)) : Reading :=
  let r := classified args
  r.flag (EnumSet.when {.incomplete} (r.operands.any fun op => op.immediate?.isNone))

/-- Where a jump goes: a bare number needs no dollar sign here, and an immediate is no place. -/
def target (args : List (List Char)) : Reading :=
  let r := classified args
  let kept : Reading := { r with faults := r.faults.erase .missingDollar }
  kept.flag (EnumSet.when {.incomplete} (r.operands.any fun op => op.immediate?.isSome))

/-- A number to store; the dollar sign is optional. -/
def value (arg : List Char) : Operand × FlagSet :=
  let literal := match arg with
    | '$' :: cs => cs
    | cs => cs
  match Immediate.read literal with
  | some v => (.immediate v, ∅)
  | none => (.invalid (String.ofList arg), {.incomplete})

/-- Numbers to store. -/
def values (args : List (List Char)) : Reading where
  operands := args.map fun a => (value a).1
  faults := args.foldl (fun fl a => fl ∪ (value a).2) ∅

/-- The alignment that a value asks for: a positive 32-bit number. -/
def alignmentOf (op : Operand) : Option Nat :=
  match op.immediate?.bind Immediate.value? with
  | some n => if 0 < n ∧ n ≤ 4294967295 then some n.toNat else none
  | none => none

/-- An alignment. -/
def alignment (args : List (List Char)) : Reading :=
  let r := values args
  match r.operands.head?.bind alignmentOf with
  | some n => { r with align := some n }
  | none => r.flag {.incomplete}

/-- The name of a label. -/
def symbol (args : List (List Char)) : Reading :=
  if args.all Literal.isName then { operands := (classified args).operands }
  else { faults := {.incomplete} }

/-- Whether a token is a string with both its quotes. -/
def isClosed (arg : List Char) : Bool :=
  2 ≤ arg.length && arg.head? == some '"' && arg.getLast? == some '"'

/-- Strings to store. -/
def stringList (args : List (List Char)) : Reading where
  strings := args.map String.ofList
  faults := EnumSet.when {.incomplete} (args.any fun a => !isClosed a)

/-- Operands of the right number, read as a shape asks. -/
def ofShape : Shape → List (List Char) → Reading
  | .nullary, _ => {}
  | .unary, args | .binary, args | .unaryOrBinary, args => pair args
  | .frame, args => frame args
  | .target, args => target args
  | .values, args => values args
  | .alignment, args => alignment args
  | .symbol, args => symbol args
  | .strings, args => stringList args

/-- Operand tokens read as a shape asks; if their number is wrong none of them is kept. -/
def ofTokens (shape : Shape) (args : List (List Char)) : Reading :=
  if shape.accepts args.length then ofShape shape args else { faults := {.badCount} }

end Reading

/-! ## Widths -/

/-- The width that operands are held to, if they are held to any. -/
def checkedWidth (op : Opcode) : Option Width :=
  if op.kind == .number || op.kind.isCode then some (op.width.getD .long) else none

/-- The faults of one operand against a width; registers are only compared when the mnemonic names
    the width. -/
def widthFault (op : Opcode) (w : Width) : Operand → FlagSet
  | .register r => EnumSet.when {.sizeMismatch} (op.width.isSome && r.width != w)
  | .immediate v =>
    EnumSet.when {.outOfRange} ((v.value?.map fun n => !w.admits n).getD false)
  | _ => ∅

/-- The faults of the operands against the operation's width.  The machine has no 64-bit
    instructions, and the count of a shift is not compared. -/
def widthFaults (op : Opcode) (operands : List Operand) : FlagSet :=
  match checkedWidth op with
  | none => ∅
  | some w =>
    if op.kind.isCode && op.width == some .quad then {.unsupportedWidth}
    else
      let faultOf (o : Operand) : FlagSet := widthFault op w o
      match operands with
      | [.register r, dst] => EnumSet.when (faultOf (.register r)) (!op.hasCount) ∪ faultOf dst
      | ops => ops.foldl (fun fl o => fl ∪ faultOf o) ∅

/-! ## Sizes -/

/-- The text without up to `n` octal digits at its start. -/
def dropOctal : Nat → List Char → List Char
  | 0, cs => cs
  | _, [] => []
  | n + 1, c :: cs => if Literal.isOctalDigit c then dropOctal n cs else c :: cs

/-- What is left after the backslash of an escape: an octal escape takes up to three digits, any
    other one character. -/
def afterEscape : List Char → List Char
  | [] => []
  | c :: cs => if Literal.isOctalDigit c then dropOctal 2 cs else cs

/-- Dropping digits does not lengthen the text. -/
theorem dropOctal_length_le (n : Nat) (cs : List Char) : (dropOctal n cs).length ≤ cs.length := by
  induction cs generalizing n with
  | nil => cases n <;> exact Nat.le_refl _
  | cons c cs ih =>
    cases n with
    | zero => exact Nat.le_refl _
    | succ n =>
      rw [dropOctal]
      split
      · exact Nat.le_succ_of_le (ih n)
      · exact Nat.le_refl _

/-- Leaving an escape does not lengthen the text. -/
theorem afterEscape_length_le (cs : List Char) : (afterEscape cs).length ≤ cs.length := by
  cases cs with
  | nil => exact Nat.le_refl _
  | cons c cs =>
    rw [afterEscape]
    split
    · exact Nat.le_succ_of_le (dropOctal_length_le 2 cs)
    · exact Nat.le_succ _

/-- How many bytes the inside of a string takes: an escape is one byte, any other character takes
    as many as its UTF-8 form. -/
def bytesOf : List Char → Nat
  | [] => 0
  | c :: cs => if c = '\\' then bytesOf (afterEscape cs) + 1 else bytesOf cs + c.utf8Size
termination_by cs => cs.length
decreasing_by
  · exact Nat.lt_succ_of_le (afterEscape_length_le cs)
  · exact Nat.lt_succ_self _

/-- The text without one quote at its start and one at its end. -/
def dropQuotes (cs : List Char) : List Char :=
  let body := match cs with
    | '"' :: rest => rest
    | rest => rest
  if body.getLast? = some '"' then body.dropLast else body

/-- How many bytes a string with its quotes takes. -/
def stringSize (literal : List Char) : Nat :=
  bytesOf (dropQuotes literal)

/-- The greatest address, and the greatest size. -/
def addressLimit : Nat := 4294967295

/-- How many address units a statement occupies: data its bytes, an instruction one. -/
def unitSize (op : Opcode) (mnemonic : String) (r : Reading) : Nat :=
  match op.kind with
  | .number => min (r.operands.length * (op.width.getD .long).bytes) addressLimit
  | .string =>
    let terminator := if mnemonic == ".ascii" then 0 else 1
    r.strings.foldr (fun s n => stringSize s.toList + terminator + n) 0
  | k => if k.isCode then 1 else 0

/-! ## Statements and lines -/

/-- Reads a statement from its text. -/
def parse (text : List Char) (line : Nat) : Statement :=
  let toks := tokens text
  let mnemonic := String.ofList (lower (toks.head?.getD []))
  let args := toks.tail
  match Opcode.ofMnemonic? mnemonic with
  | none =>
    { line, text := String.ofList text, mnemonic
      operands := (Reading.classified args).operands
      faults := {.unknownMnemonic}
      size := 1 }
  | some op =>
    let r := Reading.ofTokens op.shape args
    { line, text := String.ofList text, mnemonic
      opcode := some op
      operands := r.operands
      strings := r.strings
      faults := r.faults ∪ widthFaults op r.operands
      size := unitSize op mnemonic r
      align := r.align }

end Statement

/-- A line split into its label and its statement. -/
structure ParsedLine where
  label : Option String := none
  statement : Option Statement := none
deriving DecidableEq

namespace ParsedLine

/-- Splits off a label: a name in front of the first colon. -/
def splitLabel (cs : List Char) : Option String × List Char :=
  let front := cs.takeWhile (· != ':')
  match cs.drop front.length with
  | [] => (none, cs)
  | _ :: rest =>
    let name := trim front
    if Literal.isName name then (some (String.ofList name), trim rest) else (none, cs)

/-- Reads a line. -/
def parse (text : List Char) (line : Nat) : ParsedLine :=
  let (label, rest) := splitLabel (trim text)
  if rest.isEmpty then { label }
  else
    let s := Statement.parse rest line
    { label
      statement := some
        { s with faults := s.faults ∪ EnumSet.when {.sharesLine} label.isSome } }

end ParsedLine

end AsmCheck
