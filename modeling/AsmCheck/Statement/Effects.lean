import AsmCheck.Statement
import AsmCheck.Text.Blank

/-! # What a statement does to registers

    Which register slots a statement reads, writes and makes use of, which
    slot its destination operand is, and whether it puts a register aside or
    brings one back. -/

namespace AsmCheck

/-- The register slots that a statement touches. -/
structure Effects where
  reads : RegSet := ∅
  writes : RegSet := ∅
  /-- The reads that make use of the value: neither those that a call or a return stands for, nor
      the merging of a narrow result into its slot. -/
  uses : RegSet := ∅
  /-- The slot of an explicit destination operand. -/
  dest : Option Reg := none
deriving DecidableEq

namespace Effects

instance : EmptyCollection Effects where
  emptyCollection := {}

/-- Both effects together. -/
instance : Union Effects where
  union a b :=
    { reads := a.reads ∪ b.reads
      writes := a.writes ∪ b.writes
      uses := a.uses ∪ b.uses
      dest := a.dest.or b.dest }

/-- Reads and makes use of slots. -/
def consume (rs : RegSet) : Effects :=
  { reads := rs, uses := rs }

/-- Writes slots that no operand names. -/
def overwrite (rs : RegSet) : Effects :=
  { writes := rs }

/-- Reads an operand, if it is a register. -/
def readOperand : Operand → Effects
  | .register r => consume {r.slot}
  | _ => ∅

/-- Writes an operand, if it is a register.  A narrow result merges into its slot, which therefore
    is read as well. -/
def writeOperand : Operand → Effects
  | .register r =>
    { reads := EnumSet.when {r.slot} (!r.isFull), writes := {r.slot}, dest := some r.slot }
  | _ => ∅

/-- Uses the registers that form an address. -/
def address : Operand → Effects
  | .memory m => consume (EnumSet.ofList (m.registers.map Register.slot))
  | _ => ∅

/-- All effects of a list together. -/
def all (es : List Effects) : Effects :=
  es.foldl (· ∪ ·) ∅

end Effects

/-- A register put aside, or brought back. -/
inductive Transfer where
  | save (reg : Reg) (location : String)
  | restore (reg : Reg) (location : String)
deriving DecidableEq, Repr

namespace Statement

open Effects

/-- Whether the mnemonic starts with the given letters. -/
def startsWith (s : Statement) (letters : String) : Bool :=
  letters.toList.isPrefixOf s.mnemonic.toList

/-- Whether the two operands are one register that is cleared by taking it from itself. -/
def clears (s : Statement) (src dst : Operand) : Bool :=
  src.register?.isSome && src == dst && (s.startsWith "xor" || s.startsWith "sub")

/-- The slots that a multiplication or division of the accumulator reads. -/
def implied (s : Statement) : RegSet :=
  if Text.hasPart "div".toList s.mnemonic.toList then {.eax, .edx} else {.eax}

/-- What the operation itself does, apart from forming addresses. -/
def operation (s : Statement) (op : Opcode) : Effects :=
  match op.effect, s.operands with
  | .update, [src, dst] =>
    if s.clears src dst then writeOperand dst
    else readOperand src ∪ readOperand dst ∪ writeOperand dst
  | .update, [dst] => readOperand dst ∪ writeOperand dst
  | .compare, ops => all (ops.map readOperand)
  | .assign, [src, dst] => readOperand src ∪ writeOperand dst
  | .mulDiv, [src, dst] => readOperand src ∪ readOperand dst ∪ writeOperand dst
  | .mulDiv, [src] => readOperand src ∪ consume s.implied ∪ overwrite {.eax, .edx}
  | .push, ops => all (ops.map readOperand) ∪ consume {.esp} ∪ overwrite {.esp}
  | .pop, ops => all (ops.map writeOperand) ∪ consume {.esp} ∪ overwrite {.esp}
  | .frame, _ => consume {.ebp, .esp} ∪ overwrite {.ebp, .esp}
  | .return, _ => { reads := EnumSet.full, writes := {.esp} }
  | .none, ops =>
    match op.branch with
    | some .call =>
      { reads := EnumSet.full, writes := EnumSet.ofList Reg.callClobbered ∪ {.esp} }
    | some _ => all (ops.head?.toList.map readOperand)
    | none => ∅
  | _, _ => ∅

/-- What the statement does to registers. -/
def effects (s : Statement) : Effects :=
  let addresses := all (s.operands.map address)
  match s.opcode with
  | none => addresses
  | some op => addresses ∪ s.operation op

/-- The slot of an operand that is a whole register. -/
def fullSlot? : Operand → Option Reg
  | .register r => if r.isFull then some r.slot else none
  | _ => none

/-- The name of the place that pushed registers go to. -/
def stackPlace : String := "stack"

/-- The whole register that the statement puts aside or brings back: on the stack, or by a move
    to or from memory. -/
def transfer (s : Statement) : Option Transfer :=
  match s.opcode.map Opcode.effect, s.operands with
  | some .push, [op] => (fullSlot? op).map fun r => .save r stackPlace
  | some .pop, [op] => (fullSlot? op).map fun r => .restore r stackPlace
  | some .assign, [src, dst] =>
    if s.startsWith "mov" then
      match fullSlot? src, dst.memory?, src.memory?, fullSlot? dst with
      | some r, some m, _, _ => some (.save r m.text)
      | _, _, some m, some r => some (.restore r m.text)
      | _, _, _, _ => none
    else none
  | _, _ => none

end Statement

end AsmCheck
