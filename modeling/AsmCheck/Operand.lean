import AsmCheck.Literal
import AsmCheck.Register

/-! # Operands

    An operand is an immediate value, a register or a place in memory; text
    that is none of these is kept as it is.  Every operand has a written form. -/

namespace AsmCheck

/-- An immediate value. -/
inductive Immediate where
  /-- An integer and its spelling. -/
  | number (value : Int) (radix : Radix)
  /-- A character, which stands for its code. -/
  | character (c : Char)
  /-- The address of a label. -/
  | symbol (name : String)
deriving DecidableEq, Repr

namespace Immediate

/-- The integer that an immediate stands for, unless it is a label's address. -/
def value? : Immediate → Option Int
  | .number n _ => some n
  | .character c => some c.toNat
  | .symbol _ => none

/-- Reads an immediate, without its dollar sign: a number, else a character, else a name. -/
def read (cs : List Char) : Option Immediate :=
  match Literal.readNumber cs with
  | some (n, radix) => some (.number n radix)
  | none =>
    match Literal.readChar cs with
    | some c => some (.character c)
    | none => if Literal.isName cs then some (.symbol (String.ofList cs)) else none

/-- The written form, without a dollar sign. -/
def render : Immediate → String
  | .number n radix => String.ofList (Literal.writeNumber radix n)
  | .character c => String.ofList (Literal.writeChar c)
  | .symbol name => name

end Immediate

/-- A place in memory. -/
structure MemoryRef where
  /-- The place as written, without a leading asterisk. -/
  text : String
  /-- The label it is relative to. -/
  symbol : Option String := none
  /-- The number it is displaced by. -/
  displacement : Option Int := none
  /-- The registers that form the address. -/
  registers : List Register := []
  /-- Whether an asterisk stands in front. -/
  indirect : Bool := false
deriving DecidableEq, Repr

namespace MemoryRef

/-- The number, if the place is nothing but a number. -/
def bareNumber (m : MemoryRef) : Option Int :=
  if m.symbol.isNone && m.registers.isEmpty && !m.text.toList.contains '(' then m.displacement
  else none

/-- The written form. -/
def render (m : MemoryRef) : String :=
  if m.indirect then "*" ++ m.text else m.text

end MemoryRef

/-- One operand of a statement. -/
inductive Operand where
  | immediate (value : Immediate)
  | register (reg : Register)
  | memory (place : MemoryRef)
  /-- Text that is no operand. -/
  | invalid (text : String)
deriving DecidableEq, Repr

namespace Operand

/-- The immediate, if the operand is one. -/
def immediate? : Operand → Option Immediate
  | .immediate v => some v
  | _ => none

/-- The register, if the operand is one. -/
def register? : Operand → Option Register
  | .register r => some r
  | _ => none

/-- The place in memory, if the operand is one. -/
def memory? : Operand → Option MemoryRef
  | .memory m => some m
  | _ => none

/-- The written form. -/
def render : Operand → String
  | .immediate v => "$" ++ v.render
  | .register r => r.render
  | .memory m => m.render
  | .invalid text => text

end Operand

end AsmCheck
