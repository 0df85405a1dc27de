import AsmCheck.EnumSet

/-! # Registers and operand widths

    The machine has nine register slots of 32 bits.  Source text names a
    slot, or a 16- or 8-bit part of one, by one of 25 names. -/

namespace AsmCheck

/-- The width of an operand. -/
inductive Width where
  | byte
  | word
  | long
  | quad
deriving DecidableEq, Repr

namespace Width

/-- How many bytes an operand of this width occupies. -/
def bytes : Width → Nat
  | .byte => 1
  | .word => 2
  | .long => 4
  | .quad => 8

/-- The width that a letter at the end of a mnemonic stands for. -/
def ofSuffix? : Char → Option Width
  | 'b' => some .byte
  | 'w' => some .word
  | 'l' => some .long
  | 'q' => some .quad
  | _ => none

/-- The least immediate of this width, as a signed number. -/
def least : Width → Int
  | .byte => -0x80
  | .word => -0x8000
  | .long => -0x80000000
  | .quad => -0x8000000000000000

/-- The greatest immediate of this width: unsigned, except for the widest, which stays signed. -/
def greatest : Width → Int
  | .byte => 0xff
  | .word => 0xffff
  | .long => 0xffffffff
  | .quad => 0x7fffffffffffffff

/-- Whether a number may stand as an immediate of this width. -/
def admits (w : Width) (n : Int) : Bool :=
  decide (w.least ≤ n) && decide (n ≤ w.greatest)

end Width

/-- A 32-bit register slot. -/
inductive Reg where
  | eax
  | ebx
  | ecx
  | edx
  | esi
  | edi
  | ebp
  | esp
  | eip
deriving DecidableEq, Repr

namespace Reg

/-- Every slot, in the order in which slots are listed. -/
def listed : List Reg :=
  [.eax, .ebx, .ecx, .edx, .esi, .edi, .ebp, .esp, .eip]

instance : Enumerated Reg where
  card := 9
  index
    | .eax => 0
    | .ebx => 1
    | .ecx => 2
    | .edx => 3
    | .esi => 4
    | .edi => 5
    | .ebp => 6
    | .esp => 7
    | .eip => 8
  element := listed.get
  element_index a := by cases a <;> rfl
  index_element := by decide

/-- The name of a slot. -/
def name : Reg → String
  | .eax => "eax"
  | .ebx => "ebx"
  | .ecx => "ecx"
  | .edx => "edx"
  | .esi => "esi"
  | .edi => "edi"
  | .ebp => "ebp"
  | .esp => "esp"
  | .eip => "eip"

/-- Slots that hold a defined value from the start. -/
def isManaged : Reg → Bool
  | .esp | .eip => true
  | _ => false

/-- The slots that a call may overwrite. -/
def callClobbered : List Reg :=
  [.eax, .ecx, .edx]

/-- The slots that a subroutine has to hand back unchanged. -/
def calleeSaved : List Reg :=
  [.ebx, .esi, .edi]

end Reg

/-- A set of register slots. -/
abbrev RegSet := EnumSet Reg

/-- A register as source text names it: a whole slot or a part of one. -/
inductive Register where
  | eax | ax | al | ah
  | ebx | bx | bl | bh
  | ecx | cx | cl | ch
  | edx | dx | dl | dh
  | esi | si
  | edi | di
  | ebp | bp
  | esp | sp
  | eip
deriving DecidableEq, Repr

namespace Register

/-- Every register name there is. -/
def listed : List Register :=
  [.eax, .ax, .al, .ah, .ebx, .bx, .bl, .bh, .ecx, .cx, .cl, .ch, .edx, .dx, .dl, .dh,
    .esi, .si, .edi, .di, .ebp, .bp, .esp, .sp, .eip]

/-- The spelling of a register, without the percent sign. -/
def name : Register → String
  | .eax => "eax"
  | .ax => "ax"
  | .al => "al"
  | .ah => "ah"
  | .ebx => "ebx"
  | .bx => "bx"
  | .bl => "bl"
  | .bh => "bh"
  | .ecx => "ecx"
  | .cx => "cx"
  | .cl => "cl"
  | .ch => "ch"
  | .edx => "edx"
  | .dx => "dx"
  | .dl => "dl"
  | .dh => "dh"
  | .esi => "esi"
  | .si => "si"
  | .edi => "edi"
  | .di => "di"
  | .ebp => "ebp"
  | .bp => "bp"
  | .esp => "esp"
  | .sp => "sp"
  | .eip => "eip"

/-- The slot that the register is, or is a part of. -/
def slot : Register → Reg
  | .eax | .ax | .al | .ah => .eax
  | .ebx | .bx | .bl | .bh => .ebx
  | .ecx | .cx | .cl | .ch => .ecx
  | .edx | .dx | .dl | .dh => .edx
  | .esi | .si => .esi
  | .edi | .di => .edi
  | .ebp | .bp => .ebp
  | .esp | .sp => .esp
  | .eip => .eip

/-- How wide the register is. -/
def width : Register → Width
  | .eax | .ebx | .ecx | .edx | .esi | .edi | .ebp | .esp | .eip => .long
  | .ax | .bx | .cx | .dx | .si | .di | .bp | .sp => .word
  | .al | .ah | .bl | .bh | .cl | .ch | .dl | .dh => .byte

/-- Whether the register is its whole slot. -/
def isFull (r : Register) : Bool :=
  r.width == .long

/-- The register of a name, in whatever mix of capital and small letters. -/
def ofName? (name : List Char) : Option Register :=
  listed.find? fun r => r.name.toList == name.map Char.toLower

/-- A register is written with a percent sign. -/
def render (r : Register) : String :=
  "%" ++ r.name

end Register

end AsmCheck
