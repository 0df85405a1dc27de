import AsmCheck.Statement.Parse

/-! # Layout

    The items of a source text, labels and statements, are placed one after
    the other: each statement takes the next free address and occupies its
    size, each label names the next free address.  Addresses stop growing at
    the greatest one. -/

namespace AsmCheck

open AsmCheck.Source

/-- A label or a statement, in the order of the source text. -/
inductive Item where
  | label (name : String) (line : Nat)
  | statement (s : Statement)
deriving DecidableEq

namespace Item

/-- The items of a line: its label, then its statement. -/
def ofLine (l : LogicalLine) : List Item :=
  let p := ParsedLine.parse l.text l.line
  (p.label.map (Item.label · l.line)).toList ++ (p.statement.map Item.statement).toList

/-- The items of a source text. -/
def ofSource (source : List Char) : List Item :=
  (logicalLines source).flatMap ofLine

end Item

/-- A statement in its place. -/
structure Placed extends Statement where
  address : Nat
  /-- The address that a jump or call to a bare number goes to. -/
  targetAddress : Option Nat := none
deriving DecidableEq

namespace Placed

/-- The least size that brings an address to a multiple of `n`. -/
def padding (n address : Nat) : Nat :=
  (n - address % n) % n

/-- An address that an offset from the statement after this one leads to, unless it leaves the
    address range.  Both sums stop at the ends of the 64-bit range, as numbers do. -/
def relative (address : Nat) (offset : Int) : Option Nat :=
  let a := Literal.clamp (Literal.clamp ((address : Int) + 1) + offset)
  if 0 ≤ a ∧ a ≤ Statement.addressLimit then some a.toNat else none

/-- The size of a statement at an address: an alignment takes what it needs there. -/
def sizeAt (s : Statement) (address : Nat) : Nat :=
  if s.kind = .align then (s.align.map (padding · address)).getD 0 else s.size

/-- Places a statement at an address. -/
def place (s : Statement) (address : Nat) : Placed :=
  { s with
    size := sizeAt s address
    address
    targetAddress := s.targetOffset.bind (relative address) }

end Placed

/-- A name for an address. -/
structure Label where
  name : String
  /-- The line it stands on, counted from zero. -/
  line : Nat
  address : Nat
  /-- The statement it names. -/
  statement : Option Nat := none
deriving DecidableEq

/-- An item in its place. -/
inductive Entry where
  | label (l : Label)
  | statement (s : Placed)
deriving DecidableEq

namespace Entry

/-- The label of an entry. -/
def label? : Entry → Option Label
  | .label l => some l
  | .statement _ => none

/-- The statement of an entry. -/
def statement? : Entry → Option Placed
  | .label _ => none
  | .statement s => some s

/-- Places items one after the other from an address on. -/
def layout : Nat → List Item → List Entry
  | _, [] => []
  | cursor, .label name line :: items =>
    .label { name, line, address := cursor } :: layout cursor items
  | cursor, .statement s :: items =>
    let placed := Placed.place s cursor
    .statement placed :: layout (min (cursor + placed.size) Statement.addressLimit) items

end Entry

end AsmCheck
