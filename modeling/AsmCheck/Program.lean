import AsmCheck.Config
import AsmCheck.Program.Layout

/-! # Programs

    An assembled program: its statements and labels in place, its sections,
    and everything about its flow of control that the text alone decides, that
    is where each statement goes on to, where each jump leads, and at which
    statements routines start.  None of this changes while the program is
    analysed. -/

namespace AsmCheck

open AsmCheck.Source

/-- Where a section marker stands. -/
structure Mark where
  line : Nat
  address : Nat
deriving DecidableEq, Repr

/-- The part of the program that a line belongs to. -/
inductive Section where
  | beforeData
  | data
  | text
  | afterEnd
deriving DecidableEq, Repr

/-- An assembled program. -/
structure Program where
  statements : Array Placed
  labels : List Label
  /-- The first marker of the data section. -/
  data : Option Mark
  /-- The first marker of the text section. -/
  text : Option Mark
  /-- The first marker of the program's end. -/
  stop : Option Mark
  /-- The statement that execution starts at. -/
  entry : Option Nat
  /-- For each statement, the one that control goes on to if nothing diverts it. -/
  following : Array (Option Nat)
  /-- For each statement, the one that its jump or call leads to. -/
  target : Array (Option Nat)
  /-- For each statement, whether it is the entry of a marked subroutine. -/
  starts : Array Bool
deriving DecidableEq

namespace Program

/-! ## Assembly -/

/-- The first marker of a kind. -/
def firstMark (k : Kind) (ss : List Placed) : Option Mark :=
  (ss.find? fun s => s.kind == k).map fun s => { line := s.line, address := s.address }

/-- Whether a statement can be named by its address: it occupies storage, and it does not stand
    before the data section. -/
def isAddressable (data : Option Mark) (s : Placed) : Bool :=
  s.size != 0 && !data.any fun d => s.line < d.line

/-- The first statement that an address names. -/
def holder (data : Option Mark) (ss : List Placed) (address : Nat) : Option Nat :=
  ss.findIdx? fun s => isAddressable data s && s.address == address

/-- The first executable statement from the start of the text section to the end. -/
def findEntry (text stop : Option Mark) (ss : List Placed) : Option Nat :=
  let first := (text.map Mark.line).getD 0
  let last := (stop.map Mark.line).getD lineLimit
  ss.findIdx? fun s => s.isCode && first ≤ s.line && s.line < last

/-- For each statement the next one that control does not pass over, and the same for what stands
    before the list, whose first statement has number `i`.  The end of the program stops the
    search. -/
def followers : Nat → List Placed → List (Option Nat) × Option Nat
  | _, [] => ([], none)
  | i, s :: ss =>
    let rest := followers (i + 1) ss
    (rest.2 :: rest.1,
      if s.kind = .endMark then none else if s.kind.isTransparent then rest.2 else some i)

/-- The first label of a name. -/
def labelNamed (labels : List Label) (name : String) : Option Label :=
  labels.find? fun l => l.name == name

/-- The first label on a line. -/
def labelOnLine (labels : List Label) (line : Nat) : Option Label :=
  labels.find? fun l => l.line == line

/-- The last label of an address. -/
def labelAt (labels : List Label) (address : Nat) : Option Label :=
  labels.reverse.find? fun l => l.address == address

/-- Where a jump or call leads: to what a label names, or to what an address names. -/
def jumpTarget (data : Option Mark) (ss : List Placed) (labels : List Label) (s : Placed) :
    Option Nat :=
  match s.targetSymbol with
  | some name => (labelNamed labels name).bind Label.statement
  | none => s.targetAddress.bind (holder data ss)

/-- The lines of a source text that hold the marker. -/
def markerLines (marker : String) (source : List Char) : List Nat :=
  ((Text.lines source).zipIdx.filter fun (l, i) =>
    Text.hasPart marker.toList l && i ≤ lineLimit).map (·.2)

/-- The statements that marked labels name. -/
def marked (labels : List Label) (lines : List Nat) : List Nat :=
  lines.filterMap fun line => (labelOnLine labels (line + 1)).bind Label.statement

/-- For each of the statements, whether it is executable and among those listed. -/
def startTable (ss : Array Placed) (entries : List Nat) : Array Bool :=
  entries.foldl (fun table i => table.setIfInBounds i ((ss[i]?).any (·.isCode)))
    (Array.replicate ss.size false)

/-- Assembles a source text. -/
def assemble (source : List Char) (config : Config) : Program :=
  let entries := Entry.layout 0 (Item.ofSource source)
  let ss := entries.filterMap Entry.statement?
  let data := firstMark .dataMark ss
  let text := firstMark .textMark ss
  let stop := firstMark .endMark ss
  let labels := (entries.filterMap Entry.label?).map fun l =>
    { l with statement := holder data ss l.address }
  { statements := ss.toArray
    labels, data, text, stop
    entry := findEntry text stop ss
    following := (followers 0 ss).1.toArray
    target := (ss.map (jumpTarget data ss labels)).toArray
    starts := startTable ss.toArray
      (if config.checksSubroutines then marked labels (markerLines config.marker source) else []) }

/-! ## Queries -/

/-- Whether there is a statement of this number that passes a test. -/
def test (p : Program) (f : Placed → Bool) (i : Nat) : Bool :=
  (p.statements[i]?).any f

/-- Whether the statement is executable. -/
def isCode (p : Program) (i : Nat) : Bool :=
  p.test (·.isCode) i

/-- Whether the statement is a call. -/
def isCall (p : Program) (i : Nat) : Bool :=
  p.test (·.isCall) i

/-- Whether the statement is the entry of a marked subroutine. -/
def isStart (p : Program) (i : Nat) : Bool :=
  p.starts[i]?.getD false

/-- The address of a statement. -/
def addressOf (p : Program) (i : Nat) : Nat :=
  ((p.statements[i]?).map Placed.address).getD 0

/-- The line of a statement. -/
def lineOf (p : Program) (i : Nat) : Nat :=
  ((p.statements[i]?).map fun s => s.line).getD 0

/-- The statement that an address names. -/
def statementAt (p : Program) (address : Nat) : Option Nat :=
  holder p.data p.statements.toList address

/-- The statements on a line, with their numbers. -/
def onLine (p : Program) (line : Nat) : List (Placed × Nat) :=
  p.statements.toList.zipIdx.filter fun (s, _) => s.line == line

/-- The part of the program that a line belongs to: that of the latest section marker up to it.
    A program without section markers is all text. -/
def sectionOf (p : Program) (line : Nat) : Section :=
  if p.stop.any fun m => m.line < line then .afterEnd
  else
    let reached (m : Option Mark) : Option Nat := (m.map Mark.line).filter (· ≤ line)
    match reached p.data, reached p.text with
    | some d, some t => if t < d then .data else .text
    | some _, none => .data
    | none, some _ => .text
    | none, none => if p.data.isNone && p.text.isNone then .text else .beforeData

/-! ## Routines -/

/-- A statement that a routine is traced from. -/
structure Root where
  entry : Nat
  /-- The address of the entry, which stands for the routine. -/
  id : Nat
  /-- The first label that names the entry. -/
  name : Option String
  /-- Whether the routine starts at the program's entry. -/
  isMain : Bool
deriving DecidableEq, Repr

/-- The routine that starts at a statement. -/
def rootAt (p : Program) (entry : Nat) (isMain : Bool) : Root where
  entry
  id := p.addressOf entry
  name := (p.labels.find? fun l => l.statement == some entry).map Label.name
  isMain

/-- The routines: the main one, then the marked ones in the order of the source text. -/
def roots (p : Program) : List Root :=
  (p.entry.map (p.rootAt · true)).toList ++
    ((List.range p.statements.size).filter fun i => p.isStart i && p.entry != some i).map
      (p.rootAt · false)

end Program

end AsmCheck
