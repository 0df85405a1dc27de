import AsmCheck.Analysis
import AsmCheck.Text.Column

/-! # The listing of an analysed program -/

namespace AsmCheck.Command

open AsmCheck.Text

/-- A reference, or a dash if there is none. -/
def orDash (f : Nat → String) : Option Nat → String
  | some n => f n
  | none => "-"

/-- A line of a section marker. -/
def markLine (name : String) (m : Mark) : String :=
  name ++ " line " ++ toString (m.line + 1) ++ " addr " ++ Literal.hexText m.address ++ "\n"

/-- A line of a statement: where it stands, who owns it, what it is and what there is to say about
    it. -/
def statementLine (a : Analysis) (s : Placed) (i : Nat) : String :=
  let flags := (a.last.flagsOf a.program i).erase .found
  number 4 (s.line + 1) ++ " " ++ address s.address ++ " " ++
    alignRight 6 ' ' (orDash Literal.hexText (a.last.ownership.ownerOf i)) ++ " " ++
    alignLeft 28 s.render ++
    (if flags.isEmpty then "" else " " ++ FlagSet.render flags) ++
    ((a.last.ownership.overlapOf i).map fun id => " overlap=" ++ Literal.hexText id).getD "" ++ "\n"

/-- A line of a label. -/
def labelLine (p : Program) (l : Label) : String :=
  "  " ++ alignLeft 16 l.name ++ " line " ++ number 4 (l.line + 1) ++ " addr " ++
    address l.address ++ " -> " ++ orDash (fun i => toString (p.lineOf i + 1)) l.statement ++ "\n"

/-- A line of a routine. -/
def subroutineLine (r : Round) (s : Subroutine) : String :=
  "  " ++ alignLeft 16 s.displayName ++ " id " ++ address s.id ++ " block " ++
    orDash toString s.block ++ " exits " ++ bracketed ((r.exitsOf s).map toString) ++
    " overlaps " ++ bracketed (s.overlaps.map Literal.hexText) ++ "\n"

/-- The name of the ways in which a register may be touched first. -/
def accessName (s : Access) : String :=
  match s.contains .write, s.contains .read with
  | true, false => "write"
  | false, true => "read"
  | true, true => "read/write"
  | false, false => "-"

/-- The lines of the registers that anything becomes of. -/
def registerLines (t : RegisterTable) : List String :=
  (Reg.listed.filter fun r => !((t.get r).access.isEmpty && (t.get r).save.isEmpty)).map fun r =>
    "        %" ++ alignLeft 4 r.name ++ " " ++ accessName (t.get r).access ++ " " ++
      SaveMarks.render (t.get r).save ++ "\n"

/-- The lines of a block, with those of its registers if they are wanted. -/
def blockLines (a : Analysis) (registers : Bool) (b : Block) (k : Nat) : List String :=
  ("  #" ++ alignLeft 3 (toString k) ++ " lines " ++
      bracketed (b.statements.map fun i => toString (a.program.lineOf i + 1)) ++
      " next " ++ orDash toString b.next ++ " branch " ++ orDash toString b.branch ++
      " cc " ++ CodeSet.render ((a.last.codeFlow.entryOf k).getD ∅) ++ " -> " ++
      CodeSet.render (a.last.codesAfter a.program k) ++ "\n") ::
    if registers then registerLines (a.last.tableOf k) else []

/-- The listing of an analysed program. -/
def dump (a : Analysis) (registers : Bool) : String :=
  let p := a.program
  String.join <|
    ["rounds: " ++ toString a.rounds ++ "\n"] ++
    (p.data.map (markLine ".data")).toList ++ (p.text.map (markLine ".text")).toList ++
    (p.stop.map (markLine ".end")).toList ++
    ["\ninstructions:\n"] ++ p.statements.toList.zipIdx.map (fun (s, i) => statementLine a s i) ++
    ["\nlabels:\n"] ++ p.labels.map (labelLine p) ++
    ["\nsubroutines:\n"] ++ a.last.subroutines.map (subroutineLine a.last) ++
    ["\nblocks:\n"] ++ a.last.blocks.toList.zipIdx.flatMap fun (b, k) => blockLines a registers b k

end AsmCheck.Command
