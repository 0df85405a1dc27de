import AsmCheck.Flow.CodeFlow
import AsmCheck.Flow.RegisterUse

/-! # Analysis

    A round takes what is known about the jumps, follows the flow of control,
    cuts it into blocks, works out what becomes of registers and which codes
    can hold, and thereby finds out more about the jumps.  Rounds are repeated
    until one changes nothing that is said about any statement, or the settings
    allow no more. -/

namespace AsmCheck

/-- A routine, as one round sees it. -/
structure Subroutine extends Program.Root where
  /-- The block that it starts with. -/
  block : Option Nat
  /-- The routines that it shares statements with, by their addresses, in increasing order. -/
  overlaps : List Nat
deriving DecidableEq

namespace Subroutine

/-- The name of the routine, or its address if no label names it. -/
def displayName (s : Subroutine) : String :=
  s.name.getD (Literal.hexText s.id)

end Subroutine

/-- The outcome of one round. -/
structure Round where
  flow : Flow
  ownership : Ownership
  blocks : Array Block
  /-- For each statement, the block that it is in. -/
  places : Array (Option Nat)
  visits : Visits
  codeFlow : CodeFlow
  /-- What is known about the jumps now. -/
  arrivals : Arrivals
  subroutines : List Subroutine
  /-- For each statement, whether it is a dead store. -/
  dead : Array Bool
deriving DecidableEq

namespace Program

/-- The pairs of an owner and another routine that statements have. -/
def overlapPairs (p : Program) (o : Ownership) : List (Nat × Nat) :=
  (List.range p.statements.size).filterMap fun i =>
    match o.ownerOf i, o.overlapOf i with
    | some a, some b => if a = b then none else some (a, b)
    | _, _ => none

/-- The other routines of the pairs that a routine is in, in increasing order. -/
def partners (pairs : List (Nat × Nat)) (id : Nat) : List Nat :=
  ((pairs.filterMap fun (a, b) =>
    if a = id then some b else if b = id then some a else none).mergeSort).eraseReps

/-- The routines with what was found out about them.  Of routines with one address, which there can
    be at the very end of the address range, the last stands for all in overlaps. -/
def subroutinesOf (places : Array (Option Nat)) (pairs : List (Nat × Nat)) :
    List Root → List Subroutine
  | [] => []
  | r :: rs =>
    { r with
      block := places[r.entry]?.join
      overlaps := if rs.any fun r' => r'.id == r.id then [] else partners pairs r.id } ::
      subroutinesOf places pairs rs

/-- The statements that scans found to be dead stores. -/
def deadStores (p : Program) (v : Visits) : Array Bool :=
  setAll (Array.replicate p.statements.size false)
    (v.toList.flatMap fun x => (x.result?.map Scan.dead).getD []) true

/-- Runs one round. -/
def round (p : Program) (arrivals : Arrivals) : Round :=
  let flow := p.flow arrivals
  let ownership := p.ownership flow
  let blocks := (Cutting.ofFlow p flow ownership).blocks
  let places := Block.places blocks p.statements.size
  let roots := p.roots.filterMap fun r => places[r.entry]?.join
  let visits := p.registerUse blocks roots
  let codeFlow := CodeFlow.ofRoots p blocks roots
  { flow, ownership, blocks, places, visits, codeFlow
    arrivals := p.arrivalsAfter blocks codeFlow arrivals
    subroutines := subroutinesOf places (p.overlapPairs ownership) p.roots
    dead := p.deadStores visits }

/-- What is said about a statement, and the routines that own it and come upon it. -/
structure Print where
  flags : FlagSet
  owner : Option Nat := none
  overlap : Option Nat := none
deriving DecidableEq

/-- What is said about the statements before any round. -/
def firstPrint (p : Program) : Array Print :=
  p.statements.map fun s => { flags := s.flags }

end Program

namespace Round

/-- Everything there is to say about a statement after the round. -/
def flagsOf (p : Program) (r : Round) (i : Nat) : FlagSet :=
  ((p.statements[i]?).map fun s => s.faults).getD ∅ ∪
    (p.verdictOf r.arrivals i).flags ∪
    EnumSet.when {.subroutineStart} (p.isStart i) ∪
    EnumSet.when {.found} (r.ownership.isFound i) ∪
    EnumSet.when {.dead} (r.dead[i]?.getD false)

/-- What the round says about the statements, as far as a later round is compared with it. -/
def print (p : Program) (r : Round) : Array Program.Print :=
  (Array.range p.statements.size).map fun i =>
    { flags := r.flagsOf p i
      owner := r.ownership.ownerOf i
      overlap := r.ownership.overlapOf i }

/-- What becomes of registers from a block on. -/
def tableOf (r : Round) (b : Nat) : RegisterTable :=
  ((r.visits[b]?.bind Visit.result?).map Scan.table).getD default

/-- The codes with which control can fall out of a block, none if it cannot be entered. -/
def codesAfter (p : Program) (r : Round) (b : Nat) : CodeSet :=
  match r.codeFlow.entryOf b, r.blocks[b]? with
  | some codes, some block => (block.codesOut p codes).fall
  | _, _ => ∅

/-- Everything there is to say about a block after the round. -/
def marksOf (p : Program) (r : Round) (b : Nat) : BlockMarks :=
  match r.blocks[b]? with
  | none => ∅
  | some block =>
    let scanned := (r.visits[b]?.bind Visit.result?).isSome
    let entered := (r.codeFlow.entryOf b).isSome
    EnumSet.when {.explored} block.explored ∪ EnumSet.when {.scanned} scanned ∪
      EnumSet.when {.entered} entered ∪ EnumSet.when {.changed} (scanned || entered) ∪
      EnumSet.when {.branches} (block.statements.any (p.test (·.isControl))) ∪
      EnumSet.when {.setsCodes} (block.statements.any (p.test (·.setsCodes)))

/-- The blocks that a routine can return from. -/
def exitsOf (r : Round) (s : Subroutine) : List Nat :=
  ((s.block.bind (r.blocks[·]?)).map Block.exits).getD []

end Round

/-- An analysed program. -/
structure Analysis where
  program : Program
  config : Config
  /-- How many rounds have been run. -/
  rounds : Nat
  /-- The outcome of the last round. -/
  last : Round
deriving DecidableEq

namespace Analysis

/-- Goes on with rounds after one whose predecessor said `before`, at most `fuel` of them, until one
    says nothing new.  Gives the number of rounds run, `count` of which are done, and the last. -/
def settle (p : Program) (fuel count : Nat) (before : Array Program.Print) (r : Round) :
    Nat × Round :=
  if r.print p = before then (count, r)
  else
    match fuel with
    | 0 => (count, r)
    | fuel + 1 => settle p fuel (count + 1) (r.print p) (p.round r.arrivals)

/-- Analyses an assembled program. -/
def ofProgram (p : Program) (config : Config) : Analysis :=
  let (rounds, last) := settle p (config.maxRounds - 1) 1 p.firstPrint (p.round p.noArrivals)
  { program := p, config, rounds, last }

/-- Assembles and analyses a source text with settings that can be used. -/
def ofText (source : String) (config : Config) : Analysis :=
  ofProgram (Program.assemble source.toList config) config

/-- Assembles and analyses a source text, if the settings can be used. -/
def ofSource (source : String) (config : Config) : Except ConfigError Analysis := do
  config.validate
  return ofText source config

/-- Runs one more round; also says whether that changed anything about a statement. -/
def again (a : Analysis) : Analysis × Bool :=
  let next := a.program.round a.last.arrivals
  ({ a with rounds := a.rounds + 1, last := next },
    decide (next.print a.program ≠ a.last.print a.program))

/-- The routine that starts at the program's entry. -/
def main? (a : Analysis) : Option Subroutine :=
  a.last.subroutines.find? fun s => s.isMain

end Analysis

end AsmCheck
