import AsmCheck.Flow.Ownership

/-! # Blocks

    The statements that routines reach are cut into straight runs: a run ends
    at a control transfer, and a new one starts at every entry of a routine and
    at every place that is jumped to.  Runs are explored from the routines'
    entries, and numbered in the order in which they are first mentioned. -/

namespace AsmCheck

/-- A straight run of statements. -/
structure Block where
  /-- Its statements, in the order of execution. -/
  statements : List Nat
  /-- The routine that owns its first statement. -/
  owner : Option Nat
  /-- Another routine that was last seen to enter it. -/
  overlap : Option Nat := none
  /-- The block that it goes on to. -/
  next : Option Nat := none
  /-- The block that it jumps to. -/
  branch : Option Nat := none
  /-- For the entry of a routine, the blocks that it can return from. -/
  exits : List Nat := []
  /-- Whether the ways out of it have been followed. -/
  explored : Bool := false
deriving DecidableEq

namespace Block

/-- The blocks that control can go on to. -/
def succs (b : Block) : List Nat :=
  b.next.toList ++ b.branch.toList

end Block

/-- A remark on a block. -/
inductive BlockMark where
  /-- The ways out of it have been followed. -/
  | explored
  /-- It has been scanned for registers. -/
  | scanned
  /-- Some condition code can hold at its start. -/
  | entered
  /-- Something was found out about it. -/
  | changed
  /-- It ends in a control transfer. -/
  | branches
  /-- It sets the condition code. -/
  | setsCodes
deriving DecidableEq, Repr

namespace BlockMark

/-- Every mark, in the order in which marks are listed. -/
def listed : List BlockMark :=
  [.explored, .scanned, .entered, .changed, .branches, .setsCodes]

instance : Enumerated BlockMark where
  card := 6
  index
    | .explored => 0
    | .scanned => 1
    | .entered => 2
    | .changed => 3
    | .branches => 4
    | .setsCodes => 5
  element := listed.get
  element_index a := by cases a <;> rfl
  index_element := by decide

/-- The name a mark is listed under. -/
def name : BlockMark → String
  | .explored => "explored"
  | .scanned => "backward"
  | .entered => "forward"
  | .changed => "changed"
  | .branches => "has-br"
  | .setsCodes => "sets-cc"

end BlockMark

/-- A set of remarks on a block. -/
abbrev BlockMarks := EnumSet BlockMark

namespace BlockMarks

/-- The names of the marks, separated by commas. -/
def render (s : BlockMarks) : String :=
  ",".intercalate (s.toList.map BlockMark.name)

end BlockMarks

/-- What the cutting into blocks works on. -/
structure Cutting where
  program : Program
  flow : Flow
  ownership : Ownership
  /-- For each statement, whether a block has to start there. -/
  leaders : Array Bool

namespace Cutting

/-- Blocks start at the entries of routines and where found statements jump to. -/
def ofFlow (p : Program) (f : Flow) (o : Ownership) : Cutting where
  program := p
  flow := f
  ownership := o
  leaders :=
    Program.setAll (Array.replicate p.statements.size false)
      (p.roots.map Program.Root.entry ++
        ((List.range p.statements.size).filter o.isFound).filterMap f.jumpOf)
      true

/-- Whether a block has to start at a statement. -/
def isLeader (c : Cutting) (i : Nat) : Bool :=
  c.leaders[i]?.getD false

/-- The statement that continues a run after statement `i`.  Control only ever goes on to a later
    statement. -/
def continuation (c : Cutting) (i : Nat) : Option Nat :=
  if c.program.test (·.isControl) i then none
  else (c.flow.nextOf i).filter fun n =>
    i < n && n < c.program.statements.size && c.program.isCode n && !c.isLeader n

/-- A run is continued by a later statement. -/
theorem continuation_lt {c : Cutting} {i n : Nat} (h : c.continuation i = some n) :
    c.program.statements.size - n < c.program.statements.size - i := by
  rw [continuation] at h
  split at h
  · exact absurd h (by simp)
  · obtain ⟨_, hn⟩ := Option.filter_eq_some_iff.mp h
    simp only [Bool.and_eq_true, decide_eq_true_eq] at hn
    omega

/-- The run that starts at a statement. -/
def run (c : Cutting) (i : Nat) : List Nat :=
  i :: match _h : c.continuation i with
    | none => []
    | some n => c.run n
termination_by c.program.statements.size - i
decreasing_by exact continuation_lt (by assumption)

/-- The last statement of the run that starts at a statement. -/
def runEnd (c : Cutting) (i : Nat) : Nat :=
  (c.run i).getLast?.getD i

/-- The start of the run that a run goes on to. -/
def fallTo (c : Cutting) (i : Nat) : Option Nat :=
  (c.flow.nextOf (c.runEnd i)).filter c.program.isCode

/-- The start of the run that a run jumps to.  A call of a marked subroutine is passed over. -/
def branchTo (c : Cutting) (i : Nat) : Option Nat :=
  (c.flow.jumpOf (c.runEnd i)).filter fun t =>
    c.program.isCode t && !(c.program.isCall (c.runEnd i) && c.program.isStart t)

/-- Whether a statement is the entry of another subroutine than `id`. -/
def isForeignEntry (c : Cutting) (id i : Nat) : Bool :=
  c.program.isStart i && c.program.addressOf i != id

/-- The runs that routine `id` explores after a run: what it jumps to first. -/
def explores (c : Cutting) (id i : Nat) : List Nat :=
  ((c.branchTo i).toList ++ (c.fallTo i).toList).filter fun s => !c.isForeignEntry id s

/-- The runs that a run leads to. -/
def leadsTo (c : Cutting) (i : Nat) : List Nat :=
  (c.fallTo i).toList ++ (c.branchTo i).toList

/-- The exploration of the runs, as far as it has come. -/
structure Walk where
  /-- For each statement, whether the run that starts there has been explored. -/
  explored : Array Bool
  /-- The starts of runs as they were come upon, each with the routine that did. -/
  mentions : List (Nat × Nat) := []
  /-- For the entry of each routine, the starts of the runs that it can return from. -/
  exits : List (Nat × List Nat) := []

/-- Explores the runs of one routine.  The runs that it can return from are looked for along the
    ways explored so far. -/
def explore (c : Cutting) (w : Walk) (r : Program.Root) : Walk :=
  let (order, explored) := Graph.visit (c.explores r.id) w.explored [r.entry]
  let known (i : Nat) : List Nat := if explored[i]?.getD false then c.leadsTo i else []
  let reached := Graph.reachable known c.program.statements.size r.entry
  { explored
    mentions := w.mentions ++ (r.entry, r.id) :: (order.flatMap c.leadsTo).map (·, r.id)
    exits := w.exits ++
      [(r.entry, reached.filter fun i => c.program.test (·.isReturn) (c.runEnd i))] }

/-- Explores the runs of every routine in turn. -/
def walk (c : Cutting) : Walk :=
  c.program.roots.foldl c.explore { explored := Graph.unmarked c.program.statements.size }

/-- Numbers given out in the order in which statements are first mentioned. -/
structure Numbering where
  /-- The statements, by their numbers. -/
  starts : Array Nat := #[]
  /-- For each statement, its number. -/
  numbers : Array (Option Nat)

namespace Numbering

/-- The number of a statement. -/
def numberOf (m : Numbering) (i : Nat) : Option Nat :=
  m.numbers[i]?.join

/-- Gives a statement the next number, unless it has one. -/
def mention (m : Numbering) (i : Nat) : Numbering :=
  if (m.numberOf i).isSome then m
  else
    { starts := m.starts.push i
      numbers := m.numbers.setIfInBounds i (some m.starts.size) }

/-- Numbers for `n` statements, by a list of mentions. -/
def ofMentions (n : Nat) (mentions : List Nat) : Numbering :=
  mentions.foldl mention { numbers := Array.replicate n none }

end Numbering

/-- For each start of a run, the last routine that mentioned it without owning it. -/
def overlaps (c : Cutting) (mentions : List (Nat × Nat)) : Array (Option Nat) :=
  mentions.foldl
    (fun table (i, id) =>
      if c.ownership.ownerOf i = some id then table else table.setIfInBounds i (some id))
    (Array.replicate c.program.statements.size none)

/-- The blocks, by their numbers. -/
def blocks (c : Cutting) : Array Block :=
  let w := c.walk
  let m := Numbering.ofMentions c.program.statements.size (w.mentions.map (·.1))
  let overlap := c.overlaps w.mentions
  m.starts.map fun i =>
    { statements := c.run i
      owner := c.ownership.ownerOf i
      overlap := overlap[i]?.join
      next := (c.fallTo i).bind m.numberOf
      branch := (c.branchTo i).bind m.numberOf
      exits := (((w.exits.lookup i).getD []).filterMap m.numberOf).mergeSort
      explored := w.explored[i]?.getD false }

end Cutting

namespace Block

/-- For each of `n` statements, the number of the block that it is in. -/
def places (blocks : Array Block) (n : Nat) : Array (Option Nat) :=
  blocks.toList.zipIdx.foldl
    (fun table (b, k) => Program.setAll table b.statements (some k))
    (Array.replicate n none)

end Block

end AsmCheck
