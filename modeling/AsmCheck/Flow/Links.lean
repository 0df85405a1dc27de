import AsmCheck.Program

/-! # The flow of control in one round

    Which codes can hold when a conditional jump is executed decides whether
    it is ever, and whether it is always, taken.  A round takes what the round
    before found out about this, leaves out the ways that are never gone, and
    works on what remains. -/

namespace AsmCheck

/-- For each statement, the codes with which it was last seen to be executed, if it is a conditional
    jump that has been reached. -/
abbrev Arrivals := Array (Option CodeSet)

/-- What is known about a jump. -/
structure Verdict where
  /-- It is never taken. -/
  never : Bool := false
  /-- Nothing goes on past it. -/
  always : Bool := false
  /-- The codes that it tests though they cannot hold. -/
  redundant : CodeSet := ∅
  /-- Its test is wider than it needs to be. -/
  isRedundant : Bool := false
deriving DecidableEq

namespace Verdict

/-- The verdict on a test, given the codes that can hold. -/
def ofTest (test arriving : CodeSet) : Verdict :=
  let always := (arriving \ test).isEmpty
  { never := (arriving ∩ test).isEmpty
    always
    redundant := test \ arriving
    isRedundant := !(test \ arriving).isEmpty || always }

/-- The verdict as flags of the jump. -/
def flags (v : Verdict) : FlagSet :=
  EnumSet.when {.neverTaken} v.never ∪ EnumSet.when {.alwaysTaken} v.always ∪
    EnumSet.when {.redundantTest} v.isRedundant

end Verdict

namespace Statement

/-- The verdict on a statement.  An unconditional jump is always taken; a conditional one of which
    nothing is known yet may go either way. -/
def verdict (s : Statement) (arriving : Option CodeSet) : Verdict :=
  match s.branch, arriving with
  | some (.conditional test), some codes => Verdict.ofTest test codes
  | some .jump, _ => { always := true }
  | _, _ => {}

end Statement

/-- Where each statement goes on to in one round. -/
structure Flow where
  /-- The statement after it. -/
  next : Array (Option Nat)
  /-- The statement it jumps to or calls. -/
  jump : Array (Option Nat)
deriving DecidableEq

namespace Flow

/-- The statement that control goes on to. -/
def nextOf (f : Flow) (i : Nat) : Option Nat :=
  f.next[i]?.join

/-- The statement that control jumps to. -/
def jumpOf (f : Flow) (i : Nat) : Option Nat :=
  f.jump[i]?.join

/-- The statements that control can reach in one step. -/
def succs (f : Flow) (i : Nat) : List Nat :=
  (f.nextOf i).toList ++ (f.jumpOf i).toList

end Flow

namespace Program

/-- Nothing is known yet about any jump. -/
def noArrivals (p : Program) : Arrivals :=
  Array.replicate p.statements.size none

/-- The verdict on a statement. -/
def verdictOf (p : Program) (arrivals : Arrivals) (i : Nat) : Verdict :=
  ((p.statements[i]?).map fun s => s.verdict arrivals[i]?.join).getD {}

/-- Where a statement goes on to, if it is executable and may go on at all. -/
def nextIn (p : Program) (arrivals : Arrivals) (i : Nat) : Option Nat :=
  if p.test (fun s => s.isCode && !s.terminates) i && !(p.verdictOf arrivals i).always then
    p.following[i]?.join
  else none

/-- Where a statement jumps to, unless it never does. -/
def jumpIn (p : Program) (arrivals : Arrivals) (i : Nat) : Option Nat :=
  if (p.verdictOf arrivals i).never then none else p.target[i]?.join

/-- The flow of control, given what is known about the jumps. -/
def flow (p : Program) (arrivals : Arrivals) : Flow where
  next := (Array.range p.statements.size).map (p.nextIn arrivals)
  jump := (Array.range p.statements.size).map (p.jumpIn arrivals)

end Program

end AsmCheck
