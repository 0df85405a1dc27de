import AsmCheck.Flow.Links
import AsmCheck.Graph.Search

/-! # Routines and the statements they own

    Each routine is traced from its entry.  The first routine that reaches a
    statement owns it; the entry of a marked subroutine belongs to that
    subroutine and nobody else passes through it.  A routine that comes upon a
    statement of another one overlaps with it there; a call of a marked
    subroutine is no overlap. -/

namespace AsmCheck

/-- Which routine owns each statement, and which other routine was last seen to come upon it. -/
structure Ownership where
  owner : Array (Option Nat)
  overlap : Array (Option Nat)
deriving DecidableEq

namespace Ownership

/-- The routine that owns a statement. -/
def ownerOf (o : Ownership) (i : Nat) : Option Nat :=
  o.owner[i]?.join

/-- The routine that came upon another's statement. -/
def overlapOf (o : Ownership) (i : Nat) : Option Nat :=
  o.overlap[i]?.join

/-- Whether some routine reaches a statement. -/
def isFound (o : Ownership) (i : Nat) : Bool :=
  (o.ownerOf i).isSome

end Ownership

namespace Program

/-- Nobody owns anything. -/
def unowned (p : Program) : Ownership where
  owner := Array.replicate p.statements.size none
  overlap := Array.replicate p.statements.size none

/-- The statements that a trace does not enter: what is not executable, what starts a marked
    subroutine, and what has an owner.  Its own entry is open to a routine. -/
def barred (p : Program) (o : Ownership) (entry : Nat) : Array Bool :=
  ((Array.range p.statements.size).map fun i =>
    !p.isCode i || p.isStart i || o.isFound i).setIfInBounds entry false

/-- The statements that a routine takes into its possession. -/
def claimed (p : Program) (f : Flow) (o : Ownership) (r : Root) : List Nat :=
  (Graph.visit f.succs (p.barred o r.entry) [r.entry]).1

/-- Whether a statement belongs to another routine than `id`. -/
def isForeign (p : Program) (o : Ownership) (id i : Nat) : Bool :=
  p.isCode i &&
    if p.isStart i then p.addressOf i != id else (o.ownerOf i).any (· != id)

/-- The statements of others that routine `id` comes upon from its statement `i`. -/
def trespasses (p : Program) (f : Flow) (o : Ownership) (id i : Nat) : List Nat :=
  ((f.nextOf i).filter fun n => p.isForeign o id n).toList ++
    ((f.jumpOf i).filter fun t => !(p.isCall i && p.isStart t) && p.isForeign o id t).toList

/-- Sets the entries of a table at the given places. -/
def setAll {α : Type} (table : Array α) (places : List Nat) (a : α) : Array α :=
  places.foldl (fun t i => t.setIfInBounds i a) table

/-- Traces one routine. -/
def trace (p : Program) (f : Flow) (o : Ownership) (r : Root) : Ownership :=
  let mine := p.claimed f o r
  { owner := setAll o.owner mine (some r.id)
    overlap := setAll o.overlap (mine.flatMap (p.trespasses f o r.id)) (some r.id) }

/-- Traces every routine in turn. -/
def ownership (p : Program) (f : Flow) : Ownership :=
  p.roots.foldl (p.trace f) p.unowned

end Program

end AsmCheck
