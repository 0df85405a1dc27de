import AsmCheck.Flow.Block
import AsmCheck.Statement.Effects

/-! # What becomes of registers

    For each block and register: how the register is touched first from there
    on, whether it is put aside and brought back, and whether its value is used
    before it is written.  Blocks are scanned from back to front, after the
    blocks that they go on to; where a loop leads back to a block that is still
    waiting to be scanned, anything may happen to a register.  A store is dead
    if, from the statement after it on, its register is always written first. -/

namespace AsmCheck

/-- A first touch of a register. -/
inductive Touch where
  | write
  | read
deriving DecidableEq, Repr

instance : Enumerated Touch where
  card := 2
  index
    | .write => 0
    | .read => 1
  element := [Touch.write, .read].get
  element_index a := by cases a <;> rfl
  index_element := by decide

/-- The ways in which a register may be touched first. -/
abbrev Access := EnumSet Touch

/-- What happens to the value that a register came with. -/
inductive SaveMark where
  /-- It is put aside. -/
  | saved
  /-- It is brought back. -/
  | restored
  /-- It is used before the register is written. -/
  | input
deriving DecidableEq, Repr

namespace SaveMark

/-- The place of a mark in a list of marks. -/
def rank : SaveMark → Nat
  | .saved => 0
  | .restored => 1
  | .input => 2

/-- There are three places. -/
theorem rank_lt (m : SaveMark) : m.rank < 3 := by
  cases m <;> decide

/-- The name of a mark. -/
def name : SaveMark → String
  | .saved => "saved"
  | .restored => "restored"
  | .input => "input"

end SaveMark

instance : Enumerated SaveMark where
  card := 3
  index m := ⟨m.rank, m.rank_lt⟩
  element := [SaveMark.saved, .restored, .input].get
  element_index a := by cases a <;> rfl
  index_element := by decide

/-- What happens to the value that a register came with. -/
abbrev SaveMarks := EnumSet SaveMark

namespace SaveMarks

/-- The names of the marks, joined by plus signs. -/
def render (s : SaveMarks) : String :=
  "+".intercalate (s.toList.map SaveMark.name)

end SaveMarks

/-- What becomes of one register from some point on. -/
structure RegisterStatus where
  access : Access := ∅
  save : SaveMarks := ∅
  /-- Where it is put aside. -/
  savedTo : Option String := none
  /-- Where it is brought back from. -/
  restoredFrom : Option String := none
deriving DecidableEq, Inhabited

namespace RegisterStatus

/-- What may become of a register if control can take either of two ways. -/
def merge (a b : RegisterStatus) : RegisterStatus where
  access := a.access ∪ b.access
  save := a.save ∪ b.save
  savedTo := a.savedTo.or b.savedTo
  restoredFrom := a.restoredFrom.or b.restoredFrom

/-- What may become of a register if control goes round in a loop: anything. -/
def looping : RegisterStatus where
  access := EnumSet.full

/-- Where a transfer puts register `r` aside. -/
def savePlace (r : Reg) : Option Transfer → Option String
  | some (.save r' place) => if r' = r then some place else none
  | _ => none

/-- Where a transfer brings register `r` back from. -/
def restorePlace (r : Reg) : Option Transfer → Option String
  | some (.restore r' place) => if r' = r then some place else none
  | _ => none

/-- What becomes of register `r` from a statement on, given what becomes of it afterwards. -/
def before (fx : Effects) (t : Option Transfer) (r : Reg) (after : RegisterStatus) :
    RegisterStatus :=
  let saves := (savePlace r t).isSome
  let marks := after.save ∪ EnumSet.when {.saved} saves ∪
    EnumSet.when {.restored} (restorePlace r t).isSome
  let kept := if fx.writes.contains r then marks.erase .input else marks
  { access :=
      if fx.reads.contains r then {.read}
      else if fx.writes.contains r then {.write}
      else after.access
    save := kept ∪ EnumSet.when {.input} (fx.uses.contains r && !saves && !r.isManaged)
    savedTo := (savePlace r t).or after.savedTo
    restoredFrom := (restorePlace r t).or after.restoredFrom }

end RegisterStatus

/-- What becomes of every register from some point on. -/
abbrev RegisterTable := EnumMap Reg RegisterStatus

namespace RegisterTable

/-- What may become of registers if control can take either of two ways. -/
def merge (a b : RegisterTable) : RegisterTable :=
  EnumMap.ofFn fun r => (a.get r).merge (b.get r)

/-- What may become of registers if control goes round in a loop. -/
def looping : RegisterTable :=
  EnumMap.ofFn fun _ => RegisterStatus.looping

end RegisterTable

namespace Statement

/-- What becomes of registers from a statement on. -/
def tableBefore (s : Statement) (after : RegisterTable) : RegisterTable :=
  let fx := s.effects
  let t := s.transfer
  EnumMap.ofFn fun r => (after.get r).before fx t r

/-- Whether a statement does nothing but store into a register that is written again first. -/
def isDead (s : Statement) (after : RegisterTable) : Bool :=
  !s.setsCodes && s.effects.dest.any fun r => (after.get r).access == {.write}

end Statement

/-- What a scan of a block finds. -/
structure Scan where
  /-- What becomes of registers from the block on. -/
  table : RegisterTable
  /-- The dead stores of the block. -/
  dead : List Nat
deriving DecidableEq

namespace Program

/-- Scans statements from back to front, given what becomes of registers after them. -/
def scan (p : Program) : List Nat → RegisterTable → Scan
  | [], after => { table := after, dead := [] }
  | i :: is, after =>
    let rest := p.scan is after
    match p.statements[i]? with
    | none => rest
    | some s =>
      { table := s.tableBefore rest.table
        dead := if s.isDead rest.table then i :: rest.dead else rest.dead }

end Program

/-- How far the walk over the blocks has come with one of them. -/
inductive Visit where
  /-- It has not been entered. -/
  | fresh
  /-- It has been entered, and waits for the blocks that it goes on to. -/
  | onPath
  /-- It has been scanned. -/
  | finished (result : Scan)
deriving DecidableEq

namespace Visit

/-- Whether the block has not been entered. -/
def isFresh : Visit → Bool
  | .fresh => true
  | _ => false

/-- The result of the scan. -/
def result? : Visit → Option Scan
  | .finished r => some r
  | _ => none

/-- What becomes of registers if control goes on to the block. -/
def table : Visit → RegisterTable
  | .fresh => default
  | .onPath => RegisterTable.looping
  | .finished r => r.table

end Visit

/-- A step of the walk that is still to be made. -/
inductive Frame where
  | enter (b : Nat)
  | leave (b : Nat)
deriving DecidableEq, Repr

/-- The results of the walk so far, for each block. -/
abbrev Visits := Array Visit

namespace Visits

/-- Whether a block has not been entered. -/
def isFreshAt (v : Visits) (b : Nat) : Bool :=
  (v[b]?).any Visit.isFresh

/-- Where an entry has been set to something else than `fresh`, nothing becomes fresh. -/
theorem isFreshAt_of_set {v : Visits} {b c : Nat} {x : Visit} (hx : x.isFresh = false)
    (h : isFreshAt (v.setIfInBounds b x) c = true) : v.isFreshAt c = true ∧ b ≠ c := by
  rw [isFreshAt, Array.getElem?_setIfInBounds] at h
  split at h
  · split at h
    · rw [Option.any_some, hx] at h
      cases h
    · cases h
  · next hne => exact ⟨h, hne⟩

/-- What is still to be done from the blocks that have not been entered: each is entered and left,
    and the blocks that it goes on to are looked at. -/
def pending (blocks : Array Block) (v : Visits) : Nat :=
  Graph.load (fun b =>
    if v.isFreshAt b then (((blocks[b]?).map Block.succs).getD []).length + 2 else 0) v.size

/-- Entering or leaving a block leaves no more to be done from the others. -/
theorem pending_set_le (blocks : Array Block) (v : Visits) (b : Nat) {x : Visit}
    (hx : x.isFresh = false) : pending blocks (v.setIfInBounds b x) ≤ pending blocks v := by
  rw [pending, pending, Array.size_setIfInBounds]
  refine Graph.load_le (fun c => ?_) _
  split
  · next h => exact Nat.le_of_eq (if_pos (isFreshAt_of_set hx h).1).symm
  · exact Nat.zero_le _

/-- Entering a block makes up for leaving it and for the blocks that it goes on to. -/
theorem pending_enter_le (blocks : Array Block) {v : Visits} {b : Nat} (h : v.isFreshAt b = true) :
    pending blocks (v.setIfInBounds b .onPath) + ((((blocks[b]?).map Block.succs).getD []).length + 2)
      ≤ pending blocks v := by
  have hb : b < v.size := by
    obtain ⟨x, hx, -⟩ := Option.any_eq_true _ _ |>.mp h
    exact (Array.getElem?_eq_some_iff.mp hx).1
  rw [pending, pending, Array.size_setIfInBounds]
  refine Graph.load_add_le (fun c => ?_) ?_ hb
  · split
    · next h' => exact Nat.le_of_eq (if_pos (isFreshAt_of_set rfl h').1).symm
    · exact Nat.zero_le _
  · refine Nat.le_of_eq ?_
    rw [if_neg fun h' => (isFreshAt_of_set rfl h').2 rfl, if_pos h, Nat.zero_add]

end Visits

namespace Block

/-- What becomes of registers after a block. -/
def tableAfter (b : Block) (v : Visits) : RegisterTable :=
  b.succs.foldl (fun t s => t.merge ((v[s]?.map Visit.table).getD default)) default

end Block

namespace Program

/-- Walks over the blocks in depth, and scans each block once it has been left for good. -/
def walkBlocks (p : Program) (blocks : Array Block) (v : Visits) : List Frame → Visits
  | [] => v
  | .enter b :: rest =>
    if v.isFreshAt b then
      let ways := (((blocks[b]?).map Block.succs).getD []).map Frame.enter
      p.walkBlocks blocks (v.setIfInBounds b .onPath) (ways ++ .leave b :: rest)
    else p.walkBlocks blocks v rest
  | .leave b :: rest =>
    match blocks[b]? with
    | none => p.walkBlocks blocks v rest
    | some block =>
      let result := p.scan block.statements (block.tableAfter v)
      p.walkBlocks blocks (v.setIfInBounds b (.finished result)) rest
termination_by frames => Visits.pending blocks v + frames.length
decreasing_by
  · have := Visits.pending_enter_le blocks (by assumption)
    rw [List.length_append, List.length_map, List.length_cons, List.length_cons]
    omega
  · exact Nat.lt_succ_self _
  · exact Nat.lt_succ_self _
  · exact Nat.lt_succ_of_le (Nat.add_le_add_right (Visits.pending_set_le blocks v b rfl) _)

/-- The results of the walk over the blocks, from each of the given blocks in turn. -/
def registerUse (p : Program) (blocks : Array Block) (roots : List Nat) : Visits :=
  roots.foldl (fun v b => p.walkBlocks blocks v [.enter b])
    (Array.replicate blocks.size .fresh)

end Program

end AsmCheck
