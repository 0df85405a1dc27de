import AsmCheck.Flow.Block

/-! # Which condition codes can hold

    For each block, the codes with which control can enter it.  A routine may
    be entered with any code; from there the codes spread along the blocks
    until nothing new turns up.  A block passes on a code that it was entered
    with, unless a statement in it sets the code or a conditional jump sends it
    elsewhere. -/

namespace AsmCheck

/-- The codes with which control leaves a statement or a block. -/
structure CodesOut where
  /-- On to what follows. -/
  fall : CodeSet
  /-- To where it jumps. -/
  taken : CodeSet
deriving DecidableEq

namespace Statement

/-- The codes with which control leaves a statement that it enters with `codes`. -/
def codesOut (s : Statement) (codes : CodeSet) : CodesOut :=
  if s.setsCodes then { fall := EnumSet.full, taken := ∅ }
  else
    match s.branch with
    | some (.conditional test) => { fall := codes \ test, taken := codes ∩ test }
    | some .jump | some .untracked => { fall := codes, taken := codes }
    | some .call => { fall := EnumSet.full, taken := codes }
    | none => { fall := codes, taken := ∅ }

end Statement

namespace Program

/-- The codes with which control leaves a statement. -/
def codesOutOf (p : Program) (i : Nat) (codes : CodeSet) : CodesOut :=
  ((p.statements[i]?).map fun s => s.codesOut codes).getD { fall := codes, taken := ∅ }

/-- The codes after a run of statements, none of which is jumped away from. -/
def codesThrough (p : Program) (is : List Nat) (codes : CodeSet) : CodeSet :=
  is.foldl (fun cc i => (p.codesOutOf i cc).fall) codes

end Program

namespace Block

/-- The codes at the last statement of a block that is entered with `codes`. -/
def codesAtEnd (p : Program) (b : Block) (codes : CodeSet) : CodeSet :=
  p.codesThrough b.statements.dropLast codes

/-- The codes with which control leaves a block. -/
def codesOut (p : Program) (b : Block) (codes : CodeSet) : CodesOut :=
  match b.statements.getLast? with
  | none => { fall := codes, taken := ∅ }
  | some i => p.codesOutOf i (b.codesAtEnd p codes)

/-- The ways out of a block that codes are passed on along, with these codes; where it jumps to comes
    first. -/
def ways (b : Block) (out : CodesOut) : List (Nat × CodeSet) :=
  let way (s : Option Nat) (cs : CodeSet) : List (Nat × CodeSet) :=
    if cs.isEmpty then [] else s.toList.map (·, cs)
  way b.branch out.taken ++ way b.next out.fall

/-- The blocks that a block passes codes on to, with these codes. -/
def passes (p : Program) (b : Block) (codes : CodeSet) : List (Nat × CodeSet) :=
  b.ways (b.codesOut p codes)

/-- There are two ways out of a block at most. -/
theorem length_ways_le (b : Block) (out : CodesOut) : (b.ways out).length ≤ 2 := by
  have hway : ∀ (s : Option Nat) (cs : CodeSet),
      (if cs.isEmpty then [] else s.toList.map fun k => (k, cs)).length ≤ 1 := by
    intro s cs
    split
    · exact Nat.zero_le 1
    · rw [List.length_map]
      cases s with
      | none => exact Nat.zero_le 1
      | some k => exact Nat.le_refl 1
  rw [ways, List.length_append]
  exact Nat.add_le_add (hway _ _) (hway _ _)

end Block

/-- For each block the codes with which it can be entered, if it can be, and how often an entry has
    been changed. -/
structure CodeFlow where
  entries : Array (Option CodeSet)
  updates : Nat := 0
deriving DecidableEq

namespace CodeFlow

/-- How much an entry can still grow, if an entry that has not been made counts `unmade`. -/
def room (unmade : Nat) : Option CodeSet → Nat
  | none => unmade
  | some s => 3 - s.size

/-- How much all entries together can still grow. -/
def totalRoom (unmade : Nat) (f : CodeFlow) : Nat :=
  f.entries.toList.foldr (fun e n => room unmade e + n) 0

/-- An entry with more codes added to it. -/
def widen (old : Option CodeSet) (codes : CodeSet) : CodeSet :=
  old.getD ∅ ∪ codes

/-- Widening an entry that does not hold all the codes yet uses up room, if making one does. -/
theorem room_widen_lt {unmade : Nat} {old : Option CodeSet} {codes : CodeSet}
    (hunmade : 3 - (widen none codes).size < unmade) (h : old ≠ some (widen old codes)) :
    room unmade (some (widen old codes)) < room unmade old := by
  cases old with
  | none => exact hunmade
  | some s =>
    have hlt : s.size < (s ∪ codes).size :=
      EnumSet.size_lt_size_union fun hs => h (congrArg some hs)
    have hle : (s ∪ codes).size ≤ 3 := EnumSet.size_le _
    show 3 - (s ∪ codes).size < 3 - s.size
    omega

/-- Replacing one entry of a list changes a sum over it by the difference. -/
theorem foldr_add_set {α : Type} (w : α → Nat) (a : α) :
    ∀ (l : List α) (i : Nat) (h : i < l.length),
      (l.set i a).foldr (fun x n => w x + n) 0 + w l[i] = l.foldr (fun x n => w x + n) 0 + w a
  | x :: l, 0, _ => by
    simp only [List.set_cons_zero, List.foldr_cons, List.getElem_cons_zero]
    omega
  | x :: l, i + 1, h => by
    have ih := foldr_add_set w a l i (Nat.lt_of_succ_lt_succ h)
    simp only [List.set_cons_succ, List.foldr_cons, List.getElem_cons_succ]
    omega

/-- The codes that one block is entered with, recorded. -/
def record (f : CodeFlow) (b : Nat) (codes : CodeSet) : CodeFlow where
  entries := f.entries.setIfInBounds b (some codes)
  updates := f.updates + 1

/-- Recording something new uses up room. -/
theorem totalRoom_record_lt {unmade : Nat} {f : CodeFlow} {b : Nat} {old : Option CodeSet}
    {codes : CodeSet} (hunmade : 3 - (widen none codes).size < unmade)
    (hb : f.entries[b]? = some old) (h : old ≠ some (widen old codes)) :
    (f.record b (widen old codes)).totalRoom unmade < f.totalRoom unmade := by
  obtain ⟨hi, hv⟩ := Array.getElem?_eq_some_iff.mp hb
  have hlen : b < f.entries.toList.length := by simpa using hi
  have hsum := foldr_add_set (room unmade) (some (widen old codes)) f.entries.toList b hlen
  have hget : f.entries.toList[b] = old := by simpa using hv
  have hlt := room_widen_lt hunmade h
  rw [hget] at hsum
  rw [totalRoom, record, Array.setIfInBounds_def, dif_pos hi, Array.toList_set, totalRoom]
  omega

/-- A block passes codes on to two blocks at most. -/
theorem length_passes_le (p : Program) (blocks : Array Block) (b : Nat) (codes : CodeSet) :
    (((blocks[b]?).map fun block => block.passes p codes).getD []).length ≤ 2 := by
  cases blocks[b]? with
  | none => exact Nat.zero_le 2
  | some block => exact block.length_ways_le _

/-- Spreads codes along the blocks until nothing new turns up. -/
def spread (p : Program) (blocks : Array Block) (f : CodeFlow) :
    List (Nat × CodeSet) → CodeFlow
  | [] => f
  | (b, codes) :: rest =>
    match _hb : f.entries[b]? with
    | none => spread p blocks f rest
    | some old =>
      if old = some (widen old codes) then spread p blocks f rest
      else
        let ways := ((blocks[b]?).map fun block => block.passes p (widen old codes)).getD []
        spread p blocks (f.record b (widen old codes)) (ways ++ rest)
termination_by work => 3 * f.totalRoom 4 + work.length
decreasing_by
  · exact Nat.lt_succ_self _
  · exact Nat.lt_succ_self _
  · have hunmade : 3 - (widen none codes).size < 4 := by omega
    have hroom := totalRoom_record_lt hunmade (by assumption) (by assumption)
    have hways := length_passes_le p blocks b (widen old codes)
    rw [List.length_append, List.length_cons]
    omega

/-- No block can be entered. -/
def unentered (n : Nat) : CodeFlow where
  entries := Array.replicate n none

/-- The codes with which blocks can be entered, when the given blocks can be entered with any. -/
def ofRoots (p : Program) (blocks : Array Block) (roots : List Nat) : CodeFlow :=
  roots.foldl (fun f b => spread p blocks f [(b, EnumSet.full)]) (unentered blocks.size)

/-- The codes with which a block can be entered. -/
def entryOf (f : CodeFlow) (b : Nat) : Option CodeSet :=
  f.entries[b]?.join

end CodeFlow

namespace Program

/-- What is known about jumps after a round: of those that were reached, the codes they were
    reached with, of the others what was known before. -/
def arrivalsAfter (p : Program) (blocks : Array Block) (f : CodeFlow) (before : Arrivals) :
    Arrivals :=
  blocks.toList.zipIdx.foldl
    (fun table (b, k) =>
      match b.statements.getLast?, f.entryOf k with
      | some i, some codes =>
        if p.test (fun s => s.branch matches some (.conditional _)) i then
          table.setIfInBounds i (some (b.codesAtEnd p codes))
        else table
      | _, _ => table)
    before

end Program

end AsmCheck
