import AsmCheck.Proofs.DeadStores

/-! # Code without loops

    All that keeps the walk over the blocks from being exact are the blocks that
    it comes back to before it has scanned them.  Where no block can be reached
    from itself there are none, and the walk finds out precisely what the paths
    do: a register may be touched in some way from a block on if some path has
    such a touch as its first one (`Exact`, `backward_exact`).  So the stores
    that are flagged as dead are precisely those which some path overwrites and
    which no path reads (`loopFree_exact`). -/

namespace AsmCheck

open Relation

/-! ## First touches -/

namespace Program

/-- Statement `i` reads or writes register `r`. -/
def Accesses (p : Program) (r : Reg) (i : Nat) : Prop :=
  ∃ s, p.statements[i]? = some s ∧ (r ∈ s.effects.reads ∨ r ∈ s.effects.writes)

/-- How statement `i` touches register `r`: it reads it, or it writes it without reading it. -/
def Touches (p : Program) (r : Reg) (i : Nat) : Touch → Prop
  | .read => p.Reads r i
  | .write => p.Overwrites r i

/-- Some path from `i` has such a touch as its first access to register `r`. -/
def FirstTouch (p : Program) (f : Flow) (r : Reg) (touch : Touch) (i : Nat) : Prop :=
  ∃ k, ReflTransGen (fun a b => ¬ p.Accesses r a ∧ p.Link f a b) i k ∧ p.Touches r k touch

end Program

namespace Round

/-- Some path along the blocks from `i` has such a touch as its first access to register `reg`. -/
def FirstTouch (p : Program) (r : Round) (reg : Reg) (touch : Touch) (i : Nat) : Prop :=
  ∃ k, ReflTransGen (fun a b => ¬ p.Accesses reg a ∧ r.Follows a b) i k ∧ p.Touches reg k touch

/-- No block can be reached from itself. -/
def LoopFree (r : Round) : Prop :=
  ∀ k, ¬ TransGen (Program.GoesOn r.blocks) k k

/-- Statement `i` stores into register `reg` and does nothing else, some path overwrites the
    register afterwards before it reads it, and no path reads it before it overwrites it. -/
structure IsUseless (p : Program) (r : Round) (i : Nat) (reg : Reg) : Prop where
  stores : ∃ s, p.statements[i]? = some s ∧ s.setsCodes = false ∧ s.effects.dest = some reg
  overwritten : ∃ j, r.Follows i j ∧ r.FirstTouch p reg .write j
  unread : ∀ j, r.Follows i j → ¬ r.FirstTouch p reg .read j

/-- A round whose blocks only go on to blocks with larger numbers is free of loops. -/
theorem loopFree_of_lt {r : Round} (h : ∀ k l, Program.GoesOn r.blocks k l → k < l) :
    r.LoopFree := by
  have hlt : ∀ {k l}, TransGen (Program.GoesOn r.blocks) k l → k < l := by
    intro k l hpath
    induction hpath with
    | single hstep => exact h _ _ hstep
    | tail _ hstep ih => exact ih.trans (h _ _ hstep)
  exact fun k hloop => Nat.lt_irrefl k (hlt hloop)

end Round

namespace Program

variable {p : Program} {f : Flow} {arrivals : Arrivals} {r : Reg} {touch : Touch} {i : Nat}

theorem Touches.accesses (h : p.Touches r i touch) : p.Accesses r i := by
  cases touch with
  | read =>
      obtain ⟨s, hs, hr⟩ := h
      exact ⟨s, hs, Or.inl hr⟩
  | write =>
      obtain ⟨s, hs, hw, -⟩ := h
      exact ⟨s, hs, Or.inr hw⟩

/-- Where a statement accesses the register, every path has its first access there. -/
theorem firstTouch_of_accesses (h : p.Accesses r i) :
    p.FirstTouch f r touch i ↔ p.Touches r i touch := by
  constructor
  · rintro ⟨k, hpath, hk⟩
    rcases hpath.cases_head with rfl | ⟨j, ⟨hno, -⟩, -⟩
    · exact hk
    · exact absurd h hno
  · intro hi
    exact ⟨i, .refl, hi⟩

/-- Elsewhere the first access comes later. -/
theorem firstTouch_of_not_accesses (h : ¬ p.Accesses r i) :
    p.FirstTouch f r touch i ↔ ∃ j, p.Link f i j ∧ p.FirstTouch f r touch j := by
  constructor
  · rintro ⟨k, hpath, hk⟩
    rcases hpath.cases_head with rfl | ⟨j, ⟨-, hij⟩, hpath⟩
    · exact absurd hk.accesses h
    · exact ⟨j, hij, k, hpath, hk⟩
  · rintro ⟨j, hij, k, hpath, hk⟩
    exact ⟨k, .head ⟨h, hij⟩ hpath, hk⟩

/-- From what is found, first touches along blocks and along links are the same. -/
theorem WellFormed.firstTouch_round (hp : p.WellFormed) (hi : p.Reached (p.flow arrivals) i) :
    (p.round arrivals).FirstTouch p r touch i ↔ p.FirstTouch (p.flow arrivals) r touch i :=
  exists_congr fun _ => and_congr_left' (hp.path_round hi)

/-! ## Exact tables -/

/-- The table says of every register how the paths from the statements that `P` holds of first
    access it. -/
def Exact (p : Program) (f : Flow) (P : Nat → Prop) (t : RegisterTable) : Prop :=
  ∀ r touch, touch ∈ (t.get r).access ↔ ∃ j, P j ∧ p.FirstTouch f r touch j

theorem exact_default {P : Nat → Prop} (hP : ∀ j, ¬ P j) : p.Exact f P default := by
  intro r touch
  rw [RegisterTable.get_default]
  constructor
  · intro h
    exact absurd h (EnumSet.not_mem_empty _)
  · rintro ⟨j, hj, -⟩
    exact absurd hj (hP j)

theorem Exact.merge {P Q : Nat → Prop} {t u : RegisterTable} (ht : p.Exact f P t)
    (hu : p.Exact f Q u) : p.Exact f (fun j => P j ∨ Q j) (t.merge u) := by
  intro r touch
  rw [RegisterTable.get_merge, RegisterStatus.merge, EnumSet.mem_union, ht, hu, ← exists_or]
  simp only [or_and_right]

theorem Exact.tableBefore {s : Placed} (hs : p.statements[i]? = some s) {after : RegisterTable}
    (hafter : p.Exact f (p.Link f i) after) : p.Exact f (· = i) (s.tableBefore after) := by
  intro r touch
  rw [RegisterTable.get_tableBefore, RegisterStatus.access_before, exists_eq_left]
  by_cases hr : r ∈ s.effects.reads
  · rw [if_pos hr, EnumSet.mem_singleton, firstTouch_of_accesses ⟨s, hs, Or.inl hr⟩]
    cases touch with
    | read => simp [Touches, reads_iff hs, hr]
    | write => simp [Touches, overwrites_iff hs, hr]
  · rw [if_neg hr]
    by_cases hw : r ∈ s.effects.writes
    · rw [if_pos hw, EnumSet.mem_singleton, firstTouch_of_accesses ⟨s, hs, Or.inr hw⟩]
      cases touch with
      | read => simp [Touches, reads_iff hs, hr]
      | write => simp [Touches, overwrites_iff hs, hr, hw]
    · have hno : ¬ p.Accesses r i := by
        rintro ⟨s', hs', h⟩
        rw [hs, Option.some.injEq] at hs'
        subst hs'
        exact h.elim hr hw
      rw [if_neg hw, hafter, firstTouch_of_not_accesses hno]

/-- Without loops, going back over the blocks keeps tables exact. -/
theorem backward_exact (h : (p.round arrivals).LoopFree) :
    p.Backward (p.flow arrivals) (p.Exact (p.flow arrivals)) where
  nowhere := exact_default
  merge := Exact.merge
  before hs hafter := hafter.tableBefore hs
  loops := fun ⟨k, hloop⟩ => absurd hloop (h k)

/-- By an exact table, a statement is dead if some path overwrites its destination first and none
    reads it first. -/
theorem Exact.isDead_iff {P : Nat → Prop} {after : RegisterTable} (hafter : p.Exact f P after)
    {s : Statement} :
    s.isDead after = true ↔ s.setsCodes = false ∧ ∃ r, s.effects.dest = some r ∧
      (∃ j, P j ∧ p.FirstTouch f r .write j) ∧ ∀ j, P j → ¬ p.FirstTouch f r .read j := by
  have honly : ∀ a : Access, a = {.write} ↔ Touch.write ∈ a ∧ ¬ Touch.read ∈ a := by
    intro a
    constructor
    · rintro rfl
      simp [EnumSet.mem_singleton]
    · rintro ⟨hwrite, hread⟩
      ext touch
      cases touch with
      | read => simp [EnumSet.mem_singleton, hread]
      | write => simp [EnumSet.mem_singleton, hwrite]
  rw [Statement.isDead, Bool.and_eq_true, Bool.not_eq_true', Option.any_eq_true]
  simp only [beq_iff_eq, honly, hafter _ _, not_exists, not_and]

/-- Without loops, exactly the useless stores among what is found are made out to be dead. -/
theorem WellFormed.dead_iff_isUseless (hp : p.WellFormed) (hfree : (p.round arrivals).LoopFree)
    (hi : p.Reached (p.flow arrivals) i) :
    (p.round arrivals).dead[i]?.getD false = true ↔ ∃ r, (p.round arrivals).IsUseless p i r := by
  obtain ⟨s, hs, -⟩ := test_eq_true.mp (hp.isCode_of_reached hi)
  obtain ⟨after, hafter, hdead⟩ := (backward_exact hfree).exists_dead_iff hp hs hi
  have hlink : ∀ {j}, (p.round arrivals).Follows i j ↔ p.Link (p.flow arrivals) i j :=
    hp.follows_round.trans (and_iff_right hi)
  have hfirst : ∀ {r touch j}, p.Link (p.flow arrivals) i j →
      ((p.round arrivals).FirstTouch p r touch j ↔ p.FirstTouch (p.flow arrivals) r touch j) :=
    fun hj => hp.firstTouch_round (hi.step hj)
  rw [hdead, hafter.isDead_iff]
  constructor
  · rintro ⟨hcodes, r, hdest, ⟨j, hj, hwrite⟩, hread⟩
    refine ⟨r, ⟨s, hs, hcodes, hdest⟩, ⟨j, hlink.mpr hj, (hfirst hj).mpr hwrite⟩, ?_⟩
    intro j hj h
    exact hread j (hlink.mp hj) ((hfirst (hlink.mp hj)).mp h)
  · rintro ⟨r, ⟨s', hs', hcodes, hdest⟩, ⟨j, hj, hwrite⟩, hread⟩
    rw [hs, Option.some.injEq] at hs'
    subst hs'
    refine ⟨hcodes, r, hdest, ⟨j, hlink.mp hj, (hfirst (hlink.mp hj)).mp hwrite⟩, ?_⟩
    intro j hj h
    exact hread j (hlink.mpr hj) ((hfirst hj).mpr h)

/-- Without loops, the table of a block says how the paths from its first statement first access
    each register. -/
theorem WellFormed.mem_access_iff (hp : p.WellFormed) (hfree : (p.round arrivals).LoopFree)
    {k : Nat} {b : Block} (hb : (p.round arrivals).blocks[k]? = some b) :
    ∃ s, (p.round arrivals).firstOf k = some s ∧ ∀ r touch,
      touch ∈ (((p.round arrivals).tableOf k).get r).access ↔
        (p.round arrivals).FirstTouch p r touch s := by
  rw [blocks_round] at hb
  obtain ⟨s, hs, -⟩ := Cutting.getElem?_blocks.mp hb
  refine ⟨s, firstOf_round.mpr hs, fun r touch => ?_⟩
  rw [(backward_exact hfree).tells_tableOf hp hs r touch, exists_eq_left,
    hp.firstTouch_round ((hs.isHead hp).reached hp)]

end Program

namespace Analysis

/-- The register pass is exact on code without loops: for every source text and all usable
    settings, after any number of further rounds, if no block of the last round can be reached from
    itself, then the access that a block has for a register is made up of the ways in which paths
    from the first statement of the block first access the register, and the statements of a block
    that are flagged as dead are the useless stores. -/
theorem loopFree_exact (source : String) (config : Config) (hvalid : config.validate = .ok ())
    (n : Nat) :
    ∃ a, ofSource source config = .ok a ∧ ((a.rerun n).last.LoopFree →
      ∀ (k : Nat) (b : Block), (a.rerun n).last.blocks[k]? = some b →
        (∃ s, (a.rerun n).last.firstOf k = some s ∧ ∀ r touch,
          touch ∈ (((a.rerun n).last.tableOf k).get r).access ↔
            (a.rerun n).last.FirstTouch (a.rerun n).program r touch s) ∧
        ∀ i ∈ b.statements, Flag.dead ∈ (a.rerun n).last.flagsOf (a.rerun n).program i ↔
          ∃ r, (a.rerun n).last.IsUseless (a.rerun n).program i r) := by
  refine ⟨ofText source config, ofSource_eq_ok hvalid, ?_⟩
  obtain ⟨hprog, arrivals, hlast⟩ := exists_last_eq_round source config n
  have hp := Program.wellFormed_assemble source.toList config
  rw [hlast, hprog]
  intro hfree k b hb
  refine ⟨hp.mem_access_iff hfree hb, fun i hi => ?_⟩
  rw [Round.dead_mem_flagsOf hp]
  rw [Program.blocks_round] at hb
  obtain ⟨s, hs, rfl⟩ := Cutting.getElem?_blocks.mp hb
  exact hp.dead_iff_isUseless hfree (Cutting.reached_of_mem_run ((hs.isHead hp).reached hp) hi)

/-- Two stores, of which both ways that follow overwrite one and one way reads the other. -/
def twoStores : String :=
  "movl $1, %eax\nmovl $2, %ecx\njp x\nmovl %ecx, %eax\nret\nx: movl $3, %eax\nmovl $4, %ecx\nret\n"

theorem twoStores_text {a : Analysis} (ha : a = (ofText twoStores {}).rerun 0) :
    a.last.blocks.size = 3 ∧
      (∀ k < 3, ∀ l ∈ ((a.last.blocks[k]?).map Block.succs).getD [], k < l) ∧
      (a.last.blocks[0]?).map Block.statements = some [0, 1, 2] ∧
      Touch.write ∈ ((a.last.tableOf 0).get .eax).access ∧
      Flag.dead ∈ a.last.flagsOf a.program 0 ∧ ¬ Flag.dead ∈ a.last.flagsOf a.program 1 := by
  subst ha
  decide +kernel

/-- The one store is useless, and the other one is not. -/
theorem twoStores_exact :
    ({} : Config).validate = .ok () ∧
      ∃ a, ofSource twoStores {} = .ok a ∧ (a.rerun 0).last.LoopFree ∧
        (∃ s, (a.rerun 0).last.firstOf 0 = some s ∧
          (a.rerun 0).last.FirstTouch (a.rerun 0).program .eax .write s) ∧
        Flag.dead ∈ (a.rerun 0).last.flagsOf (a.rerun 0).program 0 ∧
        (∃ r, (a.rerun 0).last.IsUseless (a.rerun 0).program 0 r) ∧
        ¬ ∃ r, (a.rerun 0).last.IsUseless (a.rerun 0).program 1 r := by
  refine ⟨rfl, ?_⟩
  obtain ⟨a, ha, hexact⟩ := loopFree_exact twoStores {} rfl 0
  obtain rfl := Except.ok.inj ((ofSource_eq_ok rfl).symm.trans ha)
  obtain ⟨hsize, hsuccs, hblock, hwrite, hdead, halive⟩ := twoStores_text rfl
  have hfree : ((ofText twoStores {}).rerun 0).last.LoopFree := by
    refine Round.loopFree_of_lt ?_
    rintro k l ⟨b, hb, hl⟩
    refine hsuccs k (hsize ▸ (Array.getElem?_eq_some_iff.mp hb).1) l ?_
    rw [hb]
    exact hl
  obtain ⟨b, hb, hstatements⟩ := Option.map_eq_some_iff.mp hblock
  obtain ⟨⟨s, hs, haccess⟩, hflags⟩ := hexact hfree 0 b hb
  rw [hstatements] at hflags
  exact ⟨_, ha, hfree, ⟨s, hs, (haccess _ _).mp hwrite⟩, hdead, (hflags 0 (by simp)).mp hdead,
    fun h => halive ((hflags 1 (by simp)).mpr h)⟩

end Analysis

end AsmCheck
