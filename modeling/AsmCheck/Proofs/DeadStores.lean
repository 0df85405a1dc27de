import AsmCheck.Proofs.BackwardScan

/-! # Dead stores are dead

    The walk over the blocks scans each of them once, and takes the worst of a
    block that it comes back to before it has scanned it.  What makes this
    sound on every graph is that a table may be as cautious as it likes as long
    as it `Tells` the truth: where it rules a read out, no path reads first, and
    where it then promises a write, some path writes first.  Merging, going back
    over a statement and giving up on a loop keep that (`Tells.merge`,
    `Tells.before`, `Tells.of_read`), so the reading goes back over the blocks
    (`backward_tableTells`), whatever the shape of the graph.

    A statement that is flagged as dead then has the properties that make it
    so (`dead_isDeadStore`). -/

namespace AsmCheck

open Relation

namespace Program

variable {p : Program} {f : Flow} {r : Reg}

/-! ## Paths -/

/-- Statement `i` reads register `r`. -/
def Reads (p : Program) (r : Reg) (i : Nat) : Prop :=
  ∃ s, p.statements[i]? = some s ∧ r ∈ s.effects.reads

/-- Statement `i` writes register `r` without reading it. -/
def Overwrites (p : Program) (r : Reg) (i : Nat) : Prop :=
  ∃ s, p.statements[i]? = some s ∧ r ∈ s.effects.writes ∧ ¬ r ∈ s.effects.reads

theorem reads_iff {i : Nat} {s : Placed} (hs : p.statements[i]? = some s) :
    p.Reads r i ↔ r ∈ s.effects.reads := by
  simp [Reads, hs]

theorem overwrites_iff {i : Nat} {s : Placed} (hs : p.statements[i]? = some s) :
    p.Overwrites r i ↔ r ∈ s.effects.writes ∧ ¬ r ∈ s.effects.reads := by
  simp [Overwrites, hs]

/-- Some path from `i` reaches a statement that reads `r` before one that overwrites it. -/
def ReadsFirst (p : Program) (f : Flow) (r : Reg) (i : Nat) : Prop :=
  ∃ k, ReflTransGen (fun a b => ¬ p.Overwrites r a ∧ p.Link f a b) i k ∧ p.Reads r k

/-- Some path from `i` reaches a statement that overwrites `r` before one that reads it. -/
def WritesFirst (p : Program) (f : Flow) (r : Reg) (i : Nat) : Prop :=
  ∃ k, ReflTransGen (fun a b => ¬ p.Reads r a ∧ p.Link f a b) i k ∧ p.Overwrites r k

/-- A register that is read first is read here, or is not overwritten here and read first behind
    some link. -/
theorem ReadsFirst.cases {i : Nat} (h : p.ReadsFirst f r i) :
    p.Reads r i ∨ (¬ p.Overwrites r i ∧ ∃ j, p.Link f i j ∧ p.ReadsFirst f r j) := by
  obtain ⟨k, hpath, hk⟩ := h
  rcases hpath.cases_head with rfl | ⟨j, ⟨hi, hij⟩, hpath⟩
  · exact Or.inl hk
  · exact Or.inr ⟨hi, j, hij, k, hpath, hk⟩

theorem WritesFirst.here {i : Nat} (h : p.Overwrites r i) : p.WritesFirst f r i :=
  ⟨i, .refl, h⟩

theorem WritesFirst.later {i j : Nat} (hi : ¬ p.Reads r i) (hij : p.Link f i j)
    (h : p.WritesFirst f r j) : p.WritesFirst f r i := by
  obtain ⟨k, hpath, hk⟩ := h
  exact ⟨k, .head ⟨hi, hij⟩ hpath, hk⟩

/-- A store into register `r` that nothing makes use of: on no path is the register read before it
    is overwritten, and on some path it is overwritten. -/
structure IsDeadStore (p : Program) (f : Flow) (i : Nat) (r : Reg) : Prop where
  stores : ∃ s, p.statements[i]? = some s ∧ s.setsCodes = false ∧ s.effects.dest = some r
  unread : ∀ j, p.Link f i j → ¬ p.ReadsFirst f r j
  overwritten : ∃ j, p.Link f i j ∧ p.WritesFirst f r j

/-! ## Tables that tell the truth -/

/-- What `access` says about register `r` is true wherever control is at one of the statements
    `at_`. -/
structure Tells (p : Program) (f : Flow) (r : Reg) (at_ : Nat → Prop) (access : Access) : Prop where
  unread : ¬ Touch.read ∈ access → ∀ j, at_ j → ¬ p.ReadsFirst f r j
  written : ¬ Touch.read ∈ access → Touch.write ∈ access → ∃ j, at_ j ∧ p.WritesFirst f r j

namespace Tells

variable {P Q : Nat → Prop} {a b : Access}

theorem of_read (h : Touch.read ∈ a) : p.Tells f r P a where
  unread hno := absurd h hno
  written hno := absurd h hno

theorem empty (hP : ∀ j, ¬ P j) : p.Tells f r P ∅ where
  unread _ j hj := absurd hj (hP j)
  written _ hw := absurd hw (EnumSet.not_mem_empty _)

/-- If control can be at either of two places, either may happen. -/
theorem merge (ha : p.Tells f r P a) (hb : p.Tells f r Q b) :
    p.Tells f r (fun j => P j ∨ Q j) (a ∪ b) := by
  have hno : ¬ Touch.read ∈ a ∪ b → ¬ Touch.read ∈ a ∧ ¬ Touch.read ∈ b := by
    intro h
    exact ⟨fun h' => h (EnumSet.mem_union.mpr (Or.inl h')),
      fun h' => h (EnumSet.mem_union.mpr (Or.inr h'))⟩
  refine ⟨?_, ?_⟩
  · rintro hread j (hj | hj)
    · exact ha.unread (hno hread).1 j hj
    · exact hb.unread (hno hread).2 j hj
  · intro hread hwrite
    rcases EnumSet.mem_union.mp hwrite with hw | hw
    · obtain ⟨j, hj, hfirst⟩ := ha.written (hno hread).1 hw
      exact ⟨j, Or.inl hj, hfirst⟩
    · obtain ⟨j, hj, hfirst⟩ := hb.written (hno hread).2 hw
      exact ⟨j, Or.inr hj, hfirst⟩

/-- Back over a statement, from what is said of the statements that its links lead to. -/
theorem before {i : Nat} {s : Placed} (hs : p.statements[i]? = some s) {after : RegisterStatus}
    {t : Option Transfer} (h : p.Tells f r (p.Link f i) after.access) :
    p.Tells f r (· = i) (RegisterStatus.before s.effects t r after).access := by
  rw [RegisterStatus.access_before]
  by_cases hr : r ∈ s.effects.reads
  · rw [if_pos hr]
    exact of_read (EnumSet.mem_singleton.mpr rfl)
  · rw [if_neg hr]
    have hnot : ¬ p.Reads r i := fun h' => hr ((reads_iff hs).mp h')
    by_cases hw : r ∈ s.effects.writes
    · -- every path ends here
      rw [if_pos hw]
      have hhere : p.Overwrites r i := (overwrites_iff hs).mpr ⟨hw, hr⟩
      refine ⟨?_, fun _ _ => ⟨i, rfl, .here hhere⟩⟩
      rintro - j rfl hfirst
      rcases hfirst.cases with hread | ⟨hno, -⟩
      · exact hnot hread
      · exact hno hhere
    · -- the statement does not touch the register
      rw [if_neg hw]
      refine ⟨?_, ?_⟩
      · rintro hread j rfl hfirst
        rcases hfirst.cases with hread' | ⟨-, k, hlink, hk⟩
        · exact hnot hread'
        · exact h.unread hread k hlink hk
      · intro hread hwrite
        obtain ⟨j, hlink, hj⟩ := h.written hread hwrite
        exact ⟨i, rfl, hj.later hnot hlink⟩

end Tells

/-- A table that tells the truth about every register. -/
def TableTells (p : Program) (f : Flow) (at_ : Nat → Prop) (table : RegisterTable) : Prop :=
  ∀ r, p.Tells f r at_ (table.get r).access

theorem tableTells_default {P : Nat → Prop} (hP : ∀ j, ¬ P j) :
    p.TableTells f P (default : RegisterTable) := by
  intro r
  rw [RegisterTable.get_default]
  exact .empty hP

theorem tableTells_looping (P : Nat → Prop) : p.TableTells f P RegisterTable.looping := by
  intro r
  rw [RegisterTable.get_looping]
  exact .of_read (EnumSet.mem_full _)

/-- A merged table tells of both ways. -/
theorem TableTells.merge {P Q : Nat → Prop} {t u : RegisterTable} (ht : p.TableTells f P t)
    (hu : p.TableTells f Q u) : p.TableTells f (fun j => P j ∨ Q j) (t.merge u) := by
  intro r
  rw [RegisterTable.get_merge]
  exact (ht r).merge (hu r)

/-- A table that tells what happens behind a statement tells, carried back over it, what happens
    from it on. -/
theorem TableTells.tableBefore {i : Nat} {s : Placed} (hs : p.statements[i]? = some s)
    {after : RegisterTable} (h : p.TableTells f (p.Link f i) after) :
    p.TableTells f (· = i) (s.tableBefore after) := by
  intro r
  rw [RegisterTable.get_tableBefore]
  exact (h r).before hs

/-- A statement that a true table makes out to be dead is a dead store. -/
theorem TableTells.isDeadStore {i : Nat} {s : Placed} (hs : p.statements[i]? = some s)
    {after : RegisterTable} (h : p.TableTells f (p.Link f i) after)
    (hdead : s.isDead after = true) : ∃ r, p.IsDeadStore f i r := by
  rw [Statement.isDead, Bool.and_eq_true, Bool.not_eq_true', Option.any_eq_true] at hdead
  obtain ⟨hcodes, r, hdest, haccess⟩ := hdead
  rw [beq_iff_eq] at haccess
  have hread : ¬ Touch.read ∈ (after.get r).access := by
    rw [haccess]
    decide
  have hwrite : Touch.write ∈ (after.get r).access := by
    rw [haccess]
    decide
  exact ⟨r, ⟨s, hs, hcodes, hdest⟩, (h r).unread hread, (h r).written hread hwrite⟩

/-- Going back over the blocks keeps tables true. -/
theorem backward_tableTells (p : Program) (f : Flow) : p.Backward f (p.TableTells f) where
  nowhere := tableTells_default
  merge := TableTells.merge
  before hs hafter := hafter.tableBefore hs
  loops _ := tableTells_looping

/-- What a round makes out to be dead is a dead store in its flow of control. -/
theorem WellFormed.isDeadStore_round (hp : p.WellFormed) {arrivals : Arrivals} {i : Nat}
    (h : (p.round arrivals).dead[i]?.getD false = true) :
    ∃ r, p.IsDeadStore (p.flow arrivals) i r := by
  have hi := hp.reached_of_dead h
  obtain ⟨s, hs, -⟩ := test_eq_true.mp (hp.isCode_of_reached hi)
  obtain ⟨after, hafter, hdead⟩ := (p.backward_tableTells _).exists_dead_iff hp hs hi
  exact hafter.isDeadStore hs (hdead.mp h)

/-- Conversely, a store that the scan of a routine's first block calls dead is made out to be so, if
    the routine ends there. -/
theorem WellFormed.dead_of_final (hp : p.WellFormed) {arrivals : Arrivals} {s i : Nat}
    (hi : i < p.statements.size) (hs : p.IsRoot s)
    (hend : ∀ j, ¬ p.Link (p.flow arrivals) ((p.cut (p.flow arrivals)).runEnd s) j)
    (hscan : i ∈ (p.scan ((p.cut (p.flow arrivals)).run s) default).dead) :
    (p.round arrivals).dead[i]?.getD false = true := by
  have hf := hp.allows_flow arrivals
  obtain ⟨k, hk⟩ := (Cutting.isHead_of_isRoot hp hs).exists_headAt hp (f := p.flow arrivals)
  have hroot : k ∈ p.rootBlocks (p.flow arrivals) := (Cutting.mem_rootBlocks hp hf).mpr ⟨s, hs, hk⟩
  obtain ⟨v, hv⟩ := exists_scan_of_mem (p := p) hroot (Cutting.getElem?_blocks.mpr ⟨s, hk, rfl⟩)
  have hsuccs : ((p.cut (p.flow arrivals)).blockAt s).succs = [] := by
    rw [List.eq_nil_iff_forall_not_mem]
    intro l hl
    obtain ⟨j, hj⟩ := Cutting.exists_headAt_of_mem_succs hp hl
    exact hend j ((Cutting.link_runEnd_iff hp hk).mpr ⟨l, hl, hj⟩)
  rw [Block.tableAfter, hsuccs] at hv
  exact dead_round.mpr ⟨hi, k, _, hv, hscan⟩

end Program

namespace Analysis

/-- Dead stores are dead: for every source text and all usable settings, after any number of further
    rounds, a statement that is flagged as dead stores into a register without setting the condition
    code, along no path of the last round's links is the register read before it is overwritten, and
    along some path it is overwritten. -/
theorem dead_isDeadStore (source : String) (config : Config) (hvalid : config.validate = .ok ())
    (n : Nat) :
    ∃ a, ofSource source config = .ok a ∧
      ∀ i, Flag.dead ∈ (a.rerun n).last.flagsOf (a.rerun n).program i →
        ∃ r, (a.rerun n).program.IsDeadStore (a.rerun n).last.flow i r := by
  refine ⟨ofText source config, ofSource_eq_ok hvalid, ?_⟩
  intro i hi
  obtain ⟨hprog, arrivals, hlast⟩ := exists_last_eq_round source config n
  have hp := Program.wellFormed_assemble source.toList config
  rw [hlast, hprog] at hi ⊢
  exact hp.isDeadStore_round ((Round.dead_mem_flagsOf hp).mp hi)

/-- A store that the next statement makes useless. -/
def overwritten : String :=
  "movl $1, %eax\nmovl $2, %eax\nret\n"

def overwrittenProgram : Program :=
  Program.assemble overwritten.toList { maxRounds := 1 }

theorem overwritten_text :
    overwrittenProgram.statements.size = 3 ∧ overwrittenProgram.entry = some 0 ∧
      (∀ i < 3, overwrittenProgram.isCode i = true ∧
        overwrittenProgram.test (·.isControl) i = false) ∧
      (∀ i < 3, overwrittenProgram.isStart i = false) ∧
      (∀ i < 2, overwrittenProgram.nextIn overwrittenProgram.noArrivals i = some (i + 1)) ∧
      overwrittenProgram.nextIn overwrittenProgram.noArrivals 2 = none ∧
      0 ∈ (overwrittenProgram.scan [0, 1, 2] default).dead := by
  decide +kernel

theorem overwritten_dead :
    Flag.dead ∈ (overwrittenProgram.round overwrittenProgram.noArrivals).flagsOf
      overwrittenProgram 0 := by
  obtain ⟨hsize, hentry, htext, hstart, hon, hend, hscan⟩ := overwritten_text
  have hp : overwrittenProgram.WellFormed := Program.wellFormed_assemble _ _
  have hroot : overwrittenProgram.IsRoot 0 := hp.isRoot_iff.mpr (Or.inl hentry)
  have hf := hp.allows_flow overwrittenProgram.noArrivals
  generalize hF : overwrittenProgram.flow overwrittenProgram.noArrivals = f at hf
  have hnext : ∀ i, f.nextOf i = overwrittenProgram.nextIn overwrittenProgram.noArrivals i := by
    intro i
    rw [← hF, Program.nextOf_flow]
  have hjump : ∀ i t, ¬ f.jumpOf i = some t := by
    intro i t hit
    have hctl := hp.target_control (hf.jump hit)
    obtain ⟨s, hs, -⟩ := Program.test_eq_true.mp hctl
    rw [(htext i (hsize ▸ (Array.getElem?_eq_some_iff.mp hs).1)).2] at hctl
    exact nomatch hctl
  -- nothing jumps, so only the entry has to start a block
  have hleader : ∀ i < 3, 0 < i → (overwrittenProgram.cut f).isLeader i = false := by
    intro i hi hpos
    refine Bool.eq_false_iff.mpr fun hlead => ?_
    rcases (Cutting.isLeader_cut hp hf).mp hlead with hi' | ⟨j, -, hji⟩
    · rw [hp.isRoot_iff, hentry, hstart i hi, Option.some.injEq] at hi'
      rcases hi' with rfl | hfalse
      · exact Nat.lt_irrefl 0 hpos
      · exact nomatch hfalse
    · exact hjump j i hji
  have hmore : ∀ i < 2, (overwrittenProgram.cut f).continuation i = some (i + 1) := by
    intro i hi
    refine Cutting.continuation_eq_some.mpr ⟨(htext i (by omega)).2, (hnext i).trans (hon i hi),
      Nat.lt_succ_self i, hsize.symm ▸ Nat.succ_lt_succ hi, (htext (i + 1) (by omega)).1,
      hleader (i + 1) (by omega) (Nat.succ_pos i)⟩
  have hlast : (overwrittenProgram.cut f).continuation 2 = none := by
    cases hc : (overwrittenProgram.cut f).continuation 2 with
    | none => rfl
    | some n =>
        have hn : f.nextOf 2 = some n := (Cutting.continuation_eq_some.mp hc).2.1
        rw [hnext 2, hend] at hn
        exact nomatch hn
  have hrun : (overwrittenProgram.cut f).run 0 = [0, 1, 2] := by
    rw [Cutting.run_more (hmore 0 (by decide)), Cutting.run_more (hmore 1 (by decide)),
      Cutting.run_last hlast]
  rw [Round.dead_mem_flagsOf hp]
  refine hp.dead_of_final (s := 0) (hsize.symm ▸ by decide) hroot ?_ ?_
  · rw [hF, Cutting.runEnd_more (hmore 0 (by decide)), Cutting.runEnd_more (hmore 1 (by decide)),
      Cutting.runEnd_last hlast]
    rintro j (⟨hj, -⟩ | ⟨hj, -, -⟩)
    · rw [hnext, hend] at hj
      exact nomatch hj
    · exact hjump _ _ hj
  · rw [hF, hrun]
    exact hscan

/-- The first of two stores into one register is flagged, and is dead. -/
theorem overwritten_isDeadStore :
    ({ maxRounds := 1 } : Config).validate = .ok () ∧
      ∃ a, ofSource overwritten { maxRounds := 1 } = .ok a ∧
        Flag.dead ∈ (a.rerun 0).last.flagsOf (a.rerun 0).program 0 ∧
        ∃ r, (a.rerun 0).program.IsDeadStore (a.rerun 0).last.flow 0 r := by
  refine ⟨rfl, ?_⟩
  obtain ⟨a, ha, hdead⟩ := dead_isDeadStore overwritten { maxRounds := 1 } rfl 0
  obtain rfl := Except.ok.inj ((ofSource_eq_ok rfl).symm.trans ha)
  have hlast : (ofText overwritten { maxRounds := 1 }).last =
      overwrittenProgram.round overwrittenProgram.noArrivals :=
    congrArg Prod.snd settle_stop
  have hflag : Flag.dead ∈ (ofText overwritten { maxRounds := 1 }).last.flagsOf
      overwrittenProgram 0 := by
    rw [hlast]
    exact overwritten_dead
  exact ⟨_, ha, hflag, hdead 0 hflag⟩

end Analysis

end AsmCheck
