import AsmCheck.Proofs.InputPaths

/-! # Registers that are not handed back

    A routine has to put a register aside before it writes it, and to bring it
    back.  The walk over the blocks marks a register as put aside or brought
    back, and such marks are never made up: each mark of a table stems from a
    statement on a path along the links (`backward_makesLater`), in whatever
    order the blocks are scanned.

    So a register that is not put aside on any path, or not brought back on
    any, lacks a mark at the routine's block, and if the routine writes it this
    is reported (`unsaved_registers_reported`). -/

namespace AsmCheck

open Relation

/-- The statement does with register `r` what the mark stands for. -/
def Statement.Makes (s : Statement) (r : Reg) : SaveMark → Prop
  | .saved => ∃ place, s.transfer = some (.save r place)
  | .restored => ∃ place, s.transfer = some (.restore r place)
  | .input => r ∈ s.effects.uses

/-- Statement `i` is in a block that control can get to from block `k`. -/
def Round.OnPathFrom (r : Round) (k i : Nat) : Prop :=
  ∃ l b, ReflTransGen (Program.GoesOn r.blocks) k l ∧ r.blocks[l]? = some b ∧ i ∈ b.statements

/-- Some statement on a path from block `k` does with register `reg` what the mark stands for. -/
def Round.MadeFrom (p : Program) (r : Round) (k : Nat) (reg : Reg) (m : SaveMark) : Prop :=
  ∃ i s, r.OnPathFrom k i ∧ p.statements[i]? = some s ∧ s.Makes reg m

/-! ## Going back over a statement -/

namespace RegisterStatus

variable {r : Reg} {t : Option Transfer}

theorem isSome_savePlace (h : (savePlace r t).isSome = true) :
    ∃ place, t = some (.save r place) := by
  by_contra hnone
  rw [savePlace_eq_none.mpr fun place hplace => hnone ⟨place, hplace⟩] at h
  cases h

theorem isSome_restorePlace (h : (restorePlace r t).isSome = true) :
    ∃ place, t = some (.restore r place) := by
  cases t with
  | none => cases h
  | some t =>
      cases t with
      | save r' place => cases h
      | restore r' place =>
          by_cases hr : r' = r
          · exact ⟨place, by rw [hr]⟩
          · rw [restorePlace, if_neg hr] at h
            cases h

/-- A mark before a statement has been there after it, or the statement makes it. -/
theorem makes_of_mem_before {s : Statement} {m : SaveMark} {after : RegisterStatus}
    (h : m ∈ (before s.effects s.transfer r after).save) : s.Makes r m ∨ m ∈ after.save := by
  have hmarks : ∀ {marks : SaveMarks}, m ∈ (if s.effects.writes.contains r then marks.erase .input
      else marks) → m ∈ marks := by
    intro marks hm
    split at hm
    · exact (EnumSet.mem_erase.mp hm).1
    · exact hm
  rcases EnumSet.mem_union.mp h with hkept | hinput
  · rcases EnumSet.mem_union.mp (hmarks hkept) with hm | hrestored
    · rcases EnumSet.mem_union.mp hm with hm | hsaved
      · exact Or.inr hm
      · obtain ⟨hplace, hm⟩ := EnumSet.mem_when.mp hsaved
        obtain rfl := EnumSet.mem_singleton.mp hm
        exact Or.inl (isSome_savePlace hplace)
    · obtain ⟨hplace, hm⟩ := EnumSet.mem_when.mp hrestored
      obtain rfl := EnumSet.mem_singleton.mp hm
      exact Or.inl (isSome_restorePlace hplace)
  · obtain ⟨huses, hm⟩ := EnumSet.mem_when.mp hinput
    obtain rfl := EnumSet.mem_singleton.mp hm
    simp only [Bool.and_eq_true] at huses
    exact Or.inl (EnumSet.contains_iff.mp huses.1.1)

end RegisterStatus

/-! ## Every mark of a table -/

namespace Program

variable {p : Program} {f : Flow} {arrivals : Arrivals} {r : Reg} {m : SaveMark} {i j k : Nat}

/-- Some statement that can be reached from `j` does with register `r` what the mark stands for. -/
def MakesLater (p : Program) (f : Flow) (r : Reg) (m : SaveMark) (j : Nat) : Prop :=
  ∃ i s, ReflTransGen (p.Link f) j i ∧ p.statements[i]? = some s ∧ s.Makes r m

/-- Going back over the blocks makes no mark up. -/
theorem backward_makesLater (p : Program) (f : Flow) (m : SaveMark) :
    p.Backward f (Stems m fun r => p.MakesLater f r m) := by
  refine backward_stems fun {i s r after} hs h => ?_
  rcases RegisterStatus.makes_of_mem_before h with hmakes | hm
  · exact Or.inl ⟨i, s, .refl, hs, hmakes⟩
  · refine Or.inr ⟨hm, ?_⟩
    rintro j hij ⟨i', s', hpath, hs', hmakes⟩
    exact ⟨i', s', .head hij hpath, hs', hmakes⟩

/-- What can be reached along links is in a block that can be reached. -/
theorem WellFormed.onPathFrom_of_links (hp : p.WellFormed)
    (hj : (p.cut (p.flow arrivals)).HeadAt k j)
    (h : ReflTransGen (p.Link (p.flow arrivals)) j i) : (p.round arrivals).OnPathFrom k i := by
  have hf := hp.allows_flow arrivals
  have hrun : ∃ l s, ReflTransGen (GoesOn (p.cut (p.flow arrivals)).blocks) k l ∧
      (p.cut (p.flow arrivals)).HeadAt l s ∧ i ∈ (p.cut (p.flow arrivals)).run s := by
    induction h with
    | refl => exact ⟨k, j, .refl, hj, Cutting.self_mem_run j⟩
    | tail _ hlink ih =>
        obtain ⟨l, s, hpath, hs, hmem⟩ := ih
        -- a link stays within the run, or leads from its end to the head of another block
        rcases Cutting.continuation_or_runEnd hp hf hmem hlink with hcont | rfl
        · exact ⟨l, s, hpath, hs, Cutting.mem_run_of_continuation hmem hcont⟩
        · obtain ⟨l', -, hl'⟩ := (Cutting.link_runEnd_iff hp hs).mp hlink
          exact ⟨l', _, hpath.tail (Cutting.goesOn_of_link hp hs hl' hlink), hl',
            Cutting.self_mem_run _⟩
  obtain ⟨l, s, hpath, hs, hmem⟩ := hrun
  exact ⟨l, _, hpath, Cutting.getElem?_blocks.mpr ⟨s, hs, rfl⟩, hmem⟩

/-- A mark that a routine's block has is made on a path from there. -/
theorem WellFormed.madeFrom_of_mem_save (hp : p.WellFormed) {s : Subroutine}
    (hs : s ∈ (p.round arrivals).subroutines) (hk : s.block = some k)
    (h : m ∈ (((p.round arrivals).tableOf k).get r).save) :
    (p.round arrivals).MadeFrom p k r m := by
  have hhead := (hp.block_eq_some hs).mp hk
  obtain ⟨j, rfl, i, st, hpath, hst, hmakes⟩ :=
    (p.backward_makesLater _ m).tells_tableOf hp hhead r h
  exact ⟨i, st, hp.onPathFrom_of_links hhead hpath, hst, hmakes⟩

end Program

/-! ## Findings -/

namespace Analysis

variable {a : Analysis} {r : Reg}

theorem writesIn_of_writes {id i : Nat} (howner : a.last.ownership.ownerOf i = some id)
    (hwrites : a.program.Writes r i) : a.writesIn id r = true := by
  obtain ⟨s, hs, hr⟩ := hwrites
  rw [writesIn, List.any_eq_true]
  refine ⟨(s, i), ?_, ?_⟩
  · rw [List.mem_zipIdx_iff_getElem?, Array.getElem?_toList]
    exact hs
  · simp [howner, EnumSet.contains_iff, hr]

/-- A register that has to be handed back, that the routine writes and that lacks a mark at its
    block is reported at its entry. -/
theorem unsavedRegister_mem_findings {s : Subroutine} {k : Nat} {m : SaveMark}
    (hs : s ∈ a.last.subroutines) (hmain : s.isMain = false) (hk : s.block = some k)
    (hr : r ∈ Reg.calleeSaved) (hwrites : a.writesIn s.id r = true)
    (hm : m ∈ ({.saved, .restored} : SaveMarks)) (hlacks : ¬ m ∈ ((a.last.tableOf k).get r).save) :
    { line := a.program.lineOf s.entry, issue := .unsavedRegister r } ∈ a.findings := by
  refine registerIssue_mem_findings hs hk ?_
  rw [registerIssues, if_neg (Bool.eq_false_iff.mp hmain)]
  refine List.mem_map.mpr ⟨r, List.mem_filter.mpr ⟨hr, ?_⟩, rfl⟩
  have hnot : ((a.last.tableOf k).get r).save.includes {.saved, .restored} = false :=
    Bool.eq_false_iff.mpr fun h => hlacks (EnumSet.includes_iff.mp h m hm)
  rw [hwrites, hnot]
  rfl

/-- A register that is not handed back is never overlooked: for every source text and all usable
    settings, after any number of further rounds, every routine has a block, and if a routine other
    than the main one owns a statement that writes a register which has to be handed back, and that
    register is not put aside, or not brought back, by any statement on a path of blocks from its
    own, then this is reported at the line of its entry. -/
theorem unsaved_registers_reported (source : String) (config : Config)
    (hvalid : config.validate = .ok ()) (n : Nat) :
    ∃ a, ofSource source config = .ok a ∧
      ∀ s ∈ (a.rerun n).last.subroutines, ∃ k, s.block = some k ∧
        (s.isMain = false → ∀ r ∈ Reg.calleeSaved,
          (∃ i, (a.rerun n).last.ownership.ownerOf i = some s.id ∧
            (a.rerun n).program.Writes r i) →
          ¬ (a.rerun n).last.MadeFrom (a.rerun n).program k r .saved ∨
            ¬ (a.rerun n).last.MadeFrom (a.rerun n).program k r .restored →
          { line := (a.rerun n).program.lineOf s.entry, issue := .unsavedRegister r } ∈
            (a.rerun n).findings) := by
  refine ⟨ofText source config, ofSource_eq_ok hvalid, ?_⟩
  obtain ⟨hprog, arrivals, hlast⟩ := exists_last_eq_round source config n
  have hp := Program.wellFormed_assemble source.toList config
  rw [← hprog] at hp hlast
  generalize (ofText source config).rerun n = a at hp hlast
  intro s hs
  have hround : s ∈ (a.program.round arrivals).subroutines := hlast ▸ hs
  obtain ⟨k, hk⟩ := hp.exists_block hround
  refine ⟨k, hk, ?_⟩
  rintro hmain r hr ⟨i, howner, hwrites⟩ hmissing
  have hmade : ∀ m, ¬ a.last.MadeFrom a.program k r m →
      ¬ m ∈ ((a.last.tableOf k).get r).save := by
    rw [hlast]
    exact fun m hnot h => hnot (hp.madeFrom_of_mem_save hround hk h)
  have hreport := fun m => unsavedRegister_mem_findings (m := m) hs hmain hk hr
    (writesIn_of_writes howner hwrites)
  rcases hmissing with hsaved | hrestored
  · exact hreport .saved (by decide) (hmade _ hsaved)
  · exact hreport .restored (by decide) (hmade _ hrestored)

/-- A routine that puts a register aside and writes it; only its caller brings the register back. -/
def restoredByCaller : String :=
  "call f\npopl %ebx\nret\n; @SUBROUTINE\nf: pushl %ebx\nmovl $1, %ebx\nret\n"

theorem restoredByCaller_text {a : Analysis} (ha : a = (ofText restoredByCaller {}).rerun 1) :
    a.last.subroutines.map (fun s => (s.id, s.isMain, s.block, a.program.lineOf s.entry)) =
        [(0, true, some 0, 0), (3, false, some 2, 4)] ∧
      (a.last.blocks[2]?).map (fun b : Block => (b.statements, b.succs)) = some ([3, 4, 5], []) ∧
      a.last.ownership.ownerOf 4 = some 3 ∧
      (a.program.statements[4]?).any (fun s : Placed => s.effects.writes.contains .ebx) = true ∧
      ∀ i ∈ [3, 4, 5], (a.program.statements[i]?).any
        (fun s : Placed => (RegisterStatus.restorePlace .ebx s.transfer).isSome) = false := by
  subst ha
  decide +kernel

/-- What the caller does is not on a path from the routine, and so the routine is reported. -/
theorem restoredByCaller_reported :
    ({} : Config).validate = .ok () ∧
      ∃ a, ofSource restoredByCaller {} = .ok a ∧
        (a.rerun 1).program.Writes .ebx 4 ∧
        ¬ (a.rerun 1).last.MadeFrom (a.rerun 1).program 2 .ebx .restored ∧
        { line := 4, issue := .unsavedRegister .ebx } ∈ (a.rerun 1).findings := by
  refine ⟨rfl, ?_⟩
  obtain ⟨a, ha, hreports⟩ := unsaved_registers_reported restoredByCaller {} rfl 1
  obtain rfl := Except.ok.inj ((ofSource_eq_ok rfl).symm.trans ha)
  obtain ⟨hsubs, hblock, howner, hwrites, htransfers⟩ := restoredByCaller_text rfl
  obtain ⟨b, hb, hshape⟩ := Option.map_eq_some_iff.mp hblock
  obtain ⟨hstatements, hsuccs⟩ := Prod.mk.inj hshape
  obtain ⟨st, hst, hr⟩ := Option.any_eq_true _ _ |>.mp hwrites
  have hwrites : ((ofText restoredByCaller {}).rerun 1).program.Writes .ebx 4 :=
    ⟨st, hst, EnumSet.contains_iff.mp hr⟩
  have hnot : ¬ ((ofText restoredByCaller {}).rerun 1).last.MadeFrom
      ((ofText restoredByCaller {}).rerun 1).program 2 .ebx .restored := by
    rintro ⟨i, s, ⟨l, b', hpath, hb', hi⟩, hs, place, htransfer⟩
    -- the routine's block is the end of every path
    rcases hpath.cases_head with rfl | ⟨m, ⟨b'', hb'', hm⟩, -⟩
    · rw [hb, Option.some.injEq] at hb'
      rw [← hb', hstatements] at hi
      have hnone := htransfers i hi
      rw [hs, Option.any_some, htransfer, RegisterStatus.restorePlace, if_pos rfl] at hnone
      cases hnone
    · rw [hb, Option.some.injEq] at hb''
      rw [← hb'', hsuccs] at hm
      exact absurd hm List.not_mem_nil
  obtain ⟨s, hs, hs'⟩ : ∃ s ∈ ((ofText restoredByCaller {}).rerun 1).last.subroutines,
      (s.id, s.isMain, s.block, ((ofText restoredByCaller {}).rerun 1).program.lineOf s.entry) =
        (3, false, some 2, 4) := by
    rw [← List.mem_map, hsubs]
    simp
  simp only [Prod.mk.injEq] at hs'
  obtain ⟨hid, hmain, hk, hline⟩ := hs'
  obtain ⟨k, hk', hreport⟩ := hreports s hs
  obtain rfl : k = 2 := Option.some.inj (hk'.symm.trans hk)
  have hfinding := hreport hmain .ebx (by decide) ⟨4, hid ▸ howner, hwrites⟩ (Or.inr hnot)
  rw [hline] at hfinding
  exact ⟨_, ha, hwrites, hnot, hfinding⟩

end Analysis

end AsmCheck
