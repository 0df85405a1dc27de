import AsmCheck.Proofs.BackwardScan
import AsmCheck.Proofs.References
import AsmCheck.Proofs.RegisterInputs

/-! # Inputs are never invented

    The walk over the blocks may miss an input of a routine, but it makes none
    up: where a table says that a register is an input, some path uses the
    value of the register before it writes it.  This reading of tables goes
    back over statements (`backward_inputsNeeded`).  A statement that writes a
    register takes its input away before its own use is looked at, a join takes
    nothing but inputs of the two ways, and a loop contributes none at all, so
    that the shape of the graph does not matter.

    A finding about a value that nobody gave therefore has a path behind it
    which starts at the program's entry (`inputs_have_paths`). -/

namespace AsmCheck

open Relation

/-- Some path along the blocks from `i` reaches a statement that uses the value of register `reg`
    before one that writes it. -/
def Round.NeedsValue (p : Program) (r : Round) (reg : Reg) (i : Nat) : Prop :=
  ∃ k, ReflTransGen (fun a b => ¬ p.Writes reg a ∧ r.Follows a b) i k ∧ p.UsesValue reg k

namespace Program

variable {p : Program} {f : Flow} {arrivals : Arrivals} {r : Reg} {i j : Nat}

theorem NeedsValue.before (hi : ¬ p.Writes r i) (hij : p.Link f i j) (h : p.NeedsValue f r j) :
    p.NeedsValue f r i := by
  obtain ⟨k, hpath, hk⟩ := h
  exact ⟨k, .head ⟨hi, hij⟩ hpath, hk⟩

/-- A register whose value is needed somewhere is not one that the machine manages. -/
theorem NeedsValue.isManaged (h : p.NeedsValue f r i) : r.isManaged = false := by
  obtain ⟨k, -, hmanaged, -⟩ := h
  exact hmanaged

/-- A value that is needed along the links is needed along the blocks. -/
theorem NeedsValue.round (hp : p.WellFormed) (hi : p.Reached (p.flow arrivals) i)
    (h : p.NeedsValue (p.flow arrivals) r i) : (p.round arrivals).NeedsValue p r i := by
  obtain ⟨k, hpath, hk⟩ := h
  exact ⟨k, (hp.path_round hi).mpr hpath, hk⟩

/-! ## Every input of a table -/

/-- From one of the statements that `P` holds of, the value of each input of the table is needed. -/
def InputsNeeded (p : Program) (f : Flow) (P : Nat → Prop) (t : RegisterTable) : Prop :=
  ∀ r, HasInput r t → ∃ j, P j ∧ p.NeedsValue f r j

/-- Going back over the blocks makes no input up. -/
theorem backward_inputsNeeded (p : Program) (f : Flow) : p.Backward f (p.InputsNeeded f) := by
  refine backward_stems fun {i s r after} hs h => ?_
  rcases RegisterStatus.input_before.mp h with ⟨huses, hsave, hmanaged⟩ | ⟨hinput, hwrites⟩
  · -- the statement itself is the end of the path
    exact Or.inl ⟨i, .refl, hmanaged, s, hs, huses, RegisterStatus.savePlace_eq_none.mp hsave⟩
  · refine Or.inr ⟨hinput, fun j hij hneeds => hneeds.before ?_ hij⟩
    rintro ⟨s', hs', hw⟩
    rw [hs, Option.some.injEq] at hs'
    exact hwrites (hs' ▸ hw)

/-- An input of a block is needed from its first statement on. -/
theorem WellFormed.needsValue_of_hasInput (hp : p.WellFormed) {k s : Nat}
    (hs : (p.cut (p.flow arrivals)).HeadAt k s)
    (h : HasInput r ((p.round arrivals).tableOf k)) :
    r.isManaged = false ∧ (p.round arrivals).NeedsValue p r s := by
  obtain ⟨j, rfl, hneeds⟩ := (p.backward_inputsNeeded _).tells_tableOf hp hs r h
  exact ⟨hneeds.isManaged, hneeds.round hp ((hs.isHead hp).reached hp)⟩

/-! ## The block of the main routine -/

theorem entry_of_isMain {root : Root} (h : root ∈ p.roots) (hmain : root.isMain = true) :
    p.entry = some root.entry := by
  rcases List.mem_append.mp h with h | h
  · obtain ⟨e, he, rfl⟩ := Option.map_eq_some_iff.mp (Option.mem_toList.mp h)
    exact he
  · obtain ⟨i, -, rfl⟩ := List.mem_map.mp h
    cases hmain

end Program

/-! ## Findings -/

namespace Analysis

variable {a : Analysis} {f : Finding} {r : Reg}

/-- Only the register pass reports values that nobody gave. -/
theorem mem_registerFindings_of_issue (h : f ∈ a.rawFindings)
    (hissue : f.issue = .uninitializedRead r) : f ∈ registerFindings a := by
  simp only [rawFindings, List.mem_append] at h
  rcases h with (((h | h) | h) | h) | h
  · obtain ⟨x, h⟩ := issue_faultFindings h
    rw [hissue] at h
    cases h
  · have h := issue_placementFindings h
    rw [hissue] at h
    rcases h with h | h | h | h <;> cases h
  · rcases issue_flowFrom _ _ h with h | ⟨s, i, h⟩
    · rw [hissue] at h
      cases h
    · rw [hissue] at h
      rcases issue_reachedIssues h with h | h | h | ⟨codes, h⟩ <;> cases h
  · obtain ⟨other, h⟩ := issue_overlapsFrom _ _ h
    rw [hissue] at h
    cases h
  · exact h

/-- A finding about a value that nobody gave is about an input of the main routine's block. -/
theorem exists_input_of_issue (h : f ∈ a.findings) (hissue : f.issue = .uninitializedRead r) :
    ∃ s ∈ a.last.subroutines, s.isMain = true ∧ f.line = a.program.lineOf s.entry ∧
      ∃ k, s.block = some k ∧ Program.HasInput r (a.last.tableOf k) := by
  have hraw := mem_registerFindings_of_issue (mem_findings.mp h) hissue
  obtain ⟨s, hs, k, hk, hline, hx⟩ := mem_registerFindings.mp hraw
  rw [hissue, registerIssues] at hx
  split at hx
  · next hmain =>
    obtain ⟨r', hr', heq⟩ := List.mem_map.mp hx
    obtain rfl : r' = r := Issue.uninitializedRead.inj heq
    exact ⟨s, hs, hmain, hline, k, hk, EnumSet.contains_iff.mp (List.mem_filter.mp hr').2⟩
  · obtain ⟨r', -, heq⟩ := List.mem_map.mp hx
    cases heq

/-- Inputs are never invented: for every source text and all usable settings, after any number of
    further rounds, a register that a block has as an input is not managed by the machine, and some
    path along the blocks leads from the first statement of the block to a use of the register
    before a write; and every finding about a value that nobody gave has such a path from the
    program's entry, at whose line it is reported. -/
theorem inputs_have_paths (source : String) (config : Config) (hvalid : config.validate = .ok ())
    (n : Nat) :
    ∃ a, ofSource source config = .ok a ∧
      (∀ (k : Nat) (b : Block) (r : Reg), (a.rerun n).last.blocks[k]? = some b →
        SaveMark.input ∈ (((a.rerun n).last.tableOf k).get r).save →
          r.isManaged = false ∧ ∃ s, (a.rerun n).last.firstOf k = some s ∧
            (a.rerun n).last.NeedsValue (a.rerun n).program r s) ∧
      ∀ f ∈ (a.rerun n).findings, ∀ r, f.issue = .uninitializedRead r →
        ∃ e, (a.rerun n).program.entry = some e ∧ f.line = (a.rerun n).program.lineOf e ∧
          r.isManaged = false ∧ (a.rerun n).last.NeedsValue (a.rerun n).program r e := by
  refine ⟨ofText source config, ofSource_eq_ok hvalid, ?_⟩
  obtain ⟨hprog, arrivals, hlast⟩ := exists_last_eq_round source config n
  have hp := Program.wellFormed_assemble source.toList config
  rw [← hprog] at hp hlast
  generalize (ofText source config).rerun n = a at hp hlast
  constructor
  · intro k b r hb hinput
    rw [hlast] at hb hinput ⊢
    rw [Program.blocks_round] at hb
    obtain ⟨s, hs, -⟩ := Cutting.getElem?_blocks.mp hb
    obtain ⟨hmanaged, hneeds⟩ := hp.needsValue_of_hasInput hs hinput
    exact ⟨hmanaged, s, Program.firstOf_round.mpr hs, hneeds⟩
  · intro f hf r hissue
    obtain ⟨s, hs, hmain, hline, k, hk, hinput⟩ := exists_input_of_issue hf hissue
    rw [hlast] at hs hinput ⊢
    have hroot := (Program.exists_block_of_mem_subroutines hs).1
    obtain ⟨hmanaged, hneeds⟩ :=
      hp.needsValue_of_hasInput ((hp.block_eq_some hs).mp hk) hinput
    exact ⟨s.entry, Program.entry_of_isMain hroot hmain, hline, hmanaged, hneeds⟩

/-- A register that is put aside, then written on one of two ways, and used where they meet. -/
def givenOnOneWay : String :=
  "pushl %eax\njp x\nmovl $1, %eax\nx: movl %eax, %ebx\nret\n"

theorem givenOnOneWay_text {a : Analysis} (ha : a = (ofText givenOnOneWay {}).rerun 1) :
    (a.last.blocks[0]?).isSome = true ∧
      SaveMark.input ∈ ((a.last.tableOf 0).get .eax).save ∧
      { line := 0, issue := .uninitializedRead .eax } ∈ a.rawFindings := by
  subst ha
  decide +kernel

/-- The value is needed on the way that does not give it, and that is what is reported. -/
theorem givenOnOneWay_has_path :
    ({} : Config).validate = .ok () ∧
      ∃ a, ofSource givenOnOneWay {} = .ok a ∧
        SaveMark.input ∈ (((a.rerun 1).last.tableOf 0).get .eax).save ∧
        (∃ s, (a.rerun 1).last.firstOf 0 = some s ∧
          (a.rerun 1).last.NeedsValue (a.rerun 1).program .eax s) ∧
        { line := 0, issue := .uninitializedRead .eax } ∈ (a.rerun 1).findings ∧
        ∃ e, (a.rerun 1).program.entry = some e ∧
          (a.rerun 1).last.NeedsValue (a.rerun 1).program .eax e := by
  refine ⟨rfl, ?_⟩
  obtain ⟨a, ha, hblocks, hfindings⟩ := inputs_have_paths givenOnOneWay {} rfl 1
  obtain rfl := Except.ok.inj ((ofSource_eq_ok rfl).symm.trans ha)
  obtain ⟨hblock, hinput, hraw⟩ := givenOnOneWay_text rfl
  obtain ⟨b, hb⟩ := Option.isSome_iff_exists.mp hblock
  have hfinding := mem_findings.mpr hraw
  obtain ⟨e, he, -, -, hneeds⟩ := hfindings _ hfinding .eax rfl
  exact ⟨_, ha, hinput, (hblocks 0 b .eax hb hinput).2, hfinding, e, he, hneeds⟩

end Analysis

end AsmCheck
