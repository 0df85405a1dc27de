import AsmCheck.Proofs.Convergence
import AsmCheck.Proofs.JudgedFlow
import AsmCheck.Proofs.References

/-! # The codes of a round are those of its runs

    The pass for codes works with sets.  A run works with one code: it enters
    the first block of some routine with any code and goes from block to block
    along the links of the round, through statements that each keep the code,
    leave any code behind, or are jumped away from (`Carries`, `JumpsWith`).
    In every round the two agree (`collectsCodes`): the codes recorded for a
    block are exactly those with which runs enter it, the codes said to leave
    it are exactly those with which runs are through with it, and what is said
    about its conditional jump follows from these final sets.

    Runs do not ask in which order the routines are taken, and so neither does
    the outcome (`entryOf_ofRoots_congr`).  Nor does it matter whether a jump is
    judged once at the end or each time that the entry of its block widens. -/

namespace AsmCheck

open Relation

/-! ## Runs -/

namespace Statement

/-- A statement that is executed with code `c`, and not jumped away from, leaves code `c'`. -/
inductive Carries (s : Statement) : CondCode → CondCode → Prop where
  /-- What sets the code may leave any, -/
  | sets {c c' : CondCode} (h : s.setsCodes = true) : Carries s c c'
  /-- and so may a call that returns. -/
  | returns {c c' : CondCode} (h : s.branch = some .call) : Carries s c c'
  /-- A conditional jump is passed over with a code that it does not test. -/
  | passed {c : CondCode} {test : CodeSet} (h : s.branch = some (.conditional test))
      (hc : ¬ c ∈ test) : Carries s c c
  /-- Anything else keeps the code. -/
  | keeps {c : CondCode} (hsets : s.setsCodes = false)
      (hcond : ∀ test, s.branch ≠ some (.conditional test)) : Carries s c c

/-- A statement that is executed with code `c` may be jumped away from, with the same code. -/
def JumpsWith (s : Statement) (c : CondCode) : Prop :=
  ∃ b, s.branch = some b ∧ ∀ test, b = .conditional test → c ∈ test

end Statement

/-- Statements that are executed one after the other turn code `c` into code `c'`. -/
inductive Program.CarriesThrough (p : Program) : List Nat → CondCode → CondCode → Prop where
  | nil {c : CondCode} : CarriesThrough p [] c c
  | cons {i : Nat} {is : List Nat} {s : Placed} {c d c' : CondCode}
      (at_i : p.statements[i]? = some s) (first : s.Carries c d) (rest : CarriesThrough p is d c') :
      CarriesThrough p (i :: is) c c'

namespace Round

/-- One step of a run, from a block and the code that it is entered with to the next. -/
inductive CodeStep (p : Program) (r : Round) : Nat × CondCode → Nat × CondCode → Prop where
  | next {k l : Nat} {b : Block} {c c' : CondCode} (hb : r.blocks[k]? = some b)
      (way : b.next = some l) (through : p.CarriesThrough b.statements c c') :
      CodeStep p r (k, c) (l, c')
  | branch {k l i : Nat} {b : Block} {s : Placed} {c c' : CondCode} (hb : r.blocks[k]? = some b)
      (way : b.branch = some l) (last : b.statements.getLast? = some i)
      (at_i : p.statements[i]? = some s) (through : p.CarriesThrough b.statements.dropLast c c')
      (jumps : s.JumpsWith c') : CodeStep p r (k, c) (l, c')

/-- Some run from the first block of a routine, entered with any code, enters block `k` with code
    `c`. -/
def EnteredWith (p : Program) (r : Round) (k : Nat) (c : CondCode) : Prop :=
  ∃ s ∈ r.subroutines, ∃ k₀ c₀, s.block = some k₀ ∧ ReflTransGen (r.CodeStep p) (k₀, c₀) (k, c)

/-- The codes that are recorded for the start of a block, none if it cannot be entered. -/
def codesBefore (r : Round) (k : Nat) : CodeSet :=
  (r.codeFlow.entryOf k).getD ∅

/-- What a round that started from `before` has recorded about codes is what its runs do. -/
structure CollectsCodes (p : Program) (before : Arrivals) (r : Round) : Prop where
  /-- A block is marked as entered exactly if some run reaches it. -/
  entered : ∀ {k : Nat} {b : Block}, r.blocks[k]? = some b →
    (BlockMark.entered ∈ r.marksOf p k ↔ ∃ c, r.EnteredWith p k c)
  /-- The codes at its start are those with which runs enter it. -/
  initial : ∀ {k : Nat} {b : Block}, r.blocks[k]? = some b →
    ∀ c, c ∈ r.codesBefore k ↔ r.EnteredWith p k c
  /-- The codes after it are those with which runs are through with its last statement. -/
  final : ∀ {k : Nat} {b : Block}, r.blocks[k]? = some b →
    ∀ c', c' ∈ r.codesAfter p k ↔ ∃ c, r.EnteredWith p k c ∧ p.CarriesThrough b.statements c c'
  /-- Its conditional jump is judged by the codes that the final ones at its start lead to. -/
  judged : ∀ {k i : Nat} {b : Block} {test : CodeSet}, r.blocks[k]? = some b →
    b.statements.getLast? = some i → p.Tests i test → BlockMark.entered ∈ r.marksOf p k →
    r.Judges p i test fun c => ∃ d ∈ r.codesBefore k, p.CarriesThrough b.statements.dropLast d c
  /-- Nothing is said about the jump of a block that no run reaches. -/
  unjudged : ∀ {k i : Nat} {b : Block} {test : CodeSet}, r.blocks[k]? = some b →
    b.statements.getLast? = some i → p.Tests i test → ¬ BlockMark.entered ∈ r.marksOf p k →
    p.verdictOf r.arrivals i = {}
  /-- The routines may be taken in any order. -/
  anyOrder : ∀ roots, roots.Perm (r.subroutines.filterMap Subroutine.block) →
    (∀ k, (CodeFlow.ofRoots p r.blocks roots).entryOf k = r.codeFlow.entryOf k) ∧
      p.arrivalsAfter r.blocks (CodeFlow.ofRoots p r.blocks roots) before = r.arrivals
  /-- Whoever judges the jumps of a block each time that its entry widens ends with the same. -/
  onTheWay : ∀ roots, roots.Perm (r.subroutines.filterMap Subroutine.block) →
    JudgedFlow.ofRoots p r.blocks roots (p.verdictsOf before) =
      { flow := CodeFlow.ofRoots p r.blocks roots, verdicts := p.verdictsOf r.arrivals }

end Round

/-! ## Sets of codes and single codes -/

namespace Statement

variable {s : Statement} {c c' : CondCode}

/-- The codes that go on from a statement are those that it carries. -/
theorem mem_fall_iff : c' ∈ (s.codesOut {c}).fall ↔ s.Carries c c' := by
  by_cases hsets : s.setsCodes = true
  · rw [codesOut, if_pos hsets]
    exact ⟨fun _ => .sets hsets, fun _ => EnumSet.mem_full c'⟩
  constructor
  · intro hc'
    rw [codesOut, if_neg hsets] at hc'
    have hkeeps : (∀ test, s.branch ≠ some (.conditional test)) → c' ∈ ({c} : CodeSet) →
        s.Carries c c' := by
      intro hcond hmem
      obtain rfl := EnumSet.mem_singleton.mp hmem
      exact .keeps (Bool.eq_false_iff.mpr hsets) hcond
    cases hb : s.branch with
    | none =>
        rw [hb] at hc' hkeeps
        exact hkeeps (fun _ h => by cases h) hc'
    | some b =>
        rw [hb] at hc' hkeeps
        cases b with
        | jump => exact hkeeps (fun _ h => by cases h) hc'
        | conditional test =>
            obtain ⟨hc, hnot⟩ := EnumSet.mem_sdiff.mp hc'
            obtain rfl := EnumSet.mem_singleton.mp hc
            exact .passed hb hnot
        | untracked => exact hkeeps (fun _ h => by cases h) hc'
        | call => exact .returns hb
  · intro hcarries
    cases hcarries with
    | sets h => exact absurd h hsets
    | returns h => simp [codesOut, hsets, h]
    | passed h hc => simp [codesOut, hsets, h, hc]
    | keeps _ hcond => exact mem_fall_codesOut hcond c

/-- The codes that are jumped away with are those that a jump is taken with. -/
theorem Sound.mem_taken_iff (h : s.Sound) :
    c' ∈ (s.codesOut {c}).taken ↔ c' = c ∧ s.JumpsWith c := by
  unfold JumpsWith
  cases hb : s.branch with
  | none =>
      have hempty : (s.codesOut {c}).taken = ∅ := by
        rw [codesOut, hb]
        split <;> rfl
      simp [hempty]
  | some b =>
      rw [codesOut, h.keeps_of_branch hb, hb]
      cases b with
      | jump => simp
      | conditional test =>
          simp only [Option.some.injEq, exists_eq_left', Branch.conditional.injEq, forall_eq']
          rw [if_neg Bool.false_ne_true, EnumSet.mem_inter, EnumSet.mem_singleton]
          exact and_congr_right fun hc => by rw [hc]
      | untracked => simp
      | call => simp

end Statement

namespace Program

variable {p : Program} {f : Flow} {is : List Nat} {i : Nat} {c c' : CondCode}

/-- A code comes through the first statement, and then through the others. -/
theorem carriesThrough_cons {s : Placed} (hs : p.statements[i]? = some s) :
    p.CarriesThrough (i :: is) c c' ↔ ∃ d, s.Carries c d ∧ p.CarriesThrough is d c' := by
  constructor
  · rintro (_ | ⟨at_i, first, rest⟩)
    rw [hs, Option.some.injEq] at at_i
    exact ⟨_, at_i ▸ first, rest⟩
  · rintro ⟨d, first, rest⟩
    exact .cons hs first rest

/-- A code comes through all statements but the last, and then through that. -/
theorem carriesThrough_concat {s : Placed} (hs : p.statements[i]? = some s) :
    p.CarriesThrough (is ++ [i]) c c' ↔ ∃ d, p.CarriesThrough is c d ∧ s.Carries d c' := by
  constructor
  · intro h
    induction is generalizing c with
    | nil =>
        obtain ⟨d, hd, hrest⟩ := (carriesThrough_cons hs).mp h
        cases hrest
        exact ⟨c, .nil, hd⟩
    | cons j is ih =>
        cases h with
        | cons at_j first rest =>
            obtain ⟨d, hd, hlast⟩ := ih rest
            exact ⟨d, .cons at_j first hd, hlast⟩
  · rintro ⟨d, hd, hlast⟩
    induction hd with
    | nil => exact .cons hs hlast .nil
    | cons at_j first _ ih => exact .cons at_j first (ih hlast)

/-- The codes that come through statements which transfer no control are those that these carry. -/
theorem WellFormed.mem_codesThrough (hp : p.WellFormed) (hcode : ∀ i ∈ is, p.isCode i = true)
    (hctl : ∀ i ∈ is, p.test (·.isControl) i = false) :
    c' ∈ p.codesThrough is {c} ↔ p.CarriesThrough is c c' := by
  induction is generalizing c with
  | nil =>
      constructor
      · intro hc'
        obtain rfl := EnumSet.mem_singleton.mp hc'
        exact .nil
      · intro h
        cases h
        exact EnumSet.mem_singleton.mpr rfl
  | cons i is ih =>
      obtain ⟨s, hs, -⟩ := test_eq_true.mp (hcode i (List.mem_cons_self ..))
      have hfall := hp.exists_mem_fall (hctl i (List.mem_cons_self ..)) c
      show c' ∈ p.codesThrough is (p.codesOutOf i {c}).fall ↔ _
      rw [(p.additive_codesThrough is).mem_iff hfall, carriesThrough_cons hs, codesOutOf_some hs]
      refine exists_congr fun d => and_congr Statement.mem_fall_iff (ih ?_ ?_)
      · exact fun j hj => hcode j (List.mem_cons_of_mem i hj)
      · exact fun j hj => hctl j (List.mem_cons_of_mem i hj)

end Program

namespace Cutting

variable {p : Program} {f : Flow} {k l s : Nat} {c c' : CondCode}

theorem dropLast_run_concat (c : Cutting) (s : Nat) :
    (c.run s).dropLast ++ [c.runEnd s] = c.run s :=
  List.dropLast_append_getLast? _ (getLast?_run s)

/-- Whatever a block holds is executable. -/
theorem isCode_of_mem_run (hp : p.WellFormed) (hs : (p.cut f).HeadAt k s) {i : Nat}
    (hi : i ∈ (p.cut f).run s) : p.isCode i = true :=
  hp.isCode_of_reached (reached_of_mem_run ((hs.isHead hp).reached hp) hi)

/-- The codes at the end of a run are those that its statements before the last carry there. -/
theorem mem_codesThrough_run (hp : p.WellFormed) (hs : (p.cut f).HeadAt k s) :
    c' ∈ p.codesThrough ((p.cut f).run s).dropLast {c} ↔
      p.CarriesThrough ((p.cut f).run s).dropLast c c' :=
  hp.mem_codesThrough (fun _ hi => isCode_of_mem_run hp hs ((List.dropLast_sublist _).subset hi))
    fun _ => not_isControl_of_mem_dropLast

/-- A code falls out of a block if it comes through all its statements. -/
theorem mem_fall_blockAt (hp : p.WellFormed) (hs : (p.cut f).HeadAt k s) :
    c' ∈ (((p.cut f).blockAt s).codesOut p {c}).fall ↔
      p.CarriesThrough ((p.cut f).run s) c c' := by
  obtain ⟨st, hst, -⟩ :=
    Program.test_eq_true.mp (isCode_of_mem_run hp hs (runEnd_mem_run s))
  rw [codesOut_blockAt, (p.additive_fall _).mem_iff (exists_mem_codesThrough_run hp s c),
    ← dropLast_run_concat, Program.carriesThrough_concat hst]
  simp only [mem_codesThrough_run hp hs, Program.codesOutOf_some hst, Statement.mem_fall_iff,
    dropLast_run_concat]

/-- A code is jumped away with if it comes to the last statement and that is left with it. -/
theorem mem_taken_blockAt (hp : p.WellFormed) (hs : (p.cut f).HeadAt k s) {st : Placed}
    (hst : p.statements[(p.cut f).runEnd s]? = some st) :
    c' ∈ (((p.cut f).blockAt s).codesOut p {c}).taken ↔
      p.CarriesThrough ((p.cut f).run s).dropLast c c' ∧ st.JumpsWith c' := by
  rw [codesOut_blockAt, (p.additive_taken _).mem_iff (exists_mem_codesThrough_run hp s c)]
  simp only [mem_codesThrough_run hp hs, Program.codesOutOf_some hst,
    (hp.sound hst).mem_taken_iff]
  constructor
  · rintro ⟨d, hd, rfl, hjumps⟩
    exact ⟨hd, hjumps⟩
  · rintro ⟨hc', hjumps⟩
    exact ⟨c', hc', rfl, hjumps⟩

end Cutting

/-! ## Steps from block to block -/

namespace CodeFlow

variable {p : Program} {blocks : Array Block} {roots roots' : List Nat}

/-- Where codes spread to does not depend on the order of the blocks that they spread from. -/
theorem entryOf_ofRoots_congr (h : ∀ k, k ∈ roots ↔ k ∈ roots') (k : Nat) :
    (ofRoots p blocks roots).entryOf k = (ofRoots p blocks roots').entryOf k := by
  have hentered : ∀ c, Entered p blocks roots k c ↔ Entered p blocks roots' k c := fun c =>
    ⟨Entered.mono fun l => (h l).mp, Entered.mono fun l => (h l).mpr⟩
  have hsome : ∀ {codes codes'}, (ofRoots p blocks roots).entryOf k = some codes →
      (ofRoots p blocks roots').entryOf k = some codes' → codes = codes' := by
    intro codes codes' hcodes hcodes'
    ext c
    rw [mem_entryOf_ofRoots hcodes, mem_entryOf_ofRoots hcodes', hentered]
  have hiff : (∃ codes, (ofRoots p blocks roots).entryOf k = some codes) ↔
      ∃ codes, (ofRoots p blocks roots').entryOf k = some codes := by
    rw [exists_entryOf_ofRoots, exists_entryOf_ofRoots]
    exact exists_congr hentered
  cases hk : (ofRoots p blocks roots).entryOf k with
  | some codes =>
      obtain ⟨codes', hcodes'⟩ := hiff.mp ⟨codes, hk⟩
      rw [hcodes', hsome hk hcodes']
  | none =>
      cases hk' : (ofRoots p blocks roots').entryOf k with
      | none => rfl
      | some codes =>
          obtain ⟨codes', hcodes'⟩ := hiff.mpr ⟨codes, hk'⟩
          rw [hk] at hcodes'
          cases hcodes'

end CodeFlow

namespace Program

variable {p : Program} {A : Arrivals} {k l : Nat} {b : Block} {c c' : CondCode}

/-- What jumps are known by depends on the entries only. -/
theorem arrivalsAfter_congr {blocks : Array Block} {g g' : CodeFlow}
    (h : ∀ k, g.entryOf k = g'.entryOf k) (before : Arrivals) :
    p.arrivalsAfter blocks g before = p.arrivalsAfter blocks g' before := by
  simp only [arrivalsAfter, h]

/-- The blocks of the routines are those that their entries stand in. -/
theorem filterMap_block_subroutinesOf (places : Array (Option Nat)) (pairs : List (Nat × Nat))
    (rs : List Root) :
    (subroutinesOf places pairs rs).filterMap Subroutine.block =
      rs.filterMap fun r => places[r.entry]?.join := by
  induction rs with
  | nil => rfl
  | cons r rs ih => rw [subroutinesOf, List.filterMap_cons, List.filterMap_cons, ih]

/-- Codes spread from the first blocks of the routines. -/
theorem filterMap_block_round (p : Program) (A : Arrivals) :
    (p.round A).subroutines.filterMap Subroutine.block = p.rootBlocks (p.flow A) :=
  filterMap_block_subroutinesOf _ _ _

theorem exists_headAt_round (hb : (p.round A).blocks[k]? = some b) :
    ∃ s, (p.cut (p.flow A)).HeadAt k s ∧ b = (p.cut (p.flow A)).blockAt s :=
  Cutting.getElem?_blocks.mp hb

/-- What a block sends goes on in a step of a run. -/
theorem WellFormed.sends_round (hp : p.WellFormed) (hb : (p.round A).blocks[k]? = some b) :
    b.Sends p {c} l c' ↔ (p.round A).CodeStep p (k, c) (l, c') := by
  obtain ⟨s, hs, rfl⟩ := exists_headAt_round hb
  obtain ⟨st, hst, -⟩ :=
    test_eq_true.mp (Cutting.isCode_of_mem_run hp hs (Cutting.runEnd_mem_run s))
  rw [Block.Sends, Cutting.mem_fall_blockAt hp hs, Cutting.mem_taken_blockAt hp hs hst]
  constructor
  · rintro (⟨hl, hc', hjumps⟩ | ⟨hl, hc'⟩)
    · exact .branch hb hl (Cutting.getLast?_run s) hst hc' hjumps
    · exact .next hb hl hc'
  · intro hstep
    cases hstep with
    | next hb' way through =>
        rw [hb, Option.some.injEq] at hb'
        subst hb'
        exact Or.inr ⟨way, through⟩
    | branch hb' way last at_i through jumps =>
        rw [hb, Option.some.injEq] at hb'
        subst hb'
        obtain rfl := Option.some.inj ((Cutting.getLast?_run s).symm.trans last)
        rw [hst, Option.some.injEq] at at_i
        exact Or.inl ⟨way, through, at_i ▸ jumps⟩

/-- Runs stay within the blocks. -/
theorem WellFormed.lt_of_codeStep (hp : p.WellFormed) {x y : Nat × CondCode}
    (h : (p.round A).CodeStep p x y) : y.1 < (p.round A).blocks.size := by
  have hlinked := Cutting.linked_blocks (f := p.flow A) hp
  cases h with
  | next hb way _ => exact hlinked.succs hb _ (by simp [Block.succs, way])
  | branch hb way _ _ _ _ => exact hlinked.succs hb _ (by simp [Block.succs, way])

/-- The codes that spread to a block are those with which runs enter it. -/
theorem WellFormed.entered_round (hp : p.WellFormed) :
    p.Enters (p.flow A) k c ↔ (p.round A).EnteredWith p k c := by
  constructor
  · intro h
    induction h with
    | root hk _ =>
        rw [← filterMap_block_round, List.mem_filterMap] at hk
        obtain ⟨s, hs, hblock⟩ := hk
        exact ⟨s, hs, _, _, hblock, .refl⟩
    | sent _ hb hsend _ ih =>
        obtain ⟨s, hs, k₀, c₀, hblock, hpath⟩ := ih
        exact ⟨s, hs, k₀, c₀, hblock, hpath.tail ((hp.sends_round hb).mp hsend)⟩
  · rintro ⟨s, hs, k₀, c₀, hblock, hpath⟩
    have hroot : k₀ ∈ p.rootBlocks (p.flow A) := by
      rw [← filterMap_block_round, List.mem_filterMap]
      exact ⟨s, hs, hblock⟩
    -- the induction is over pairs of a block and a code
    suffices h : ∀ x, ReflTransGen ((p.round A).CodeStep p) (k₀, c₀) x →
        p.Enters (p.flow A) x.1 x.2 from h (k, c) hpath
    intro x hx
    induction hx with
    | refl => exact .root hroot (hp.lt_of_mem_rootBlocks hroot)
    | @tail y z _ hstep ih =>
        obtain ⟨b, hb⟩ : ∃ b, (p.round A).blocks[y.1]? = some b := by
          cases hstep with
          | next hb _ _ => exact ⟨_, hb⟩
          | branch hb _ _ _ _ _ => exact ⟨_, hb⟩
        exact .sent ih hb ((hp.sends_round hb).mpr hstep) (hp.lt_of_codeStep hstep)

/-! ## What a round records -/

/-- The codes at the start of a block are those with which runs enter it, -/
theorem WellFormed.mem_codesBefore (hp : p.WellFormed) :
    c ∈ (p.round A).codesBefore k ↔ (p.round A).EnteredWith p k c := by
  rw [← hp.entered_round, Round.codesBefore]
  cases hk : (p.round A).codeFlow.entryOf k with
  | none =>
      refine ⟨fun hc => absurd hc (EnumSet.not_mem_empty c), fun hc => ?_⟩
      obtain ⟨codes, hcodes⟩ := CodeFlow.exists_entryOf_ofRoots.mpr ⟨c, hc⟩
      exact absurd (hk.symm.trans hcodes) nofun
  | some codes => exact CodeFlow.mem_entryOf_ofRoots hk

/-- A block is marked as entered exactly if some run reaches it. -/
theorem WellFormed.entered_mem_marksOf (hp : p.WellFormed) (hb : (p.round A).blocks[k]? = some b) :
    BlockMark.entered ∈ (p.round A).marksOf p k ↔ ∃ c, (p.round A).EnteredWith p k c := by
  have hentry : BlockMark.entered ∈ (p.round A).marksOf p k ↔
      ∃ codes, (p.round A).codeFlow.entryOf k = some codes := by
    simp [Round.marksOf, hb, Option.isSome_iff_exists]
  rw [hentry]
  exact CodeFlow.exists_entryOf_ofRoots.trans (exists_congr fun c => hp.entered_round)

/-- and the codes after it are those with which runs are through with it. -/
theorem WellFormed.mem_codesAfter (hp : p.WellFormed) (hb : (p.round A).blocks[k]? = some b) :
    c' ∈ (p.round A).codesAfter p k ↔
      ∃ c, (p.round A).EnteredWith p k c ∧ p.CarriesThrough b.statements c c' := by
  obtain ⟨s, hs, rfl⟩ := exists_headAt_round hb
  simp only [← hp.mem_codesBefore]
  rw [Round.codesAfter, Round.codesBefore, hb]
  cases hk : (p.round A).codeFlow.entryOf k with
  | none => simp
  | some codes =>
      obtain ⟨d, hd⟩ := CodeFlow.exists_entryOf_ofRoots.mp ⟨codes, hk⟩
      have hne : ∃ d, d ∈ codes := ⟨d, (CodeFlow.mem_entryOf_ofRoots hk).mpr hd⟩
      show c' ∈ (((p.cut (p.flow A)).blockAt s).codesOut p codes).fall ↔ _
      rw [(Block.additive_fall p _).mem_iff hne]
      exact exists_congr fun c => and_congr_right fun _ => Cutting.mem_fall_blockAt hp hs

/-- The codes that arrive at the end of a block are those that the recorded ones lead to. -/
theorem WellFormed.arrives_last (hp : p.WellFormed) (hb : (p.round A).blocks[k]? = some b) {i : Nat}
    (hlast : b.statements.getLast? = some i) :
    p.Arrives (p.flow A) i c ↔
      ∃ d ∈ (p.round A).codesBefore k, p.CarriesThrough b.statements.dropLast d c := by
  obtain ⟨s, hs, rfl⟩ := exists_headAt_round hb
  obtain rfl := Option.some.inj ((Cutting.getLast?_run s).symm.trans hlast)
  rw [Cutting.arrives_runEnd_iff hp (hp.allows_flow A) hs]
  refine exists_congr fun d => and_congr ?_ (Cutting.mem_codesThrough_run hp hs)
  rw [hp.mem_codesBefore, hp.entered_round]

/-- Some code arrives at the end of a block exactly if some run reaches the block. -/
theorem WellFormed.exists_arrives_last (hp : p.WellFormed)
    (hb : (p.round A).blocks[k]? = some b) {i : Nat} (hlast : b.statements.getLast? = some i) :
    (∃ c, p.Arrives (p.flow A) i c) ↔ BlockMark.entered ∈ (p.round A).marksOf p k := by
  obtain ⟨s, hs, rfl⟩ := exists_headAt_round hb
  simp only [hp.arrives_last hb hlast, hp.entered_mem_marksOf hb, hp.mem_codesBefore]
  constructor
  · rintro ⟨c, d, hd, -⟩
    exact ⟨d, hd⟩
  · rintro ⟨d, hd⟩
    obtain ⟨c, hc⟩ := Cutting.exists_mem_codesThrough_run (f := p.flow A) hp s d
    exact ⟨c, d, hd, (Cutting.mem_codesThrough_run hp hs).mp hc⟩

/-- Nothing is known about a jump that no code arrives at. -/
theorem Justified.verdictOf_of_not_arrives (hp : p.WellFormed) (h : p.Justified A) {i : Nat}
    {test : CodeSet} (htest : p.Tests i test) (hno : ¬ ∃ c, p.Arrives (p.flow A) i c) :
    p.verdictOf (p.round A).arrivals i = {} := by
  have hsame : (p.round A).arrivals[i]? = A[i]? := by
    rw [arrivals_round]
    exact arrivalsAfter_of_not_arrives hp (hp.allows_flow A) fun h' => hno h'.2
  obtain ⟨s, hs, hb⟩ := htest
  rw [verdictOf_some hs, hsame]
  cases hi : A[i]?.join with
  | none => simp only [Statement.verdict, hb]
  | some codes =>
      obtain ⟨-, ⟨c, hc⟩, -⟩ := h.known (Option.join_eq_some_iff.mp hi)
      exact absurd ⟨c, (h.arrives_iff hp).mpr hc⟩ hno

/-- The routines of a round may be taken in any order. -/
theorem entryOf_ofRoots_perm {roots : List Nat}
    (h : roots.Perm ((p.round A).subroutines.filterMap Subroutine.block)) (k : Nat) :
    (CodeFlow.ofRoots p (p.round A).blocks roots).entryOf k = (p.round A).codeFlow.entryOf k := by
  rw [filterMap_block_round] at h
  exact CodeFlow.entryOf_ofRoots_congr (fun _ => h.mem_iff) k

/-- A round that starts from justified knowledge records about codes what its runs do. -/
theorem Justified.collectsCodes (hp : p.WellFormed) (h : p.Justified A) :
    (p.round A).CollectsCodes p A where
  entered := hp.entered_mem_marksOf
  initial _ _ := hp.mem_codesBefore
  final hb _ := hp.mem_codesAfter hb
  judged hb hlast htest hentered := by
    obtain ⟨codes, hi, hmem⟩ := arrivalsAfter_of_arrives hp (hp.allows_flow A) h.size htest
      ((hp.exists_arrives_last hb hlast).mpr hentered)
    exact hp.judges htest hi fun c => (hmem c).trans (hp.arrives_last hb hlast)
  unjudged hb hlast htest hno :=
    h.verdictOf_of_not_arrives hp htest fun harr => hno ((hp.exists_arrives_last hb hlast).mp harr)
  anyOrder _ hperm :=
    ⟨entryOf_ofRoots_perm hperm, arrivalsAfter_congr (entryOf_ofRoots_perm hperm) A⟩
  onTheWay roots hperm := by
    have hends : Block.EndApart p (p.round A).blocks :=
      Cutting.endApart_blocks hp (hp.allows_flow A)
    rw [JudgedFlow.ofRoots_eq hp hends h.size roots, JudgedFlow.byEntries,
      arrivalsAfter_congr (entryOf_ofRoots_perm hperm)]
    rfl

/-- What is known about the jumps before a round is justified. -/
theorem WellFormed.justified_arrivalsBefore (hp : p.WellFormed) (n : Nat) :
    p.Justified (p.arrivalsBefore n) := by
  induction n with
  | zero => exact p.justified_noArrivals
  | succ n ih =>
      have hround := (ih.round hp).toJustified
      rw [round_arrivalsBefore] at hround
      exact hround

end Program

namespace Analysis

/-- The pass for codes collects what runs do: for every source text and all usable settings, the
    states of the analysis are rounds of its program, and after every round the blocks that are
    marked as entered, the codes at their starts and ends and the verdicts on their conditional
    jumps are those of the runs along the links of the round, in whatever order the routines are
    taken and however often a jump is judged on the way. -/
theorem codes_collected (source : String) (config : Config) (hvalid : config.validate = .ok ()) :
    ∃ a, ofSource source config = .ok a ∧
      (∀ m, ∃ n, (a.rerun m).rounds = n + 1 ∧ (a.rerun m).last = a.program.roundAfter n) ∧
      ∀ n, (a.program.roundAfter n).CollectsCodes a.program (a.program.arrivalsBefore n) := by
  refine ⟨ofText source config, ofSource_eq_ok hvalid, ?_, ?_⟩
  · intro m
    obtain ⟨n, hcount, -, hlast⟩ := exists_last_eq_roundAfter source config m
    exact ⟨n, hcount, hlast⟩
  · intro n
    have hp := Program.wellFormed_assemble source.toList config
    have h := (hp.justified_arrivalsBefore n).collectsCodes hp
    rw [Program.round_arrivalsBefore] at h
    exact h

/-- A block that is jumped to with one code, and that control falls into with any. -/
def enteredTwice : String :=
  "jz x\ndecl %ecx\nx: jz x\nret\n"

theorem enteredTwice_text {a : Analysis} (ha : a = ofText enteredTwice {}) :
    ((a.program.roundAfter 0).blocks[2]?).map Block.statements = some [2] ∧
      (a.program.roundAfter 0).codesBefore 2 = EnumSet.full ∧
      (a.program.statements[2]?).bind (·.branch) = some (.conditional {.zero}) := by
  subst ha
  decide +kernel

/-- Runs enter the block with every code, and so its jump is not held to be always taken. -/
theorem enteredTwice_collected :
    ({} : Config).validate = .ok () ∧
      ∃ a, ofSource enteredTwice {} = .ok a ∧
        (∀ c, (a.program.roundAfter 0).EnteredWith a.program 2 c) ∧
        ¬ Flag.alwaysTaken ∈ (a.program.roundAfter 0).flagsOf a.program 2 := by
  refine ⟨rfl, ?_⟩
  obtain ⟨a, ha, -, hcollects⟩ := codes_collected enteredTwice {} rfl
  obtain rfl := Except.ok.inj ((ofSource_eq_ok rfl).symm.trans ha)
  obtain ⟨hblock, hfull, hbranch⟩ := enteredTwice_text rfl
  obtain ⟨b, hb, hstatements⟩ := Option.map_eq_some_iff.mp hblock
  have hcodes : ∀ c, c ∈ ((ofText enteredTwice {}).program.roundAfter 0).codesBefore 2 := by
    rw [hfull]
    exact EnumSet.mem_full
  have hruns := fun c => ((hcollects 0).initial hb c).mp (hcodes c)
  have hjudges := (hcollects 0).judged hb (by rw [hstatements]; rfl)
    (Option.bind_eq_some_iff.mp hbranch) (((hcollects 0).entered hb).mpr ⟨_, hruns .zero⟩)
  refine ⟨_, ha, hruns, fun halways => ?_⟩
  have hzero := hjudges.always.mp halways .negative
    ⟨.negative, hcodes _, by rw [hstatements]; exact .nil⟩
  exact absurd hzero (by decide)

end Analysis

end AsmCheck
