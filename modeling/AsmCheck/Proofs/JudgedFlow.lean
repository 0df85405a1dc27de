import AsmCheck.Proofs.CodeFlow

/-! # Judging jumps while codes spread

    A round spreads codes until no entry of a block widens any more, and then
    judges each conditional jump once, by the final entries.  The jumps can as
    well be judged on the way (`JudgedFlow.spread`): whenever the entry of a
    block widens, its statements are gone through one by one, and the verdict
    on a conditional jump among them is replaced by one on the codes at hand.
    At every moment the verdicts are then those by the entries of that moment
    (`verdicts_passage`), so that at the end both have said the same
    (`JudgedFlow.ofRoots_eq`).

    What is said on the way about one jump must not be overwritten when some
    other block is gone through.  So only the last statement of a block may
    transfer control, and no two blocks may end with the same statement
    (`Block.EndApart`); the blocks of a round are like that
    (`Cutting.endApart_blocks`). -/

namespace AsmCheck

open CodeFlow (widen)

/-! ## The pass -/

/-- What is known on the way through a block: the codes that go on, the codes that were jumped away
    with last, and what has been said about all statements so far. -/
structure Passage extends CodesOut where
  verdicts : Array Verdict

namespace Program

/-- One statement further on the way through a block.  What jumps away stays known behind it. -/
def passOver (p : Program) (w : Passage) (i : Nat) : Passage :=
  match p.statements[i]? with
  | none => w
  | some s =>
    if s.setsCodes then { w with fall := EnumSet.full }
    else
      match s.branch with
      | some (.conditional test) =>
        { fall := w.fall \ test
          taken := w.fall ∩ test
          verdicts := w.verdicts.setIfInBounds i (.ofTest test w.fall) }
      | some .jump | some .untracked => { w with taken := w.fall }
      | some .call => { w with fall := EnumSet.full, taken := w.fall }
      | none => w

/-- What can be said about all statements, given the codes that jumps are known by. -/
def verdictsOf (p : Program) (arrivals : Arrivals) : Array Verdict :=
  (Array.range p.statements.size).map (p.verdictOf arrivals)

end Program

/-- The way through a whole block that is entered with `codes`. -/
def Block.passage (p : Program) (b : Block) (codes : CodeSet) (verdicts : Array Verdict) :
    Passage :=
  b.statements.foldl p.passOver { fall := codes, taken := ∅, verdicts }

/-- The codes with which blocks can be entered, and what has been said about all statements. -/
structure JudgedFlow where
  flow : CodeFlow
  verdicts : Array Verdict

namespace JudgedFlow

/-- Spreads codes along the blocks until nothing new turns up, and judges the jumps of a block
    whenever its entry widens. -/
def spread (p : Program) (blocks : Array Block) (j : JudgedFlow) :
    List (Nat × CodeSet) → JudgedFlow
  | [] => j
  | (b, codes) :: rest =>
    match _hb : j.flow.entries[b]? with
    | none => spread p blocks j rest
    | some old =>
      if old = some (widen old codes) then spread p blocks j rest
      else
        match blocks[b]? with
        | none => spread p blocks { j with flow := j.flow.record b (widen old codes) } rest
        | some block =>
          let w := block.passage p (widen old codes) j.verdicts
          spread p blocks { flow := j.flow.record b (widen old codes), verdicts := w.verdicts }
            (block.ways w.toCodesOut ++ rest)
termination_by work => 3 * j.flow.totalRoom 4 + work.length
decreasing_by
  · exact Nat.lt_succ_self _
  · exact Nat.lt_succ_self _
  · have hunmade : 3 - (widen none codes).size < 4 := by omega
    have hroom := CodeFlow.totalRoom_record_lt hunmade (by assumption) (by assumption)
    rw [List.length_cons]
    omega
  · have hunmade : 3 - (widen none codes).size < 4 := by omega
    have hroom := CodeFlow.totalRoom_record_lt hunmade (by assumption) (by assumption)
    have hways := block.length_ways_le
      (block.passage p (widen old codes) j.verdicts).toCodesOut
    rw [List.length_append, List.length_cons]
    omega

/-- Spreads codes from the given blocks, one after the other, each entered with any code. -/
def ofRoots (p : Program) (blocks : Array Block) (roots : List Nat) (verdicts : Array Verdict) :
    JudgedFlow :=
  roots.foldl (fun j b => spread p blocks j [(b, EnumSet.full)])
    { flow := CodeFlow.unentered blocks.size, verdicts }

end JudgedFlow

/-! ## One block -/

/-- Only the last statement of a block transfers control, and no two blocks end with the same. -/
structure Block.EndApart (p : Program) (blocks : Array Block) : Prop where
  control : ∀ {k : Nat} {b : Block}, blocks[k]? = some b →
    ∀ i ∈ b.statements.dropLast, p.test (·.isControl) i = false
  apart : ∀ {k l i : Nat} {b c : Block}, blocks[k]? = some b → blocks[l]? = some c →
    b.statements.getLast? = some i → c.statements.getLast? = some i → k = l

/-- The blocks of a round end apart. -/
theorem Cutting.endApart_blocks {p : Program} {f : Flow} (hp : p.WellFormed) (hf : p.Allows f) :
    Block.EndApart p (p.cut f).blocks where
  control hb i hi := by
    obtain ⟨s, -, rfl⟩ := getElem?_blocks.mp hb
    exact not_isControl_of_mem_dropLast hi
  apart hk hl hi hi' := by
    obtain ⟨s, hs, rfl⟩ := getElem?_blocks.mp hk
    obtain ⟨t, ht, rfl⟩ := getElem?_blocks.mp hl
    obtain rfl := head_unique hp hf (hs.isHead hp) (ht.isHead hp) (List.mem_of_getLast? hi)
      (List.mem_of_getLast? hi')
    exact hs.number_unique hp ht

namespace Program

variable {p : Program} {w : Passage} {i : Nat} {test : CodeSet}

/-- A statement that transfers no control changes no more than the codes that go on. -/
theorem WellFormed.passOver_of_not_isControl (hp : p.WellFormed)
    (hctl : p.test (·.isControl) i = false) (w : Passage) :
    p.passOver w i = { w with fall := (p.codesOutOf i w.fall).fall } := by
  cases hs : p.statements[i]? with
  | none => rw [passOver, hs, codesOutOf_none hs]
  | some s =>
      rw [test, hs, Option.any_some, ← (hp.sound hs).isSome_branch, Option.isSome_eq_false_iff,
        Option.isNone_iff_eq_none] at hctl
      rw [passOver, hs, codesOutOf_some hs, Statement.codesOut]
      dsimp only
      rw [hctl]
      by_cases hsets : s.setsCodes = true
      · rw [if_pos hsets, if_pos hsets]
      · rw [if_neg hsets, if_neg hsets]

/-- Nor do several of them. -/
theorem WellFormed.foldl_passOver (hp : p.WellFormed) {is : List Nat}
    (hctl : ∀ i ∈ is, p.test (·.isControl) i = false) (w : Passage) :
    is.foldl p.passOver w = { w with fall := p.codesThrough is w.fall } := by
  induction is generalizing w with
  | nil => rfl
  | cons i is ih =>
      obtain ⟨hi, his⟩ := List.forall_mem_cons.mp hctl
      rw [List.foldl_cons, hp.passOver_of_not_isControl hi, ih his]
      rfl

/-- If nothing has been jumped away from before, the codes behind a statement are those with which
    control leaves it. -/
theorem toCodesOut_passOver (htaken : w.taken = ∅) :
    (p.passOver w i).toCodesOut = p.codesOutOf i w.fall := by
  cases hs : p.statements[i]? with
  | none => rw [passOver, hs, codesOutOf_none hs, ← htaken]
  | some s =>
      rw [passOver, hs, codesOutOf_some hs, Statement.codesOut]
      dsimp only
      by_cases hsets : s.setsCodes = true
      · rw [if_pos hsets, if_pos hsets, ← htaken]
      · rw [if_neg hsets, if_neg hsets]
        cases hb : s.branch with
        | none => rw [← htaken]
        | some b => cases b <;> rfl

/-- A conditional jump is judged by the codes at hand. -/
theorem WellFormed.verdicts_passOver (hp : p.WellFormed) (h : p.Tests i test) :
    (p.passOver w i).verdicts = w.verdicts.setIfInBounds i (.ofTest test w.fall) := by
  obtain ⟨s, hs, hb⟩ := h
  rw [passOver, hs]
  dsimp only
  rw [(hp.sound hs).keeps_of_branch hb, hb]
  rfl

/-- About anything else nothing is said. -/
theorem verdicts_passOver_of_not_tests (h : ∀ test, ¬ p.Tests i test) :
    (p.passOver w i).verdicts = w.verdicts := by
  cases hs : p.statements[i]? with
  | none => rw [passOver, hs]
  | some s =>
      rw [passOver, hs]
      dsimp only
      by_cases hsets : s.setsCodes = true
      · rw [if_pos hsets]
      · rw [if_neg hsets]
        cases hb : s.branch with
        | none => rfl
        | some b =>
            cases b with
            | conditional test => exact absurd ⟨s, hs, hb⟩ (h test)
            | jump => rfl
            | untracked => rfl
            | call => rfl

end Program

namespace Block

variable {p : Program} {b : Block} {i : Nat} {test : CodeSet}

/-- The way through a block is straight up to its last statement. -/
theorem passage_eq (hp : p.WellFormed)
    (hctl : ∀ i ∈ b.statements.dropLast, p.test (·.isControl) i = false)
    (hlast : b.statements.getLast? = some i) (codes : CodeSet) (verdicts : Array Verdict) :
    b.passage p codes verdicts =
      p.passOver { fall := b.codesAtEnd p codes, taken := ∅, verdicts } i := by
  have hsplit : b.statements.dropLast ++ [i] = b.statements :=
    List.dropLast_append_getLast? i hlast
  rw [passage, ← hsplit, List.foldl_append, hp.foldl_passOver hctl]
  rfl

/-- Going through a block statement by statement, control leaves it with the same codes. -/
theorem toCodesOut_passage (hp : p.WellFormed)
    (hctl : ∀ i ∈ b.statements.dropLast, p.test (·.isControl) i = false) (codes : CodeSet)
    (verdicts : Array Verdict) :
    (b.passage p codes verdicts).toCodesOut = b.codesOut p codes := by
  rw [codesOut]
  cases hlast : b.statements.getLast? with
  | none => rw [passage, List.getLast?_eq_none_iff.mp hlast]; rfl
  | some i => rw [passage_eq hp hctl hlast]; exact Program.toCodesOut_passOver rfl

end Block

/-! ## One entry -/

namespace CodeFlow

variable {f : CodeFlow} {k l : Nat} {codes : CodeSet}

theorem entryOf_record (hk : k < f.entries.size) : (f.record k codes).entryOf k = some codes := by
  rw [entryOf, record, Array.getElem?_setIfInBounds, if_pos rfl, if_pos hk]
  rfl

/-- Other entries stay as they are. -/
theorem entryOf_record_of_ne (h : k ≠ l) : (f.record k codes).entryOf l = f.entryOf l := by
  rw [entryOf, record, Array.getElem?_setIfInBounds, if_neg h]
  rfl

end CodeFlow

namespace Program

variable {p : Program} {blocks : Array Block} {before : Arrivals} {f g : CodeFlow} {i k : Nat}
  {b : Block} {codes test : CodeSet}

theorem getElem?_verdictsOf (p : Program) (arrivals : Arrivals) (i : Nat) :
    (p.verdictsOf arrivals)[i]? =
      if i < p.statements.size then some (p.verdictOf arrivals i) else none := by
  rw [verdictsOf, Array.getElem?_map, Array.getElem?_range]
  split <;> rfl

/-- A jump that becomes known by other codes is judged by these. -/
theorem verdictsOf_setIfInBounds (htest : p.Tests i test) {arrivals : Arrivals}
    (hsize : arrivals.size = p.statements.size) :
    p.verdictsOf (arrivals.setIfInBounds i (some codes)) =
      (p.verdictsOf arrivals).setIfInBounds i (.ofTest test codes) := by
  obtain ⟨s, hs, hb⟩ := htest
  have hi : i < p.statements.size := (Array.getElem?_eq_some_iff.mp hs).1
  have htable : (p.verdictsOf arrivals).size = p.statements.size := by
    rw [verdictsOf, Array.size_map, Array.size_range]
  refine Array.ext_getElem? fun j => ?_
  rw [Array.getElem?_setIfInBounds, htable, getElem?_verdictsOf, getElem?_verdictsOf]
  by_cases hij : i = j
  · subst hij
    rw [if_pos hi, if_pos rfl, if_pos hi, verdictOf_some hs, Array.getElem?_setIfInBounds,
      if_pos rfl, if_pos (hsize ▸ hi)]
    simp only [Option.join_some, Statement.verdict, hb]
  · rw [if_neg hij, verdictOf, verdictOf, Array.getElem?_setIfInBounds, if_neg hij]

/-- The jump at the end of an entered block is known by the codes that the entry leads to. -/
theorem arrivalsAfter_of_entryOf (hends : Block.EndApart p blocks) (hi : i < before.size)
    (hb : blocks[k]? = some b) (hlast : b.statements.getLast? = some i) (htest : p.Tests i test)
    (hentry : f.entryOf k = some codes) :
    (p.arrivalsAfter blocks f before)[i]? = some (some (b.codesAtEnd p codes)) := by
  have hmem : (b, k) ∈ blocks.toList.zipIdx := by
    rw [List.mem_zipIdx_iff_getElem?, Array.getElem?_toList]
    exact hb
  have hreport : i ∈ p.reports f (b, k) := mem_reports.mpr ⟨hlast, ⟨codes, hentry⟩, test, htest⟩
  rw [arrivalsAfter_eq]
  refine getElem?_foldl_setAll_of_mem hi ⟨(b, k), hmem, hreport⟩ ?_
  -- no other block reports on the jump
  rintro ⟨c, l⟩ hc hreport'
  rw [List.mem_zipIdx_iff_getElem?, Array.getElem?_toList] at hc
  obtain rfl := hends.apart hb hc hlast (mem_reports.mp hreport').1
  obtain rfl := Option.some.inj (hb.symm.trans hc)
  rw [hentry]
  rfl

/-- A statement that ends no entered block, or is no conditional jump, is known by the codes that it
    was known by before. -/
theorem arrivalsAfter_of_no_entry (h : ∀ {k b test}, blocks[k]? = some b →
      b.statements.getLast? = some i → p.Tests i test → f.entryOf k = none) :
    (p.arrivalsAfter blocks f before)[i]? = before[i]? := by
  rw [arrivalsAfter_eq]
  refine getElem?_foldl_setAll_of_not_mem ?_
  rintro ⟨b, k⟩ hb hreport
  rw [List.mem_zipIdx_iff_getElem?, Array.getElem?_toList] at hb
  obtain ⟨hlast, ⟨codes, hentry⟩, test, htest⟩ := mem_reports.mp hreport
  rw [h hb hlast htest] at hentry
  cases hentry

/-- What a statement is known by depends on the entry of the block that it ends, and on no other. -/
theorem arrivalsAfter_frame (hends : Block.EndApart p blocks)
    (h : ∀ {k b test}, blocks[k]? = some b → b.statements.getLast? = some i → p.Tests i test →
      g.entryOf k = f.entryOf k) :
    (p.arrivalsAfter blocks g before)[i]? = (p.arrivalsAfter blocks f before)[i]? := by
  by_cases hi : i < before.size
  · by_cases hentered : ∃ k b test codes, blocks[k]? = some b ∧
        b.statements.getLast? = some i ∧ p.Tests i test ∧ f.entryOf k = some codes
    · obtain ⟨k, b, test, codes, hb, hlast, htest, hentry⟩ := hentered
      rw [arrivalsAfter_of_entryOf hends hi hb hlast htest hentry,
        arrivalsAfter_of_entryOf hends hi hb hlast htest ((h hb hlast htest).trans hentry)]
    · have hnone : ∀ {k b test}, blocks[k]? = some b → b.statements.getLast? = some i →
          p.Tests i test → f.entryOf k = none := by
        intro k b test hb hlast htest
        cases hentry : f.entryOf k with
        | none => rfl
        | some codes => exact absurd ⟨k, b, test, codes, hb, hlast, htest, hentry⟩ hentered
      rw [arrivalsAfter_of_no_entry hnone, arrivalsAfter_of_no_entry fun hb hlast htest =>
        (h hb hlast htest).trans (hnone hb hlast htest)]
  · have hout : ∀ g : CodeFlow, (p.arrivalsAfter blocks g before)[i]? = none := by
      intro g
      refine Array.getElem?_eq_none ?_
      rw [size_arrivalsAfter]
      exact Nat.le_of_not_lt hi
    rw [hout, hout]

/-- Widening the entry of a block that ends with a conditional jump changes what this jump is known
    by, and nothing else. -/
theorem arrivalsAfter_record (hends : Block.EndApart p blocks)
    (hsize : before.size = p.statements.size) (hk : k < f.entries.size)
    (hb : blocks[k]? = some b) (hlast : b.statements.getLast? = some i) (htest : p.Tests i test) :
    p.arrivalsAfter blocks (f.record k codes) before =
      (p.arrivalsAfter blocks f before).setIfInBounds i (some (b.codesAtEnd p codes)) := by
  have hi : i < before.size := by
    obtain ⟨s, hs, -⟩ := htest
    rw [hsize]
    exact (Array.getElem?_eq_some_iff.mp hs).1
  refine Array.ext_getElem? fun j => ?_
  rw [Array.getElem?_setIfInBounds, size_arrivalsAfter]
  by_cases hij : i = j
  · subst hij
    rw [if_pos rfl, if_pos hi]
    exact arrivalsAfter_of_entryOf hends hi hb hlast htest (CodeFlow.entryOf_record hk)
  · rw [if_neg hij]
    refine arrivalsAfter_frame hends fun {l c _} hc hlast' _ => CodeFlow.entryOf_record_of_ne ?_
    rintro rfl
    obtain rfl := Option.some.inj (hb.symm.trans hc)
    exact hij (Option.some.inj (hlast.symm.trans hlast'))

/-- Widening the entry of any other block changes nothing. -/
theorem arrivalsAfter_record_of_not_tests (hends : Block.EndApart p blocks)
    (h : ∀ {b i test}, blocks[k]? = some b → b.statements.getLast? = some i → ¬ p.Tests i test) :
    p.arrivalsAfter blocks (f.record k codes) before = p.arrivalsAfter blocks f before := by
  refine Array.ext_getElem? fun j => ?_
  refine arrivalsAfter_frame hends fun {l c _} hc hlast htest => CodeFlow.entryOf_record_of_ne ?_
  rintro rfl
  exact h hc hlast htest

/-- Whoever goes through a block whose entry has widened says what the entries then say. -/
theorem WellFormed.verdicts_passage (hp : p.WellFormed) (hends : Block.EndApart p blocks)
    (hsize : before.size = p.statements.size) (hk : k < f.entries.size)
    (hb : blocks[k]? = some b) (codes : CodeSet) :
    (b.passage p codes (p.verdictsOf (p.arrivalsAfter blocks f before))).verdicts =
      p.verdictsOf (p.arrivalsAfter blocks (f.record k codes) before) := by
  cases hlast : b.statements.getLast? with
  | none =>
      rw [arrivalsAfter_record_of_not_tests hends, Block.passage,
        List.getLast?_eq_none_iff.mp hlast]
      · rfl
      · intro c i test hc hi
        obtain rfl := Option.some.inj (hb.symm.trans hc)
        rw [hlast] at hi
        cases hi
  | some i =>
      rw [Block.passage_eq hp (hends.control hb) hlast]
      by_cases htests : ∃ test, p.Tests i test
      · obtain ⟨test, htest⟩ := htests
        rw [hp.verdicts_passOver htest, arrivalsAfter_record hends hsize hk hb hlast htest,
          verdictsOf_setIfInBounds htest ((size_arrivalsAfter ..).trans hsize)]
      · rw [verdicts_passOver_of_not_tests (not_exists.mp htests),
          arrivalsAfter_record_of_not_tests hends]
        intro c j test hc hj htest
        obtain rfl := Option.some.inj (hb.symm.trans hc)
        obtain rfl := Option.some.inj (hlast.symm.trans hj)
        exact htests ⟨test, htest⟩

end Program

/-! ## The whole pass -/

namespace JudgedFlow

variable {p : Program} {blocks : Array Block} {before : Arrivals}

/-- What the entries say, if jumps that they say nothing about are known by `before`. -/
def byEntries (p : Program) (blocks : Array Block) (before : Arrivals) (f : CodeFlow) :
    JudgedFlow where
  flow := f
  verdicts := p.verdictsOf (p.arrivalsAfter blocks f before)

/-- Whatever has been said up to some moment is what the entries of that moment say. -/
theorem spread_byEntries (hp : p.WellFormed) (hends : Block.EndApart p blocks)
    (hsize : before.size = p.statements.size) (f : CodeFlow) (work : List (Nat × CodeSet)) :
    spread p blocks (byEntries p blocks before f) work =
      byEntries p blocks before (CodeFlow.spread p blocks f work) := by
  induction f, work using CodeFlow.spread_induction p blocks with
  | done f => rw [spread, CodeFlow.spread]
  | skip f k codes work hold ih =>
      rw [CodeFlow.spread_skip hold, ← ih, spread]
      split
      · rfl
      · next old hk => rw [if_pos (hold hk)]
  | grow f k codes work old hk hnew ih =>
      rw [CodeFlow.spread_grow hk hnew, ← ih, spread]
      split
      · next hk' =>
        rw [show f.entries[k]? = none from hk'] at hk
        cases hk
      · next old' hk' =>
        obtain rfl := Option.some.inj (hk.symm.trans hk')
        rw [if_neg hnew]
        cases hb : blocks[k]? with
        | none =>
            have hsame : byEntries p blocks before (f.record k (widen old codes)) =
                { byEntries p blocks before f with flow := f.record k (widen old codes) } := by
              rw [byEntries, Program.arrivalsAfter_record_of_not_tests hends]
              · rfl
              · intro b i test hb'
                rw [hb] at hb'
                cases hb'
            rw [hsame]
            rfl
        | some b =>
            have hlt := (Array.getElem?_eq_some_iff.mp hk).1
            have hout := Block.toCodesOut_passage hp (hends.control hb) (widen old codes)
              (byEntries p blocks before f).verdicts
            have hverdicts := hp.verdicts_passage hends hsize hlt hb (widen old codes)
            dsimp only
            rw [hout]
            exact congrArg (fun v => spread p blocks ⟨_, v⟩ _) hverdicts

/-- Judging jumps on the way comes to the same as judging them at the end: from any roots, the codes
    spread as they do without verdicts, and the verdicts are those by the final entries. -/
theorem ofRoots_eq (hp : p.WellFormed) (hends : Block.EndApart p blocks)
    (hsize : before.size = p.statements.size) (roots : List Nat) :
    ofRoots p blocks roots (p.verdictsOf before) =
      byEntries p blocks before (CodeFlow.ofRoots p blocks roots) := by
  have hstart : byEntries p blocks before (CodeFlow.unentered blocks.size) =
      { flow := CodeFlow.unentered blocks.size, verdicts := p.verdictsOf before } := by
    have hknown : p.arrivalsAfter blocks (CodeFlow.unentered blocks.size) before = before := by
      refine Array.ext_getElem? fun i => Program.arrivalsAfter_of_no_entry fun _ _ _ => ?_
      rw [CodeFlow.entryOf, CodeFlow.unentered, Array.getElem?_replicate]
      split <;> rfl
    rw [byEntries, hknown]
  rw [ofRoots, CodeFlow.ofRoots, ← hstart]
  generalize CodeFlow.unentered blocks.size = f
  induction roots generalizing f with
  | nil => rfl
  | cons k roots ih =>
      rw [List.foldl_cons, List.foldl_cons, spread_byEntries hp hends hsize]
      exact ih _

end JudgedFlow

end AsmCheck
