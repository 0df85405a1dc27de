import AsmCheck.Proofs.RegisterWalk
import AsmCheck.Proofs.Rounds

/-! # Blocks partition what is found

    Tracing finds statements, cutting puts statements into blocks, and the walk
    for registers scans blocks; the three go over different graphs, each with
    rules of its own for where to stop.  They agree all the same:

    * the runs of the heads hold exactly the reached statements, each in one
      run, and there once because a run goes forward in the text;
    * along the ways out of blocks, every block can be reached from the first
      block of a routine (`exists_path_of_headAt`), and the walk scans whatever
      can be reached from there. -/

namespace AsmCheck

open Relation

namespace Cutting

variable {p : Program} {f : Flow}

theorem goesOn_of_link (hp : p.WellFormed) {k l s j : Nat} (hs : (p.cut f).HeadAt k s)
    (hj : (p.cut f).HeadAt l j) (h : p.Link f ((p.cut f).runEnd s) j) :
    Program.GoesOn (p.cut f).blocks k l := by
  obtain ⟨m, hm, hmj⟩ := (link_runEnd_iff hp hs).mp h
  rw [hj.number_unique hp hmj]
  exact ⟨_, getElem?_blocks.mpr ⟨s, hs, rfl⟩, hm⟩

/-- Every block can be reached from the first block of a routine. -/
theorem exists_path_of_headAt (hp : p.WellFormed) (hf : p.Allows f) {k s : Nat}
    (h : (p.cut f).HeadAt k s) :
    ∃ r ∈ p.rootBlocks f, ReflTransGen (Program.GoesOn (p.cut f).blocks) r k := by
  refine (h.isHead hp).induction hp hf (P := fun s => ∀ k, (p.cut f).HeadAt k s →
    ∃ r ∈ p.rootBlocks f, ReflTransGen (Program.GoesOn (p.cut f).blocks) r k) ?_ ?_ k h
  · intro r hr k hk
    exact ⟨k, (mem_rootBlocks hp hf).mpr ⟨r, hr, hk⟩, .refl⟩
  · intro s j hs ih hlink l hl
    obtain ⟨k, hk⟩ := hs.exists_headAt hp
    obtain ⟨r, hr, hpath⟩ := ih k hk
    exact ⟨r, hr, hpath.tail (goesOn_of_link hp hk hl hlink)⟩

/-- A block holds a statement at most once. -/
theorem nodup_statements {c : Cutting} {k : Nat} {b : Block} (h : c.blocks[k]? = some b) :
    b.statements.Nodup := by
  obtain ⟨i, -, rfl⟩ := getElem?_blocks.mp h
  exact nodup_run i

/-- A statement is recorded to be in a block exactly when the block holds it. -/
theorem places_eq_some (hp : p.WellFormed) (hf : p.Allows f) {i k : Nat} :
    (Block.places (p.cut f).blocks p.statements.size)[i]?.join = some k ↔
      ∃ b : Block, (p.cut f).blocks[k]? = some b ∧ i ∈ b.statements := by
  rw [places_cut hp hf]
  constructor
  · rintro ⟨s, hs, hi⟩
    exact ⟨_, getElem?_blocks.mpr ⟨s, hs, rfl⟩, hi⟩
  · rintro ⟨b, hb, hi⟩
    obtain ⟨s, hs, rfl⟩ := getElem?_blocks.mp hb
    exact ⟨s, hs, hi⟩

end Cutting

namespace Round

/-- Statement `i` stands at position `pos` of block `k`. -/
def StandsAt (r : Round) (i k pos : Nat) : Prop :=
  ∃ b : Block, r.blocks[k]? = some b ∧ b.statements[pos]? = some i

/-- The blocks of a round partition what it finds, and each has been gone over. -/
structure IsPartition (p : Program) (r : Round) : Prop where
  /-- A found statement stands at one position of one block, the one recorded for it. -/
  found : ∀ {i}, Flag.found ∈ r.flagsOf p i →
    ∃ k pos, r.places[i]? = some (some k) ∧ ∀ l q, r.StandsAt i l q ↔ l = k ∧ q = pos
  /-- Any other stands in no block, and none is recorded for it. -/
  lost : ∀ {i}, ¬ Flag.found ∈ r.flagsOf p i →
    (∀ k pos, ¬ r.StandsAt i k pos) ∧ (i < p.statements.size → r.places[i]? = some none)
  nonempty : ∀ {k : Nat} {b : Block}, r.blocks[k]? = some b → b.statements ≠ []
  explored : ∀ {k : Nat} {b : Block}, r.blocks[k]? = some b → BlockMark.explored ∈ r.marksOf p k
  scanned : ∀ {k : Nat} {b : Block}, r.blocks[k]? = some b → BlockMark.scanned ∈ r.marksOf p k

theorem explored_mem_marksOf {p : Program} {r : Round} {k : Nat} {b : Block}
    (hb : r.blocks[k]? = some b) :
    BlockMark.explored ∈ r.marksOf p k ↔ b.explored = true := by
  simp [marksOf, hb]

theorem scanned_mem_marksOf {p : Program} {r : Round} {k : Nat} {b : Block}
    (hb : r.blocks[k]? = some b) :
    BlockMark.scanned ∈ r.marksOf p k ↔ (r.visits[k]?.bind Visit.result?).isSome = true := by
  simp [marksOf, hb]

end Round

namespace Program

variable {p : Program} {arrivals : Arrivals}

theorem getElem?_places {i : Nat} (hi : i < p.statements.size) :
    (p.round arrivals).places[i]? = some (p.round arrivals).places[i]?.join := by
  have hsize : (p.round arrivals).places.size = p.statements.size :=
    (size_foldl_setAll _ _).trans Array.size_replicate
  rw [Array.getElem?_eq_getElem (hsize ▸ hi)]
  rfl

/-- A statement that a block of the round holds has been found. -/
theorem WellFormed.found_of_standsAt (hp : p.WellFormed) {i k pos : Nat}
    (h : (p.round arrivals).StandsAt i k pos) :
    Flag.found ∈ (p.round arrivals).flagsOf p i := by
  obtain ⟨b, hb, hpos⟩ := h
  obtain ⟨s, hs, rfl⟩ := Cutting.getElem?_blocks.mp hb
  rw [hp.found_round]
  exact Cutting.reached_of_mem_run ((hs.isHead hp).reached hp) (List.mem_of_getElem? hpos)

/-- A found statement stands at one position of one block, the one recorded for it. -/
theorem WellFormed.exists_standsAt (hp : p.WellFormed) {i : Nat}
    (h : Flag.found ∈ (p.round arrivals).flagsOf p i) :
    ∃ k pos, (p.round arrivals).places[i]? = some (some k) ∧
      ∀ l q, (p.round arrivals).StandsAt i l q ↔ l = k ∧ q = pos := by
  have hf := hp.allows_flow arrivals
  obtain ⟨k, ⟨b, hb, hi⟩, honly⟩ := hp.found_iff_block.mp h
  obtain ⟨pos, hpos⟩ := List.mem_iff_getElem?.mp hi
  refine ⟨k, pos, ?_, ?_⟩
  · rw [getElem?_places (lt_of_isCode (hp.isCode_of_reached (hp.found_round.mp h)))]
    exact congrArg some ((Cutting.places_eq_some hp hf).mpr ⟨b, hb, hi⟩)
  · intro l q
    constructor
    · rintro ⟨b', hb', hq⟩
      -- one block holds the statement, and at one position
      have hl : l = k := honly l ⟨b', hb', List.mem_of_getElem? hq⟩
      subst hl
      rw [hb, Option.some.injEq] at hb'
      subst hb'
      have hlt : q < b.statements.length := (List.getElem?_eq_some_iff.mp hq).1
      exact ⟨rfl, (List.getElem?_inj hlt (Cutting.nodup_statements hb)).mp (hq.trans hpos.symm)⟩
    · rintro ⟨rfl, rfl⟩
      exact ⟨b, hb, hpos⟩

theorem WellFormed.places_of_lost (hp : p.WellFormed) {i : Nat} (hi : i < p.statements.size)
    (h : ¬ Flag.found ∈ (p.round arrivals).flagsOf p i) :
    (p.round arrivals).places[i]? = some none := by
  rw [getElem?_places hi]
  cases hk : (p.round arrivals).places[i]?.join with
  | none => rfl
  | some k =>
      obtain ⟨b, hb, hmem⟩ := (Cutting.places_eq_some hp (hp.allows_flow arrivals)).mp hk
      obtain ⟨pos, hpos⟩ := List.mem_iff_getElem?.mp hmem
      exact absurd (hp.found_of_standsAt ⟨b, hb, hpos⟩) h

/-- Every block of a round has been explored, -/
theorem WellFormed.explored_round (hp : p.WellFormed) {k : Nat} {b : Block}
    (hb : (p.round arrivals).blocks[k]? = some b) : b.explored = true := by
  obtain ⟨i, hi, rfl⟩ := Cutting.getElem?_blocks.mp hb
  have hexp := (Cutting.isHead_iff_explored hp).mp (hi.isHead hp)
  show (p.cut (p.flow arrivals)).walk.explored[i]?.getD false = true
  rw [show (p.cut (p.flow arrivals)).walk.explored[i]? = some true from hexp]
  rfl

/-- and every block has been scanned. -/
theorem WellFormed.scanned_round (hp : p.WellFormed) {k : Nat} {b : Block}
    (hb : (p.round arrivals).blocks[k]? = some b) :
    ((p.round arrivals).visits[k]?.bind Visit.result?).isSome = true := by
  obtain ⟨i, hi, -⟩ := Cutting.getElem?_blocks.mp hb
  obtain ⟨r, hr, hpath⟩ := Cutting.exists_path_of_headAt hp (hp.allows_flow arrivals) hi
  obtain ⟨v, hv⟩ := exists_scan_of_path (p := p) hr hpath hb
  have hvisit : (p.round arrivals).visits[k]? =
      some (.finished (p.scan b.statements (b.tableAfter v))) := hv
  rw [hvisit]
  rfl

/-- The blocks of a round partition what it finds. -/
theorem WellFormed.isPartition_round (hp : p.WellFormed) :
    (p.round arrivals).IsPartition p where
  found := hp.exists_standsAt
  lost h := ⟨fun _ _ hat => h (hp.found_of_standsAt hat), fun hi => hp.places_of_lost hi h⟩
  nonempty hb := by
    obtain ⟨i, -, rfl⟩ := Cutting.getElem?_blocks.mp hb
    exact Cutting.run_ne_nil i
  explored hb := (Round.explored_mem_marksOf hb).mpr (hp.explored_round hb)
  scanned hb := (Round.scanned_mem_marksOf hb).mpr (hp.scanned_round hb)

end Program

namespace Analysis

/-- Blocks partition the reachable code: for every source text and all usable settings, after any
    number of further rounds, every found statement stands at one position of one block, the one
    recorded for it, no other stands in any, no block is empty, and every block has been explored
    and scanned. -/
theorem blocks_isPartition (source : String) (config : Config)
    (hvalid : config.validate = .ok ()) (n : Nat) :
    ∃ a, ofSource source config = .ok a ∧
      (a.rerun n).last.IsPartition (a.rerun n).program := by
  refine ⟨ofText source config, ofSource_eq_ok hvalid, ?_⟩
  obtain ⟨hprog, arrivals, hlast⟩ := exists_last_eq_round source config n
  rw [hlast, hprog]
  exact (Program.wellFormed_assemble source.toList config).isPartition_round

/-- A program that falls into a marked routine, which also is called and jumped to. -/
def intoRoutine : String :=
  "call f\njne f\n; @SUBROUTINE\nf: ret\n"

/-- The routine's return stands in a block of its own, though three ways lead there. -/
theorem intoRoutine_isPartition :
    ({} : Config).validate = .ok () ∧
      ∃ a k pos, ofSource intoRoutine {} = .ok a ∧
        (a.rerun 2).last.IsPartition (a.rerun 2).program ∧
        (a.rerun 2).last.StandsAt 2 k pos ∧ (a.rerun 2).last.places[2]? = some (some k) := by
  refine ⟨rfl, ?_⟩
  obtain ⟨a, ha, hpart⟩ := blocks_isPartition intoRoutine {} rfl 2
  obtain rfl := Except.ok.inj ((ofSource_eq_ok rfl).symm.trans ha)
  obtain ⟨hprog, arrivals, hlast⟩ := exists_last_eq_round intoRoutine {} 2
  have hp := Program.wellFormed_assemble intoRoutine.toList {}
  have hstart : (Program.assemble intoRoutine.toList {}).isStart 2 = true := by decide +kernel
  have hroot := hp.isRoot_iff.mpr (Or.inr hstart)
  have hfound : Flag.found ∈ ((ofText intoRoutine {}).rerun 2).last.flagsOf
      ((ofText intoRoutine {}).rerun 2).program 2 := by
    rw [hprog, hlast]
    exact hp.found_round.mpr hroot.reached
  obtain ⟨k, pos, hplace, hat⟩ := hpart.found hfound
  exact ⟨_, k, pos, ha, hpart, (hat k pos).mpr ⟨rfl, rfl⟩, hplace⟩

end Analysis

end AsmCheck
