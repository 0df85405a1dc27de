import AsmCheck.Proofs.Overlaps

/-! # A block belongs to one routine

    Routines are traced statement by statement, each around what the ones
    before it have claimed; blocks are cut later, without a look at owners.
    That a block has one owner all the same rests on where blocks start: a
    statement that continues a run is no entry and nothing jumps there, so the
    statement before it is the only one that leads to it
    (`Cutting.source_unique`).  Hence the same routines pass through both
    (`inside_iff_of_continuation`), and the first of them owns both.

    A routine is noted on a statement of another one at the moment when it
    leaves its own statements.  Within a run it would have to leave a statement
    that it claims for one that somebody has claimed before; but who claims a
    statement claims what continues it (`overlapOf_of_continuation`). -/

namespace AsmCheck

namespace Cutting

variable {p : Program} {f : Flow} {m i z : Nat}

/-- What continues a run is no entry of a routine. -/
theorem not_isRoot_of_continuation (hp : p.WellFormed) (hf : p.Allows f)
    (h : (p.cut f).continuation m = some i) : ¬ p.IsRoot i := by
  intro hroot
  exact not_isHead_of_continuation hp hf h (isHead_of_isRoot hp hroot)

/-- What continues a run is reached from the statement before it and from no other. -/
theorem source_unique (hp : p.WellFormed) (hf : p.Allows f)
    (h : (p.cut f).continuation m = some i) (hz : p.Reached f z) (hlink : p.Link f z i) :
    z = m := by
  obtain ⟨-, hnext, -, -, -, hleader⟩ := continuation_eq_some.mp h
  cases hlink with
  | next hzi _ => exact hf.nextOf_inj hp hzi hnext
  | jump hzi _ _ =>
      rw [(isLeader_cut hp hf).mpr (Or.inr ⟨z, hz, hzi⟩)] at hleader
      cases hleader

end Cutting

namespace Program

variable {p : Program} {f : Flow} {e m i : Nat}

theorem Region.reached (he : p.IsRoot e) (h : p.Region f e i) : p.Reached f i := by
  induction h with
  | entry => exact he.reached
  | step _ _ link ih => exact ih.step link

theorem isStart_of_continuation (hp : p.WellFormed) (hf : p.Allows f)
    (h : (p.cut f).continuation m = some i) : p.isStart i = false := by
  cases hstart : p.isStart i with
  | false => rfl
  | true =>
      have hroot : p.IsRoot i := hp.isRoot_iff.mpr (Or.inr hstart)
      exact absurd hroot (Cutting.not_isRoot_of_continuation hp hf h)

/-- The routines that pass through a statement are those that pass through what continues it. -/
theorem inside_iff_of_continuation (hp : p.WellFormed) (hf : p.Allows f)
    (h : (p.cut f).continuation m = some i) (he : p.IsRoot e) :
    p.Inside f e i ↔ p.Inside f e m := by
  constructor
  · intro hi
    rcases hi.1.eq_or_exists_link with rfl | ⟨z, hz, hlink⟩
    · exact absurd he (Cutting.not_isRoot_of_continuation hp hf h)
    · rw [← Cutting.source_unique hp hf h (hz.1.reached he) hlink]
      exact hz
  · intro hm
    exact hm.step (Cutting.link_of_continuation h) (isStart_of_continuation hp hf h)

/-! ## Owners -/

theorem firstInside_congr {rs : List Root}
    (h : ∀ r ∈ rs, (p.Inside f r.entry i ↔ p.Inside f r.entry m)) :
    p.firstInside f rs i = p.firstInside f rs m := by
  cases hfirst : p.firstInside f rs m with
  | none =>
      refine firstInside_eq_none.mpr fun r hr hi => ?_
      exact firstInside_eq_none.mp hfirst r hr ((h r hr).mp hi)
  | some r =>
      obtain ⟨hinside, before, after, rfl, hbefore⟩ := firstInside_eq_some.mp hfirst
      refine firstInside_eq_some.mpr ⟨?_, before, after, rfl, ?_⟩
      · exact (h r (mem_of_firstInside hfirst)).mpr hinside
      · intro s hs hi
        exact hbefore s hs ((h s (List.mem_append_left _ hs)).mp hi)

theorem ownerOf_of_continuation (hp : p.WellFormed) (hf : p.Allows f)
    (h : (p.cut f).continuation m = some i) :
    (p.ownership f).ownerOf i = (p.ownership f).ownerOf m := by
  rw [hp.ownerOf_ownership, hp.ownerOf_ownership,
    firstInside_congr fun r hr => inside_iff_of_continuation hp hf h ⟨r, hr, rfl⟩]

/-- A run has one owner. -/
theorem ownerOf_of_mem_run (hp : p.WellFormed) (hf : p.Allows f) {s : Nat}
    (hi : i ∈ (p.cut f).run s) : (p.ownership f).ownerOf i = (p.ownership f).ownerOf s := by
  induction s using Cutting.run_induction (c := p.cut f) with
  | last s hlast =>
      rw [Cutting.run_last hlast] at hi
      rw [List.mem_singleton.mp hi]
  | more s n hmore ih =>
      rw [Cutting.run_more hmore] at hi
      rcases List.mem_cons.mp hi with rfl | hmem
      · rfl
      · rw [ih hmem, ownerOf_of_continuation hp hf hmore]

/-! ## Overlaps -/

/-- Nobody comes upon what continues a run: one trace. -/
theorem Owned.overlapOf_trace (hp : p.WellFormed) (hf : p.Allows f) {done : List Root} {r : Root}
    {o : Ownership} (h : p.Owned f done o) (hr : r ∈ p.roots) (hdone : ∀ s ∈ done, s ∈ p.roots)
    (hnew : ∀ s ∈ done, p.isStart r.entry = true ∧ s.entry ≠ r.entry)
    (hcont : (p.cut f).continuation m = some i) :
    (p.trace f o r).overlapOf i = o.overlapOf i := by
  have hentry := hp.entry_lt r hr
  rcases overlapOf_trace_cases f o r i with hsame | ⟨-, z, hz, hlink, hforeign⟩
  · exact hsame
  · -- the routine claims the statement before, so nobody has passed through this one
    have htakes : p.Takes f done r z := (h.mem_claimed_iff hentry hnew).mp hz
    have hreached : p.Reached f z := htakes.1.1.reached ⟨r, hr, rfl⟩
    obtain rfl := Cutting.source_unique hp hf hcont hreached hlink
    have hfree : o.isFound i = false := by
      cases hfound : o.isFound i with
      | false => rfl
      | true =>
          obtain ⟨s, hs, hinside⟩ := h.isFound_iff.mp hfound
          have hbefore := (inside_iff_of_continuation hp hf hcont ⟨s, hdone s hs, rfl⟩).mp hinside
          exact absurd hbefore (htakes.2 s hs)
    rw [Ownership.isFound, Option.isSome_eq_false_iff, Option.isNone_iff_eq_none] at hfree
    rw [isForeign, isStart_of_continuation hp hf hcont, hfree] at hforeign
    simp at hforeign

/-- Nobody comes upon what continues a run. -/
theorem overlapOf_of_continuation (hp : p.WellFormed) (hf : p.Allows f)
    (hcont : (p.cut f).continuation m = some i) : (p.ownership f).overlapOf i = none := by
  have hprefix : ∀ done rest, p.roots = done ++ rest →
      (done.foldl (p.trace f) p.unowned).overlapOf i = none := by
    intro done
    -- the routines traced so far are a front part of the list, and the last of them is taken off
    induction done using List.reverseRecOn with
    | nil =>
        intro rest _
        show (Array.replicate p.statements.size (none : Option Nat))[i]?.join = none
        rw [Array.getElem?_replicate]
        split <;> rfl
    | append_singleton done r ih =>
        intro rest hroots
        rw [List.append_assoc, List.singleton_append] at hroots
        have hnew : ∀ s ∈ done, p.isStart r.entry = true ∧ s.entry ≠ r.entry := by
          intro s hs
          exact start_of_roots_eq hroots hs (List.mem_cons_self ..)
        have hr : r ∈ p.roots := by
          rw [hroots]
          simp
        have hdone : ∀ s ∈ done, s ∈ p.roots := by
          intro s hs
          rw [hroots]
          simp [hs]
        rw [List.foldl_append, List.foldl_cons, List.foldl_nil,
          (hp.owned_prefix hroots).overlapOf_trace hp hf hr hdone hnew hcont]
        exact ih (r :: rest) hroots
  exact hprefix p.roots [] (List.append_nil _).symm

end Program

/-! ## Rounds -/

/-- A block of one routine: the routine owns all of its statements, and other routines come upon the
    first one at most. -/
structure Round.HasOneOwner (r : Round) (b : Block) : Prop where
  owner : ∃ id, b.owner = some id ∧ ∀ i ∈ b.statements, r.ownership.ownerOf i = some id
  overlap : ∀ i ∈ b.statements.tail, r.ownership.overlapOf i = none

/-- Every block of a round has one owner. -/
theorem Program.WellFormed.hasOneOwner_round {p : Program} (hp : p.WellFormed)
    {arrivals : Arrivals} {k : Nat} {b : Block} (hb : (p.round arrivals).blocks[k]? = some b) :
    (p.round arrivals).HasOneOwner b := by
  have hf := hp.allows_flow arrivals
  rw [Program.blocks_round] at hb
  obtain ⟨s, hs, rfl⟩ := Cutting.getElem?_blocks.mp hb
  constructor
  · -- the first statement is reached, so it has an owner
    have hfound := hp.isFound_iff.mpr ((hs.isHead hp).reached hp)
    obtain ⟨id, hid⟩ := Option.isSome_iff_exists.mp hfound
    refine ⟨id, hid, fun i hi => ?_⟩
    exact (Program.ownerOf_of_mem_run hp hf hi).trans hid
  · intro i hi
    obtain ⟨m, hm⟩ := Cutting.exists_continuation_of_mem_tail hi
    exact Program.overlapOf_of_continuation hp hf hm

namespace Analysis

/-- A block belongs to one routine after every round: for every source text and all usable settings,
    in each of the rounds that an analysis goes through, one routine owns all statements of a block,
    and only the first of them can be noted as shared with another. -/
theorem blocks_one_owner (source : String) (config : Config) (hvalid : config.validate = .ok ()) :
    ∃ a, ofSource source config = .ok a ∧
      (∀ m, ∃ n, (a.rerun m).rounds = n + 1 ∧ (a.rerun m).last = a.program.roundAfter n) ∧
      ∀ (n k : Nat) (b : Block), (a.program.roundAfter n).blocks[k]? = some b →
        (a.program.roundAfter n).HasOneOwner b := by
  refine ⟨ofText source config, ofSource_eq_ok hvalid, ?_, ?_⟩
  · intro m
    obtain ⟨n, hrounds, -, hlast⟩ := exists_last_eq_roundAfter source config m
    exact ⟨n, hrounds, hlast⟩
  · intro n k b hb
    have hp : (ofText source config).program.WellFormed :=
      Program.wellFormed_assemble source.toList config
    obtain ⟨arrivals, hround⟩ := (ofText source config).program.exists_roundAfter_eq n
    rw [hround] at hb ⊢
    exact hp.hasOneOwner_round hb

/-- Two routines that jump to the same run of two statements. -/
def meetInRun : String :=
  "jmp x\n; @SUBROUTINE\nf: jmp x\nx: nop\nret\n"

theorem meetInRun_text {r : Round}
    (hr : r = (Program.assemble meetInRun.toList {}).roundAfter 1) :
    (r.blocks[1]?).map Block.statements = some [2, 3] ∧ r.ownership.overlapOf 2 = some 1 := by
  subst hr
  decide +kernel

/-- The run belongs to the main routine, and the other one is noted on its first statement only. -/
theorem meetInRun_one_owner :
    ({} : Config).validate = .ok () ∧
      ∃ a b, ofSource meetInRun {} = .ok a ∧ (a.program.roundAfter 1).blocks[1]? = some b ∧
        b.statements = [2, 3] ∧ (a.program.roundAfter 1).HasOneOwner b ∧
        (a.program.roundAfter 1).ownership.overlapOf 2 = some 1 := by
  refine ⟨rfl, ?_⟩
  obtain ⟨a, ha, -, howner⟩ := blocks_one_owner meetInRun {} rfl
  obtain rfl := Except.ok.inj ((ofSource_eq_ok rfl).symm.trans ha)
  obtain ⟨hblock, hoverlap⟩ := meetInRun_text rfl
  obtain ⟨b, hb, hstatements⟩ := Option.map_eq_some_iff.mp hblock
  exact ⟨_, b, ha, hb, hstatements, howner 1 1 b hb, hoverlap⟩

end Analysis

end AsmCheck
