import AsmCheck.Proofs.Overlaps

/-! # Reach and ownership, read off the flow of one round

    `Region` follows links, and a link leaves out the call of a marked
    subroutine.  Here both are said again without that exception, in terms of
    nothing but where statements go on to and jump: a statement is found
    exactly when edges lead to it from the entry of a routine, a marked entry
    belongs to itself, and anything else that is found belongs to the first
    routine whose territory it is in (`OwnsExactly`).  The exception makes no
    difference because a marked statement is an entry itself, so nothing behind
    it is lost, and no routine goes on from a marked entry of another. -/

namespace AsmCheck

open Relation

namespace Program

variable {p : Program} {f : Flow} {e i j : Nat}

/-! ## Edges and territories -/

/-- Control goes on, or jumps, to an executable statement. -/
def Edge (p : Program) (f : Flow) (i j : Nat) : Prop :=
  (f.nextOf i = some j ∨ f.jumpOf i = some j) ∧ p.isCode j = true

/-- What the routine that starts at `e` gets to along edges, without passing through a marked entry
    other than its own. -/
def Territory (p : Program) (f : Flow) (e : Nat) : Nat → Prop :=
  ReflTransGen (fun i j => (i = e ∨ p.isStart i = false) ∧ p.Edge f i j) e

theorem Link.edge (h : p.Link f i j) : p.Edge f i j := by
  cases h with
  | next h code => exact ⟨Or.inl h, code⟩
  | jump h code _ => exact ⟨Or.inr h, code⟩

/-- An edge to an unmarked statement is a link. -/
theorem Edge.link (h : p.Edge f i j) (hj : p.isStart j = false) : p.Link f i j := by
  refine link_of_mem_succs ?_ h.2 hj
  rw [Flow.succs, List.mem_append, Option.mem_toList, Option.mem_toList]
  exact h.1

/-- Edges lead from the entries to the same statements as links: what edges reach beyond links is a
    marked statement, so an entry. -/
theorem WellFormed.reached_iff_edges (hp : p.WellFormed) :
    p.Reached f i ↔ ∃ e, p.IsRoot e ∧ ReflTransGen (p.Edge f) e i := by
  constructor
  · rintro ⟨e, he, hpath⟩
    exact ⟨e, he, ReflTransGen.mono (fun _ _ => Link.edge) _ _ hpath⟩
  · rintro ⟨e, he, hpath⟩
    induction hpath with
    | refl => exact he.reached
    | @tail a b _ hab ih =>
        cases hb : p.isStart b with
        | true => exact (hp.isRoot_iff.mpr (Or.inr hb)).reached
        | false => exact ih.step (hab.link hb)

/-- The unmarked statements of a territory are those that the routine passes through. -/
theorem territory_iff_inside (hi : p.isStart i = false) :
    p.Territory f e i ↔ p.Inside f e i := by
  constructor
  · intro h
    -- up to its last step a path stays within what the routine passes through
    have hpass : ∀ {k}, p.Territory f e k → k = e ∨ p.isStart k = false → p.Inside f e k := by
      intro k hk
      induction hk with
      | refl => exact fun _ => inside_entry
      | @tail a b _ hab ih =>
          rintro (rfl | hb)
          · exact inside_entry
          · exact (ih hab.1).step (hab.2.link hb) hb
    exact hpass h (Or.inr hi)
  · rintro ⟨hregion, -⟩
    clear hi
    induction hregion with
    | entry => exact .refl
    | step _ own link ih => exact ih.tail ⟨own, link.edge⟩

end Program

/-! ## What a round records -/

namespace Round

variable {p : Program} {r : Round} {i : Nat}

theorem subroutineStart_mem_flagsOf (hp : p.WellFormed) :
    Flag.subroutineStart ∈ r.flagsOf p i ↔ p.isStart i = true := by
  rw [mem_flagsOf hp (by decide), Verdict.mem_flags]
  simp

/-- The statements that routines start at: the program's entry, then the others that are flagged as
    starts of subroutines, in the order of the source text. -/
def entries (p : Program) (r : Round) : List Nat :=
  p.entry.toList ++ (List.range p.statements.size).filter fun i =>
    decide (Flag.subroutineStart ∈ r.flagsOf p i) && p.entry != some i

/-- The routines start at the entries. -/
theorem map_entry_roots (hp : p.WellFormed) : p.roots.map Program.Root.entry = r.entries p := by
  have hfilter : ∀ i, (p.isStart i && p.entry != some i) =
      (decide (Flag.subroutineStart ∈ r.flagsOf p i) && p.entry != some i) := by
    intro i
    rw [show decide (Flag.subroutineStart ∈ r.flagsOf p i) = p.isStart i from
      Bool.eq_iff_iff.mpr (by rw [decide_eq_true_eq, subroutineStart_mem_flagsOf hp])]
  rw [Program.roots, entries, List.map_append, List.map_map, ← List.filter_congr fun i _ => hfilter i]
  congr 1
  · cases p.entry <;> rfl
  · exact List.map_id _

/-- What a round says about the reach of routines and about owners is exact. -/
structure OwnsExactly (p : Program) (r : Round) : Prop where
  /-- The routines and what stands for them. -/
  routines : r.subroutines.map (fun s => (s.entry, s.id)) =
    (r.entries p).map fun e => (e, p.addressOf e)
  /-- Found is what edges lead to from some entry. -/
  found : ∀ i, Flag.found ∈ r.flagsOf p i ↔ ∃ e ∈ r.entries p, ReflTransGen (p.Edge r.flow) e i
  /-- A marked entry belongs to the routine that starts there. -/
  marked : ∀ i, Flag.found ∈ r.flagsOf p i → Flag.subroutineStart ∈ r.flagsOf p i →
    r.ownership.ownerOf i = some (p.addressOf i)
  /-- Anything else belongs to the first routine whose territory it is in. -/
  unmarked : ∀ i, Flag.found ∈ r.flagsOf p i → ¬ Flag.subroutineStart ∈ r.flagsOf p i →
    ∃ before e after, r.entries p = before ++ e :: after ∧ p.Territory r.flow e i ∧
      (∀ s ∈ before, ¬ p.Territory r.flow s i) ∧ r.ownership.ownerOf i = some (p.addressOf e)
  lost : ∀ i, ¬ Flag.found ∈ r.flagsOf p i → r.ownership.ownerOf i = none

end Round

namespace Program

variable {p : Program} {f : Flow} {i : Nat}

/-- The owner of a marked statement is the routine that starts there: no other passes through it. -/
theorem WellFormed.ownerOf_of_isStart (hp : p.WellFormed) (hi : p.isStart i = true) :
    (p.ownership f).ownerOf i = some (p.addressOf i) := by
  obtain ⟨root, hroot, rfl⟩ := hp.isRoot_iff.mpr (Or.inr hi)
  rw [hp.ownerOf_ownership, ← id_of_mem_roots hroot]
  cases hfirst : p.firstInside f p.roots root.entry with
  | none => exact absurd inside_entry (firstInside_eq_none.mp hfirst root hroot)
  | some s =>
      have hentry := (firstInside_eq_some.mp hfirst).1.eq_entry hi
      have hid : s.id = root.id := by
        rw [id_of_mem_roots (mem_of_firstInside hfirst), id_of_mem_roots hroot, hentry]
      exact congrArg some hid

/-- The owner of an unmarked statement is the first routine whose territory it is in. -/
theorem WellFormed.exists_first_territory (hp : p.WellFormed) (hi : p.isStart i = false)
    (hfound : (p.ownership f).isFound i = true) :
    ∃ before root after, p.roots = before ++ root :: after ∧ p.Territory f root.entry i ∧
      (∀ s ∈ before, ¬ p.Territory f s.entry i) ∧ (p.ownership f).ownerOf i = some root.id := by
  have howner := hp.ownerOf_ownership (f := f) i
  rw [Ownership.isFound, howner, Option.isSome_map] at hfound
  obtain ⟨root, hfirst⟩ := Option.isSome_iff_exists.mp hfound
  obtain ⟨hinside, before, after, hroots, hbefore⟩ := firstInside_eq_some.mp hfirst
  refine ⟨before, root, after, hroots, (territory_iff_inside hi).mpr hinside, ?_, ?_⟩
  · intro s hs hterr
    exact hbefore s hs ((territory_iff_inside hi).mp hterr)
  · rw [howner, hfirst]
    rfl

/-- Whatever a round starts from, what it says about reach and owners is exact. -/
theorem WellFormed.ownsExactly_round (hp : p.WellFormed) (arrivals : Arrivals) :
    (p.round arrivals).OwnsExactly p := by
  have hentries := Round.map_entry_roots (r := p.round arrivals) hp
  have hmem : ∀ {e}, e ∈ (p.round arrivals).entries p ↔ p.IsRoot e := by
    intro e
    rw [← hentries]
    exact List.mem_map
  refine
    { routines := ?_
      found := ?_
      marked := ?_
      unmarked := ?_
      lost := ?_ }
  · have hroots : p.roots.map (fun r => (r.entry, r.id)) =
        (p.roots.map Root.entry).map fun e => (e, p.addressOf e) := by
      rw [List.map_map]
      refine List.map_congr_left fun r hr => ?_
      rw [Function.comp_apply, id_of_mem_roots hr]
    rw [← hentries, ← hroots, ← toRoot_subroutines p arrivals, List.map_map]
    rfl
  · intro i
    rw [hp.found_round, hp.reached_iff_edges]
    constructor
    · rintro ⟨e, he, hpath⟩
      exact ⟨e, hmem.mpr he, hpath⟩
    · rintro ⟨e, he, hpath⟩
      exact ⟨e, hmem.mp he, hpath⟩
  · intro i _ hstart
    exact hp.ownerOf_of_isStart ((Round.subroutineStart_mem_flagsOf hp).mp hstart)
  · intro i hfound hstart
    rw [Round.subroutineStart_mem_flagsOf hp, Bool.not_eq_true] at hstart
    rw [Round.found_mem_flagsOf hp] at hfound
    obtain ⟨before, root, after, hroots, hterr, hbefore, howner⟩ :=
      hp.exists_first_territory hstart hfound
    refine ⟨before.map Root.entry, root.entry, after.map Root.entry, ?_, hterr, ?_, ?_⟩
    · rw [← hentries, hroots, List.map_append, List.map_cons]
    · intro e he
      obtain ⟨s, hs, rfl⟩ := List.mem_map.mp he
      exact hbefore s hs
    · have hroot : root ∈ p.roots := by
        rw [hroots]
        exact List.mem_append.mpr (Or.inr (List.mem_cons_self ..))
      rw [← id_of_mem_roots hroot]
      exact howner
  · intro i hlost
    rw [Round.found_mem_flagsOf hp, Ownership.isFound, Bool.not_eq_true,
      Option.isSome_eq_false_iff, Option.isNone_iff_eq_none] at hlost
    exact hlost

end Program

/-! ## Every round of an analysis -/

namespace Analysis

/-- Reach and ownership are exact in every round, for every source text and all settings; and every
    state of an analysis is one of these rounds. -/
theorem reach_and_owners_exact (source : String) (config : Config) :
    (∀ n, ((Program.assemble source.toList config).roundAfter n).OwnsExactly
      (Program.assemble source.toList config)) ∧
    ∀ a, ofSource source config = .ok a → ∀ m, ∃ n, (a.rerun m).rounds = n + 1 ∧
      (a.rerun m).program = Program.assemble source.toList config ∧
      (a.rerun m).last = (Program.assemble source.toList config).roundAfter n := by
  constructor
  · intro n
    obtain ⟨arrivals, hround⟩ := (Program.assemble source.toList config).exists_roundAfter_eq n
    rw [hround]
    exact (Program.wellFormed_assemble source.toList config).ownsExactly_round arrivals
  · intro a ha m
    obtain rfl := eq_ofText_of_ofSource ha
    exact exists_last_eq_roundAfter source config m

/-- The main routine calls a subroutine, and both jump to the same statement. -/
def callAndMeet : String :=
  "call f\njmp x\n; @SUBROUTINE\nf: jmp x\nx: ret\n"

/-- The subroutine owns its entry though the call leads there, and the main routine owns the
    statement where they meet. -/
theorem callAndMeet_owners :
    ∃ a, ofSource callAndMeet {} = .ok a ∧ (a.rerun 1).last.OwnsExactly (a.rerun 1).program ∧
      (a.rerun 1).last.flow.jumpOf 0 = some 2 ∧ (a.rerun 1).last.ownership.ownerOf 2 = some 2 ∧
      (a.rerun 1).last.ownership.ownerOf 3 = some 0 := by
  have ha : ofSource callAndMeet {} = .ok (ofText callAndMeet {}) := ofSource_eq_ok rfl
  obtain ⟨hexact, hstates⟩ := reach_and_owners_exact callAndMeet {}
  obtain ⟨n, -, hprog, hlast⟩ := hstates _ ha 1
  refine ⟨_, ha, ?_, by decide +kernel⟩
  rw [hprog, hlast]
  exact hexact n

end Analysis

end AsmCheck
