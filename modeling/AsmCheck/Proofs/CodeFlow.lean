import AsmCheck.Proofs.Blocks
import AsmCheck.Proofs.SignModel

/-! # The codes that blocks are entered with are exactly the codes that arrive

    Spreading works through a list of codes that blocks may be entered with.
    What is `Due` is recorded or still on that list; every step keeps what is
    due, and at the end nothing is left on the list.  So a block's entry holds
    exactly the codes with which it can be `Entered` along the blocks
    (`mem_entryOf_ofRoots`).  Through the runs of the blocks these lead to
    exactly the codes that arrive along links (`arrives_runEnd_iff`), so what a
    round knows about a conditional jump is what arrives there
    (`arrivalsAfter_of_arrives`). -/

namespace AsmCheck

open CodeSet (Additive)

/-! ## What a block passes on -/

namespace Block

variable {p : Program} {b : Block}

/-- What falls out of a block is additive in the codes that it is entered with, -/
theorem additive_fall (p : Program) (b : Block) : Additive fun S => (b.codesOut p S).fall := by
  unfold codesOut
  cases b.statements.getLast? with
  | none => exact .id
  | some i => exact (p.additive_fall i).comp (p.additive_codesThrough _)

/-- and so is what is jumped away with. -/
theorem additive_taken (p : Program) (b : Block) : Additive fun S => (b.codesOut p S).taken := by
  unfold codesOut
  cases b.statements.getLast? with
  | none => exact .const ∅
  | some i => exact (p.additive_taken i).comp (p.additive_codesThrough _)

/-- A block that is entered with `codes` passes code `c` on to block `l`. -/
def Sends (p : Program) (b : Block) (codes : CodeSet) (l : Nat) (c : CondCode) : Prop :=
  (b.branch = some l ∧ c ∈ (b.codesOut p codes).taken) ∨
    (b.next = some l ∧ c ∈ (b.codesOut p codes).fall)

/-- What is passed on: the codes that leave a block, one way or the other, if there are any. -/
theorem mem_passes {codes : CodeSet} {x : Nat × CodeSet} :
    x ∈ b.passes p codes ↔
      ((b.branch = some x.1 ∧ x.2 = (b.codesOut p codes).taken) ∨
        (b.next = some x.1 ∧ x.2 = (b.codesOut p codes).fall)) ∧ ∃ c, c ∈ x.2 := by
  -- the two ways out are alike
  have hway : ∀ (s : Option Nat) (out : CodeSet),
      x ∈ (if out.isEmpty then [] else s.toList.map (·, out)) ↔
        (s = some x.1 ∧ x.2 = out) ∧ ∃ c, c ∈ x.2 := by
    intro s out
    by_cases hempty : out.isEmpty = true
    · rw [if_pos hempty]
      refine ⟨fun h => (nomatch h), ?_⟩
      rintro ⟨⟨-, rfl⟩, c, hc⟩
      exact absurd hc (EnumSet.eq_empty_iff.mp (EnumSet.isEmpty_iff.mp hempty) c)
    · rw [if_neg hempty, List.mem_map]
      rw [EnumSet.isEmpty_iff, EnumSet.eq_empty_iff, not_forall] at hempty
      obtain ⟨c, hc⟩ := hempty
      constructor
      · rintro ⟨k, hk, rfl⟩
        exact ⟨⟨Option.mem_toList.mp hk, rfl⟩, c, not_not.mp hc⟩
      · rintro ⟨⟨hs, rfl⟩, -⟩
        exact ⟨x.1, Option.mem_toList.mpr hs, rfl⟩
  rw [or_and_right, ← hway, ← hway]
  exact List.mem_append

/-- What is passed on to a block, code by code. -/
theorem exists_mem_passes {codes : CodeSet} {l : Nat} {c : CondCode} :
    (∃ cs, (l, cs) ∈ b.passes p codes ∧ c ∈ cs) ↔ b.Sends p codes l c := by
  constructor
  · rintro ⟨cs, hcs, hc⟩
    rcases (mem_passes.mp hcs).1 with ⟨hl, rfl⟩ | ⟨hl, rfl⟩
    · exact Or.inl ⟨hl, hc⟩
    · exact Or.inr ⟨hl, hc⟩
  · rintro (⟨hl, hc⟩ | ⟨hl, hc⟩)
    · exact ⟨_, mem_passes.mpr ⟨Or.inl ⟨hl, rfl⟩, c, hc⟩, hc⟩
    · exact ⟨_, mem_passes.mpr ⟨Or.inr ⟨hl, rfl⟩, c, hc⟩, hc⟩

/-- A block sends with several codes what it sends with one of them. -/
theorem sends_iff {codes : CodeSet} (hne : ∃ c, c ∈ codes) {l : Nat} {c' : CondCode} :
    b.Sends p codes l c' ↔ ∃ c ∈ codes, b.Sends p {c} l c' := by
  unfold Sends
  rw [(b.additive_taken p).mem_iff hne, (b.additive_fall p).mem_iff hne]
  constructor
  · rintro (⟨hl, c, hc, hc'⟩ | ⟨hl, c, hc, hc'⟩)
    · exact ⟨c, hc, Or.inl ⟨hl, hc'⟩⟩
    · exact ⟨c, hc, Or.inr ⟨hl, hc'⟩⟩
  · rintro ⟨c, hc, ⟨hl, hc'⟩ | ⟨hl, hc'⟩⟩
    · exact Or.inl ⟨hl, c, hc, hc'⟩
    · exact Or.inr ⟨hl, c, hc, hc'⟩

end Block

/-! ## Spreading -/

namespace CodeFlow

variable {p : Program} {blocks : Array Block}

/-- The codes with which blocks can be entered, when the given blocks can be entered with any. -/
inductive Entered (p : Program) (blocks : Array Block) (roots : List Nat) : Nat → CondCode → Prop
    where
  | root {k : Nat} {c : CondCode} (h : k ∈ roots) (hk : k < blocks.size) :
      Entered p blocks roots k c
  | sent {k l : Nat} {c c' : CondCode} {b : Block} (h : Entered p blocks roots k c)
      (hb : blocks[k]? = some b) (hsend : b.Sends p {c} l c') (hl : l < blocks.size) :
      Entered p blocks roots l c'

/-- More roots let more codes in. -/
theorem Entered.mono {roots roots' : List Nat} (hsub : ∀ k ∈ roots, k ∈ roots') {k : Nat}
    {c : CondCode} (h : Entered p blocks roots k c) : Entered p blocks roots' k c := by
  induction h with
  | root hk hlt => exact .root (hsub _ hk) hlt
  | sent _ hb hsend hlt ih => exact .sent ih hb hsend hlt

/-- Code `c` is among those that block `k` is entered with. -/
def Holds (f : CodeFlow) (k : Nat) (c : CondCode) : Prop :=
  ∃ codes, f.entries[k]? = some (some codes) ∧ c ∈ codes

/-- Code `c` is recorded for block `k`, or is yet to be. -/
def Due (f : CodeFlow) (work : List (Nat × CodeSet)) (k : Nat) (c : CondCode) : Prop :=
  f.Holds k c ∨ (k < f.entries.size ∧ ∃ codes, (k, codes) ∈ work ∧ c ∈ codes)

/-- What holds while codes are spread from the blocks `roots`. -/
structure Spreading (p : Program) (blocks : Array Block) (roots : List Nat) (f : CodeFlow)
    (work : List (Nat × CodeSet)) : Prop where
  size : f.entries.size = blocks.size
  /-- Nothing empty is recorded or waits to be. -/
  recorded : ∀ {k : Nat} {codes : CodeSet}, f.entries[k]? = some (some codes) → ∃ c, c ∈ codes
  waiting : ∀ x ∈ work, ∃ c, c ∈ x.2
  /-- Every code is due at the roots, -/
  rooted : ∀ k ∈ roots, k < blocks.size → ∀ c, f.Due work k c
  /-- so is whatever a block sends with a code recorded for it, -/
  closed : ∀ {k l c c' b}, f.Holds k c → blocks[k]? = some b → b.Sends p {c} l c' →
    l < blocks.size → f.Due work l c'
  /-- and nothing else is. -/
  sound : ∀ {k c}, f.Due work k c → Entered p blocks roots k c

section Equations

variable {f : CodeFlow} {work : List (Nat × CodeSet)} {b : Nat} {codes : CodeSet}

/-- An item that says nothing new is dropped. -/
theorem spread_skip (hold : ∀ {old}, f.entries[b]? = some old → old = some (widen old codes)) :
    spread p blocks f ((b, codes) :: work) = spread p blocks f work := by
  rw [spread]
  split
  · rfl
  · next old hb => rw [if_pos (hold hb)]

/-- An item that says something new is recorded, and what the block passes on is put in front. -/
theorem spread_grow {old : Option CodeSet} (hb : f.entries[b]? = some old)
    (hnew : old ≠ some (widen old codes)) :
    spread p blocks f ((b, codes) :: work) =
      spread p blocks (f.record b (widen old codes))
        (((blocks[b]?).map fun block => block.passes p (widen old codes)).getD [] ++ work) := by
  rw [spread]
  split
  · next hb' =>
      rw [hb] at hb'
      cases hb'
  · next old' hb' =>
      rw [hb, Option.some.injEq] at hb'
      subst hb'
      rw [if_neg hnew]

end Equations

/-- Spreading ends: what holds when nothing is left to do, and is passed back over an item that says
    nothing new and over one that is recorded, holds of every spreading. -/
@[elab_as_elim] theorem spread_induction (p : Program) (blocks : Array Block)
    {motive : CodeFlow → List (Nat × CodeSet) → Prop} (done : ∀ f, motive f [])
    (skip : ∀ f b codes work,
      (∀ {old}, f.entries[b]? = some old → old = some (widen old codes)) → motive f work →
        motive f ((b, codes) :: work))
    (grow : ∀ f b codes work old, f.entries[b]? = some old → old ≠ some (widen old codes) →
      motive (f.record b (widen old codes))
        (((blocks[b]?).map fun block => block.passes p (widen old codes)).getD [] ++ work) →
        motive f ((b, codes) :: work))
    (f : CodeFlow) (work : List (Nat × CodeSet)) : motive f work := by
  induction f, work using CodeFlow.spread.induct p blocks with
  | case1 f => exact done f
  | case2 f b codes work hb ih =>
      refine skip f b codes work (fun hb' => ?_) ih
      rw [hb] at hb'
      cases hb'
  | case3 f b codes work old hb hsame ih =>
      refine skip f b codes work (fun hb' => ?_) ih
      rw [hb, Option.some.injEq] at hb'
      exact hb' ▸ hsame
  | case4 f b codes work old hb hnew ways ih => exact grow f b codes work old hb hnew ih

namespace Spreading

variable {roots : List Nat} {f : CodeFlow} {work : List (Nat × CodeSet)} {b : Nat}
  {codes : CodeSet}

/-- A step that adds nothing new is passed over. -/
theorem skip (h : Spreading p blocks roots f ((b, codes) :: work))
    (hold : ∀ {old}, f.entries[b]? = some old → old = some (widen old codes)) :
    Spreading p blocks roots f work := by
  have hdue : ∀ {k c}, f.Due ((b, codes) :: work) k c → f.Due work k c := by
    rintro k c (hk | ⟨hlt, cs, hmem, hc⟩)
    · exact Or.inl hk
    · rcases List.mem_cons.mp hmem with heq | hmem
      · -- the code is recorded already
        rw [Prod.mk.injEq] at heq
        obtain ⟨rfl, rfl⟩ := heq
        have hget := Array.getElem?_eq_getElem hlt
        refine Or.inl ⟨widen f.entries[k] cs, hget.trans ?_, ?_⟩
        · rw [← hold hget]
        · exact EnumSet.mem_union.mpr (Or.inr hc)
      · exact Or.inr ⟨hlt, cs, hmem, hc⟩
  refine ⟨h.size, h.recorded, ?_, ?_, ?_, ?_⟩
  · exact fun x hx => h.waiting x (List.mem_cons_of_mem _ hx)
  · exact fun k hk hlt c => hdue (h.rooted k hk hlt c)
  · exact fun hk hb hsend hl => hdue (h.closed hk hb hsend hl)
  · rintro k c (hk | ⟨hlt, cs, hmem, hc⟩)
    · exact h.sound (Or.inl hk)
    · exact h.sound (Or.inr ⟨hlt, cs, List.mem_cons_of_mem _ hmem, hc⟩)

/-- Recording adds the new codes to one block, and takes none away. -/
theorem holds_record {old : Option CodeSet} (hb : f.entries[b]? = some old) {k : Nat}
    {c : CondCode} :
    (f.record b (widen old codes)).Holds k c ↔ f.Holds k c ∨ (k = b ∧ c ∈ codes) := by
  have hlt : b < f.entries.size := (Array.getElem?_eq_some_iff.mp hb).1
  unfold Holds record
  dsimp only
  rw [Array.getElem?_setIfInBounds]
  by_cases hk : b = k
  · subst hk
    rw [if_pos rfl, if_pos hlt, hb]
    cases old with
    | none => simp [widen]
    | some s => simp [widen]
  · rw [if_neg hk]
    exact ⟨Or.inl, fun h => h.resolve_right fun h' => hk h'.1.symm⟩

/-- A step that adds something new records it and puts what the block then sends on the list. -/
theorem grow {old : Option CodeSet} (h : Spreading p blocks roots f ((b, codes) :: work))
    (hb : f.entries[b]? = some old) :
    Spreading p blocks roots (f.record b (widen old codes))
      (((blocks[b]?).map fun block => block.passes p (widen old codes)).getD [] ++ work) := by
  have hlt : b < f.entries.size := (Array.getElem?_eq_some_iff.mp hb).1
  have hsize : (f.record b (widen old codes)).entries.size = f.entries.size :=
    Array.size_setIfInBounds ..
  obtain ⟨block, hblock⟩ : ∃ block, blocks[b]? = some block :=
    ⟨_, Array.getElem?_eq_getElem (h.size ▸ hlt)⟩
  rw [hblock, Option.map_some, Option.getD_some]
  have hwide : ∃ c, c ∈ widen old codes := by
    obtain ⟨c, hc⟩ := h.waiting _ (List.mem_cons_self ..)
    exact ⟨c, EnumSet.mem_union.mpr (Or.inr hc)⟩
  have hself : ∀ {c}, c ∈ widen old codes → (f.record b (widen old codes)).Holds b c := by
    intro c hc
    refine ⟨widen old codes, ?_, hc⟩
    rw [record, Array.getElem?_setIfInBounds, if_pos rfl, if_pos hlt]
  -- what the new entry holds was due before
  have hentered : ∀ {k c}, (f.record b (widen old codes)).Holds k c →
      Entered p blocks roots k c := by
    intro k c hk
    rcases (holds_record hb).mp hk with hk | ⟨rfl, hc⟩
    · exact h.sound (Or.inl hk)
    · exact h.sound (Or.inr ⟨hlt, codes, List.mem_cons_self .., hc⟩)
  have hdue : ∀ {k c}, f.Due ((b, codes) :: work) k c →
      (f.record b (widen old codes)).Due (block.passes p (widen old codes) ++ work) k c := by
    rintro k c (hk | ⟨hk, cs, hmem, hc⟩)
    · exact Or.inl ((holds_record hb).mpr (Or.inl hk))
    · rcases List.mem_cons.mp hmem with heq | hmem
      · rw [Prod.mk.injEq] at heq
        exact Or.inl ((holds_record hb).mpr (Or.inr ⟨heq.1, heq.2 ▸ hc⟩))
      · exact Or.inr ⟨hsize ▸ hk, cs, List.mem_append.mpr (Or.inr hmem), hc⟩
  refine ⟨hsize.trans h.size, ?_, ?_, ?_, ?_, ?_⟩
  · intro k cs hk
    rw [record, Array.getElem?_setIfInBounds] at hk
    split at hk
    · rw [Option.some.injEq, Option.some.injEq] at hk
      exact hk ▸ hwide
    · exact h.recorded hk
  · intro x hx
    rcases List.mem_append.mp hx with hx | hx
    · exact (Block.mem_passes.mp hx).2
    · exact h.waiting x (List.mem_cons_of_mem _ hx)
  · exact fun k hk hlt c => hdue (h.rooted k hk hlt c)
  · intro k l c c' b' hk hb' hsend hl
    rcases (holds_record hb).mp hk with hk | ⟨rfl, hc⟩
    · exact hdue (h.closed hk hb' hsend hl)
    · -- what the block sends with the new codes has gone on the list
      rw [hblock, Option.some.injEq] at hb'
      subst hb'
      have hsend' : block.Sends p (widen old codes) l c' :=
        (Block.sends_iff hwide).mpr ⟨c, EnumSet.mem_union.mpr (Or.inr hc), hsend⟩
      obtain ⟨cs, hcs, hc'⟩ := Block.exists_mem_passes.mpr hsend'
      exact Or.inr ⟨by rw [hsize, h.size]; exact hl, cs, List.mem_append.mpr (Or.inl hcs), hc'⟩
  · rintro k c (hk | ⟨hk, cs, hmem, hc⟩)
    · exact hentered hk
    · rw [hsize] at hk
      rcases List.mem_append.mp hmem with hmem | hmem
      · have hsent := Block.exists_mem_passes.mp ⟨cs, hmem, hc⟩
        obtain ⟨d, hd, hsend⟩ := (Block.sends_iff hwide).mp hsent
        exact .sent (hentered (hself hd)) hblock hsend (h.size ▸ hk)
      · exact h.sound (Or.inr ⟨hk, cs, List.mem_cons_of_mem _ hmem, hc⟩)

/-- When the list has been worked off, nothing is due that has not been recorded. -/
theorem spread (h : Spreading p blocks roots f work) :
    Spreading p blocks roots (spread p blocks f work) [] := by
  induction f, work using spread_induction p blocks with
  | done f =>
      rw [CodeFlow.spread]
      exact h
  | skip f b codes rest hold ih =>
      rw [spread_skip hold]
      exact ih (h.skip hold)
  | grow f b codes rest old hb hnew ih =>
      rw [spread_grow hb hnew]
      exact ih (h.grow hb)

/-- One more root may be entered with any code. -/
theorem addRoot (h : Spreading p blocks roots f []) (k : Nat) :
    Spreading p blocks (roots ++ [k]) f [(k, EnumSet.full)] := by
  have hdue : ∀ {l c}, f.Due [] l c → f.Due [(k, EnumSet.full)] l c := by
    rintro l c (hl | ⟨_, _, hmem, _⟩)
    · exact Or.inl hl
    · exact nomatch hmem
  refine ⟨h.size, h.recorded, ?_, ?_, ?_, ?_⟩
  · intro x hx
    rw [List.mem_singleton.mp hx]
    exact ⟨.zero, EnumSet.mem_full _⟩
  · intro l hl hlt c
    rcases List.mem_append.mp hl with hl | hl
    · exact hdue (h.rooted l hl hlt c)
    · rw [List.mem_singleton.mp hl] at hlt ⊢
      exact Or.inr ⟨h.size ▸ hlt, EnumSet.full, List.mem_singleton.mpr rfl, EnumSet.mem_full c⟩
  · exact fun hl hb hsend hlt => hdue (h.closed hl hb hsend hlt)
  · rintro l c (hl | ⟨hlt, cs, hmem, hc⟩)
    · exact (h.sound (Or.inl hl)).mono fun x hx => List.mem_append.mpr (Or.inl hx)
    · rw [List.mem_singleton, Prod.mk.injEq] at hmem
      exact .root (List.mem_append.mpr (Or.inr (List.mem_singleton.mpr hmem.1))) (h.size ▸ hlt)

theorem unentered : Spreading p blocks [] (unentered blocks.size) [] := by
  have hnone : ∀ {k : Nat} {codes : CodeSet},
      ¬ (CodeFlow.unentered blocks.size).entries[k]? = some (some codes) := by
    intro k codes hk
    exact Option.some_ne_none _ (Array.eq_of_mem_replicate (Array.mem_of_getElem? hk))
  refine ⟨Array.size_replicate, fun hk => absurd hk hnone, fun x hx => (nomatch hx),
    fun k hk => (nomatch hk), ?_, ?_⟩
  · rintro k l c c' b ⟨codes, hk, -⟩
    exact absurd hk hnone
  · rintro k c (⟨codes, hk, -⟩ | ⟨_, _, hmem, _⟩)
    · exact absurd hk hnone
    · exact nomatch hmem

/-- Hence codes can be spread from one root after the other. -/
theorem foldl : ∀ {ks roots : List Nat} {f : CodeFlow}, Spreading p blocks roots f [] →
    Spreading p blocks (roots ++ ks)
      (ks.foldl (fun f k => CodeFlow.spread p blocks f [(k, EnumSet.full)]) f) [] := by
  intro ks
  induction ks with
  | nil =>
      intro roots f h
      rw [List.append_nil]
      exact h
  | cons k ks ih =>
      intro roots f h
      have hks := ih (h.addRoot k).spread
      rw [List.append_assoc] at hks
      exact hks

end Spreading

/-- At the end the spreading is complete. -/
theorem spreading_ofRoots (roots : List Nat) :
    Spreading p blocks roots (ofRoots p blocks roots) [] :=
  Spreading.unentered.foldl

/-- What is recorded are exactly the codes with which blocks can be entered. -/
theorem holds_ofRoots {roots : List Nat} {k : Nat} {c : CondCode} :
    (ofRoots p blocks roots).Holds k c ↔ Entered p blocks roots k c := by
  have h : Spreading p blocks roots (ofRoots p blocks roots) [] := spreading_ofRoots roots
  -- nothing waits any more, so what is due is recorded
  have hdone : ∀ {l d}, (ofRoots p blocks roots).Due [] l d → (ofRoots p blocks roots).Holds l d :=
    fun hdue => hdue.resolve_right fun ⟨_, _, hmem, _⟩ => (nomatch hmem)
  refine ⟨fun hk => h.sound (Or.inl hk), fun hk => ?_⟩
  induction hk with
  | root hk hlt => exact hdone (h.rooted _ hk hlt _)
  | sent _ hb hsend hlt ih => exact hdone (h.closed ih hb hsend hlt)

/-- A block has an entry exactly if some code enters it. -/
theorem exists_entryOf_ofRoots {roots : List Nat} {k : Nat} :
    (∃ codes, (ofRoots p blocks roots).entryOf k = some codes) ↔
      ∃ c, Entered p blocks roots k c := by
  simp only [entryOf, Option.join_eq_some_iff]
  constructor
  · rintro ⟨codes, hk⟩
    obtain ⟨c, hc⟩ := (spreading_ofRoots roots).recorded hk
    exact ⟨c, holds_ofRoots.mp ⟨codes, hk, hc⟩⟩
  · rintro ⟨c, hc⟩
    obtain ⟨codes, hk, -⟩ := holds_ofRoots.mpr hc
    exact ⟨codes, hk⟩

/-- A block's entry holds exactly the codes with which it can be entered. -/
theorem mem_entryOf_ofRoots {roots : List Nat} {k : Nat} {codes : CodeSet}
    (hk : (ofRoots p blocks roots).entryOf k = some codes) {c : CondCode} :
    c ∈ codes ↔ Entered p blocks roots k c := by
  rw [entryOf, Option.join_eq_some_iff] at hk
  rw [← holds_ofRoots]
  refine ⟨fun hc => ⟨codes, hk, hc⟩, ?_⟩
  rintro ⟨codes', hk', hc⟩
  rw [hk, Option.some.injEq, Option.some.injEq] at hk'
  exact hk' ▸ hc

end CodeFlow

/-! ## Blocks and statements -/

namespace Program

variable {p : Program} {f : Flow}

/-- Some code goes on from a statement that transfers no control. -/
theorem WellFormed.exists_mem_fall (hp : p.WellFormed) {i : Nat}
    (hctl : p.test (·.isControl) i = false) (c : CondCode) : ∃ d, d ∈ (p.codesOutOf i {c}).fall := by
  cases hs : p.statements[i]? with
  | none =>
      rw [codesOutOf_none hs]
      exact ⟨c, EnumSet.mem_singleton.mpr rfl⟩
  | some s =>
      rw [test, hs, Option.any_some, ← (hp.sound hs).isSome_branch, Option.isSome_eq_false_iff,
        Option.isNone_iff_eq_none] at hctl
      have hcond : ∀ test, s.branch ≠ some (.conditional test) := by
        intro test hb
        rw [hctl] at hb
        cases hb
      rw [codesOutOf_some hs]
      exact ⟨c, Statement.mem_fall_codesOut hcond c⟩

/-- Codes come through statements that transfer no control. -/
theorem WellFormed.exists_mem_codesThrough (hp : p.WellFormed) : ∀ {is : List Nat} {S : CodeSet},
    (∀ i ∈ is, p.test (·.isControl) i = false) → (∃ c, c ∈ S) →
      ∃ c, c ∈ p.codesThrough is S := by
  intro is
  induction is with
  | nil => intro S _ hne; exact hne
  | cons i is ih =>
      rintro S his ⟨c, hc⟩
      obtain ⟨d, hd⟩ := hp.exists_mem_fall (his i (List.mem_cons_self ..)) c
      exact ih (fun j hj => his j (List.mem_cons_of_mem _ hj))
        ⟨d, ((p.additive_fall i).mem_iff ⟨c, hc⟩).mpr ⟨c, hc, hd⟩⟩

/-- The codes that spread along the blocks of a flow. -/
def codeFlow (p : Program) (f : Flow) : CodeFlow :=
  CodeFlow.ofRoots p (p.cut f).blocks (p.rootBlocks f)

/-- The codes with which the blocks of a flow can be entered. -/
abbrev Enters (p : Program) (f : Flow) : Nat → CondCode → Prop :=
  CodeFlow.Entered p (p.cut f).blocks (p.rootBlocks f)

end Program

namespace Cutting

variable {p : Program} {f : Flow}

theorem HeadAt.lt_size {c : Cutting} {k i : Nat} (h : c.HeadAt k i) : k < c.blocks.size :=
  (Array.getElem?_eq_some_iff.mp (getElem?_blocks.mpr ⟨i, h, rfl⟩)).1

/-- The codes that leave a block are those that leave the end of its run. -/
theorem codesOut_blockAt (s : Nat) (codes : CodeSet) :
    ((p.cut f).blockAt s).codesOut p codes =
      p.codesOutOf ((p.cut f).runEnd s) (p.codesThrough ((p.cut f).run s).dropLast codes) := by
  rw [Block.codesOut, show ((p.cut f).blockAt s).statements.getLast? = _ from getLast?_run s]
  rfl

/-- Some code comes through to the end of a run. -/
theorem exists_mem_codesThrough_run (hp : p.WellFormed) (s : Nat) (c : CondCode) :
    ∃ d, d ∈ p.codesThrough ((p.cut f).run s).dropLast {c} :=
  hp.exists_mem_codesThrough (fun _ => not_isControl_of_mem_dropLast)
    ⟨c, EnumSet.mem_singleton.mpr rfl⟩

/-- What a block sends leaves the end of its run along a link. -/
theorem sends_blockAt (hp : p.WellFormed) {s l : Nat} {c c' : CondCode} :
    ((p.cut f).blockAt s).Sends p {c} l c' ↔
      ∃ t d, (p.cut f).HeadAt l t ∧ d ∈ p.codesThrough ((p.cut f).run s).dropLast {c} ∧
        p.Passes f ((p.cut f).runEnd s) d t c' := by
  have hne := exists_mem_codesThrough_run (f := f) hp s c
  rw [Block.Sends, codesOut_blockAt, branch_blockAt hp, next_blockAt hp,
    (p.additive_taken _).mem_iff hne, (p.additive_fall _).mem_iff hne]
  constructor
  · rintro (⟨⟨t, hjump, hcode, hown, ht⟩, d, hd, hc'⟩ | ⟨⟨t, hnext, hcode, ht⟩, d, hd, hc'⟩)
    · exact ⟨t, d, ht, hd, .taken hjump hcode hown hc'⟩
    · exact ⟨t, d, ht, hd, .fall hnext hcode hc'⟩
  · rintro ⟨t, d, ht, hd, hpass⟩
    cases hpass with
    | fall hnext hcode hc' => exact Or.inr ⟨⟨t, hnext, hcode, ht⟩, d, hd, hc'⟩
    | taken hjump hcode hown hc' => exact Or.inl ⟨⟨t, hjump, hcode, hown, ht⟩, d, hd, hc'⟩

/-- The codes that a run lets through arrive at its end. -/
theorem arrives_runEnd_of_arrives (hp : p.WellFormed) {s : Nat} : ∀ {c d : CondCode},
    p.Arrives f s c → d ∈ p.codesThrough ((p.cut f).run s).dropLast {c} →
      p.Arrives f ((p.cut f).runEnd s) d := by
  induction s using run_induction (c := p.cut f) with
  | last s h =>
      intro c d hc hd
      rw [run_last h] at hd
      rw [runEnd_last h, EnumSet.mem_singleton.mp hd]
      exact hc
  | more s n h ih =>
      intro c d hc hd
      rw [dropLast_run_more h] at hd
      have hne := hp.exists_mem_fall (continuation_eq_some.mp h).1 c
      -- the code at the end stems from one code after the first statement
      obtain ⟨e, he, hed⟩ := (p.additive_codesThrough _).split hne hd
      obtain ⟨-, hnext, -, -, hcode, -⟩ := continuation_eq_some.mp h
      rw [runEnd_more h]
      exact ih (.step hc (.fall hnext hcode he)) hed

/-- A block can be entered only with codes that arrive at its first statement. -/
theorem arrives_of_enters (hp : p.WellFormed) (hf : p.Allows f) {k : Nat} {c : CondCode}
    (h : p.Enters f k c) : ∀ {s}, (p.cut f).HeadAt k s → p.Arrives f s c := by
  induction h with
  | root hk _ =>
      intro s hs
      obtain ⟨i, hi, hik⟩ := (mem_rootBlocks hp hf).mp hk
      rw [hs.head_unique hik]
      exact .root hi
  | sent _ hb hsend _ ih =>
      intro t ht
      obtain ⟨s, hs, rfl⟩ := getElem?_blocks.mp hb
      obtain ⟨t', d, ht', hd, hpass⟩ := (sends_blockAt hp).mp hsend
      rw [ht.head_unique ht']
      exact .step (arrives_runEnd_of_arrives hp (ih hs) hd) hpass

/-- A code that arrives somewhere comes from the head of a block that can be entered, along the
    statements of its run. -/
theorem exists_enters_of_arrives (hp : p.WellFormed) (hf : p.Allows f) {i : Nat} {c : CondCode}
    (h : p.Arrives f i c) :
    ∃ k s d front, (p.cut f).HeadAt k s ∧ p.Enters f k d ∧
      (p.cut f).run s = front ++ (p.cut f).run i ∧ c ∈ p.codesThrough front {d} := by
  induction h with
  | @root i c hi =>
      obtain ⟨k, hk⟩ := (isHead_of_isRoot hp hi).exists_headAt hp
      refine ⟨k, i, c, [], hk, .root ?_ hk.lt_size, rfl, EnumSet.mem_singleton.mpr rfl⟩
      exact (mem_rootBlocks hp hf).mpr ⟨i, hi, hk⟩
  | @step i j c c' _ hpass ih =>
      obtain ⟨k, s, d, front, hs, hk, hrun, hc⟩ := ih
      have hmem : i ∈ (p.cut f).run s := hrun ▸ List.mem_append.mpr (Or.inr (self_mem_run i))
      rcases continuation_or_runEnd hp hf hmem hpass.link with hcont | hend
      · -- within the run the code falls through
        refine ⟨k, s, d, front ++ [i], hs, hk, ?_, ?_⟩
        · rw [hrun, run_more hcont, List.append_assoc, List.singleton_append]
        · rw [Program.codesThrough, List.foldl_append]
          refine ((p.additive_fall i).mem_iff ⟨c, hc⟩).mpr ⟨c, hc, ?_⟩
          cases hpass with
          | fall _ _ out => exact out
          | taken hjump _ _ _ => exact absurd hjump (jumpOf_of_continuation hp hf hcont)
      · -- from its end it is sent on to another block
        have hlast : ((p.cut f).run s).dropLast = front := by
          have hcont := continuation_runEnd (c := p.cut f) s
          rw [← hend] at hcont
          rw [hrun, run_last hcont, List.dropLast_concat]
        have hhead := (hs.isHead hp).of_link hp (hend ▸ hpass.link)
        obtain ⟨l, hl⟩ := hhead.exists_headAt hp
        have hsend : ((p.cut f).blockAt s).Sends p {d} l c' :=
          (sends_blockAt hp).mpr ⟨j, c, hl, hlast ▸ hc, hend ▸ hpass⟩
        exact ⟨l, j, c', [], hl, .sent hk (getElem?_blocks.mpr ⟨s, hs, rfl⟩) hsend hl.lt_size, rfl,
          EnumSet.mem_singleton.mpr rfl⟩

/-- The codes that arrive at the end of a block's run are those that come through the run. -/
theorem arrives_runEnd_iff (hp : p.WellFormed) (hf : p.Allows f) {k s : Nat}
    (hs : (p.cut f).HeadAt k s) {c : CondCode} :
    p.Arrives f ((p.cut f).runEnd s) c ↔
      ∃ d, p.Enters f k d ∧ c ∈ p.codesThrough ((p.cut f).run s).dropLast {d} := by
  constructor
  · intro h
    obtain ⟨l, t, d, front, ht, hl, hrun, hc⟩ := exists_enters_of_arrives hp hf h
    have hmem : (p.cut f).runEnd s ∈ (p.cut f).run t :=
      hrun ▸ List.mem_append.mpr (Or.inr (self_mem_run _))
    obtain rfl := head_unique hp hf (ht.isHead hp) (hs.isHead hp) hmem (runEnd_mem_run s)
    obtain rfl := ht.number_unique hp hs
    refine ⟨d, hl, ?_⟩
    rw [hrun, run_last (continuation_runEnd t), List.dropLast_concat]
    exact hc
  · rintro ⟨d, hd, hc⟩
    exact arrives_runEnd_of_arrives hp (arrives_of_enters hp hf hd hs) hc

end Cutting

/-! ## What is known about a jump after a round -/

namespace Program

variable {p : Program} {f : Flow}

/-- A conditional jump is a statement that tests some codes. -/
theorem test_isConditional {i : Nat} :
    p.test (fun s => s.branch matches some (.conditional _)) i = true ↔ ∃ test, p.Tests i test := by
  rw [test_eq_true]
  constructor
  · rintro ⟨s, hs, h⟩
    split at h
    · next test hb => exact ⟨test, s, hs, hb⟩
    · exact nomatch h
  · rintro ⟨test, s, hs, hb⟩
    exact ⟨s, hs, by rw [hb]⟩

/-- A conditional jump ends its run. -/
theorem Tests.continuation (hp : p.WellFormed) {i : Nat} {test : CodeSet} (h : p.Tests i test) :
    (p.cut f).continuation i = none := by
  obtain ⟨s, hs, hb⟩ := h
  cases hc : (p.cut f).continuation i with
  | none => rfl
  | some n =>
      have hctl : p.test (·.isControl) i = false := (Cutting.continuation_eq_some.mp hc).1
      rw [Program.test, hs, Option.any_some, ← (hp.sound hs).isSome_branch, hb] at hctl
      cases hctl

/-- The jump that an entered block says something about. -/
def reports (p : Program) (g : CodeFlow) (x : Block × Nat) : List Nat :=
  match x.1.statements.getLast?, g.entryOf x.2 with
  | some i, some _ =>
    if p.test (fun s => s.branch matches some (.conditional _)) i then [i] else []
  | _, _ => []

/-- A block that has been entered reports on its last statement, if that is a conditional jump. -/
theorem mem_reports {g : CodeFlow} {x : Block × Nat} {i : Nat} :
    i ∈ p.reports g x ↔
      x.1.statements.getLast? = some i ∧ (∃ codes, g.entryOf x.2 = some codes) ∧
        ∃ test, p.Tests i test := by
  rw [← test_isConditional, reports]
  cases x.1.statements.getLast? with
  | none => simp
  | some j =>
      cases g.entryOf x.2 with
      | none => simp
      | some codes =>
          show i ∈ (if p.test (fun s => s.branch matches some (.conditional _)) j = true then [j]
            else []) ↔ _
          by_cases hj : p.test (fun s => s.branch matches some (.conditional _)) j = true
          · rw [if_pos hj, List.mem_singleton]
            constructor
            · rintro rfl
              exact ⟨rfl, ⟨codes, rfl⟩, hj⟩
            · rintro ⟨h, -⟩
              exact (Option.some.inj h).symm
          · rw [if_neg hj]
            refine ⟨fun h => (nomatch h), ?_⟩
            rintro ⟨h, -, hi⟩
            exact absurd (Option.some.inj h ▸ hi) hj

/-- Blocks report on their jumps one after the other. -/
theorem arrivalsAfter_eq (p : Program) (blocks : Array Block) (g : CodeFlow) (before : Arrivals) :
    p.arrivalsAfter blocks g before =
      blocks.toList.zipIdx.foldl
        (fun t x => setAll t (p.reports g x) (some (x.1.codesAtEnd p ((g.entryOf x.2).getD ∅))))
        before := by
  rw [arrivalsAfter]
  congr 1
  funext table ⟨b, k⟩
  rw [reports]
  dsimp only
  cases b.statements.getLast? with
  | none => rfl
  | some i =>
      cases g.entryOf k with
      | none => rfl
      | some codes =>
          show (if p.test (fun s => s.branch matches some (.conditional _)) i = true then
              table.setIfInBounds i (some (b.codesAtEnd p codes)) else table) =
            setAll table (if p.test (fun s => s.branch matches some (.conditional _)) i = true
              then [i] else []) (some (b.codesAtEnd p codes))
          by_cases hi : p.test (fun s => s.branch matches some (.conditional _)) i = true
          · rw [if_pos hi, if_pos hi]
            rfl
          · rw [if_neg hi, if_neg hi]
            rfl

/-- The table of what jumps are known by keeps its size. -/
theorem size_arrivalsAfter (p : Program) (blocks : Array Block) (g : CodeFlow)
    (before : Arrivals) : (p.arrivalsAfter blocks g before).size = before.size := by
  rw [arrivalsAfter_eq]
  exact List.foldlRecOn (motive := fun t : Arrivals => t.size = before.size) _ _ rfl
    fun t ht x _ => (size_setAll ..).trans ht

/-- The codes at the end of a block are those that arrive there along links. -/
theorem mem_codesAtEnd (hp : p.WellFormed) (hf : p.Allows f) {k s : Nat}
    (hs : (p.cut f).HeadAt k s) {codes : CodeSet} (hk : (p.codeFlow f).entryOf k = some codes)
    {c : CondCode} :
    c ∈ ((p.cut f).blockAt s).codesAtEnd p codes ↔ p.Arrives f ((p.cut f).runEnd s) c := by
  have hmem := @CodeFlow.mem_entryOf_ofRoots _ _ _ _ _ hk
  obtain ⟨d, hd⟩ := CodeFlow.exists_entryOf_ofRoots.mp ⟨codes, hk⟩
  rw [Block.codesAtEnd, (p.additive_codesThrough _).mem_iff ⟨d, hmem.mpr hd⟩,
    Cutting.arrives_runEnd_iff hp hf hs]
  constructor
  · rintro ⟨d, hd, hc⟩
    exact ⟨d, hmem.mp hd, hc⟩
  · rintro ⟨d, hd, hc⟩
    exact ⟨d, hmem.mpr hd, hc⟩

/-- A block reports on a conditional jump exactly if some code arrives at the jump. -/
theorem exists_reports_iff (hp : p.WellFormed) (hf : p.Allows f) {i : Nat} :
    (∃ x ∈ (p.cut f).blocks.toList.zipIdx, i ∈ p.reports (p.codeFlow f) x) ↔
      (∃ test, p.Tests i test) ∧ ∃ c, p.Arrives f i c := by
  constructor
  · rintro ⟨⟨b, k⟩, hx, hi⟩
    obtain ⟨s, hs, rfl⟩ := Cutting.mem_zipIdx_blocks.mp hx
    obtain ⟨hlast, hentry, htests⟩ := mem_reports.mp hi
    obtain rfl := Option.some.inj ((Cutting.getLast?_run s).symm.trans hlast)
    obtain ⟨d, hd⟩ := CodeFlow.exists_entryOf_ofRoots.mp hentry
    obtain ⟨c, hc⟩ := Cutting.exists_mem_codesThrough_run (f := f) hp s d
    exact ⟨htests, c, (Cutting.arrives_runEnd_iff hp hf hs).mpr ⟨d, hd, hc⟩⟩
  · rintro ⟨⟨test, htest⟩, c, hc⟩
    obtain ⟨k, s, d, front, hs, hd, hrun, -⟩ := Cutting.exists_enters_of_arrives hp hf hc
    refine ⟨_, Cutting.mem_zipIdx_blocks.mpr ⟨s, hs, rfl⟩, mem_reports.mpr ⟨?_, ?_, test, htest⟩⟩
    · show ((p.cut f).run s).getLast? = some i
      rw [hrun, Cutting.run_last (htest.continuation hp), List.getLast?_concat]
    · exact CodeFlow.exists_entryOf_ofRoots.mpr ⟨d, hd⟩

/-- After a round a conditional jump that codes arrive at is known by exactly these codes. -/
theorem arrivalsAfter_of_arrives (hp : p.WellFormed) (hf : p.Allows f) {before : Arrivals}
    (hsize : before.size = p.statements.size) {i : Nat} {test : CodeSet} (htest : p.Tests i test)
    (harr : ∃ c, p.Arrives f i c) :
    ∃ codes, (p.arrivalsAfter (p.cut f).blocks (p.codeFlow f) before)[i]? = some (some codes) ∧
      ∀ c, c ∈ codes ↔ p.Arrives f i c := by
  obtain ⟨x, hx, hi⟩ := (exists_reports_iff hp hf).mpr ⟨⟨test, htest⟩, harr⟩
  -- all blocks that report on the jump report the same
  have hvalue : ∀ y ∈ (p.cut f).blocks.toList.zipIdx, i ∈ p.reports (p.codeFlow f) y →
      ∀ c, c ∈ y.1.codesAtEnd p (((p.codeFlow f).entryOf y.2).getD ∅) ↔ p.Arrives f i c := by
    rintro ⟨b, k⟩ hy hiy c
    obtain ⟨s, hs, rfl⟩ := Cutting.mem_zipIdx_blocks.mp hy
    obtain ⟨hlast, ⟨codes, hk⟩, -⟩ := mem_reports.mp hiy
    obtain rfl := Option.some.inj ((Cutting.getLast?_run s).symm.trans hlast)
    rw [hk, Option.getD_some]
    exact mem_codesAtEnd hp hf hs hk
  refine ⟨x.1.codesAtEnd p (((p.codeFlow f).entryOf x.2).getD ∅), ?_, hvalue x hx hi⟩
  rw [arrivalsAfter_eq]
  refine getElem?_foldl_setAll_of_mem ?_ ⟨x, hx, hi⟩ ?_
  · obtain ⟨s, hs, -⟩ := htest
    rw [hsize]
    exact (Array.getElem?_eq_some_iff.mp hs).1
  · intro y hy hiy
    rw [Option.some.injEq]
    ext c
    rw [hvalue y hy hiy c, hvalue x hx hi c]

/-- About any other statement nothing new is known. -/
theorem arrivalsAfter_of_not_arrives (hp : p.WellFormed) (hf : p.Allows f) {before : Arrivals}
    {i : Nat} (h : ¬ ((∃ test, p.Tests i test) ∧ ∃ c, p.Arrives f i c)) :
    (p.arrivalsAfter (p.cut f).blocks (p.codeFlow f) before)[i]? = before[i]? := by
  rw [arrivalsAfter_eq]
  refine getElem?_foldl_setAll_of_not_mem fun x hx hi => h ?_
  exact (exists_reports_iff hp hf).mp ⟨x, hx, hi⟩

end Program

end AsmCheck
