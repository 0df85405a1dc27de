import AsmCheck.Proofs.Findings
import AsmCheck.Proofs.Overlaps
import AsmCheck.Proofs.RegisterWalk

/-! # Values that nobody gave

    A register is an input of the main routine if some path uses its value
    before it writes the register.  The walk over the blocks finds inputs by
    passing them back from the blocks that a block goes on to, but it learns
    nothing from a block that it is still within.  So an input is found if a
    path leads to it no step of which goes back, that is to a statement which
    some other path has passed already (`input_of_needsForward`).

    Where every loop is entered at its top, a path can be cut short until none
    of its steps goes back (`NeedsValue.needsForward`), and then no input is
    missed (`inputs_reported`).  A loop with two ways in shows that this cannot
    be left out (`twoWaysIn_input_missed`): the walk comes to the second way in
    through the first one, where the register has been written. -/

namespace AsmCheck

open Relation

/-! ## Going back over a statement -/

namespace RegisterStatus

variable {r : Reg} {fx : Effects} {t : Option Transfer} {after : RegisterStatus}

/-- Nothing is saved unless the transfer saves this register. -/
theorem savePlace_eq_none : savePlace r t = none ↔ ∀ place, t ≠ some (.save r place) := by
  constructor
  · rintro h place rfl
    rw [savePlace, if_pos rfl] at h
    cases h
  · intro h
    cases t with
    | none => rfl
    | some t =>
        cases t with
        | save r' place =>
            rw [savePlace, if_neg]
            rintro rfl
            exact h place rfl
        | restore r' place => rfl

/-- A register is an input before a statement if the statement uses its value, or if it is an input
    afterwards and the statement does not write it. -/
theorem input_before : SaveMark.input ∈ (before fx t r after).save ↔
    (r ∈ fx.uses ∧ savePlace r t = none ∧ r.isManaged = false) ∨
      (SaveMark.input ∈ after.save ∧ ¬ r ∈ fx.writes) := by
  by_cases hw : r ∈ fx.writes
  · simp [before, EnumSet.contains_iff, hw, and_assoc]
  · simp [before, EnumSet.contains_iff, hw, and_assoc, or_comm]

end RegisterStatus

namespace Program

variable {p : Program} {f : Flow} {r : Reg} {e i j : Nat}

/-! ## Paths that use a value -/

/-- Statement `i` writes register `r`. -/
def Writes (p : Program) (r : Reg) (i : Nat) : Prop :=
  ∃ s, p.statements[i]? = some s ∧ r ∈ s.effects.writes

/-- Statement `i` makes use of the value of register `r`, which the machine does not manage, and
    does not just put it aside. -/
def UsesValue (p : Program) (r : Reg) (i : Nat) : Prop :=
  r.isManaged = false ∧ ∃ s, p.statements[i]? = some s ∧ r ∈ s.effects.uses ∧
    ∀ place, s.transfer ≠ some (.save r place)

/-- A link from a statement that leaves register `r` alone. -/
def CleanLink (p : Program) (f : Flow) (r : Reg) (i j : Nat) : Prop :=
  ¬ p.Writes r i ∧ p.Link f i j

/-- Some path from `i` reaches a statement that uses the value of `r` before one that writes it. -/
def NeedsValue (p : Program) (f : Flow) (r : Reg) (i : Nat) : Prop :=
  ∃ k, ReflTransGen (p.CleanLink f r) i k ∧ p.UsesValue r k

/-- A list of statements that leads from one to another. -/
structure IsWay (step : Nat → Nat → Prop) (e i : Nat) (way : List Nat) : Prop where
  head : way.head? = some e
  last : way.getLast? = some i
  chain : way.IsChain step

/-- A link that leads back, for one who starts at `e`: some way from `e` without repetitions has
    passed its target before it comes to its source. -/
def GoesBack (p : Program) (f : Flow) (e i j : Nat) : Prop :=
  p.Link f i j ∧ ∃ way : List Nat, way.Nodup ∧ IsWay (p.Link f) e i way ∧ j ∈ way

/-- Loops are entered at their top, as far as ways from `e` go that leave `r` alone: where a link
    leads back, every such way to its source has passed its target. -/
def LoopsFromTop (p : Program) (f : Flow) (r : Reg) (e : Nat) : Prop :=
  ∀ i j, p.GoesBack f e i j → ∀ way, IsWay (p.CleanLink f r) e i way → j ∈ way

/-- A link that leaves `r` alone and does not lead back. -/
def ForwardLink (p : Program) (f : Flow) (r : Reg) (e i j : Nat) : Prop :=
  p.CleanLink f r i j ∧ ¬ p.GoesBack f e i j

/-- Some path from `i` that never leads back reaches a use of `r` before a write. -/
def NeedsForward (p : Program) (f : Flow) (r : Reg) (e i : Nat) : Prop :=
  ∃ k, ReflTransGen (p.ForwardLink f r e) i k ∧ p.UsesValue r k

/-- A value that is needed from here on is used here, or needed behind a link that does not lead
    back. -/
theorem NeedsForward.cases (h : p.NeedsForward f r e i) :
    p.UsesValue r i ∨ (¬ p.Writes r i ∧ ∃ j, p.Link f i j ∧ ¬ p.GoesBack f e i j ∧
      p.NeedsForward f r e j) := by
  obtain ⟨k, hpath, hk⟩ := h
  rcases hpath.cases_head with rfl | ⟨j, ⟨⟨hi, hlink⟩, hback⟩, hpath⟩
  · exact Or.inl hk
  · exact Or.inr ⟨hi, j, hlink, hback, k, hpath, hk⟩

namespace IsWay

variable {step : Nat → Nat → Prop} {k : Nat} {way way' : List Nat}

theorem ne_nil (h : IsWay step e i way) : way ≠ [] := by
  rintro rfl
  cases h.head

/-- Two ways joined by a step make up one. -/
theorem append (h : IsWay step e i way) (hij : step i j) (h' : IsWay step j k way') :
    IsWay step e k (way ++ way') := by
  refine ⟨?_, ?_, ?_⟩
  · rw [List.head?_append, h.head]
    rfl
  · rw [List.getLast?_append, h'.last]
    rfl
  · refine List.isChain_append.mpr ⟨h.chain, h'.chain, fun a ha b hb => ?_⟩
    rw [h.last] at ha
    rw [h'.head] at hb
    cases ha
    cases hb
    exact hij

/-- A way leads from its start to its end. -/
theorem reflTransGen (h : IsWay step e i way) : ReflTransGen step e i := by
  induction way generalizing e with
  | nil => exact absurd rfl h.ne_nil
  | cons a way ih =>
      obtain rfl := Option.some.inj h.head
      cases way with
      | nil =>
          obtain rfl := Option.some.inj h.last
          exact .refl
      | cons b way =>
          obtain ⟨hab, hchain⟩ := List.isChain_cons_cons.mp h.chain
          have hlast := h.last
          rw [List.getLast?_cons_cons] at hlast
          exact .head hab (ih ⟨rfl, hlast, hchain⟩)

/-- What can be reached is reached by some way. -/
theorem exists_of_reflTransGen (h : ReflTransGen step e i) : ∃ way, IsWay step e i way := by
  induction h with
  | refl => exact ⟨[e], rfl, rfl, List.isChain_singleton e⟩
  | @tail j k _ hjk ih =>
      obtain ⟨way, hway⟩ := ih
      exact ⟨way ++ [k], hway.append hjk ⟨rfl, rfl, List.isChain_singleton k⟩⟩

/-- The end of a way can be reached from everywhere on it. -/
theorem reflTransGen_of_mem (h : IsWay step e i way) (hj : j ∈ way) : ReflTransGen step j i := by
  obtain ⟨before, after, rfl⟩ := List.append_of_mem hj
  have hlast : (j :: after).getLast? = some i := by
    rw [← h.last, List.getLast?_append]
    rfl
  have hrest : IsWay step j i (j :: after) := ⟨rfl, hlast, (List.isChain_split.mp h.chain).2⟩
  exact hrest.reflTransGen

/-- What comes before a step of a way leads to the source of the step. -/
theorem before_step {a b : Nat} {before after : List Nat}
    (h : IsWay step e i (before ++ a :: b :: after)) : IsWay step e a (before ++ [a]) := by
  refine ⟨?_, List.getLast?_concat, (List.isChain_split.mp h.chain).1⟩
  rw [← h.head]
  cases before with
  | nil => rfl
  | cons c before => rfl

/-- A way that comes to a statement twice can go on from the first time as from the second. -/
theorem shortcut {b : Nat} {before mid after : List Nat}
    (h : IsWay step e i (before ++ b :: mid ++ b :: after)) :
    IsWay step e i (before ++ b :: after) := by
  refine ⟨?_, ?_, ?_⟩
  · rw [← h.head]
    cases before with
    | nil => rfl
    | cons c before => rfl
  · rw [← h.last, List.getLast?_append, List.getLast?_append]
    rfl
  · refine List.isChain_split.mpr ⟨?_, (List.isChain_split.mp h.chain).2⟩
    have hfront := (List.isChain_split.mp h.chain).1
    rw [List.append_assoc] at hfront
    exact (List.isChain_split.mp hfront).1

end IsWay

/-- Where loops are entered at their top, a way that leaves `r` alone can be cut short until none of
    its links leads back. -/
theorem LoopsFromTop.exists_forward_way (hloops : p.LoopsFromTop f r e) {way : List Nat}
    (hway : IsWay (p.CleanLink f r) e i way) : ∃ way', IsWay (p.ForwardLink f r e) e i way' := by
  induction hn : way.length using Nat.strongRecOn generalizing way with
  | ind n ih =>
      by_cases hback : ∃ a b before after, way = before ++ a :: b :: after ∧ p.GoesBack f e a b
      · -- the target of a link that leads back has been passed, and what lies between is left out
        obtain ⟨a, b, before, after, rfl, hab⟩ := hback
        have hmem := hloops a b hab _ hway.before_step
        obtain ⟨front, mid, hsplit⟩ := List.append_of_mem hmem
        have hloop : before ++ a :: b :: after = front ++ b :: mid ++ b :: after := by
          rw [← hsplit, List.append_assoc]
          rfl
        rw [hloop] at hway hn
        refine ih _ ?_ hway.shortcut rfl
        simp only [List.length_append, List.length_cons] at hn ⊢
        omega
      · refine ⟨way, hway.head, hway.last, ?_⟩
        rw [List.isChain_iff_forall_rel_of_append_cons_cons]
        intro a b before after hsplit
        refine ⟨?_, fun hab => hback ⟨a, b, before, after, hsplit, hab⟩⟩
        exact List.isChain_iff_forall_rel_of_append_cons_cons.mp hway.chain hsplit

/-- If loops are entered at their tops, a value that is needed is needed without ever going back. -/
theorem NeedsValue.needsForward (hloops : p.LoopsFromTop f r e) (h : p.NeedsValue f r e) :
    p.NeedsForward f r e e := by
  obtain ⟨k, hpath, hk⟩ := h
  obtain ⟨way, hway⟩ := IsWay.exists_of_reflTransGen hpath
  obtain ⟨way', hway'⟩ := hloops.exists_forward_way hway
  exact ⟨k, hway'.reflTransGen, hk⟩

/-! ## Scans -/

/-- A table that has register `r` as an input. -/
def HasInput (r : Reg) (t : RegisterTable) : Prop :=
  SaveMark.input ∈ (t.get r).save

/-- Merged tables have the inputs of both. -/
theorem hasInput_merge {t u : RegisterTable} :
    HasInput r (t.merge u) ↔ HasInput r t ∨ HasInput r u := by
  rw [HasInput, RegisterTable.get_merge]
  exact EnumSet.mem_union

/-- A block passes on the inputs of the blocks that it goes on to. -/
theorem hasInput_tableAfter {b : Block} {v : Visits} {l : Nat} (hl : l ∈ b.succs)
    (h : HasInput r ((v[l]?.map Visit.table).getD default)) : HasInput r (b.tableAfter v) := by
  have hfold : ∀ {ls : List Nat} {t : RegisterTable}, HasInput r t ∨ l ∈ ls →
      HasInput r (ls.foldl (fun t s => t.merge ((v[s]?.map Visit.table).getD default)) t) := by
    intro ls
    induction ls with
    | nil =>
        intro t ht
        exact ht.resolve_right List.not_mem_nil
    | cons m ls ih =>
        intro t ht
        refine ih ?_
        rw [hasInput_merge]
        rcases ht with ht | ht
        · exact Or.inl (Or.inl ht)
        · rcases List.mem_cons.mp ht with rfl | hmem
          · exact Or.inl (Or.inr h)
          · exact Or.inr hmem
  exact hfold (Or.inr hl)

/-- Back over a statement from which a path leads to a use. -/
theorem hasInput_scan_cons {is : List Nat} {after : RegisterTable} (hcode : p.isCode i = true)
    (hneeds : p.NeedsForward f r e i)
    (h : ∀ j, p.Link f i j → ¬ p.GoesBack f e i j → p.NeedsForward f r e j →
      HasInput r (p.scan is after).table) :
    HasInput r (p.scan (i :: is) after).table := by
  obtain ⟨s, hs, -⟩ := test_eq_true.mp hcode
  rw [scan_cons hs, HasInput, RegisterTable.get_tableBefore, RegisterStatus.input_before]
  rcases hneeds.cases with ⟨hmanaged, s', hs', huses, hsave⟩ | ⟨hwrites, j, hlink, hback, hj⟩
  · rw [hs, Option.some.injEq] at hs'
    subst hs'
    exact Or.inl ⟨huses, RegisterStatus.savePlace_eq_none.mpr hsave, hmanaged⟩
  · exact Or.inr ⟨h j hlink hback hj, fun hw => hwrites ⟨s, hs, hw⟩⟩

/-- The scan of a run finds an input that a path from its head leads to. -/
theorem hasInput_scan_run (hp : p.WellFormed) (hf : p.Allows f) {after : RegisterTable} {s : Nat}
    (hs : p.Reached f s) (hneeds : p.NeedsForward f r e s)
    (h : ∀ j, p.Link f ((p.cut f).runEnd s) j → ¬ p.GoesBack f e ((p.cut f).runEnd s) j →
      p.NeedsForward f r e j → HasInput r after) :
    HasInput r (p.scan ((p.cut f).run s) after).table := by
  induction s using Cutting.run_induction (c := p.cut f) with
  | last s hlast =>
      rw [Cutting.runEnd_last hlast] at h
      rw [Cutting.run_last hlast]
      exact hasInput_scan_cons (hp.isCode_of_reached hs) hneeds h
  | more s n hmore ih =>
      rw [Cutting.runEnd_more hmore] at h
      rw [Cutting.run_more hmore]
      refine hasInput_scan_cons (hp.isCode_of_reached hs) hneeds ?_
      intro j hlink _ hj
      -- within a run, the one link leads to the next statement
      obtain rfl := Cutting.eq_of_link_of_continuation hp hf hmore hlink
      exact ih (hs.step hlink) hj h

/-! ## The walk from the main routine's block -/

/-- The statements of the blocks that the walk is within are a way from the head of the first to the
    end of the innermost. -/
theorem exists_way_of_path (hp : p.WellFormed) (hf : p.Allows f) {m : Nat}
    (hm : (p.cut f).HeadAt m e) : ∀ {ks : List Nat} {k s : Nat}, (p.cut f).HeadAt k s →
      (k :: ks).IsChain (fun l k => GoesOn (p.cut f).blocks k l) →
      (∀ l, (k :: ks).getLast? = some l → l = m) → (k :: ks).Nodup →
      ∃ way : List Nat, way.Nodup ∧ IsWay (p.Link f) e ((p.cut f).runEnd s) way ∧
        ∀ x, x ∈ way ↔ ∃ l ∈ k :: ks, ∃ t, (p.cut f).HeadAt l t ∧ x ∈ (p.cut f).run t := by
  have hrun : ∀ s, IsWay (p.Link f) s ((p.cut f).runEnd s) ((p.cut f).run s) := fun s =>
    ⟨Cutting.head?_run s, Cutting.getLast?_run s,
      (Cutting.isChain_run s).imp fun _ _ h => Cutting.link_of_continuation h⟩
  intro ks
  induction ks with
  | nil =>
      intro k s hs _ hlast _
      obtain rfl := hlast k rfl
      obtain rfl := hs.head_unique hm
      refine ⟨_, Cutting.nodup_run s, hrun s, fun x => ⟨fun hx => ?_, ?_⟩⟩
      · exact ⟨k, List.mem_singleton.mpr rfl, s, hs, hx⟩
      · rintro ⟨l, hl, t, ht, hx⟩
        obtain rfl := List.mem_singleton.mp hl
        obtain rfl := ht.head_unique hs
        exact hx
  | cons k' ks ih =>
      intro k s hs hchain hlast hnodup
      obtain ⟨⟨b, hb, hk⟩, hchain'⟩ := List.isChain_cons_cons.mp hchain
      obtain ⟨hnew, hnodup'⟩ := List.nodup_cons.mp hnodup
      obtain ⟨s', hs', rfl⟩ := Cutting.getElem?_blocks.mp hb
      obtain ⟨way, hwaynodup, hway, hmem⟩ := ih hs' hchain'
        (fun l hl => hlast l (by rw [List.getLast?_cons_cons]; exact hl)) hnodup'
      have hlink : p.Link f ((p.cut f).runEnd s') s :=
        (Cutting.link_runEnd_iff hp hs').mpr ⟨k, hk, hs⟩
      refine ⟨way ++ (p.cut f).run s, ?_, hway.append hlink (hrun s), fun x => ?_⟩
      · refine List.nodup_append.mpr ⟨hwaynodup, Cutting.nodup_run s, ?_⟩
        rintro x hx y hy rfl
        -- a statement is in one block only, and the new one is not on the path
        obtain ⟨l, hl, t, ht, hxt⟩ := (hmem x).mp hx
        obtain rfl := Cutting.head_unique hp hf (ht.isHead hp) (hs.isHead hp) hxt hy
        exact hnew (hs.number_unique hp ht ▸ hl)
      · rw [List.mem_append, hmem]
        constructor
        · rintro (⟨l, hl, ht⟩ | hx)
          · exact ⟨l, List.mem_cons_of_mem k hl, ht⟩
          · exact ⟨k, List.mem_cons_self .., s, hs, hx⟩
        · rintro ⟨l, hl, t, ht, hx⟩
          rcases List.mem_cons.mp hl with rfl | hl
          · obtain rfl := ht.head_unique hs
            exact Or.inr hx
          · exact Or.inl ⟨l, hl, t, ht, hx⟩

/-- The inputs found so far on the walk from block `m`, which starts at `e`: a block that has been
    scanned has register `r` as an input if a path that never leads back says so. -/
structure InputsFound (p : Program) (f : Flow) (r : Reg) (e m : Nat) (v : Visits)
    (frames : List Frame) : Prop extends p.Touring (p.cut f).blocks [m] v frames,
    Within (p.cut f).blocks m v frames where
  inputs : ∀ {k s : Nat} {result : Scan}, v[k]? = some (.finished result) →
    (p.cut f).HeadAt k s → p.NeedsForward f r e s → HasInput r result.table

namespace InputsFound

variable {m k : Nat} {v : Visits} {rest : List Frame}

/-- A link from the end of the innermost block into a block that the walk is within leads back. -/
theorem goesBack (hp : p.WellFormed) (hf : p.Allows f) (hm : (p.cut f).HeadAt m e)
    (h : p.InputsFound f r e m v (.leave k :: rest)) {s l : Nat} (hs : (p.cut f).HeadAt k s)
    (hl : (p.cut f).HeadAt l j) (hon : v[l]? = some .onPath)
    (hlink : p.Link f ((p.cut f).runEnd s) j) : p.GoesBack f e ((p.cut f).runEnd s) j := by
  obtain ⟨hchain, hlast⟩ := h.nested.isChain_path
  obtain ⟨way, hnodup, hway, hmem⟩ := exists_way_of_path hp hf hm hs hchain hlast h.nodup
  refine ⟨hlink, way, hnodup, hway, (hmem j).mpr ⟨l, ?_, j, hl, Cutting.self_mem_run j⟩⟩
  exact mem_path.mpr (h.pending hon)

/-- Leaving a block finds its inputs: those of its own, and those of the blocks that it goes on to
    without going back. -/
theorem leave (hp : p.WellFormed) (hf : p.Allows f) (hm : (p.cut f).HeadAt m e) {b : Block}
    (h : p.InputsFound f r e m v (.leave k :: rest)) (hb : (p.cut f).blocks[k]? = some b) :
    p.InputsFound f r e m (p.leaving v k b) rest := by
  refine ⟨h.toTouring.leave hb, h.toWithin.leave _, ?_⟩
  intro l s result hl hs hneeds
  rw [getElem?_leaving (h.size ▸ (Array.getElem?_eq_some_iff.mp hb).1)] at hl
  split at hl
  · next hkl =>
    subst hkl
    obtain ⟨t, ht, rfl⟩ := Cutting.getElem?_blocks.mp hb
    obtain rfl := hs.head_unique ht
    rw [Option.some.injEq, Visit.finished.injEq] at hl
    rw [← hl]
    refine hasInput_scan_run hp hf ((hs.isHead hp).reached hp) hneeds ?_
    intro j hlink hback hj
    obtain ⟨l, hl, hlj⟩ := (Cutting.link_runEnd_iff hp hs).mp hlink
    refine hasInput_tableAfter hl ?_
    have hseen := h.ready.1 _ hb l hl
    have hlt : l < v.size := by
      rw [h.size]
      exact (Array.getElem?_eq_some_iff.mp (Cutting.getElem?_blocks.mpr ⟨j, hlj, rfl⟩)).1
    obtain ⟨x, hx⟩ : ∃ x, v[l]? = some x := ⟨_, Array.getElem?_eq_getElem hlt⟩
    rw [hx]
    cases x with
    | fresh =>
        rw [Seen, Visits.isFreshAt, hx] at hseen
        cases hseen
    | onPath => exact absurd (h.goesBack hp hf hm hs hlj hx hlink) hback
    | finished result => exact h.inputs hx hlj hj
  · exact h.inputs hl hs hneeds

/-- Every step of the walk keeps what has been found. -/
theorem walkInvariant (hp : p.WellFormed) (hf : p.Allows f) (hm : (p.cut f).HeadAt m e) :
    WalkInvariant p (p.cut f).blocks (p.InputsFound f r e m) where
  skip h hk := ⟨h.toTouring.skip hk, h.toWithin.skip, h.inputs⟩
  enter h hk := ⟨h.toTouring.enter, h.toWithin.enter hk,
    fun hl => h.inputs (finished_of_enter hl)⟩
  gone h hb := ⟨h.toTouring.gone hb, h.toWithin.gone, h.inputs⟩
  leave h hb := h.leave hp hf hm hb

theorem start :
    p.InputsFound f r e m (Array.replicate (p.cut f).blocks.size .fresh) [.enter m] := by
  refine ⟨Touring.start.root m, .start _ m, ?_⟩
  intro k s result hk
  cases Touring.eq_fresh_of_start hk

end InputsFound

/-! ## Rounds -/

/-- The block of the main routine is the first one that is walked from. -/
theorem rootBlocks_eq_cons (hp : p.WellFormed) (hf : p.Allows f) {m : Nat}
    (hentry : p.entry = some e) (hm : (p.cut f).HeadAt m e) :
    ∃ rest, p.rootBlocks f = m :: rest := by
  have hplace := (Cutting.places_cut hp hf).mpr ⟨e, hm, Cutting.self_mem_run e⟩
  rw [rootBlocks, roots, hentry]
  exact ⟨_, List.filterMap_cons_some hplace⟩

/-- A round finds every input of the main routine that a path leads to which never leads back. -/
theorem WellFormed.input_of_needsForward (hp : p.WellFormed) {arrivals : Arrivals}
    (hentry : p.entry = some e) (hneeds : p.NeedsForward (p.flow arrivals) r e e) :
    ∃ m, (p.round arrivals).places[e]?.join = some m ∧
      HasInput r ((p.round arrivals).tableOf m) := by
  have hf := hp.allows_flow arrivals
  have hroot : p.IsRoot e := hp.isRoot_iff.mpr (Or.inl hentry)
  obtain ⟨m, hm⟩ := (Cutting.isHead_of_isRoot hp hroot).exists_headAt hp (f := p.flow arrivals)
  have hblock := Cutting.getElem?_blocks.mpr ⟨e, hm, rfl⟩
  obtain ⟨rest, hroots⟩ := rootBlocks_eq_cons hp hf hentry hm
  -- the walk from the main routine's block scans that block, and later walks leave the result alone
  have hwalk := (InputsFound.walkInvariant (r := r) hp hf hm).walkBlocks .start
  obtain ⟨v, hv⟩ := hwalk.exists_scan
    ((hwalk.rooted m (List.mem_singleton.mpr rfl)).resolve_right List.not_mem_nil) hblock
  have hresult : (p.registerUse (p.cut (p.flow arrivals)).blocks (m :: rest))[m]? = _ :=
    registerUse_cons_of_finished hv
  rw [← hroots] at hresult
  refine ⟨m, (Cutting.places_cut hp hf).mpr ⟨e, hm, Cutting.self_mem_run e⟩, ?_⟩
  rw [Round.tableOf, show (p.round arrivals).visits[m]? = _ from hresult]
  exact hwalk.inputs hv hm hneeds

end Program

namespace Analysis

/-- What is wrong with a routine's use of registers, seen from its block, is reported at its
    entry. -/
theorem registerIssue_mem_findings {a : Analysis} {s : Subroutine} {k : Nat} {x : Issue}
    (hs : s ∈ a.last.subroutines) (hk : s.block = some k)
    (hx : x ∈ registerIssues a s (a.last.tableOf k)) :
    { line := a.program.lineOf s.entry, issue := x } ∈ a.findings := by
  rw [mem_findings, rawFindings, List.mem_append]
  exact Or.inr (mem_registerFindings.mpr ⟨s, hs, k, hk, rfl, hx⟩)

/-- An input of the main routine's block is reported at its entry. -/
theorem uninitializedRead_mem_findings {a : Analysis} {arrivals : Arrivals} {e m : Nat} {r : Reg}
    (hlast : a.last = a.program.round arrivals) (hentry : a.program.entry = some e)
    (hplace : a.last.places[e]?.join = some m) (hinput : Program.HasInput r (a.last.tableOf m)) :
    { line := a.program.lineOf e, issue := .uninitializedRead r } ∈ a.findings := by
  have hmain : ∃ s ∈ a.last.subroutines, s.entry = e ∧ s.isMain = true ∧ s.block = some m := by
    rw [hlast] at hplace ⊢
    rw [Program.subroutines_round, Program.roots, hentry]
    exact ⟨_, List.mem_cons_self .., rfl, rfl, hplace⟩
  obtain ⟨s, hs, rfl, hsmain, hblock⟩ := hmain
  refine registerIssue_mem_findings hs hblock ?_
  rw [registerIssues, if_pos hsmain]
  refine List.mem_map.mpr ⟨r, List.mem_filter.mpr ⟨?_, EnumSet.contains_iff.mpr hinput⟩, rfl⟩
  cases r <;> decide

/-- Where loops are entered at their top, no use of a value that nobody gave is missed: for every
    source text and all usable settings, after any number of further rounds, if some path along the
    last round's links leads from the program's entry to a use of a register before a write, this is
    reported at the entry. -/
theorem inputs_reported (source : String) (config : Config) (hvalid : config.validate = .ok ())
    (n : Nat) :
    ∃ a, ofSource source config = .ok a ∧
      ∀ e r, (a.rerun n).program.entry = some e →
        (a.rerun n).program.LoopsFromTop (a.rerun n).last.flow r e →
        (a.rerun n).program.NeedsValue (a.rerun n).last.flow r e →
          { line := (a.rerun n).program.lineOf e, issue := .uninitializedRead r } ∈
            (a.rerun n).findings := by
  refine ⟨ofText source config, ofSource_eq_ok hvalid, ?_⟩
  intro e r hentry hloops hneeds
  obtain ⟨hprog, arrivals, hlast⟩ := exists_last_eq_round source config n
  have hp := Program.wellFormed_assemble source.toList config
  rw [← hprog] at hp hlast
  rw [hlast] at hloops hneeds
  obtain ⟨m, hplace, hinput⟩ := hp.input_of_needsForward hentry (hneeds.needsForward hloops)
  rw [← hlast] at hplace hinput
  exact uninitializedRead_mem_findings hlast hentry hplace hinput

/-- A loop at the entry, and after it a use of a register that nobody has written. -/
def loopThenUse : String :=
  "top: jne top\nmovl %eax, %ebx\nret\n"

theorem loopThenUse_text {a : Analysis} (ha : a = (ofText loopThenUse {}).rerun 1) :
    a.program.statements.size = 3 ∧ a.program.entry = some 0 ∧
      (∀ i < 3, ∀ j < 3, a.program.Link a.last.flow i j → j = 0 ∨ i < j ∧ 0 < j) ∧
      (∀ i < 3, 0 < i → ¬ a.program.Link a.last.flow i 0) ∧
      a.program.Link a.last.flow 0 1 ∧
      (∀ s ∈ a.program.statements[0]?, ¬ Reg.eax ∈ s.effects.writes) ∧
      ∃ s ∈ a.program.statements[1]?, Reg.eax ∈ s.effects.uses ∧
        RegisterStatus.savePlace .eax s.transfer = none := by
  subst ha
  decide +kernel

/-- The loop is left, the register is used, and that is reported at the entry. -/
theorem loopThenUse_reported :
    ({} : Config).validate = .ok () ∧
      ∃ a, ofSource loopThenUse {} = .ok a ∧ (a.rerun 1).program.entry = some 0 ∧
        (a.rerun 1).program.LoopsFromTop (a.rerun 1).last.flow .eax 0 ∧
        (a.rerun 1).program.NeedsValue (a.rerun 1).last.flow .eax 0 ∧
        { line := (a.rerun 1).program.lineOf 0, issue := .uninitializedRead .eax } ∈
          (a.rerun 1).findings := by
  refine ⟨rfl, ?_⟩
  obtain ⟨a, ha, hreported⟩ := inputs_reported loopThenUse {} rfl 1
  obtain rfl := Except.ok.inj ((ofSource_eq_ok rfl).symm.trans ha)
  obtain ⟨hsize, hentry, hlinks, hreturn, hlink, hclean, s, hs, huses, hsave⟩ :=
    loopThenUse_text rfl
  obtain ⟨hprog, arrivals, hlast⟩ := exists_last_eq_round loopThenUse {} 1
  generalize hb : (ofText loopThenUse {}).rerun 1 = b at *
  have hp : b.program.WellFormed := hprog ▸ Program.wellFormed_assemble _ _
  have hlt : ∀ {i j}, b.program.Link b.last.flow i j → i < 3 ∧ j < 3 := by
    intro i j hij
    refine ⟨hsize ▸ hij.source_lt hp ?_, hsize ▸ Program.lt_of_isCode hij.isCode⟩
    rw [hlast, ← hprog]
    exact hp.allows_flow arrivals
  -- past the loop, links lead forward only
  have hforward : ∀ {i j}, 0 < i → ReflTransGen (b.program.Link b.last.flow) i j → i ≤ j := by
    intro i j hi hij
    induction hij with
    | refl => exact Nat.le_refl i
    | @tail k l _ hkl ih =>
        rcases hlinks k (hlt hkl).1 l (hlt hkl).2 hkl with rfl | ⟨hlt', -⟩
        · exact absurd hkl (hreturn k (hlt hkl).1 (Nat.lt_of_lt_of_le hi ih))
        · exact Nat.le_trans ih (Nat.le_of_lt hlt')
  have hloops : b.program.LoopsFromTop b.last.flow .eax 0 := by
    rintro i j ⟨hij, way, -, hway, hj⟩ clean hcleanWay
    rcases hlinks i (hlt hij).1 j (hlt hij).2 hij with rfl | ⟨hlt', hpos⟩
    · exact List.mem_of_mem_head? hcleanWay.head
    · exact absurd (hforward hpos (hway.reflTransGen_of_mem hj)) (Nat.not_le_of_lt hlt')
  have hneeds : b.program.NeedsValue b.last.flow .eax 0 := by
    refine ⟨1, .single ⟨?_, hlink⟩, by decide, s, hs, huses, ?_⟩
    · rintro ⟨s', hs', hw⟩
      exact hclean s' hs' hw
    · exact RegisterStatus.savePlace_eq_none.mp hsave
  exact ⟨_, ha, hb ▸ hentry, hb ▸ hloops, hb ▸ hneeds, hb ▸ hreported 0 .eax hentry hloops hneeds⟩

/-- A loop with two ways in, `b` and `a`: a register is written on the way to `b` only, and used
    after the loop. -/
def twoWaysIn : String :=
  "jp a\nmovl $1, %eax\nb: jp u\na: jmp b\nu: movl %eax, %ebx\nret\n"

theorem twoWaysIn_text {a : Analysis} (ha : a = ofText twoWaysIn {}) :
    a.program.entry = some 0 ∧ a.program.Link a.last.flow 0 3 ∧ a.program.Link a.last.flow 3 2 ∧
      a.program.Link a.last.flow 2 4 ∧
      (∀ i ∈ [0, 3, 2], ∀ s ∈ a.program.statements[i]?, ¬ Reg.eax ∈ s.effects.writes) ∧
      (∃ s ∈ a.program.statements[4]?, Reg.eax ∈ s.effects.uses ∧
        RegisterStatus.savePlace .eax s.transfer = none) ∧
      ¬ { line := a.program.lineOf 0, issue := .uninitializedRead .eax } ∈ a.rawFindings := by
  subst ha
  decide +kernel

/-- The walk comes to `a` through `b`, where it learns nothing of the use after the loop; so the
    register is used on the path through `a`, but that is not reported. -/
theorem twoWaysIn_input_missed :
    ∃ a, ofSource twoWaysIn {} = .ok a ∧ a.program.entry = some 0 ∧
      a.program.NeedsValue a.last.flow .eax 0 ∧
      ¬ { line := a.program.lineOf 0, issue := .uninitializedRead .eax } ∈ a.findings := by
  obtain ⟨hentry, h03, h32, h24, hclean, ⟨s, hs, huses, hsave⟩, hmissed⟩ := twoWaysIn_text rfl
  have hstep : ∀ {i j}, i ∈ [0, 3, 2] →
      (ofText twoWaysIn {}).program.Link (ofText twoWaysIn {}).last.flow i j →
        (ofText twoWaysIn {}).program.CleanLink (ofText twoWaysIn {}).last.flow .eax i j := by
    intro i j hi hij
    refine ⟨?_, hij⟩
    rintro ⟨s', hs', hw⟩
    exact hclean i hi s' hs' hw
  refine ⟨ofText twoWaysIn {}, ofSource_eq_ok rfl, hentry, ?_, ?_⟩
  · have hpath := ((ReflTransGen.single (hstep (by decide) h03)).tail
      (hstep (by decide) h32)).tail (hstep (by decide) h24)
    exact ⟨4, hpath, by decide, s, hs, huses, RegisterStatus.savePlace_eq_none.mp hsave⟩
  · rw [mem_findings]
    exact hmissed

end Analysis

end AsmCheck
