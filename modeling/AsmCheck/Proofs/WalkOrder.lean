import AsmCheck.Proofs.BackwardScan
import AsmCheck.Proofs.Worklist

/-! # The order in which blocks are scanned

    The walk over the blocks keeps on one list the steps that enter blocks and
    those that leave them; a block is scanned when it is left.  Steps that enter
    a block which has been seen meanwhile stay on the list and are passed over.
    At every moment the blocks that are still to be left are the path from the
    present root, and the walk knows precisely these to be on it (`OnTour`).
    What has been scanned is settled for the rest of the walk (`lasting`), so
    every block that can be reached from a root is scanned once, and when it is,
    each block that it goes on to is on the path or settled
    (`scans_in_order`). -/

namespace AsmCheck

open Relation

theorem Block.length_succs_le (b : Block) : b.succs.length ≤ 2 := by
  rw [Block.succs, List.length_append]
  exact Nat.add_le_add (Option.length_toList_le ..) (Option.length_toList_le ..)

namespace Program

/-- A moment of the walk over the blocks. -/
abbrev Moment := Worklist Visits Frame

/-- The block that is scanned at a moment. -/
def scanned? (m : Moment) : Option Nat :=
  m.items.head?.bind Frame.left?

/-- The blocks that are scanned, in the order in which they are. -/
def scans (moments : List Moment) : List Nat :=
  moments.filterMap scanned?

variable {p : Program} {blocks : Array Block} {roots : List Nat} {v : Visits} {m : Moment}
  {moments : List Moment} {k l : Nat} {result : Scan}

theorem scanned?_eq_some : scanned? m = some k ↔ ∃ rest, m.items = .leave k :: rest := by
  constructor
  · intro h
    obtain ⟨frame, hframe, hk⟩ := Option.bind_eq_some_iff.mp h
    obtain ⟨rest, hitems⟩ := List.head?_eq_some_iff.mp hframe
    cases frame with
    | enter l => cases hk
    | leave l =>
        obtain rfl : l = k := Option.some.inj hk
        exact ⟨rest, hitems⟩
  · rintro ⟨rest, hitems⟩
    rw [scanned?, hitems]
    rfl

theorem mem_scans : k ∈ scans moments ↔ ∃ m ∈ moments, scanned? m = some k :=
  List.mem_filterMap

/-! ## One step -/

/-- What comes of one step: what is known then, and the steps that it brings up. -/
def walkFrame (p : Program) (blocks : Array Block) (v : Visits) : Frame → Visits × List Frame
  | .enter k =>
    if v.isFreshAt k then (v.setIfInBounds k .onPath, entering blocks k []) else (v, [])
  | .leave k =>
    match blocks[k]? with
    | none => (v, [])
    | some b => (p.leaving v k b, [])

/-- A step passes over a block that has been seen, enters one that has not, or leaves a block. -/
theorem walkFrame_cases (p : Program) (blocks : Array Block) (v : Visits) (frame : Frame) :
    (∃ k, frame = .enter k ∧ Seen v k ∧ p.walkFrame blocks v frame = (v, [])) ∨
      (∃ k, frame = .enter k ∧ ¬ Seen v k ∧
        p.walkFrame blocks v frame = (v.setIfInBounds k .onPath, entering blocks k [])) ∨
      (∃ k, frame = .leave k ∧ blocks[k]? = none ∧ p.walkFrame blocks v frame = (v, [])) ∨
      ∃ k b, frame = .leave k ∧ blocks[k]? = some b ∧
        p.walkFrame blocks v frame = (p.leaving v k b, []) := by
  cases frame with
  | enter k =>
      cases hfresh : v.isFreshAt k with
      | false =>
          refine Or.inl ⟨k, rfl, hfresh, ?_⟩
          rw [walkFrame, hfresh, if_neg Bool.false_ne_true]
      | true =>
          refine Or.inr (Or.inl ⟨k, rfl, ?_, ?_⟩)
          · rw [Seen, hfresh]
            exact Bool.true_eq_false.mp
          · rw [walkFrame, if_pos hfresh]
  | leave k =>
      cases hb : blocks[k]? with
      | none =>
          refine Or.inr (Or.inr (Or.inl ⟨k, rfl, hb, ?_⟩))
          rw [walkFrame, hb]
      | some b =>
          refine Or.inr (Or.inr (Or.inr ⟨k, b, rfl, hb, ?_⟩))
          rw [walkFrame, hb]

theorem entering_append (k : Nat) (rest : List Frame) :
    entering blocks k [] ++ rest = entering blocks k rest := by
  rw [entering, entering, List.append_assoc]
  rfl

theorem walkBlocks_cons (v : Visits) (frame : Frame) (rest : List Frame) :
    p.walkBlocks blocks v (frame :: rest) =
      p.walkBlocks blocks (p.walkFrame blocks v frame).1
        ((p.walkFrame blocks v frame).2 ++ rest) := by
  rcases walkFrame_cases p blocks v frame with
    ⟨k, rfl, hk, heq⟩ | ⟨k, rfl, hk, heq⟩ | ⟨k, rfl, hb, heq⟩ | ⟨k, b, rfl, hb, heq⟩ <;> rw [heq]
  · rw [walkBlocks, if_neg (Bool.eq_false_iff.mp hk)]
    rfl
  · rw [walkBlocks, if_pos (eq_true_of_ne_false hk), entering_append]
    rfl
  · rw [walkBlocks, hb]
    rfl
  · rw [walkBlocks, hb]
    rfl

/-- What every walk preserves, one step preserves. -/
theorem WalkInvariant.walkFrame {Inv : Visits → List Frame → Prop}
    (hInv : WalkInvariant p blocks Inv) {frame : Frame} {rest : List Frame}
    (h : Inv v (frame :: rest)) :
    Inv (p.walkFrame blocks v frame).1 ((p.walkFrame blocks v frame).2 ++ rest) := by
  rcases walkFrame_cases p blocks v frame with
    ⟨k, rfl, hk, heq⟩ | ⟨k, rfl, hk, heq⟩ | ⟨k, rfl, hb, heq⟩ | ⟨k, b, rfl, hb, heq⟩ <;> rw [heq]
  · exact hInv.skip h hk
  · rw [entering_append]
    exact hInv.enter h hk
  · exact hInv.gone h hb
  · exact hInv.leave h hb

/-! ## Every moment -/

/-- The blocks that the walk is within are a path whatever the step. -/
theorem Within.walkInvariant (p : Program) (blocks : Array Block) (root : Nat) :
    WalkInvariant p blocks (Within blocks root) where
  skip h _ := h.skip
  enter := Within.enter
  gone h _ := h.gone
  leave h _ := h.leave _

/-- What holds at every moment of the walk from `roots`. -/
structure OnTour (p : Program) (blocks : Array Block) (roots : List Nat) (m : Moment) : Prop where
  touring : ∃ done, p.Touring blocks done m.known m.items
  within : ∃ root, Within blocks root m.known m.items ∧ (m.items ≠ [] → root ∈ roots)
  ahead : ∀ frame ∈ m.roots, ∃ r ∈ roots, frame = .enter r

namespace OnTour

theorem invariant (p : Program) (blocks : Array Block) (roots : List Nat) :
    Worklist.Invariant (p.walkFrame blocks) (p.OnTour blocks roots) := by
  refine ⟨?_, ?_⟩
  · intro v frame ahead h
    obtain ⟨done, htouring⟩ := h.touring
    obtain ⟨⟨r, hr, rfl⟩, hahead⟩ := List.forall_mem_cons.mp h.ahead
    exact ⟨⟨_, htouring.root r⟩, ⟨r, .start v r, fun _ => hr⟩, hahead⟩
  · intro v frame rest ahead h
    obtain ⟨done, htouring⟩ := h.touring
    obtain ⟨root, hwithin, hroot⟩ := h.within
    refine ⟨⟨done, (Touring.walkInvariant p blocks done).walkFrame htouring⟩, ?_, h.ahead⟩
    exact ⟨root, (Within.walkInvariant p blocks root).walkFrame hwithin,
      fun _ => hroot (List.cons_ne_nil _ _)⟩

theorem start : p.OnTour blocks roots
    ⟨Array.replicate blocks.size .fresh, [], roots.map Frame.enter⟩ := by
  refine ⟨⟨[], .start⟩, ⟨0, ⟨trivial, List.nodup_nil, ?_⟩, fun h => absurd rfl h⟩, ?_⟩
  · exact fun _ hk => absurd hk List.not_mem_nil
  · intro frame hframe
    obtain ⟨r, hr, rfl⟩ := List.mem_map.mp hframe
    exact ⟨r, hr, rfl⟩

/-- The walk knows which blocks it is within. -/
theorem onPath_iff (h : p.OnTour blocks roots m) : m.known[l]? = some .onPath ↔ l ∈ path m.items := by
  obtain ⟨done, htouring⟩ := h.touring
  obtain ⟨root, hwithin, -⟩ := h.within
  exact ⟨fun hon => mem_path.mpr (htouring.pending hon), hwithin.onPath l⟩

/-- A block that is to be left exists. -/
theorem exists_block (h : p.OnTour blocks roots m) (hk : k ∈ path m.items) :
    ∃ b, blocks[k]? = some b := by
  obtain ⟨done, htouring⟩ := h.touring
  have hlt := (Array.getElem?_eq_some_iff.mp (h.onPath_iff.mpr hk)).1
  exact ⟨_, Array.getElem?_eq_getElem (htouring.size ▸ hlt)⟩

/-- What has been scanned is not left again. -/
theorem settled (h : p.OnTour blocks roots m) (hk : m.known[k]? = some (.finished result)) :
    Settled k result m.known m.items := by
  refine ⟨hk, fun hmem => ?_⟩
  have hon := h.onPath_iff.mpr (mem_path.mpr hmem)
  rw [hk, Option.some.injEq] at hon
  cases hon

/-- The walk is within a path from a root. -/
theorem exists_root (h : p.OnTour blocks roots m) {ks : List Nat} (hpath : path m.items = k :: ks) :
    ∃ r ∈ roots, (path m.items).getLast? = some r ∧ ReflTransGen (GoesOn blocks) r k := by
  obtain ⟨root, hwithin, hroot⟩ := h.within
  obtain ⟨hchain, hlast⟩ := hwithin.nested.isChain_path
  have hitems : m.items ≠ [] := by
    intro hnil
    rw [hnil] at hpath
    cases hpath
  rw [hpath] at hchain hlast ⊢
  have hget : (k :: ks).getLast? = some ((k :: ks).getLast (List.cons_ne_nil _ _)) :=
    List.getLast?_eq_some_getLast _
  rw [hlast _ hget] at hget
  exact ⟨root, hroot hitems, hget, reflTransGen_of_isChain hchain (List.mem_of_getLast? hget)⟩

end OnTour

/-! ## What has been scanned is settled -/

/-- Once a block has been scanned its result stays, and it is not scanned again. -/
theorem lasting (hrun : Worklist.Run (p.walkFrame blocks) m moments v)
    (hm : p.OnTour blocks roots m) (hk : m.known[k]? = some (.finished result)) :
    (∀ m' ∈ moments, m'.known[k]? = some (.finished result) ∧ scanned? m' ≠ some k) ∧
      v[k]? = some (.finished result) := by
  have htours := OnTour.invariant p blocks roots
  have hInv : Worklist.Invariant (p.walkFrame blocks) fun m' =>
      p.OnTour blocks roots m' ∧ m'.known[k]? = some (.finished result) := by
    refine ⟨?_, ?_⟩
    · rintro v frame ahead ⟨htour, hk⟩
      exact ⟨htours.root htour, hk⟩
    · rintro v frame rest ahead ⟨htour, hk⟩
      have hsettled := (Settled.walkInvariant p blocks k result).walkFrame (htour.settled hk)
      exact ⟨htours.item htour, hsettled.1⟩
  obtain ⟨hmoments, -, hend⟩ := hrun.invariant hInv ⟨hm, hk⟩
  refine ⟨fun m' hm' => ?_, hend⟩
  obtain ⟨htour, hk'⟩ := hmoments m' hm'
  refine ⟨hk', fun hscan => ?_⟩
  obtain ⟨rest, hitems⟩ := scanned?_eq_some.mp hscan
  exact (htour.settled hk').2 (hitems ▸ List.mem_cons_self ..)

/-- A block that is scanned gets a result from what is known at that moment. -/
theorem known_of_leave {rest ahead : List Frame} {b : Block}
    (h : p.OnTour blocks roots ⟨v, .leave k :: rest, ahead⟩) (hb : blocks[k]? = some b) :
    (p.walkFrame blocks v (.leave k)).1[k]? =
      some (.finished (p.scan b.statements (b.tableAfter v))) := by
  obtain ⟨done, htouring⟩ := h.touring
  have hlt : k < v.size := htouring.size ▸ (Array.getElem?_eq_some_iff.mp hb).1
  have hstep : p.walkFrame blocks v (.leave k) = (p.leaving v k b, []) := by
    rw [walkFrame, hb]
  rw [hstep]
  exact (getElem?_leaving hlt).trans (if_pos rfl)

/-- No block is scanned twice. -/
theorem nodup_scans (hrun : Worklist.Run (p.walkFrame blocks) m moments v)
    (hm : p.OnTour blocks roots m) : (scans moments).Nodup := by
  have htours := OnTour.invariant p blocks roots
  induction hrun with
  | stop v => exact List.nodup_nil
  | root _ ih => exact ih (htours.root hm)
  | @item v _ frame rest ahead moments hrest ih =>
      have hnext := htours.item hm
      cases frame with
      | enter l => exact ih hnext
      | leave l =>
          obtain ⟨b, hb⟩ := hm.exists_block (k := l) (mem_path.mpr (List.mem_cons_self ..))
          refine List.nodup_cons.mpr ⟨fun hmem => ?_, ih hnext⟩
          obtain ⟨m', hm', hscan⟩ := mem_scans.mp hmem
          exact ((lasting hrest hnext (known_of_leave hm hb)).1 m' hm').2 hscan

/-- What a block has as its result, it has got in a scan. -/
theorem mem_scans_of_finished (hrun : Worklist.Run (p.walkFrame blocks) m moments v)
    (hk : v[k]? = some (.finished result)) :
    (∃ before, m.known[k]? = some (.finished before)) ∨ k ∈ scans moments := by
  induction hrun with
  | stop v => exact Or.inl ⟨result, hk⟩
  | root _ ih => exact ih hk
  | @item v _ frame rest ahead moments _ ih =>
      have hlater : k ∈ scans moments → k ∈ scans (⟨v, frame :: rest, ahead⟩ :: moments) :=
        fun hmem => ((List.sublist_cons_self ..).filterMap scanned?).subset hmem
      refine (ih hk).elim (fun hbefore => ?_) fun hmem => Or.inr (hlater hmem)
      obtain ⟨before, hbefore⟩ := hbefore
      rcases walkFrame_cases p blocks v frame with
        ⟨l, rfl, _, heq⟩ | ⟨l, rfl, _, heq⟩ | ⟨l, rfl, _, heq⟩ | ⟨l, b, rfl, _, heq⟩ <;>
        rw [heq] at hbefore
      · exact Or.inl ⟨before, hbefore⟩
      · exact Or.inl ⟨before, finished_of_enter hbefore⟩
      · exact Or.inl ⟨before, hbefore⟩
      · by_cases hkl : l = k
        · subst hkl
          exact Or.inr (List.mem_cons_self ..)
        · refine Or.inl ⟨before, ?_⟩
          rw [leaving, Array.getElem?_setIfInBounds, if_neg hkl] at hbefore
          exact hbefore

/-! ## The walk ends -/

/-- Entering a block pays for leaving it and for the steps to the blocks that it goes on to. -/
theorem pending_walkFrame_le (v : Visits) (frame : Frame) :
    Visits.pending blocks (p.walkFrame blocks v frame).1 + (p.walkFrame blocks v frame).2.length ≤
      Visits.pending blocks v := by
  rcases walkFrame_cases p blocks v frame with
    ⟨k, rfl, hk, heq⟩ | ⟨k, rfl, hk, heq⟩ | ⟨k, rfl, hb, heq⟩ | ⟨k, b, rfl, hb, heq⟩ <;> rw [heq]
  · exact Nat.le_refl _
  · have hpaid := Visits.pending_enter_le blocks (eq_true_of_ne_false hk)
    dsimp only [entering]
    rw [List.length_append, List.length_map, List.length_singleton]
    omega
  · exact Nat.le_refl _
  · exact Visits.pending_set_le blocks v k rfl

/-- At first four steps are to be made for each block, at most. -/
theorem pending_start_le (blocks : Array Block) :
    Visits.pending blocks (Array.replicate blocks.size .fresh) ≤ 4 * blocks.size := by
  have hload : ∀ n, Graph.load (fun _ => 4) n = 4 * n := by
    intro n
    induction n with
    | zero => rfl
    | succ n ih => rw [Graph.load, ih, Nat.mul_succ]
  rw [Visits.pending, Array.size_replicate, ← hload]
  refine Graph.load_le (fun k => ?_) _
  split
  · cases blocks[k]? with
    | none => decide
    | some b =>
        have := b.length_succs_le
        show b.succs.length + 2 ≤ 4
        omega
  · exact Nat.zero_le 4

/-- The walk over the blocks ends, with the results that it is to give. -/
theorem exists_run_registerUse (p : Program) (blocks : Array Block) (roots : List Nat) :
    ∃ moments,
      Worklist.Run (p.walkFrame blocks)
          ⟨Array.replicate blocks.size .fresh, [], roots.map Frame.enter⟩ moments
          (p.registerUse blocks roots) ∧
        moments.length ≤ 2 * roots.length + 4 * blocks.size := by
  obtain ⟨moments, v, hrun, hlength⟩ := Worklist.exists_run (OnTour.invariant p blocks roots)
    (Visits.pending blocks) (fun _ => pending_walkFrame_le _ _) OnTour.start
  obtain rfl : v = p.registerUse blocks roots := by
    refine (hrun.eq_foldl (fun v => by rw [walkBlocks]) walkBlocks_cons).trans ?_
    rw [List.foldl_map, walkBlocks]
    rfl
  refine ⟨moments, hrun, ?_⟩
  have hstart := pending_start_le blocks
  dsimp only at hlength
  rw [List.length_map, List.length_nil] at hlength
  omega

/-! ## The order -/

/-- How block `k` is scanned at moment `m`, where `later` is what is known at the moments after that
    and in the end. -/
structure ScannedInOrder (p : Program) (blocks : Array Block) (roots : List Nat) (m : Moment)
    (later : List Visits) (k : Nat) : Prop where
  /-- The walk is within a path that leads from a root to the block, itself included. -/
  innermost : (path m.items).head? = some k
  chain : (path m.items).IsChain fun l k => GoesOn blocks k l
  root : ∃ r ∈ roots, (path m.items).getLast? = some r
  nodup : (path m.items).Nodup
  /-- The walk knows what is on that path. -/
  onPath : ∀ l, m.known[l]? = some .onPath ↔ l ∈ path m.items
  /-- The blocks that the block goes on to are on that path or have their final results. -/
  succs : ∀ l, GoesOn blocks k l → l ∈ path m.items ∨ ∃ result,
    m.known[l]? = some (.finished result) ∧ ∀ v ∈ later, v[l]? = some (.finished result)
  /-- From this moment on the block has the result that follows from what is known. -/
  result : ∃ b, blocks[k]? = some b ∧
    ∀ v ∈ later, v[k]? = some (.finished (p.scan b.statements (b.tableAfter m.known)))

/-- Once a block has been scanned its result is known at all later moments and in the end. -/
theorem forall_later (hrun : Worklist.Run (p.walkFrame blocks) m moments v)
    (hm : p.OnTour blocks roots m) (hk : m.known[k]? = some (.finished result)) :
    ∀ u ∈ moments.map Worklist.known ++ [v], u[k]? = some (.finished result) := by
  obtain ⟨hmoments, hend⟩ := lasting hrun hm hk
  intro u hu
  rcases List.mem_append.mp hu with hu | hu
  · obtain ⟨m', hm', rfl⟩ := List.mem_map.mp hu
    exact (hmoments m' hm').1
  · exact List.mem_singleton.mp hu ▸ hend

/-- A block that has been seen is on the path, or it has been scanned. -/
theorem OnTour.known_of_seen (h : p.OnTour blocks roots m) (hl : l < blocks.size)
    (hseen : Seen m.known l) :
    l ∈ path m.items ∨ ∃ result, m.known[l]? = some (.finished result) := by
  obtain ⟨done, htouring⟩ := h.touring
  obtain ⟨x, hx⟩ : ∃ x, m.known[l]? = some x :=
    ⟨_, Array.getElem?_eq_getElem (htouring.size.symm ▸ hl)⟩
  cases x with
  | fresh =>
      rw [Seen, Visits.isFreshAt, hx] at hseen
      cases hseen
  | onPath => exact Or.inl (h.onPath_iff.mp hx)
  | finished result => exact Or.inr ⟨result, hx⟩

theorem scannedInOrder (hlinks : ∀ k l, GoesOn blocks k l → l < blocks.size)
    (hrun : Worklist.Run (p.walkFrame blocks) m (m :: moments) v) (hm : p.OnTour blocks roots m)
    (hscan : scanned? m = some k) :
    p.ScannedInOrder blocks roots m (moments.map Worklist.known ++ [v]) k := by
  obtain ⟨u, items, ahead⟩ := m
  obtain ⟨rest, rfl⟩ : ∃ rest, items = .leave k :: rest := scanned?_eq_some.mp hscan
  obtain ⟨b, hb⟩ := hm.exists_block (k := k) (mem_path.mpr (List.mem_cons_self ..))
  obtain ⟨done, htouring⟩ := hm.touring
  obtain ⟨root, hwithin, -⟩ := hm.within
  obtain ⟨r, hr, hlast, -⟩ := hm.exists_root (k := k) rfl
  refine ⟨rfl, hwithin.nested.isChain_path.1, ⟨r, hr, hlast⟩, hwithin.nodup,
    fun l => hm.onPath_iff, ?_, b, hb, ?_⟩
  · rintro l ⟨b', hb', hmem⟩
    refine (hm.known_of_seen (hlinks k l ⟨b', hb', hmem⟩)
      (htouring.ready.1 b' hb' l hmem)).imp_right ?_
    rintro ⟨result, hresult⟩
    exact ⟨result, hresult, fun u' hu' =>
      forall_later hrun hm hresult u' (List.mem_cons_of_mem _ hu')⟩
  · cases hrun with
    | item hrest =>
        exact forall_later hrest ((OnTour.invariant p blocks roots).item hm) (known_of_leave hm hb)

/-- The walk over the blocks scans each block once, in a usable order.  For all blocks that lead to
    existing blocks only, and every list of roots, if no block has been scanned yet: the walk from
    the roots comes to an end, after two steps for each root and four for each block at most.  It
    scans precisely the blocks that can be reached from a root, none of them twice.  When it scans a
    block, the walk is within a path from a root to that block, and each block that the block goes on
    to is on that path, or has a result which is not changed any more. -/
theorem scans_in_order (p : Program) (blocks : Array Block) (roots : List Nat)
    (hlinks : ∀ k l, GoesOn blocks k l → l < blocks.size) :
    ∃ moments,
      Worklist.Run (p.walkFrame blocks)
          ⟨Array.replicate blocks.size .fresh, [], roots.map Frame.enter⟩ moments
          (p.registerUse blocks roots) ∧
        moments.length ≤ 2 * roots.length + 4 * blocks.size ∧
        (scans moments).Nodup ∧
        (∀ k, k ∈ scans moments ↔
          k < blocks.size ∧ ∃ r ∈ roots, ReflTransGen (GoesOn blocks) r k) ∧
        ∀ before m after k, moments = before ++ m :: after → scanned? m = some k →
          p.ScannedInOrder blocks roots m
            (after.map Worklist.known ++ [p.registerUse blocks roots]) k := by
  obtain ⟨moments, hrun, hlength⟩ := p.exists_run_registerUse blocks roots
  have hstart : p.OnTour blocks roots _ := .start
  have htours := (hrun.invariant (OnTour.invariant p blocks roots) hstart).1
  refine ⟨moments, hrun, hlength, nodup_scans hrun hstart, fun k => ⟨fun hk => ?_, ?_⟩, ?_⟩
  · obtain ⟨m, hm, hscan⟩ := mem_scans.mp hk
    obtain ⟨rest, hitems⟩ := scanned?_eq_some.mp hscan
    have hpath : path m.items = k :: path rest := by
      rw [hitems]
      rfl
    obtain ⟨b, hb⟩ := (htours m hm).exists_block (k := k) (hpath ▸ List.mem_cons_self ..)
    obtain ⟨r, hr, -, hreach⟩ := (htours m hm).exists_root hpath
    exact ⟨(Array.getElem?_eq_some_iff.mp hb).1, r, hr, hreach⟩
  · rintro ⟨hk, r, hr, hreach⟩
    obtain ⟨v', hv'⟩ := exists_scan_of_path (p := p) hr hreach (Array.getElem?_eq_getElem hk)
    -- at first there were no results
    refine (mem_scans_of_finished hrun hv').resolve_left ?_
    rintro ⟨before, hbefore⟩
    cases Touring.eq_fresh_of_start hbefore
  · rintro before m after k rfl hscan
    exact scannedInOrder hlinks hrun.from_moment
      (htours m (List.mem_append_right before (List.mem_cons_self ..))) hscan

/-- Blocks with a loop, a block that goes on to itself, ways that join, and a block that nothing
    leads to. -/
def tangle : Array Block :=
  #[{ statements := [], owner := none, next := some 1, branch := some 2 },
    { statements := [], owner := none, next := some 2, branch := some 1 },
    { statements := [], owner := none, branch := some 0 },
    { statements := [], owner := none, next := some 2 },
    { statements := [], owner := none, next := some 0 }]

theorem goesOn_tangle {k l : Nat} (h : GoesOn tangle k l) :
    l < tangle.size ∧ (k < 4 → l < 4) := by
  obtain ⟨b, hb, hl⟩ := h
  have hall : ∀ k < tangle.size, ∀ l ∈ ((tangle[k]?).map Block.succs).getD [],
      l < tangle.size ∧ (k < 4 → l < 4) := by
    decide
  refine hall k (Array.getElem?_eq_some_iff.mp hb).1 l ?_
  rw [hb]
  exact hl

/-- A program without statements to walk over them. -/
def blank : Program :=
  assemble [] {}

/-- From two of the blocks, the walk scans the block that goes on to itself, and it does not scan the
    block that nothing leads to. -/
theorem tangle_in_order :
    (∀ k l, GoesOn tangle k l → l < tangle.size) ∧
      ∃ moments,
        Worklist.Run (blank.walkFrame tangle)
            ⟨Array.replicate 5 .fresh, [], [.enter 0, .enter 3]⟩ moments
            (blank.registerUse tangle [0, 3]) ∧
          (scans moments).Nodup ∧ 1 ∈ scans moments ∧ ¬ 4 ∈ scans moments ∧
          ∀ before m after, moments = before ++ m :: after → scanned? m = some 1 →
            blank.ScannedInOrder tangle [0, 3] m
              (after.map Worklist.known ++ [blank.registerUse tangle [0, 3]]) 1 := by
  refine ⟨fun k l h => (goesOn_tangle h).1, ?_⟩
  obtain ⟨moments, hrun, -, hnodup, hscans, horder⟩ :=
    blank.scans_in_order tangle [0, 3] fun k l h => (goesOn_tangle h).1
  refine ⟨moments, hrun, hnodup, (hscans 1).mpr ⟨by decide, 0, by decide, .single ?_⟩, ?_,
    fun before m after hsplit hscan => horder before m after 1 hsplit hscan⟩
  · exact ⟨_, rfl, List.mem_cons_self ..⟩
  · intro hmem
    obtain ⟨-, r, hr, hpath⟩ := (hscans 4).mp hmem
    have hlt : ∀ {k}, ReflTransGen (GoesOn tangle) r k → k < 4 := by
      intro k hpath
      induction hpath with
      | refl =>
          have hroots : ∀ r ∈ [0, 3], r < 4 := by decide
          exact hroots r hr
      | tail _ hstep ih => exact (goesOn_tangle hstep).2 ih
    exact Nat.lt_irrefl 4 (hlt hpath)

end Program

end AsmCheck
