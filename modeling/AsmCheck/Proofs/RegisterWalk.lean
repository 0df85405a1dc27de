import AsmCheck.Flow.RegisterUse
import Mathlib.Data.List.Chain
import Mathlib.Logic.Relation

/-! # The walk over the blocks

    The walk keeps a list of steps that are still to be made.  Whatever one
    step preserves holds at the end (`registerUse_invariant`).  `Touring` is
    what every walk preserves, whatever the graph: a block is left only after
    the blocks that it goes on to have been seen, a block that is on the path
    is going to be left, and a scanned block has been scanned with what the
    walk knew at that time.  In the end every root has been scanned
    (`exists_scan_of_mem`), and so has whatever can be reached from a root
    (`exists_scan_of_path`).  The blocks that the walk is within at any time are
    a path from the root without repetitions (`Within`), and the results of the
    walk from the first root are final (`registerUse_cons_of_finished`). -/

namespace AsmCheck

open Relation

namespace Frame

/-- The block that a step is about. -/
def block : Frame → Nat
  | enter k => k
  | leave k => k

/-- The block that a step leaves. -/
def left? : Frame → Option Nat
  | enter _ => none
  | leave k => some k

end Frame

/-! ## Tables of registers -/

namespace RegisterTable

variable (t u : RegisterTable) (r : Reg)

@[simp] theorem get_default : (default : RegisterTable).get r = default :=
  EnumMap.get_ofFn _ r

/-- Tables are merged register by register. -/
@[simp] theorem get_merge : (t.merge u).get r = (t.get r).merge (u.get r) := by
  rw [merge, EnumMap.get_ofFn]

@[simp] theorem get_looping : looping.get r = .looping := by
  rw [looping, EnumMap.get_ofFn]

/-- A table is carried back over a statement register by register. -/
@[simp] theorem get_tableBefore (s : Statement) :
    (s.tableBefore t).get r = (t.get r).before s.effects s.transfer r := by
  rw [Statement.tableBefore, EnumMap.get_ofFn]

end RegisterTable

/-- How a register may be touched first from a statement on. -/
theorem RegisterStatus.access_before (fx : Effects) (t : Option Transfer) (r : Reg)
    (after : RegisterStatus) :
    (before fx t r after).access =
      if r ∈ fx.reads then {.read} else if r ∈ fx.writes then {.write} else after.access := by
  simp only [← EnumSet.contains_iff]
  rfl

namespace Program

variable {p : Program} {blocks : Array Block}

/-- A scan takes the statements from the last one to the first. -/
theorem scan_cons {i : Nat} {is : List Nat} {s : Placed} (hs : p.statements[i]? = some s)
    (after : RegisterTable) :
    p.scan (i :: is) after =
      { table := s.tableBefore (p.scan is after).table
        dead := if s.isDead (p.scan is after).table then i :: (p.scan is after).dead
          else (p.scan is after).dead } := by
  rw [scan, hs]

/-! ## One induction for all walks -/

/-- The walk has been at block `k`, or there is no such block. -/
def Seen (v : Visits) (k : Nat) : Prop :=
  v.isFreshAt k = false

/-- A block stays seen when its own or another's visit is noted. -/
theorem seen_set {v : Visits} {k l : Nat} {x : Visit} (hx : x.isFresh = false)
    (h : Seen v l ∨ l = k) : Seen (v.setIfInBounds k x) l := by
  rw [Seen, Visits.isFreshAt, Array.getElem?_setIfInBounds]
  by_cases hk : k = l
  · rw [if_pos hk]
    split
    · exact hx
    · rfl
  · rw [if_neg hk]
    exact h.resolve_right (Ne.symm hk)

/-- The steps that the walk makes after entering a block. -/
def entering (blocks : Array Block) (k : Nat) (rest : List Frame) : List Frame :=
  (((blocks[k]?).map Block.succs).getD []).map Frame.enter ++ .leave k :: rest

/-- What becomes of the results when block `b` is left. -/
def leaving (p : Program) (v : Visits) (k : Nat) (b : Block) : Visits :=
  v.setIfInBounds k (.finished (p.scan b.statements (b.tableAfter v)))

/-- Leaving a block notes the scan of its statements, and touches no other block. -/
theorem getElem?_leaving {v : Visits} {k l : Nat} {b : Block} (hk : k < v.size) :
    (p.leaving v k b)[l]? =
      if k = l then some (.finished (p.scan b.statements (b.tableAfter v))) else v[l]? := by
  rw [leaving, Array.getElem?_setIfInBounds]
  by_cases hkl : k = l
  · rw [if_pos hkl, if_pos hkl, if_pos hk]
  · rw [if_neg hkl, if_neg hkl]

/-- Entering a block scans none. -/
theorem finished_of_enter {v : Visits} {k l : Nat} {result : Scan}
    (h : (v.setIfInBounds k .onPath)[l]? = some (.finished result)) :
    v[l]? = some (.finished result) := by
  rw [Array.getElem?_setIfInBounds] at h
  split at h
  · split at h <;> cases h
  · exact h

/-- What every step of a walk preserves holds at its end. -/
structure WalkInvariant (p : Program) (blocks : Array Block) (Inv : Visits → List Frame → Prop) :
    Prop where
  skip : ∀ {v k rest}, Inv v (.enter k :: rest) → Seen v k → Inv v rest
  enter : ∀ {v k rest}, Inv v (.enter k :: rest) → ¬ Seen v k →
    Inv (v.setIfInBounds k .onPath) (entering blocks k rest)
  gone : ∀ {v k rest}, Inv v (.leave k :: rest) → blocks[k]? = none → Inv v rest
  leave : ∀ {v k rest b}, Inv v (.leave k :: rest) → blocks[k]? = some b →
    Inv (p.leaving v k b) rest

/-- What every step of the walk preserves holds when the walk has ended. -/
theorem WalkInvariant.walkBlocks {Inv : Visits → List Frame → Prop}
    (hInv : WalkInvariant p blocks Inv) {v : Visits} {frames : List Frame} (h : Inv v frames) :
    Inv (p.walkBlocks blocks v frames) [] := by
  induction v, frames using Program.walkBlocks.induct p blocks with
  | case1 v =>
      rw [Program.walkBlocks]
      exact h
  | case2 v k rest hfresh ways ih =>
      rw [Program.walkBlocks, if_pos hfresh]
      refine ih (hInv.enter h ?_)
      rw [Seen, hfresh]
      exact fun h => nomatch h
  | case3 v k rest hfresh ih =>
      rw [Program.walkBlocks, if_neg hfresh]
      exact ih (hInv.skip h (Bool.eq_false_iff.mpr hfresh))
  | case4 v k rest hb ih =>
      rw [Program.walkBlocks, hb]
      exact ih (hInv.gone h hb)
  | case5 v k rest b hb result ih =>
      rw [Program.walkBlocks, hb]
      exact ih (hInv.leave h hb)

/-- Walks from one root after the other: `Inv done` is what holds when the roots `done` have been
    walked from. -/
theorem registerUse_invariant {Inv : List Nat → Visits → List Frame → Prop}
    (hInv : ∀ done, WalkInvariant p blocks (Inv done))
    (start : Inv [] (Array.replicate blocks.size .fresh) [])
    (root : ∀ {done v} (k : Nat), Inv done v [] → Inv (done ++ [k]) v [.enter k])
    (roots : List Nat) : Inv roots (p.registerUse blocks roots) [] := by
  have hfold : ∀ {ks done : List Nat} {v : Visits}, Inv done v [] →
      Inv (done ++ ks) (ks.foldl (fun v k => p.walkBlocks blocks v [.enter k]) v) [] := by
    intro ks
    induction ks with
    | nil =>
        intro done v h
        rw [List.append_nil]
        exact h
    | cons k ks ih =>
        intro done v h
        have hk := ih ((hInv (done ++ [k])).walkBlocks (root k h))
        rw [List.append_assoc] at hk
        exact hk
  exact hfold start

/-! ## What every walk does -/

/-- Before the walk leaves a block it has seen the blocks that the block goes on to: those that
    `seen` holds of, and those that it enters meanwhile. -/
def Ready (blocks : Array Block) : (Nat → Prop) → List Frame → Prop
  | _, [] => True
  | seen, .enter k :: rest => Ready blocks (fun l => seen l ∨ l = k) rest
  | seen, .leave k :: rest =>
    (∀ b, blocks[k]? = some b → ∀ l ∈ b.succs, seen l) ∧ Ready blocks seen rest

/-- Blocks are ready to be left all the more if more of them have been seen. -/
theorem Ready.mono {blocks : Array Block} : ∀ {frames : List Frame} {seen seen' : Nat → Prop},
    (∀ l, seen l → seen' l) → Ready blocks seen frames → Ready blocks seen' frames := by
  intro frames
  induction frames with
  | nil => intro seen seen' _ _; trivial
  | cons frame rest ih =>
      intro seen seen' hsub h
      cases frame with
      | enter k => exact ih (fun l hl => hl.imp_left (hsub l)) h
      | leave k => exact ⟨fun b hb l hl => hsub l (h.1 b hb l hl), ih hsub h.2⟩

/-- A block that is about to be entered counts as seen for whatever waits behind it. -/
theorem Ready.enter_append {blocks : Array Block} {rest : List Frame} :
    ∀ {ls : List Nat} {seen : Nat → Prop}, Ready blocks (fun l => seen l ∨ l ∈ ls) rest →
      Ready blocks seen (ls.map Frame.enter ++ rest) := by
  intro ls
  induction ls with
  | nil =>
      intro seen h
      exact h.mono fun l hl => hl.resolve_right (fun hmem => (nomatch hmem))
  | cons k ls ih =>
      intro seen h
      refine ih (h.mono fun l hl => ?_)
      rcases hl with hl | hl
      · exact Or.inl (Or.inl hl)
      · rcases List.mem_cons.mp hl with rfl | hl
        · exact Or.inl (Or.inr rfl)
        · exact Or.inr hl

/-- What every walk preserves, whatever the graph, once it has started from `roots`. -/
structure Touring (p : Program) (blocks : Array Block) (roots : List Nat) (v : Visits)
    (frames : List Frame) : Prop where
  size : v.size = blocks.size
  ready : Ready blocks (Seen v) frames
  /-- A block that is on the path is going to be left. -/
  pending : ∀ {k : Nat}, v[k]? = some .onPath → Frame.leave k ∈ frames
  /-- A result is that of a scan with what was known at some time. -/
  scan : ∀ {k : Nat} {result : Scan}, v[k]? = some (.finished result) →
    ∃ b v', blocks[k]? = some b ∧ result = p.scan b.statements (b.tableAfter v')
  rooted : ∀ k ∈ roots, Seen v k ∨ Frame.enter k ∈ frames

namespace Touring

variable {roots : List Nat} {v : Visits} {k : Nat} {rest : List Frame}

/-- Skipping a block that has been seen keeps the tour going. -/
theorem skip (h : p.Touring blocks roots v (.enter k :: rest)) (hk : Seen v k) :
    p.Touring blocks roots v rest := by
  refine ⟨h.size, ?_, ?_, h.scan, ?_⟩
  · refine h.ready.mono fun l hl => ?_
    rcases hl with hl | rfl
    · exact hl
    · exact hk
  · intro l hl
    exact (List.mem_cons.mp (h.pending hl)).resolve_left fun heq => (nomatch heq)
  · intro l hl
    rcases h.rooted l hl with hseen | hmem
    · exact Or.inl hseen
    · rcases List.mem_cons.mp hmem with heq | hmem
      · rw [Frame.enter.injEq] at heq
        exact Or.inl (heq ▸ hk)
      · exact Or.inr hmem

/-- So does entering a block, with all that it goes on to before it is left. -/
theorem enter (h : p.Touring blocks roots v (.enter k :: rest)) :
    p.Touring blocks roots (v.setIfInBounds k .onPath) (entering blocks k rest) := by
  have hstays : ∀ {frame}, frame ∈ rest → frame ∈ entering blocks k rest :=
    fun hmem => List.mem_append.mpr (Or.inr (List.mem_cons_of_mem _ hmem))
  refine ⟨(Array.size_setIfInBounds ..).trans h.size, ?_, ?_, ?_, ?_⟩
  · -- the blocks that this one goes on to are entered before it is left
    refine Ready.enter_append ⟨?_, ?_⟩
    · intro b hb l hl
      rw [hb]
      exact Or.inr hl
    · exact Ready.mono (fun l hl => Or.inl (seen_set rfl hl)) h.ready
  · intro l hl
    rw [Array.getElem?_setIfInBounds] at hl
    split at hl
    · next heq => exact heq ▸ List.mem_append.mpr (Or.inr (List.mem_cons_self ..))
    · exact hstays ((List.mem_cons.mp (h.pending hl)).resolve_left fun heq => (nomatch heq))
  · intro l result hl
    exact h.scan (finished_of_enter hl)
  · intro l hl
    rcases h.rooted l hl with hseen | hmem
    · exact Or.inl (seen_set rfl (Or.inl hseen))
    · rcases List.mem_cons.mp hmem with heq | hmem
      · rw [Frame.enter.injEq] at heq
        exact Or.inl (seen_set rfl (Or.inr heq))
      · exact Or.inr (hstays hmem)

/-- A number that belongs to no block is left without a scan. -/
theorem gone (h : p.Touring blocks roots v (.leave k :: rest)) (hb : blocks[k]? = none) :
    p.Touring blocks roots v rest := by
  refine ⟨h.size, h.ready.2, ?_, h.scan, ?_⟩
  · intro l hl
    refine (List.mem_cons.mp (h.pending hl)).resolve_left fun heq => ?_
    rw [Frame.leave.injEq] at heq
    rw [← heq, Array.getElem?_eq_none_iff, ← h.size] at hb
    exact absurd (Array.getElem?_eq_some_iff.mp hl).1 (Nat.not_lt_of_le hb)
  · intro l hl
    refine (h.rooted l hl).imp_right fun hmem => ?_
    exact (List.mem_cons.mp hmem).resolve_left fun heq => (nomatch heq)

/-- Leaving a block finishes it, when all that it goes on to has been seen. -/
theorem leave {b : Block} (h : p.Touring blocks roots v (.leave k :: rest))
    (hb : blocks[k]? = some b) : p.Touring blocks roots (p.leaving v k b) rest := by
  have hlt : k < v.size := h.size ▸ (Array.getElem?_eq_some_iff.mp hb).1
  refine ⟨(Array.size_setIfInBounds ..).trans h.size, ?_, ?_, ?_, ?_⟩
  · exact Ready.mono (fun l hl => seen_set rfl (Or.inl hl)) h.ready.2
  · intro l hl
    rw [getElem?_leaving hlt] at hl
    split at hl
    · exact nomatch hl
    · next hne =>
      refine (List.mem_cons.mp (h.pending hl)).resolve_left fun heq => hne ?_
      rw [Frame.leave.injEq] at heq
      exact heq.symm
  · intro l result hl
    rw [getElem?_leaving hlt] at hl
    split at hl
    · next heq =>
      rw [Option.some.injEq, Visit.finished.injEq] at hl
      exact ⟨b, v, heq ▸ hb, hl.symm⟩
    · exact h.scan hl
  · intro l hl
    rcases h.rooted l hl with hseen | hmem
    · exact Or.inl (seen_set rfl (Or.inl hseen))
    · exact Or.inr ((List.mem_cons.mp hmem).resolve_left fun heq => (nomatch heq))

/-- At the start no block has been visited. -/
theorem eq_fresh_of_start {n : Nat} {x : Visit}
    (hk : (Array.replicate n Visit.fresh)[k]? = some x) : x = .fresh :=
  Array.eq_of_mem_replicate (Array.mem_of_getElem? hk)

/-- A tour without roots has ended before it starts. -/
theorem start : p.Touring blocks [] (Array.replicate blocks.size .fresh) [] := by
  refine ⟨Array.size_replicate, trivial, ?_, ?_, fun k hk => (nomatch hk)⟩
  · intro k hk
    exact nomatch eq_fresh_of_start hk
  · intro k result hk
    exact nomatch eq_fresh_of_start hk

/-- When a tour has ended, it can go on from one more root. -/
theorem root (h : p.Touring blocks roots v []) (k : Nat) :
    p.Touring blocks (roots ++ [k]) v [.enter k] := by
  refine ⟨h.size, trivial, fun hl => (nomatch h.pending hl), h.scan, ?_⟩
  intro l hl
  rcases List.mem_append.mp hl with hl | hl
  · exact Or.inl ((h.rooted l hl).resolve_right fun hmem => (nomatch hmem))
  · exact Or.inr (by rw [List.mem_singleton.mp hl]; exact List.mem_singleton.mpr rfl)

/-- Every step of the walk keeps the tour going. -/
theorem walkInvariant (p : Program) (blocks : Array Block) (roots : List Nat) :
    WalkInvariant p blocks (p.Touring blocks roots) where
  skip := skip
  enter h _ := h.enter
  gone := gone
  leave := leave

end Touring

/-- The walks from all roots make up one tour. -/
theorem touring_registerUse (p : Program) (blocks : Array Block) (roots : List Nat) :
    p.Touring blocks roots (p.registerUse blocks roots) [] :=
  registerUse_invariant (Touring.walkInvariant p blocks) .start (fun k h => h.root k) roots

/-- When no step is left to be made, every block that has been seen has been scanned. -/
theorem Touring.exists_scan {roots : List Nat} {v : Visits} {k : Nat} {b : Block}
    (h : p.Touring blocks roots v []) (hk : Seen v k) (hb : blocks[k]? = some b) :
    ∃ v', v[k]? = some (.finished (p.scan b.statements (b.tableAfter v'))) := by
  have hlt : k < v.size := h.size ▸ (Array.getElem?_eq_some_iff.mp hb).1
  obtain ⟨x, hx⟩ : ∃ x, v[k]? = some x := ⟨_, Array.getElem?_eq_getElem hlt⟩
  cases x with
  | fresh =>
      rw [Seen, Visits.isFreshAt, hx] at hk
      cases hk
  -- no step is left that could leave the block
  | onPath => exact absurd (h.pending hx) List.not_mem_nil
  | finished result =>
      obtain ⟨b', v', hb', hresult⟩ := h.scan hx
      rw [hb, Option.some.injEq] at hb'
      subst hb'
      exact ⟨v', hresult ▸ hx⟩

/-- In the end every root has been scanned. -/
theorem exists_scan_of_mem {roots : List Nat} {k : Nat} {b : Block} (hk : k ∈ roots)
    (hb : blocks[k]? = some b) :
    ∃ v', (p.registerUse blocks roots)[k]? =
      some (.finished (p.scan b.statements (b.tableAfter v'))) := by
  have h := p.touring_registerUse blocks roots
  exact h.exists_scan ((h.rooted k hk).resolve_right List.not_mem_nil) hb

/-! ## Nothing is left out -/

/-- A block goes on to another. -/
def GoesOn (blocks : Array Block) (k l : Nat) : Prop :=
  ∃ b, blocks[k]? = some b ∧ l ∈ b.succs

/-- A walk that has seen whatever the scanned blocks go on to. -/
structure Covering (p : Program) (blocks : Array Block) (roots : List Nat) (v : Visits)
    (frames : List Frame) : Prop extends p.Touring blocks roots v frames where
  closed : ∀ {k l : Nat} {result : Scan}, v[k]? = some (.finished result) → GoesOn blocks k l →
    Seen v l

namespace Covering

variable {roots : List Nat} {v : Visits} {k : Nat} {rest : List Frame}

/-- Entering a block covers all that it goes on to. -/
theorem enter (h : p.Covering blocks roots v (.enter k :: rest)) :
    p.Covering blocks roots (v.setIfInBounds k .onPath) (entering blocks k rest) := by
  refine ⟨h.toTouring.enter, ?_⟩
  intro l m result hl hlm
  exact seen_set rfl (Or.inl (h.closed (finished_of_enter hl) hlm))

/-- Leaving a block takes nothing out of what is covered. -/
theorem leave {b : Block} (h : p.Covering blocks roots v (.leave k :: rest))
    (hb : blocks[k]? = some b) : p.Covering blocks roots (p.leaving v k b) rest := by
  refine ⟨h.toTouring.leave hb, ?_⟩
  intro l m result hl hlm
  refine seen_set rfl (Or.inl ?_)
  rw [getElem?_leaving (h.size ▸ (Array.getElem?_eq_some_iff.mp hb).1)] at hl
  split at hl
  · next hkl =>
    -- the block is left only now, so the walk was ready for that
    subst hkl
    obtain ⟨b', hb', hm⟩ := hlm
    exact h.ready.1 b' hb' m hm
  · exact h.closed hl hlm

/-- Every step of the walk keeps what it covers. -/
theorem walkInvariant (p : Program) (blocks : Array Block) (roots : List Nat) :
    WalkInvariant p blocks (p.Covering blocks roots) where
  skip h hk := ⟨h.toTouring.skip hk, h.closed⟩
  enter h _ := h.enter
  gone h hb := ⟨h.toTouring.gone hb, h.closed⟩
  leave := leave

end Covering

/-- The walks from all roots cover whatever the roots lead to. -/
theorem covering_registerUse (p : Program) (blocks : Array Block) (roots : List Nat) :
    p.Covering blocks roots (p.registerUse blocks roots) [] := by
  refine registerUse_invariant (Covering.walkInvariant p blocks) ⟨.start, ?_⟩ ?_ roots
  · intro k l result hk
    cases Touring.eq_fresh_of_start hk
  · intro roots v k h
    exact ⟨h.toTouring.root k, h.closed⟩

/-- In the end every block that can be reached from a root has been scanned. -/
theorem exists_scan_of_path {roots : List Nat} {r k : Nat} {b : Block} (hr : r ∈ roots)
    (hpath : ReflTransGen (GoesOn blocks) r k) (hb : blocks[k]? = some b) :
    ∃ v', (p.registerUse blocks roots)[k]? =
      some (.finished (p.scan b.statements (b.tableAfter v'))) := by
  have h := p.covering_registerUse blocks roots
  refine h.exists_scan ?_ hb
  clear hb
  induction hpath with
  | refl => exact (h.rooted r hr).resolve_right List.not_mem_nil
  | tail _ hstep ih =>
      -- the block before has been seen, so it has been scanned
      obtain ⟨b', hb', hmem⟩ := hstep
      obtain ⟨v', hv'⟩ := h.exists_scan ih hb'
      exact h.closed hv' ⟨b', hb', hmem⟩

/-! ## What the walk is within -/

section Path

variable {v : Visits} {k l root : Nat} {rest frames : List Frame}

/-- The blocks that the walk is within, the innermost first: those that are still to be left. -/
def path (frames : List Frame) : List Nat :=
  frames.filterMap Frame.left?

/-- The path consists of the blocks that are still to be left. -/
theorem mem_path : k ∈ path frames ↔ Frame.leave k ∈ frames := by
  rw [path, List.mem_filterMap]
  constructor
  · rintro ⟨frame, hmem, hk⟩
    cases frame with
    | enter m => cases hk
    | leave m => exact Option.some.inj hk ▸ hmem
  · intro hmem
    exact ⟨_, hmem, rfl⟩

/-- Blocks that are still to be entered are not on the path. -/
theorem path_enters (ls : List Nat) (rest : List Frame) :
    path (ls.map Frame.enter ++ rest) = path rest := by
  induction ls with
  | nil => rfl
  | cons l ls ih => exact ih

/-- A step comes from the innermost block, or it is the first of the walk. -/
def ComesFrom (blocks : Array Block) (root : Nat) : List Nat → Nat → Prop
  | [], l => l = root
  | k :: _, l => GoesOn blocks k l

/-- Every step that is still to be made comes from the block that will be the innermost then. -/
def Nested (blocks : Array Block) (root : Nat) : List Frame → Prop
  | [] => True
  | frame :: rest => ComesFrom blocks root (path rest) frame.block ∧ Nested blocks root rest

/-- The blocks that are entered from the innermost one are nested in it. -/
theorem Nested.entering {b : Block} (hb : blocks[k]? = some b)
    (h : Nested blocks root (.leave k :: rest)) :
    ∀ {ls : List Nat}, (∀ l ∈ ls, l ∈ b.succs) →
      Nested blocks root (ls.map Frame.enter ++ .leave k :: rest) := by
  intro ls
  induction ls with
  | nil => exact fun _ => h
  | cons l ls ih =>
      intro hls
      refine ⟨?_, ih fun m hm => hls m (List.mem_cons_of_mem l hm)⟩
      show ComesFrom blocks root (path (ls.map Frame.enter ++ .leave k :: rest)) l
      rw [path_enters]
      exact ⟨b, hb, hls l (List.mem_cons_self ..)⟩

/-- The blocks that the walk is within are a path from where it started. -/
theorem Nested.isChain_path : ∀ {frames : List Frame}, Nested blocks root frames →
    (path frames).IsChain (fun l k => GoesOn blocks k l) ∧
      ∀ k, (path frames).getLast? = some k → k = root := by
  intro frames
  induction frames with
  | nil =>
      intro _
      refine ⟨List.isChain_nil, fun k hk => ?_⟩
      cases hk
  | cons frame rest ih =>
      rintro ⟨hfrom, hrest⟩
      obtain ⟨hchain, hlast⟩ := ih hrest
      cases frame with
      | enter l => exact ⟨hchain, hlast⟩
      | leave l =>
          show (l :: path rest).IsChain _ ∧ ∀ k, (l :: path rest).getLast? = some k → _
          cases hpath : path rest with
          | nil =>
              rw [hpath] at hfrom
              refine ⟨List.isChain_singleton l, fun k hk => ?_⟩
              rw [List.getLast?_singleton, Option.some.injEq] at hk
              exact hk ▸ hfrom
          | cons k ks =>
              rw [hpath] at hfrom hchain hlast
              refine ⟨List.isChain_cons_cons.mpr ⟨hfrom, hchain⟩, fun j hj => ?_⟩
              rw [List.getLast?_cons_cons] at hj
              exact hlast j hj

/-- The blocks that a walk from `root` is within: a path, and the walk knows that it is on it. -/
structure Within (blocks : Array Block) (root : Nat) (v : Visits) (frames : List Frame) :
    Prop where
  nested : Nested blocks root frames
  nodup : (path frames).Nodup
  onPath : ∀ k ∈ path frames, v[k]? = some .onPath

namespace Within

theorem skip (h : Within blocks root v (.enter k :: rest)) : Within blocks root v rest :=
  ⟨h.nested.2, h.nodup, h.onPath⟩

/-- A block that is entered for the first time is on the path from then on. -/
theorem enter (h : Within blocks root v (.enter k :: rest)) (hk : ¬ Seen v k) :
    Within blocks root (v.setIfInBounds k .onPath) (entering blocks k rest) := by
  have hfresh : v[k]? = some .fresh := by
    rw [Seen, Bool.not_eq_false, Visits.isFreshAt, Option.any_eq_true] at hk
    obtain ⟨x, hx, hx'⟩ := hk
    cases x with
    | fresh => exact hx
    | onPath => cases hx'
    | finished result => cases hx'
  have hpath : path (Program.entering blocks k rest) = k :: path rest := path_enters _ _
  -- the block is fresh, so the walk is not within it already
  have hnew : ¬ k ∈ path rest := by
    intro hmem
    have hon : v[k]? = some .onPath := h.onPath k hmem
    rw [hfresh, Option.some.injEq] at hon
    cases hon
  refine ⟨?_, ?_, ?_⟩
  · have hleave : Nested blocks root (.leave k :: rest) := h.nested
    rw [Program.entering]
    cases hb : blocks[k]? with
    | none => exact hleave
    | some b => exact hleave.entering hb fun l hl => hl
  · rw [hpath, List.nodup_cons]
    exact ⟨hnew, h.nodup⟩
  · intro l hl
    rw [hpath] at hl
    rw [Array.getElem?_setIfInBounds]
    rcases List.mem_cons.mp hl with rfl | hl
    · rw [if_pos rfl, if_pos (Array.getElem?_eq_some_iff.mp hfresh).1]
    · rw [if_neg fun hkl : k = l => hnew (hkl ▸ hl)]
      exact h.onPath l hl

/-- A block that is left is on the path no more. -/
theorem leave (h : Within blocks root v (.leave k :: rest)) (x : Visit) :
    Within blocks root (v.setIfInBounds k x) rest := by
  obtain ⟨hnew, hnodup⟩ := List.nodup_cons.mp (show (k :: path rest).Nodup from h.nodup)
  refine ⟨h.nested.2, hnodup, fun l hl => ?_⟩
  rw [Array.getElem?_setIfInBounds, if_neg fun hkl : k = l => hnew (hkl ▸ hl)]
  exact h.onPath l (List.mem_cons_of_mem k hl)

theorem gone (h : Within blocks root v (.leave k :: rest)) : Within blocks root v rest :=
  ⟨h.nested.2, h.nodup.of_cons, fun l hl => h.onPath l (List.mem_cons_of_mem k hl)⟩

theorem start (v : Visits) (root : Nat) : Within blocks root v [.enter root] :=
  ⟨⟨rfl, trivial⟩, List.nodup_nil, fun _ hk => absurd hk List.not_mem_nil⟩

end Within

end Path

/-! ## Results last -/

/-- Block `k` has been scanned with this result, and will not be left again. -/
def Settled (k : Nat) (result : Scan) (v : Visits) (frames : List Frame) : Prop :=
  v[k]? = some (.finished result) ∧ ¬ Frame.leave k ∈ frames

/-- What has been found out about a finished block is never changed. -/
theorem Settled.walkInvariant (p : Program) (blocks : Array Block) (k : Nat) (result : Scan) :
    WalkInvariant p blocks (Settled k result) := by
  refine ⟨?_, ?_, ?_, ?_⟩
  · intro v l rest h _
    exact ⟨h.1, fun hmem => h.2 (List.mem_cons_of_mem _ hmem)⟩
  · intro v l rest h hl
    -- a block that is entered has not been scanned
    have hne : l ≠ k := by
      rintro rfl
      refine hl ?_
      rw [Seen, Visits.isFreshAt, h.1]
      rfl
    refine ⟨?_, fun hmem => ?_⟩
    · rw [Array.getElem?_setIfInBounds, if_neg hne]
      exact h.1
    · rcases List.mem_append.mp hmem with hmem | hmem
      · obtain ⟨m, -, hm⟩ := List.mem_map.mp hmem
        cases hm
      · rcases List.mem_cons.mp hmem with heq | hmem
        · rw [Frame.leave.injEq] at heq
          exact hne heq.symm
        · exact h.2 (List.mem_cons_of_mem _ hmem)
  · intro v l rest h _
    exact ⟨h.1, fun hmem => h.2 (List.mem_cons_of_mem _ hmem)⟩
  · intro v l rest b h _
    have hne : l ≠ k := by
      rintro rfl
      exact h.2 (List.mem_cons_self ..)
    refine ⟨?_, fun hmem => h.2 (List.mem_cons_of_mem _ hmem)⟩
    rw [leaving, Array.getElem?_setIfInBounds, if_neg hne]
    exact h.1

/-- What the walk from the first root finds out, no later walk changes. -/
theorem registerUse_cons_of_finished {root k : Nat} {roots : List Nat} {result : Scan}
    (h : (p.walkBlocks blocks (Array.replicate blocks.size .fresh) [.enter root])[k]? =
      some (.finished result)) :
    (p.registerUse blocks (root :: roots))[k]? = some (.finished result) := by
  rw [registerUse, List.foldl_cons]
  generalize p.walkBlocks blocks (Array.replicate blocks.size .fresh) [.enter root] = v at h
  induction roots generalizing v with
  | nil => exact h
  | cons l roots ih =>
      rw [List.foldl_cons]
      have hstart : Settled k result v [.enter l] :=
        ⟨h, fun hmem => by cases List.mem_singleton.mp hmem⟩
      exact ih _ ((Settled.walkInvariant p blocks k result).walkBlocks hstart).1

end Program

end AsmCheck
