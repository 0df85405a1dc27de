import AsmCheck.Proofs.Partition

/-! # Going back over the blocks

    Whatever the walk over the blocks finds out about registers, it finds out
    in the same way: it goes back over the statements of a block, starting from
    what the blocks say that this one goes on to, and takes the worst of a block
    that it is still within.  So a reading of tables, that is what a table is
    taken to say about the statements where control may be, is true of every
    table of the walk as soon as it survives the single steps (`Backward`): the
    join of two ways, one statement, and the worst case, which only a loop asks
    for.  The result is `exists_scan_round`, from which the table of a block and
    its dead stores follow by going back over one run.

    Paths can be followed along the blocks or along the links of statements;
    from what is found these are the same paths (`path_round`). -/

namespace AsmCheck

open Relation

/-! ## Paths along blocks -/

/-- Control goes from statement `i` to statement `j` along the blocks: they are neighbours in a
    block, or `i` ends a block that goes on to one which `j` starts. -/
def Round.Follows (r : Round) (i j : Nat) : Prop :=
  ∃ (k : Nat) (b : Block), r.blocks[k]? = some b ∧
    ([i, j] <:+: b.statements ∨
      b.statements.getLast? = some i ∧ ∃ l ∈ b.succs, r.firstOf l = some j)

namespace Cutting

variable {c : Cutting} {s i j : Nat}

/-- Neighbours in a run continue one another. -/
theorem infix_run_iff : [i, j] <:+: c.run s ↔ i ∈ c.run s ∧ c.continuation i = some j := by
  constructor
  · rintro ⟨front, back, hrun⟩
    have hsplit : c.run s = front ++ i :: j :: back := by
      rw [← hrun, List.append_assoc]
      rfl
    constructor
    · rw [hsplit]
      simp
    · exact List.isChain_iff_forall_rel_of_append_cons_cons.mp (isChain_run s) hsplit
  · rintro ⟨hi, hj⟩
    obtain ⟨front, hfront⟩ := exists_append_of_mem_run hi
    obtain ⟨back, hback⟩ : ∃ back, c.run j = j :: back := ⟨_, run.eq_def c j⟩
    refine ⟨front, back, ?_⟩
    rw [hfront, run_more hj, hback]
    simp

/-- From each of its statements on, a run goes to the same end. -/
theorem runEnd_of_mem_run (h : i ∈ c.run s) : c.runEnd i = c.runEnd s := by
  obtain ⟨front, hfront⟩ := exists_append_of_mem_run h
  have hlast := getLast?_run (c := c) s
  rw [hfront, List.getLast?_append, getLast?_run] at hlast
  exact Option.some.inj hlast

end Cutting

namespace Program

variable {p : Program} {f : Flow} {arrivals : Arrivals} {i j : Nat}

/-- Along the blocks control goes where the links of found statements lead. -/
theorem WellFormed.follows_round (hp : p.WellFormed) :
    (p.round arrivals).Follows i j ↔
      p.Reached (p.flow arrivals) i ∧ p.Link (p.flow arrivals) i j := by
  have hf := hp.allows_flow arrivals
  constructor
  · rintro ⟨k, b, hb, hij⟩
    rw [blocks_round] at hb
    obtain ⟨s, hs, rfl⟩ := Cutting.getElem?_blocks.mp hb
    have hreached : ∀ {x}, x ∈ (p.cut (p.flow arrivals)).run s → p.Reached (p.flow arrivals) x :=
      fun hx => Cutting.reached_of_mem_run ((hs.isHead hp).reached hp) hx
    rcases hij with hij | ⟨hi, l, hl, hj⟩
    · obtain ⟨hi, hcont⟩ := Cutting.infix_run_iff.mp hij
      exact ⟨hreached hi, Cutting.link_of_continuation hcont⟩
    · obtain rfl : (p.cut (p.flow arrivals)).runEnd s = i :=
        Option.some.inj ((Cutting.getLast?_run s).symm.trans hi)
      exact ⟨hreached (Cutting.runEnd_mem_run s),
        (Cutting.link_runEnd_iff hp hs).mpr ⟨l, hl, firstOf_round.mp hj⟩⟩
  · rintro ⟨hi, hlink⟩
    obtain ⟨s, hs, hmem⟩ := Cutting.exists_head_of_reached hp hf hi
    obtain ⟨k, hk⟩ := hs.exists_headAt hp
    refine ⟨k, _, Cutting.getElem?_blocks.mpr ⟨s, hk, rfl⟩, ?_⟩
    rcases Cutting.continuation_or_runEnd hp hf hmem hlink with hcont | rfl
    · exact Or.inl (Cutting.infix_run_iff.mpr ⟨hmem, hcont⟩)
    · obtain ⟨l, hl, hj⟩ := (Cutting.link_runEnd_iff hp hk).mp hlink
      exact Or.inr ⟨Cutting.getLast?_run s, l, hl, firstOf_round.mpr hj⟩

/-- From what is found, paths along blocks are paths along links, whatever is asked of the
    statements that they leave. -/
theorem WellFormed.path_round (hp : p.WellFormed) {C : Nat → Prop}
    (hi : p.Reached (p.flow arrivals) i) :
    ReflTransGen (fun a b => C a ∧ (p.round arrivals).Follows a b) i j ↔
      ReflTransGen (fun a b => C a ∧ p.Link (p.flow arrivals) a b) i j := by
  constructor
  · intro h
    exact ReflTransGen.mono (fun _ _ hab => ⟨hab.1, (hp.follows_round.mp hab.2).2⟩) _ _ h
  · intro h
    have hboth : p.Reached (p.flow arrivals) j ∧
        ReflTransGen (fun a b => C a ∧ (p.round arrivals).Follows a b) i j := by
      induction h with
      | refl => exact ⟨hi, .refl⟩
      | tail _ hab ih =>
          exact ⟨ih.1.step hab.2, ih.2.tail ⟨hab.1, hp.follows_round.mpr ⟨ih.1, hab.2⟩⟩⟩
    exact hboth.2

/-! ## Readings of tables -/

/-- A reading of tables that goes back over a flow of control: `tells P t` is what table `t` is
    taken to say about the statements that `P` holds of. -/
structure Backward (p : Program) (f : Flow) (tells : (Nat → Prop) → RegisterTable → Prop) :
    Prop where
  /-- Where control cannot be, there is nothing to say. -/
  nowhere : ∀ {P : Nat → Prop}, (∀ j, ¬ P j) → tells P default
  /-- If control can be at either of two places, either may happen. -/
  merge : ∀ {P Q : Nat → Prop} {t u : RegisterTable}, tells P t → tells Q u →
    tells (fun j => P j ∨ Q j) (t.merge u)
  /-- Back over a statement, from what is said of the statements that its links lead to. -/
  before : ∀ {i : Nat} {s : Placed} {after : RegisterTable}, p.statements[i]? = some s →
    tells (p.Link f i) after → tells (· = i) (s.tableBefore after)
  /-- The worst may be said of anything, if there are loops. -/
  loops : (∃ k, TransGen (GoesOn (p.cut f).blocks) k k) → ∀ P, tells P RegisterTable.looping

namespace Backward

variable {tells : (Nat → Prop) → RegisterTable → Prop}

theorem congr {P Q : Nat → Prop} {t : RegisterTable} (h : tells P t) (hPQ : ∀ j, P j ↔ Q j) :
    tells Q t := by
  have hPQ' : P = Q := funext fun j => propext (hPQ j)
  rw [← hPQ']
  exact h

/-- Back over a statement that a list starts with. -/
theorem tells_scan_cons (h : p.Backward f tells) {is : List Nat} {after : RegisterTable}
    (hcode : p.isCode i = true) (hafter : tells (p.Link f i) (p.scan is after).table) :
    tells (· = i) (p.scan (i :: is) after).table := by
  obtain ⟨s, hs, -⟩ := test_eq_true.mp hcode
  rw [scan_cons hs]
  exact h.before hs hafter

/-- Within a run, the one link leads to the next statement. -/
theorem tells_link (hp : p.WellFormed) (hf : p.Allows f) {n : Nat} {t : RegisterTable}
    (hn : (p.cut f).continuation i = some n) (h : tells (· = n) t) : tells (p.Link f i) t := by
  refine congr h fun j => ⟨?_, Cutting.eq_of_link_of_continuation hp hf hn⟩
  rintro rfl
  exact Cutting.link_of_continuation hn

/-- Back over a run. -/
theorem tells_scan_run (h : p.Backward f tells) (hp : p.WellFormed) (hf : p.Allows f)
    {after : RegisterTable} {s : Nat} (hs : p.Reached f s)
    (hafter : tells (p.Link f ((p.cut f).runEnd s)) after) :
    tells (· = s) (p.scan ((p.cut f).run s) after).table := by
  induction s using Cutting.run_induction (c := p.cut f) with
  | last s hlast =>
      rw [Cutting.runEnd_last hlast] at hafter
      rw [Cutting.run_last hlast]
      exact h.tells_scan_cons (hp.isCode_of_reached hs) hafter
  | more s n hmore ih =>
      rw [Cutting.runEnd_more hmore] at hafter
      rw [Cutting.run_more hmore]
      have hrest := ih (hs.step (Cutting.link_of_continuation hmore)) hafter
      exact h.tells_scan_cons (hp.isCode_of_reached hs) (tells_link hp hf hmore hrest)

/-- Back over a run as far as one of its statements. -/
theorem tells_scan_rest (h : p.Backward f tells) (hp : p.WellFormed) (hf : p.Allows f)
    {after : RegisterTable} {s : Nat} (hs : p.Reached f s) (hi : i ∈ (p.cut f).run s)
    (hafter : tells (p.Link f ((p.cut f).runEnd s)) after) :
    ∃ front rest, (p.cut f).run s = front ++ i :: rest ∧
      tells (p.Link f i) (p.scan rest after).table := by
  obtain ⟨front, hfront⟩ := Cutting.exists_append_of_mem_run hi
  rw [← Cutting.runEnd_of_mem_run hi] at hafter
  cases hc : (p.cut f).continuation i with
  | none =>
      rw [Cutting.runEnd_last hc] at hafter
      rw [Cutting.run_last hc] at hfront
      exact ⟨front, [], hfront, hafter⟩
  | some n =>
      rw [Cutting.runEnd_more hc] at hafter
      rw [Cutting.run_more hc] at hfront
      have hn : p.Reached f n :=
        (Cutting.reached_of_mem_run hs hi).step (Cutting.link_of_continuation hc)
      exact ⟨front, _, hfront, tells_link hp hf hc (h.tells_scan_run hp hf hn hafter)⟩

/-- The table after a block, from the tables of the blocks that it goes on to. -/
theorem tells_tableAfter (h : p.Backward f tells) {b : Block} {v : Visits} {at_ : Nat → Nat → Prop}
    (hsuccs : ∀ l ∈ b.succs, tells (at_ l) ((v[l]?.map Visit.table).getD default)) :
    tells (fun j => ∃ l ∈ b.succs, at_ l j) (b.tableAfter v) := by
  have hfold : ∀ {ls : List Nat} {P : Nat → Prop} {t : RegisterTable}, tells P t →
      (∀ l ∈ ls, tells (at_ l) ((v[l]?.map Visit.table).getD default)) →
      tells (fun j => P j ∨ ∃ l ∈ ls, at_ l j)
        (ls.foldl (fun t l => t.merge ((v[l]?.map Visit.table).getD default)) t) := by
    intro ls
    induction ls with
    | nil =>
        intro P t ht _
        refine congr ht fun j => ?_
        simp
    | cons l ls ih =>
        intro P t ht hls
        have hl := h.merge ht (hls l (List.mem_cons_self ..))
        refine congr (ih hl fun m hm => hls m (List.mem_cons_of_mem l hm)) fun j => ?_
        simp only [List.mem_cons, exists_eq_or_imp, or_assoc]
  refine congr (hfold (h.nowhere (P := fun _ => False) fun _ => id) hsuccs) fun j => ?_
  rw [false_or]

end Backward

/-! ## The walk -/

/-- A chain of blocks, the last one first, is a path from each of them to the last. -/
theorem reflTransGen_of_isChain {blocks : Array Block} : ∀ {ks : List Nat} {k l : Nat},
    (k :: ks).IsChain (fun b a => GoesOn blocks a b) → l ∈ k :: ks →
      ReflTransGen (GoesOn blocks) l k := by
  intro ks
  induction ks with
  | nil =>
      intro k l _ hl
      rw [List.mem_singleton.mp hl]
  | cons m ks ih =>
      intro k l hchain hl
      obtain ⟨hstep, hrest⟩ := List.isChain_cons_cons.mp hchain
      rcases List.mem_cons.mp hl with rfl | hl
      · exact .refl
      · exact (ih hrest hl).tail hstep

/-- What holds during the walk over the blocks of a flow: each block that has been scanned has been
    scanned with a table of which the reading is true where the block is left. -/
structure Telling (p : Program) (f : Flow) (tells : (Nat → Prop) → RegisterTable → Prop)
    (roots : List Nat) (v : Visits) (frames : List Frame) : Prop
    extends p.Touring (p.cut f).blocks roots v frames where
  within : ∃ root, Within (p.cut f).blocks root v frames
  scanned : ∀ {k s : Nat} {result : Scan}, v[k]? = some (.finished result) →
    (p.cut f).HeadAt k s → ∃ after, tells (p.Link f ((p.cut f).runEnd s)) after ∧
      result = p.scan ((p.cut f).run s) after

namespace Telling

variable {tells : (Nat → Prop) → RegisterTable → Prop} {roots : List Nat} {v : Visits} {k l : Nat}
  {rest : List Frame}

/-- A block that the walk is within, and that the innermost block goes on to, is in a loop. -/
theorem exists_loop {b : Block} (h : p.Telling f tells roots v (.leave k :: rest))
    (hb : (p.cut f).blocks[k]? = some b) (hl : l ∈ b.succs) (hon : v[l]? = some .onPath) :
    ∃ m, TransGen (GoesOn (p.cut f).blocks) m m := by
  obtain ⟨root, hwithin⟩ := h.within
  have hmem : l ∈ k :: path rest := mem_path.mpr (h.pending hon)
  exact ⟨l, .tail' (reflTransGen_of_isChain hwithin.nested.isChain_path.1 hmem) ⟨b, hb, hl⟩⟩

/-- What the walk has in hand for a block that the innermost one goes on to is true at its head. -/
theorem tells_table (hrule : p.Backward f tells) (hp : p.WellFormed) (hf : p.Allows f) {b : Block}
    (h : p.Telling f tells roots v (.leave k :: rest)) (hb : (p.cut f).blocks[k]? = some b)
    (hl : l ∈ b.succs) :
    tells ((p.cut f).HeadAt l) ((v[l]?.map Visit.table).getD default) := by
  have hseen : Seen v l := h.ready.1 b hb l hl
  cases hv : v[l]? with
  | none =>
      -- a block that does not exist has no head
      refine hrule.nowhere fun j hj => ?_
      obtain ⟨hlt, -⟩ := Array.getElem?_eq_some_iff.mp (Cutting.getElem?_blocks.mpr ⟨j, hj, rfl⟩)
      rw [Array.getElem?_eq_none_iff, h.size] at hv
      exact absurd hlt (Nat.not_lt_of_le hv)
  | some x =>
      cases x with
      | fresh =>
          rw [Seen, Visits.isFreshAt, hv] at hseen
          cases hseen
      | onPath => exact hrule.loops (h.exists_loop hb hl hv) _
      | finished result =>
          have hlt : l < (p.cut f).blocks.size := h.size ▸ (Array.getElem?_eq_some_iff.mp hv).1
          obtain ⟨s, hs, -⟩ := Cutting.getElem?_blocks.mp (Array.getElem?_eq_getElem hlt)
          obtain ⟨after, hafter, rfl⟩ := h.scanned hv hs
          refine Backward.congr (hrule.tells_scan_run hp hf ((hs.isHead hp).reached hp) hafter) ?_
          intro j
          constructor
          · rintro rfl
            exact hs
          · intro hj
            exact hj.head_unique hs

theorem leave (hrule : p.Backward f tells) (hp : p.WellFormed) (hf : p.Allows f) {b : Block}
    (h : p.Telling f tells roots v (.leave k :: rest)) (hb : (p.cut f).blocks[k]? = some b) :
    p.Telling f tells roots (p.leaving v k b) rest := by
  obtain ⟨root, hwithin⟩ := h.within
  refine ⟨h.toTouring.leave hb, ⟨root, hwithin.leave _⟩, ?_⟩
  intro l s result hl hs
  rw [getElem?_leaving (h.size ▸ (Array.getElem?_eq_some_iff.mp hb).1)] at hl
  split at hl
  · next hkl =>
    subst hkl
    obtain ⟨t, ht, rfl⟩ := Cutting.getElem?_blocks.mp hb
    obtain rfl := hs.head_unique ht
    rw [Option.some.injEq, Visit.finished.injEq] at hl
    refine ⟨_, ?_, hl.symm⟩
    -- the links out of the block lead to the heads of the blocks that it goes on to
    refine Backward.congr (hrule.tells_tableAfter fun l hl => h.tells_table hrule hp hf hb hl) ?_
    intro j
    rw [Cutting.link_runEnd_iff hp hs]
  · exact h.scanned hl hs

theorem walkInvariant (hrule : p.Backward f tells) (hp : p.WellFormed) (hf : p.Allows f)
    (roots : List Nat) : WalkInvariant p (p.cut f).blocks (p.Telling f tells roots) where
  skip h hk := ⟨h.toTouring.skip hk, h.within.imp fun _ => Within.skip, h.scanned⟩
  enter h hk := ⟨h.toTouring.enter, h.within.imp fun _ hw => hw.enter hk,
    fun hl => h.scanned (finished_of_enter hl)⟩
  gone h hb := ⟨h.toTouring.gone hb, h.within.imp fun _ => Within.gone, h.scanned⟩
  leave h hb := h.leave hrule hp hf hb

end Telling

theorem Backward.telling_registerUse {tells : (Nat → Prop) → RegisterTable → Prop}
    (hrule : p.Backward f tells) (hp : p.WellFormed) (hf : p.Allows f) (roots : List Nat) :
    p.Telling f tells roots (p.registerUse (p.cut f).blocks roots) [] := by
  refine registerUse_invariant (Telling.walkInvariant hrule hp hf) ⟨.start, ⟨0, ?_⟩, ?_⟩ ?_ roots
  · exact ⟨trivial, List.nodup_nil, fun _ hk => absurd hk List.not_mem_nil⟩
  · intro k s result hk
    cases Touring.eq_fresh_of_start hk
  · intro roots v k h
    exact ⟨h.toTouring.root k, ⟨k, .start v k⟩, h.scanned⟩

/-! ## Rounds -/

/-- A round scans every block with a table of which the reading is true where the block is left. -/
theorem Backward.exists_scan_round {tells : (Nat → Prop) → RegisterTable → Prop}
    (hrule : p.Backward (p.flow arrivals) tells) (hp : p.WellFormed) {k s : Nat}
    (hs : (p.cut (p.flow arrivals)).HeadAt k s) :
    ∃ after, tells (p.Link (p.flow arrivals) ((p.cut (p.flow arrivals)).runEnd s)) after ∧
      (p.round arrivals).visits[k]? =
        some (.finished (p.scan ((p.cut (p.flow arrivals)).run s) after)) := by
  have hf := hp.allows_flow arrivals
  have hwalk := hrule.telling_registerUse hp hf (p.rootBlocks (p.flow arrivals))
  obtain ⟨r, hr, hpath⟩ := Cutting.exists_path_of_headAt hp hf hs
  obtain ⟨v, hv⟩ := exists_scan_of_path (p := p) hr hpath (Cutting.getElem?_blocks.mpr ⟨s, hs, rfl⟩)
  obtain ⟨after, hafter, hresult⟩ := hwalk.scanned hv hs
  exact ⟨after, hafter, hv.trans (congrArg (fun r => some (Visit.finished r)) hresult)⟩

/-- The reading is true of the table of every block, at its head. -/
theorem Backward.tells_tableOf {tells : (Nat → Prop) → RegisterTable → Prop}
    (hrule : p.Backward (p.flow arrivals) tells) (hp : p.WellFormed) {k s : Nat}
    (hs : (p.cut (p.flow arrivals)).HeadAt k s) :
    tells (· = s) ((p.round arrivals).tableOf k) := by
  obtain ⟨after, hafter, hv⟩ := hrule.exists_scan_round hp hs
  rw [Round.tableOf, hv]
  exact hrule.tells_scan_run hp (hp.allows_flow arrivals) ((hs.isHead hp).reached hp) hafter

/-! ## Marks of registers -/

/-- Each register that has mark `m` in the table has it because of one of the statements that `P`
    holds of. -/
def Stems (m : SaveMark) (because : Reg → Nat → Prop) (P : Nat → Prop) (t : RegisterTable) : Prop :=
  ∀ r, m ∈ (t.get r).save → ∃ j, P j ∧ because r j

/-- Going back over the blocks makes no mark up, if a mark in front of a statement either stems from
    the statement, or was there after it and what it stems from can be traced back over it.  Neither
    the end of a path nor a loop contributes a mark. -/
theorem backward_stems {m : SaveMark} {because : Reg → Nat → Prop}
    (hstep : ∀ {i : Nat} {s : Placed} {r : Reg} {after : RegisterStatus}, p.statements[i]? = some s →
      m ∈ (RegisterStatus.before s.effects s.transfer r after).save →
        because r i ∨ m ∈ after.save ∧ ∀ j, p.Link f i j → because r j → because r i) :
    p.Backward f (Stems m because) where
  nowhere _ r h := by
    rw [RegisterTable.get_default] at h
    exact absurd h (EnumSet.not_mem_empty m)
  merge ht hu r h := by
    rw [RegisterTable.get_merge] at h
    rcases EnumSet.mem_union.mp h with h | h
    · obtain ⟨j, hj, hr⟩ := ht r h
      exact ⟨j, Or.inl hj, hr⟩
    · obtain ⟨j, hj, hr⟩ := hu r h
      exact ⟨j, Or.inr hj, hr⟩
  before hs hafter r h := by
    rw [RegisterTable.get_tableBefore] at h
    refine ⟨_, rfl, ?_⟩
    rcases hstep hs h with here | ⟨hm, hback⟩
    · exact here
    · obtain ⟨j, hij, hj⟩ := hafter r hm
      exact hback j hij hj
  loops _ _ r h := by
    rw [RegisterTable.get_looping] at h
    exact absurd h (EnumSet.not_mem_empty m)

/-! ## Dead stores -/

theorem mem_dead_cons {is : List Nat} {after : RegisterTable} :
    j ∈ (p.scan (i :: is) after).dead ↔
      (j = i ∧ ∃ s, p.statements[i]? = some s ∧ s.isDead (p.scan is after).table = true) ∨
        j ∈ (p.scan is after).dead := by
  rw [scan]
  cases p.statements[i]? with
  | none => simp
  | some s => by_cases hd : s.isDead (p.scan is after).table = true <;> simp [hd]

theorem mem_of_mem_dead {is : List Nat} {after : RegisterTable}
    (h : i ∈ (p.scan is after).dead) : i ∈ is := by
  induction is with
  | nil => exact absurd h List.not_mem_nil
  | cons a is ih =>
      rcases mem_dead_cons.mp h with ⟨rfl, -⟩ | h
      · exact List.mem_cons_self ..
      · exact List.mem_cons_of_mem a (ih h)

/-- Whether a scan calls a statement dead depends on the table after it. -/
theorem mem_dead_append {front rest : List Nat} {s : Placed} {after : RegisterTable}
    (hs : p.statements[i]? = some s) (hnodup : (front ++ i :: rest).Nodup) :
    i ∈ (p.scan (front ++ i :: rest) after).dead ↔
      s.isDead (p.scan rest after).table = true := by
  induction front with
  | nil =>
      have hrest : ¬ i ∈ (p.scan rest after).dead :=
        fun h => (List.nodup_cons.mp hnodup).1 (mem_of_mem_dead h)
      simp [mem_dead_cons, hs, hrest]
  | cons a front ih =>
      obtain ⟨ha, hnodup⟩ := List.nodup_cons.mp hnodup
      have hne : i ≠ a := by
        rintro rfl
        simp at ha
      rw [List.cons_append, mem_dead_cons, ih hnodup]
      simp [hne]

/-- Exactly the statements that some scan calls dead are made out to be dead. -/
theorem dead_round :
    (p.round arrivals).dead[i]?.getD false = true ↔
      i < p.statements.size ∧ ∃ (k : Nat) (result : Scan),
        (p.round arrivals).visits[k]? = some (.finished result) ∧ i ∈ result.dead := by
  have hmem : (i ∈ (p.round arrivals).visits.toList.flatMap
      fun x => (x.result?.map Scan.dead).getD []) ↔
      ∃ (k : Nat) (result : Scan),
        (p.round arrivals).visits[k]? = some (.finished result) ∧ i ∈ result.dead := by
    rw [List.mem_flatMap]
    constructor
    · rintro ⟨x, hx, hi⟩
      obtain ⟨k, hk⟩ := List.mem_iff_getElem?.mp hx
      rw [Array.getElem?_toList] at hk
      cases x with
      | fresh => exact absurd hi List.not_mem_nil
      | onPath => exact absurd hi List.not_mem_nil
      | finished result => exact ⟨k, result, hk, hi⟩
    · rintro ⟨k, result, hk, hi⟩
      rw [← Array.getElem?_toList] at hk
      exact ⟨_, List.mem_iff_getElem?.mpr ⟨k, hk⟩, hi⟩
  show (setAll (Array.replicate p.statements.size false)
    ((p.round arrivals).visits.toList.flatMap fun x => (x.result?.map Scan.dead).getD [])
      true)[i]?.getD false = true ↔ _
  rw [← hmem, getElem?_setAll]
  split
  · next h =>
    rw [Array.size_replicate] at h
    exact ⟨fun _ => ⟨h.2, h.1⟩, fun _ => rfl⟩
  · next h =>
    rw [Array.size_replicate] at h
    refine ⟨fun hfalse => ?_, fun h' => absurd ⟨h'.2, h'.1⟩ h⟩
    rw [Array.getElem?_replicate] at hfalse
    split at hfalse
    · exact nomatch hfalse
    · exact nomatch hfalse

/-- What is made out to be dead is in a block whose scan calls it dead. -/
theorem exists_headAt_of_dead (h : (p.round arrivals).dead[i]?.getD false = true) :
    ∃ (k s : Nat) (result : Scan), (p.cut (p.flow arrivals)).HeadAt k s ∧
      i ∈ (p.cut (p.flow arrivals)).run s ∧
      (p.round arrivals).visits[k]? = some (.finished result) ∧ i ∈ result.dead := by
  obtain ⟨-, k, result, hv, hi⟩ := dead_round.mp h
  have hwalk := p.touring_registerUse (p.cut (p.flow arrivals)).blocks
    (p.rootBlocks (p.flow arrivals))
  obtain ⟨b, v', hb, rfl⟩ := hwalk.scan hv
  obtain ⟨s, hs, rfl⟩ := Cutting.getElem?_blocks.mp hb
  exact ⟨k, s, _, hs, mem_of_mem_dead hi, hv, hi⟩

/-- Only what is found is made out to be dead. -/
theorem WellFormed.reached_of_dead (hp : p.WellFormed)
    (h : (p.round arrivals).dead[i]?.getD false = true) : p.Reached (p.flow arrivals) i := by
  obtain ⟨k, s, -, hs, hi, -⟩ := exists_headAt_of_dead h
  exact Cutting.reached_of_mem_run ((hs.isHead hp).reached hp) hi

/-- Whether a round makes out a statement to be dead depends on a table of which the reading is true
    after the statement. -/
theorem Backward.exists_dead_iff {tells : (Nat → Prop) → RegisterTable → Prop}
    (hrule : p.Backward (p.flow arrivals) tells) (hp : p.WellFormed) {st : Placed}
    (hst : p.statements[i]? = some st) (hi : p.Reached (p.flow arrivals) i) :
    ∃ after, tells (p.Link (p.flow arrivals) i) after ∧
      ((p.round arrivals).dead[i]?.getD false = true ↔ st.isDead after = true) := by
  have hf := hp.allows_flow arrivals
  obtain ⟨s, hs, hmem⟩ := Cutting.exists_head_of_reached hp hf hi
  obtain ⟨k, hk⟩ := hs.exists_headAt hp
  obtain ⟨after, hafter, hv⟩ := hrule.exists_scan_round hp hk
  obtain ⟨front, rest, hrun, hrest⟩ := hrule.tells_scan_rest hp hf (hs.reached hp) hmem hafter
  refine ⟨_, hrest, ?_⟩
  have hnodup := Cutting.nodup_run (c := p.cut (p.flow arrivals)) s
  rw [hrun] at hv hnodup
  rw [← mem_dead_append hst hnodup]
  constructor
  · intro hdead
    obtain ⟨l, t, result, hl, hmem', hv', hi'⟩ := exists_headAt_of_dead hdead
    -- no other block has the statement
    obtain rfl := Cutting.head_unique hp hf hs (hl.isHead hp) hmem hmem'
    obtain rfl := hk.number_unique hp hl
    obtain rfl : _ = result := Visit.finished.inj (Option.some.inj (hv.symm.trans hv'))
    exact hi'
  · intro hdead
    exact dead_round.mpr ⟨(Array.getElem?_eq_some_iff.mp hst).1, k, _, hv, hdead⟩

end Program

end AsmCheck
