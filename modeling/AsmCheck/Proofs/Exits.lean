import AsmCheck.Proofs.References

/-! # Where routines return

    The blocks that a routine can return from are looked for when the routine
    has explored its runs, along the ways that have been explored by then.  What
    a routine does not explore is the entry of another one, so the search ends
    at the entries of the routines that come later in the list, and nowhere
    else:

    * what is listed returns, and can be reached (`ListsExits.sound`);
    * a return that can be reached without going on from the first block of a
      later routine is listed (`ListsExits.complete`);
    * and if no two routines go by the same address, nothing else is
      (`ListsExits.direct`).

    So a routine that goes on to a later one lacks the returns behind it, which
    a routine that goes on to an earlier one has (`fallsIntoRoutine_exit_missed`,
    `returnsInMain_exits`). -/

namespace AsmCheck

open Relation

/-! ## The search for exits -/

namespace Cutting

/-- The exploration once the routines `done` have explored their runs. -/
def walkAfter (c : Cutting) (done : List Program.Root) : Walk :=
  done.foldl c.explore { explored := Graph.unmarked c.program.statements.size }

/-- The starts of the runs that a routine can return from, as far as it can be seen once it has
    explored its runs. -/
def exitStarts (c : Cutting) (w : Walk) (r : Program.Root) : List Nat :=
  (Graph.reachable (c.known (c.explore w r).explored) c.program.statements.size r.entry).filter
    fun i => c.program.test (·.isReturn) (c.runEnd i)

theorem walkAfter_append (c : Cutting) (done : List Program.Root) (r : Program.Root) :
    c.walkAfter (done ++ [r]) = c.explore (c.walkAfter done) r := by
  rw [walkAfter, List.foldl_append]
  rfl

theorem exits_explore (c : Cutting) (w : Walk) (r : Program.Root) :
    (c.explore w r).exits = w.exits ++ [(r.entry, c.exitStarts w r)] := rfl

/-- Each routine adds one entry to the table of exits. -/
theorem exists_exits_foldl (c : Cutting) : ∀ (rs : List Program.Root) (w : Walk),
    ∃ more, (rs.foldl c.explore w).exits = w.exits ++ more ∧
      more.map Prod.fst = rs.map Program.Root.entry := by
  intro rs
  induction rs with
  | nil => exact fun w => ⟨[], (List.append_nil _).symm, rfl⟩
  | cons r rs ih =>
      intro w
      obtain ⟨more, hexits, hkeys⟩ := ih (c.explore w r)
      refine ⟨(r.entry, c.exitStarts w r) :: more, ?_, congrArg (r.entry :: ·) hkeys⟩
      rw [List.foldl_cons, hexits, exits_explore, List.append_assoc]
      rfl

variable {p : Program} {f : Flow} {before after : List Program.Root} {r : Program.Root} {i j : Nat}

/-- The table has for the entry of a routine what that routine has found. -/
theorem lookup_exits (hroots : p.roots = before ++ r :: after) :
    (p.cut f).walk.exits.lookup r.entry =
      some ((p.cut f).exitStarts ((p.cut f).walkAfter before) r) := by
  have hwalk : (p.cut f).walk =
      after.foldl (p.cut f).explore ((p.cut f).explore ((p.cut f).walkAfter before) r) := by
    rw [walk, show (p.cut f).program.roots = before ++ r :: after from hroots, List.foldl_append]
    rfl
  obtain ⟨front, hfront, hkeys⟩ := (p.cut f).exists_exits_foldl before
    { explored := Graph.unmarked p.statements.size }
  have hbefore : ((p.cut f).walkAfter before).exits = front := hfront
  obtain ⟨more, hmore, -⟩ := (p.cut f).exists_exits_foldl after
    ((p.cut f).explore ((p.cut f).walkAfter before) r)
  -- the routines before this one start elsewhere
  have hnone : front.lookup r.entry = none := by
    rw [List.lookup_eq_none_iff]
    intro x hx
    have hmem : x.1 ∈ before.map Program.Root.entry := hkeys ▸ List.mem_map_of_mem hx
    obtain ⟨s, hs, hsx⟩ := List.mem_map.mp hmem
    have hne := (Program.start_of_roots_eq hroots hs (List.mem_cons_self ..)).2
    rw [← hsx]
    exact bne_iff_ne.mpr hne.symm
  rw [hwalk, hmore, exits_explore, hbefore, List.append_assoc, List.lookup_append, hnone]
  simp

/-- A routine finds the returns that it can reach along explored runs. -/
theorem mem_exitStarts (hp : p.WellFormed) (hr : r ∈ p.roots) {w : Walk} :
    j ∈ (p.cut f).exitStarts w r ↔
      ReflTransGen (fun a b => ((p.cut f).explore w r).Explored a ∧
        p.Link f ((p.cut f).runEnd a) b) r.entry j ∧
      p.test (·.isReturn) ((p.cut f).runEnd j) = true := by
  have hknown : ∀ a b, b ∈ (p.cut f).known ((p.cut f).explore w r).explored a ↔
      ((p.cut f).explore w r).Explored a ∧ p.Link f ((p.cut f).runEnd a) b := by
    intro a b
    rw [known, Walk.Explored, ← mem_leadsTo_cut]
    cases ((p.cut f).explore w r).explored[a]? with
    | none => simp
    | some x => cases x <;> simp
  rw [exitStarts, List.mem_filter]
  refine and_congr_left' ?_
  show j ∈ Graph.reachable _ p.statements.size r.entry ↔ _
  rw [Graph.mem_reachable_iff (fun _ _ hb => lt_of_mem_known hb) (hp.entry_lt r hr)]
  simp only [hknown]

theorem nodup_exitStarts (c : Cutting) (w : Walk) (r : Program.Root) :
    (c.exitStarts w r).Nodup :=
  (Graph.nodup_visit _ _ _).filter _

/-! ## What has been explored -/

theorem walked_walkAfter (hp : p.WellFormed) {done rest : List Program.Root}
    (hroots : p.roots = done ++ rest) : Walked p f done ((p.cut f).walkAfter done) := by
  refine Walked.foldl hp walked_nil fun s hs => ?_
  rw [hroots]
  exact List.mem_append.mpr (Or.inl hs)

/-- Explored runs lead to explored runs and to the entries of later routines. -/
theorem explored_or_later (hp : p.WellFormed) {done rest : List Program.Root}
    (hroots : p.roots = done ++ rest) (hi : ((p.cut f).walkAfter done).Explored i)
    (hij : p.Link f ((p.cut f).runEnd i) j) :
    ((p.cut f).walkAfter done).Explored j ∨ ∃ t ∈ rest, t.entry = j := by
  have hwalked := walked_walkAfter (f := f) hp hroots
  rcases hwalked.closed hi (mem_leadsTo_cut.mpr hij) with hj | hstart
  · exact Or.inl hj
  · obtain ⟨t, ht, rfl⟩ := hp.isRoot_iff.mpr (Or.inr hstart)
    rw [hroots] at ht
    rcases List.mem_append.mp ht with ht | ht
    · exact Or.inl (hwalked.entries t ht)
    · exact Or.inr ⟨t, ht, rfl⟩

/-- A routine explores no marked entry but those at its own address. -/
theorem id_of_mem_order (hr : r ∈ p.roots) {w : Walk} (h : i ∈ (p.cut f).order w r)
    (hi : p.isStart i = true) : r.id = p.addressOf i := by
  obtain ⟨s, hs, -, hpath⟩ := Graph.mem_visit_iff.mp h
  rw [List.mem_singleton.mp hs] at hpath
  cases hpath with
  | refl => exact Program.id_of_mem_roots hr
  | tail _ hstep =>
      obtain ⟨-, hown⟩ := List.mem_filter.mp hstep.1
      have hown' : (!(p.isStart i && p.addressOf i != r.id)) = true := hown
      rw [hi, Bool.true_and, Bool.not_eq_true', bne_eq_false_iff_eq] at hown'
      exact hown'.symm

/-- A marked entry that has been explored is at the address of a routine that is done. -/
theorem exists_id_of_explored {done : List Program.Root} (hdone : ∀ r ∈ done, r ∈ p.roots)
    (h : ((p.cut f).walkAfter done).Explored i) (hi : p.isStart i = true) :
    ∃ r ∈ done, r.id = p.addressOf i := by
  induction done using List.reverseRecOn with
  | nil =>
      have hfalse := Array.eq_of_mem_replicate (Array.mem_of_getElem? h)
      cases hfalse
  | append_singleton done r ih =>
      rw [walkAfter_append, explored_explore] at h
      rcases h with hold | hnew
      · obtain ⟨s, hs, hid⟩ := ih (fun s hs => hdone s (List.mem_append.mpr (Or.inl hs))) hold
        exact ⟨s, List.mem_append.mpr (Or.inl hs), hid⟩
      · have hr : r ∈ done ++ [r] := List.mem_append.mpr (Or.inr (List.mem_singleton.mpr rfl))
        exact ⟨r, hr, id_of_mem_order (hdone r hr) hnew hi⟩

/-- A path that does not go on from the entries of later routines is a path along explored runs. -/
theorem path_explored (hp : p.WellFormed) {done rest : List Program.Root}
    (hroots : p.roots = done ++ rest) (hr : r ∈ done)
    (h : ReflTransGen (fun a b => (∀ t ∈ rest, t.entry ≠ a) ∧
      p.Link f ((p.cut f).runEnd a) b) r.entry j) :
    ReflTransGen (fun a b => ((p.cut f).walkAfter done).Explored a ∧
      p.Link f ((p.cut f).runEnd a) b) r.entry j := by
  have hall : (((p.cut f).walkAfter done).Explored j ∨ ∃ t ∈ rest, t.entry = j) ∧
      ReflTransGen (fun a b => ((p.cut f).walkAfter done).Explored a ∧
        p.Link f ((p.cut f).runEnd a) b) r.entry j := by
    induction h with
    | refl => exact ⟨Or.inl ((walked_walkAfter hp hroots).entries r hr), .refl⟩
    | tail _ hstep ih =>
        obtain ⟨hseen, hpath⟩ := ih
        -- the path has gone on from here, so no later routine starts here
        have hexplored := hseen.resolve_right fun ⟨t, ht, heq⟩ => hstep.1 t ht heq
        exact ⟨explored_or_later hp hroots hexplored hstep.2, hpath.tail ⟨hexplored, hstep.2⟩⟩
  exact hall.2

/-- The entry of a later routine has not been explored, unless it is at the address of a routine
    that is done. -/
theorem not_explored_later {done rest : List Program.Root} {t : Program.Root}
    (hroots : p.roots = done ++ rest) (hr : r ∈ done) (ht : t ∈ rest)
    (hids : ∀ u ∈ done, u.id ≠ t.id) : ¬ ((p.cut f).walkAfter done).Explored t.entry := by
  intro hexplored
  have hstart := (Program.start_of_roots_eq hroots hr ht).1
  have hdone : ∀ u ∈ done, u ∈ p.roots := by
    intro u hu
    rw [hroots]
    exact List.mem_append.mpr (Or.inl hu)
  obtain ⟨u, hu, hid⟩ := exists_id_of_explored hdone hexplored hstart
  refine hids u hu (hid.trans (Program.id_of_mem_roots ?_).symm)
  rw [hroots]
  exact List.mem_append.mpr (Or.inr ht)

/-! ## From runs to blocks -/

/-- A path along runs is a path along the blocks that start with them. -/
theorem exists_path_blocks (hp : p.WellFormed) {C D : Nat → Prop} {k s : Nat}
    (hs : (p.cut f).HeadAt k s) (hCD : ∀ {l a}, (p.cut f).HeadAt l a → C a → D l)
    (h : ReflTransGen (fun a b => C a ∧ p.Link f ((p.cut f).runEnd a) b) s j) :
    ∃ l, (p.cut f).HeadAt l j ∧
      ReflTransGen (fun x y => D x ∧ Program.GoesOn (p.cut f).blocks x y) k l := by
  induction h with
  | refl => exact ⟨k, hs, .refl⟩
  | tail _ hstep ih =>
      obtain ⟨l, hl, hpath⟩ := ih
      obtain ⟨m, hm, hmj⟩ := (link_runEnd_iff hp hl).mp hstep.2
      exact ⟨m, hmj, hpath.tail ⟨hCD hl hstep.1, goesOn_of_link hp hl hmj hstep.2⟩⟩

/-- A path along blocks is a path along the runs that they start with. -/
theorem exists_path_runs (hp : p.WellFormed) {C D : Nat → Prop} {k l s : Nat}
    (hs : (p.cut f).HeadAt k s) (hDC : ∀ {l a}, (p.cut f).HeadAt l a → D l → C a)
    (h : ReflTransGen (fun x y => D x ∧ Program.GoesOn (p.cut f).blocks x y) k l) :
    ∃ j, (p.cut f).HeadAt l j ∧
      ReflTransGen (fun a b => C a ∧ p.Link f ((p.cut f).runEnd a) b) s j := by
  induction h with
  | refl => exact ⟨s, hs, .refl⟩
  | tail _ hstep ih =>
      obtain ⟨a, ha, hpath⟩ := ih
      obtain ⟨hD, b, hb, hm⟩ := hstep
      obtain ⟨a', ha', rfl⟩ := getElem?_blocks.mp hb
      obtain rfl := ha.head_unique ha'
      obtain ⟨j, hj⟩ := exists_headAt_of_mem_succs hp hm
      exact ⟨j, hj, hpath.tail ⟨hDC ha hD, (link_runEnd_iff hp ha).mpr ⟨_, hm, hj⟩⟩⟩

end Cutting

/-! ## The list of a routine -/

namespace Round

/-- The last statement of block `k` is a return. -/
def Returns (p : Program) (r : Round) (k : Nat) : Prop :=
  ∃ (b : Block) (i : Nat) (s : Placed), r.blocks[k]? = some b ∧ b.statements.getLast? = some i ∧
    p.statements[i]? = some s ∧ (s.mnemonic = "ret" ∨ s.mnemonic = "iret")

theorem returns_iff {p : Program} {r : Round} {k : Nat} : r.Returns p k ↔
    (r.blocks[k]?).any
      (fun b => b.statements.getLast?.any (p.test (·.isReturn))) = true := by
  simp only [Returns, Option.any_eq_true, Program.test, Statement.isReturn, Bool.or_eq_true,
    beq_iff_eq]
  constructor
  · rintro ⟨b, i, s, hb, hi, hs, hret⟩
    exact ⟨b, hb, i, hi, s, hs, hret⟩
  · rintro ⟨b, hb, i, hi, s, hs, hret⟩
    exact ⟨b, i, s, hb, hi, hs, hret⟩

instance {p : Program} {r : Round} {k : Nat} : Decidable (r.Returns p k) :=
  decidable_of_iff _ returns_iff.symm

/-- A block goes on to another one, and none of the routines `later` starts with it. -/
def GoesOnBefore (r : Round) (later : List Subroutine) (k l : Nat) : Prop :=
  (∀ t ∈ later, t.block ≠ some k) ∧ Program.GoesOn r.blocks k l

/-- What is listed as the exits of routine `s`, which starts with block `m`, if the routines
    `earlier` come before it and the routines `later` after it. -/
structure ListsExits (p : Program) (r : Round) (earlier : List Subroutine) (s : Subroutine)
    (later : List Subroutine) (m : Nat) : Prop where
  increasing : (r.exitsOf s).Pairwise (· < ·)
  sound : ∀ k ∈ r.exitsOf s, r.Returns p k ∧ ReflTransGen (Program.GoesOn r.blocks) m k
  /-- A return is listed if the way to it does not go on from where a later routine starts. -/
  complete : ∀ k, r.Returns p k → ReflTransGen (r.GoesOnBefore later) m k → k ∈ r.exitsOf s
  /-- Only such returns are listed, unless a later routine has the address of an earlier one. -/
  direct : (∀ t ∈ later, ∀ u ∈ earlier ++ [s], u.id ≠ t.id) →
    ∀ k ∈ r.exitsOf s, ReflTransGen (r.GoesOnBefore later) m k

end Round

namespace Program

variable {p : Program} {arrivals : Arrivals} {k m : Nat}

instance {blocks : Array Block} {l : Nat} : Decidable (GoesOn blocks k l) :=
  decidable_of_iff ((blocks[k]?).any (fun b => b.succs.contains l) = true) (by
    simp [GoesOn, Option.any_eq_true])

theorem returns_round : (p.round arrivals).Returns p k ↔
    ∃ s, (p.cut (p.flow arrivals)).HeadAt k s ∧
      p.test (·.isReturn) ((p.cut (p.flow arrivals)).runEnd s) = true := by
  have hlast : ∀ s, ((p.cut (p.flow arrivals)).blockAt s).statements.getLast?.any
      (p.test (·.isReturn)) = p.test (·.isReturn) ((p.cut (p.flow arrivals)).runEnd s) := by
    intro s
    rw [show ((p.cut (p.flow arrivals)).blockAt s).statements.getLast? = _ from
      Cutting.getLast?_run s, Option.any_some]
  rw [Round.returns_iff, Option.any_eq_true, blocks_round]
  constructor
  · rintro ⟨b, hb, hret⟩
    obtain ⟨s, hs, rfl⟩ := Cutting.getElem?_blocks.mp hb
    exact ⟨s, hs, (hlast s).symm.trans hret⟩
  · rintro ⟨s, hs, hret⟩
    exact ⟨_, Cutting.getElem?_blocks.mpr ⟨s, hs, rfl⟩, (hlast s).trans hret⟩

section Exits

variable {earlier later : List Subroutine} {s : Subroutine}

/-- The routines up to and including `s`, as they have explored their runs. -/
theorem roots_eq_of_subroutines (hsplit : (p.round arrivals).subroutines = earlier ++ s :: later) :
    p.roots = (earlier ++ [s]).map Subroutine.toRoot ++ later.map Subroutine.toRoot := by
  rw [← toRoot_subroutines p arrivals, hsplit, ← List.map_append, List.append_assoc]
  rfl

variable (hp : p.WellFormed) (hsplit : (p.round arrivals).subroutines = earlier ++ s :: later)
  (hblock : s.block = some m)

include hp hsplit hblock

/-- The block of a routine starts with its entry. -/
theorem WellFormed.headAt_block : (p.cut (p.flow arrivals)).HeadAt m s.entry := by
  refine (hp.block_eq_some ?_).mp hblock
  rw [hsplit]
  simp

/-- The exits of a routine are the numbers of what it has found, sorted. -/
theorem WellFormed.exitsOf_round :
    (p.round arrivals).exitsOf s =
      (((p.cut (p.flow arrivals)).exitStarts
        ((p.cut (p.flow arrivals)).walkAfter (earlier.map Subroutine.toRoot))
        s.toRoot).filterMap (p.cut (p.flow arrivals)).numbering.numberOf).mergeSort := by
  have hroots : p.roots =
      earlier.map Subroutine.toRoot ++ s.toRoot :: later.map Subroutine.toRoot := by
    rw [← toRoot_subroutines p arrivals, hsplit, List.map_append, List.map_cons]
  have hb : (p.round arrivals).blocks[m]? = some ((p.cut (p.flow arrivals)).blockAt s.entry) :=
    Cutting.getElem?_blocks.mpr ⟨s.entry, hp.headAt_block hsplit hblock, rfl⟩
  rw [Round.exitsOf, hblock, Option.bind_some, hb]
  show (((p.cut (p.flow arrivals)).walk.exits.lookup s.toRoot.entry).getD []
    |>.filterMap (p.cut (p.flow arrivals)).numbering.numberOf).mergeSort = _
  rw [Cutting.lookup_exits hroots]
  rfl

/-- The exits of a routine are listed in increasing order, none of them twice. -/
theorem WellFormed.pairwise_exitsOf : ((p.round arrivals).exitsOf s).Pairwise (· < ·) := by
  rw [hp.exitsOf_round hsplit hblock]
  -- different statements have different numbers
  have hnodup := List.Nodup.filterMap (f := (p.cut (p.flow arrivals)).numbering.numberOf)
    (fun i j k hi hj =>
      ((Cutting.numberOf_cut hp).mp hi).head_unique ((Cutting.numberOf_cut hp).mp hj))
    ((p.cut (p.flow arrivals)).nodup_exitStarts
      ((p.cut (p.flow arrivals)).walkAfter (earlier.map Subroutine.toRoot)) s.toRoot)
  generalize List.filterMap _ _ = ks at hnodup
  have hne := (List.mergeSort_perm ks fun a b => decide (a ≤ b)).nodup_iff.mpr hnodup
  refine ((List.pairwise_mergeSort' (· ≤ ·) ks).and hne).imp ?_
  rintro a b ⟨hle, hne⟩
  exact Nat.lt_of_le_of_ne hle hne

/-- The exits of a routine are the blocks of the returns that it can reach along the runs that have
    been explored by then. -/
theorem WellFormed.mem_exitsOf :
    k ∈ (p.round arrivals).exitsOf s ↔ ∃ j, (p.cut (p.flow arrivals)).HeadAt k j ∧
      p.test (·.isReturn) ((p.cut (p.flow arrivals)).runEnd j) = true ∧
      ReflTransGen (fun a b => ((p.cut (p.flow arrivals)).walkAfter
          ((earlier ++ [s]).map Subroutine.toRoot)).Explored a ∧
        p.Link (p.flow arrivals) ((p.cut (p.flow arrivals)).runEnd a) b) s.entry j := by
  have hmem : s.toRoot ∈ p.roots := by
    rw [roots_eq_of_subroutines hsplit]
    simp
  rw [hp.exitsOf_round hsplit hblock, List.mem_mergeSort, List.mem_filterMap, List.map_append,
    List.map_singleton, Cutting.walkAfter_append]
  refine exists_congr fun j => ?_
  rw [Cutting.mem_exitStarts hp hmem, Cutting.numberOf_cut hp]
  constructor
  · rintro ⟨⟨hpath, hret⟩, hk⟩
    exact ⟨hk, hret, hpath⟩
  · rintro ⟨hk, hret, hpath⟩
    exact ⟨⟨hpath, hret⟩, hk⟩

/-- Whatever a round starts from, it lists exits up to later routines. -/
theorem WellFormed.listsExits_round : (p.round arrivals).ListsExits p earlier s later m := by
  have hroots := roots_eq_of_subroutines hsplit
  have hm := hp.headAt_block hsplit hblock
  have hself : s.toRoot ∈ (earlier ++ [s]).map Subroutine.toRoot := by simp
  have hstarts : ∀ t ∈ later, ∀ {l}, t.block = some l ↔
      (p.cut (p.flow arrivals)).HeadAt l t.entry := by
    intro t ht l
    refine hp.block_eq_some ?_
    rw [hsplit]
    simp [ht]
  refine ⟨hp.pairwise_exitsOf hsplit hblock, ?_, ?_, ?_⟩
  · intro k hk
    obtain ⟨j, hkj, hret, hpath⟩ := (hp.mem_exitsOf hsplit hblock).mp hk
    obtain ⟨l, hl, hblocks⟩ :=
      Cutting.exists_path_blocks (D := fun _ => True) hp hm (fun _ _ => trivial) hpath
    rw [hkj.number_unique hp hl]
    exact ⟨returns_round.mpr ⟨j, hl, hret⟩, ReflTransGen.mono (fun _ _ h => h.2) _ _ hblocks⟩
  · intro k hret hpath
    obtain ⟨j, hkj, hret⟩ := returns_round.mp hret
    have hentries : ∀ {l a}, (p.cut (p.flow arrivals)).HeadAt l a →
        (∀ t ∈ later, t.block ≠ some l) →
          ∀ t ∈ later.map Subroutine.toRoot, t.entry ≠ a := by
      intro l a ha hno t ht heq
      obtain ⟨u, hu, rfl⟩ := List.mem_map.mp ht
      exact hno u hu ((hstarts u hu).mpr (heq ▸ ha))
    obtain ⟨i, hi, hruns⟩ := Cutting.exists_path_runs hp hm hentries hpath
    rw [hi.head_unique hkj] at hruns
    exact (hp.mem_exitsOf hsplit hblock).mpr
      ⟨j, hkj, hret, Cutting.path_explored hp hroots hself hruns⟩
  · intro hids k hk
    obtain ⟨j, hkj, -, hpath⟩ := (hp.mem_exitsOf hsplit hblock).mp hk
    have hblocks : ∀ {l a}, (p.cut (p.flow arrivals)).HeadAt l a →
        ((p.cut (p.flow arrivals)).walkAfter
          ((earlier ++ [s]).map Subroutine.toRoot)).Explored a →
        ∀ t ∈ later, t.block ≠ some l := by
      intro l a ha hexplored t ht htl
      rw [ha.head_unique ((hstarts t ht).mp htl)] at hexplored
      refine Cutting.not_explored_later hroots hself (List.mem_map_of_mem ht) ?_ hexplored
      intro u hu
      obtain ⟨v, hv, rfl⟩ := List.mem_map.mp hu
      exact hids t ht v hv
    obtain ⟨l, hl, hway⟩ := Cutting.exists_path_blocks hp hm hblocks hpath
    rw [hkj.number_unique hp hl]
    exact hway

end Exits

end Program

namespace Analysis

/-- Exits are listed up to later routines: for every source text and all usable settings, after any
    number of further rounds, every routine has a block, and what is listed as its exits is an
    increasing list of returns that can be reached from there, among them all those on the way to
    which control does not go on from the first block of a routine that comes later in the list,
    and, if routines go by different addresses, no others. -/
theorem exits_up_to_later_routines (source : String) (config : Config)
    (hvalid : config.validate = .ok ()) (n : Nat) :
    ∃ a, ofSource source config = .ok a ∧
      ∀ (earlier : List Subroutine) (s : Subroutine) (later : List Subroutine),
        (a.rerun n).last.subroutines = earlier ++ s :: later → ∃ m, s.block = some m ∧
          (a.rerun n).last.ListsExits (a.rerun n).program earlier s later m := by
  refine ⟨ofText source config, ofSource_eq_ok hvalid, ?_⟩
  obtain ⟨hprog, arrivals, hlast⟩ := exists_last_eq_round source config n
  have hp := Program.wellFormed_assemble source.toList config
  rw [hlast, hprog]
  intro earlier s later hsplit
  have hs : s ∈ ((Program.assemble source.toList config).round arrivals).subroutines := by
    rw [hsplit]
    simp
  obtain ⟨m, hm⟩ := hp.exists_block hs
  exact ⟨m, hm, hp.listsExits_round hsplit hm⟩

/-- A routine that jumps into the main one and also returns by itself, and a later one that jumps to
    it. -/
def returnsInMain : String :=
  "x: ret\n; @SUBROUTINE\nf: jp x\niret\n; @SUBROUTINE\ng: jmp f\n"

theorem returnsInMain_text {a : Analysis} (ha : a = (ofText returnsInMain {}).rerun 1) :
    a.last.subroutines.map (fun s => (s.id, s.block)) =
        [(0, some 0), (1, some 1), (3, some 3)] ∧
      Program.GoesOn a.last.blocks 1 0 ∧ Program.GoesOn a.last.blocks 1 2 ∧
      a.last.Returns a.program 0 ∧ a.last.Returns a.program 2 := by
  subst ha
  decide +kernel

/-- The routine has both returns among its exits. -/
theorem returnsInMain_exits :
    ({} : Config).validate = .ok () ∧
      ∃ a, ofSource returnsInMain {} = .ok a ∧
        ∃ main f g, (a.rerun 1).last.subroutines = [main] ++ f :: [g] ∧ f.block = some 1 ∧
          ((a.rerun 1).last.exitsOf f).Pairwise (· < ·) ∧
          0 ∈ (a.rerun 1).last.exitsOf f ∧ 2 ∈ (a.rerun 1).last.exitsOf f ∧
          ∀ k ∈ (a.rerun 1).last.exitsOf f,
            ReflTransGen ((a.rerun 1).last.GoesOnBefore [g]) 1 k := by
  refine ⟨rfl, ?_⟩
  obtain ⟨a, ha, hexits⟩ := exits_up_to_later_routines returnsInMain {} rfl 1
  obtain rfl := Except.ok.inj ((ofSource_eq_ok rfl).symm.trans ha)
  obtain ⟨hsubs, hmain, hself, hret, hiret⟩ := returnsInMain_text rfl
  have hlength := congrArg List.length hsubs
  rw [List.length_map] at hlength
  obtain ⟨main, f, g, hsplit⟩ := List.length_eq_three.mp hlength
  rw [hsplit] at hsubs
  simp only [List.map_cons, List.map_nil, List.cons.injEq, Prod.mk.injEq, and_true] at hsubs
  obtain ⟨⟨hmainId, -⟩, ⟨hfId, hf⟩, hgId, hg⟩ := hsubs
  obtain ⟨m, hm, hlists⟩ := hexits [main] f [g] hsplit
  obtain rfl : m = 1 := Option.some.inj (hm.symm.trans hf)
  have hstep : ∀ {l}, Program.GoesOn ((ofText returnsInMain {}).rerun 1).last.blocks 1 l →
      ((ofText returnsInMain {}).rerun 1).last.GoesOnBefore [g] 1 l := by
    intro l hl
    refine ⟨?_, hl⟩
    simp [hg]
  refine ⟨_, ha, main, f, g, hsplit, hf, hlists.increasing,
    hlists.complete 0 hret (.single (hstep hmain)), hlists.complete 2 hiret (.single (hstep hself)),
    hlists.direct ?_⟩
  simp [hmainId, hfId, hgId]

/-- A main routine that goes on to a marked one, which returns by itself. -/
def fallsIntoRoutine : String :=
  "nop\n; @SUBROUTINE\nf: jne x\nx: ret\n"

theorem fallsIntoRoutine_text {a : Analysis} (ha : a = (ofText fallsIntoRoutine {}).rerun 0) :
    a.last.subroutines.map (fun s => (s.id, s.block)) = [(0, some 0), (1, some 1)] ∧
      (a.last.blocks[0]?).map Block.succs = some [1] ∧ Program.GoesOn a.last.blocks 0 1 ∧
      Program.GoesOn a.last.blocks 1 2 ∧ a.last.Returns a.program 2 := by
  subst ha
  decide +kernel

/-- The main routine can return from block 2, to which it comes through the first block of the
    marked routine; but this is not listed. -/
theorem fallsIntoRoutine_exit_missed :
    ∃ a, ofSource fallsIntoRoutine {} = .ok a ∧
      ∃ main f, (a.rerun 0).last.subroutines = [main, f] ∧ main.block = some 0 ∧
        ReflTransGen (Program.GoesOn (a.rerun 0).last.blocks) 0 2 ∧
        (a.rerun 0).last.Returns (a.rerun 0).program 2 ∧
        ¬ 2 ∈ (a.rerun 0).last.exitsOf main := by
  obtain ⟨hsubs, hsuccs, h01, h12, hret⟩ := fallsIntoRoutine_text rfl
  have hlength := congrArg List.length hsubs
  rw [List.length_map] at hlength
  obtain ⟨main, f, hsplit⟩ := List.length_eq_two.mp hlength
  rw [hsplit] at hsubs
  simp only [List.map_cons, List.map_nil, List.cons.injEq, Prod.mk.injEq, and_true] at hsubs
  obtain ⟨⟨hmainId, hmain⟩, hfId, hf⟩ := hsubs
  have hreach := (ReflTransGen.single h01).tail h12
  refine ⟨_, ofSource_eq_ok rfl, main, f, hsplit, hmain, hreach, hret, ?_⟩
  intro hlisted
  obtain ⟨hprog, arrivals, hlast⟩ := exists_last_eq_round fallsIntoRoutine {} 0
  have hp := Program.wellFormed_assemble fallsIntoRoutine.toList {}
  have hlists := hp.listsExits_round (hlast ▸ hsplit : _ = [] ++ main :: [f]) hmain
  rw [← hlast] at hlists
  have hpath := hlists.direct (by simp [hmainId, hfId]) 2 hlisted
  -- the way goes on from block 0 to block 1, and must not go on from there
  rcases hpath.cases_head with heq | ⟨k, ⟨-, b, hb, hk⟩, hrest⟩
  · cases heq
  · rw [hb, Option.map_some, Option.some.injEq] at hsuccs
    obtain rfl : k = 1 := by
      rw [hsuccs] at hk
      exact List.mem_singleton.mp hk
    rcases hrest.cases_head with heq | ⟨l, ⟨hno, -⟩, -⟩
    · cases heq
    · exact hno f (List.mem_singleton.mpr rfl) hf

end Analysis

end AsmCheck
