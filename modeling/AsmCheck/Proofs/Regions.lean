import AsmCheck.Proofs.Reachability

/-! # The regions of routines, and who owns what

    The region of a routine is what it reaches from its entry if it were alone:
    it follows links, and stops at the entries of marked subroutines, which it
    still comes upon.  Tracing goes through the routines in turn, and each trace
    goes around what the ones before it have claimed.  All the same:

    * a routine claims exactly what it passes through and no earlier routine
      does (`mem_claimed_iff`), because an earlier routine that passes through a
      statement passes through all that is behind it;
    * so the owner of a statement is the first routine that passes through it
      (`WellFormed.ownerOf_ownership`);
    * a routine is recorded to come upon a statement of another one only if the
      statement is in its region (`Owned.overlap`), and such a record lasts until
      a later routine comes upon the same statement (`overlapOf_foldl`). -/

namespace AsmCheck.Program

variable {p : Program} {f : Flow} {o : Ownership} {done : List Root} {r : Root} {e i j : Nat}

/-! ## Regions -/

instance (p : Program) (f : Flow) (i j : Nat) : Decidable (p.Link f i j) :=
  decidable_of_iff
    ((f.nextOf i = some j ∧ p.isCode j = true) ∨ (f.jumpOf i = some j ∧ p.isCode j = true ∧
      ¬ (p.isCall i = true ∧ p.isStart j = true)))
    ⟨fun h => h.elim (fun h => .next h.1 h.2) (fun h => .jump h.1 h.2.1 h.2.2), fun h =>
      match h with
      | .next h code => Or.inl ⟨h, code⟩
      | .jump h code own => Or.inr ⟨h, code, own⟩⟩

/-- The region of the routine that starts at `e`: the least set that holds its entry and is closed
    under links, except that nothing is followed from the entry of another marked subroutine. -/
inductive Region (p : Program) (f : Flow) (e : Nat) : Nat → Prop where
  | entry : Region p f e e
  | step {i j : Nat} (before : Region p f e i) (own : i = e ∨ p.isStart i = false)
      (link : p.Link f i j) : Region p f e j

/-- A routine passes through the statements of its region that are no entries of others. -/
def Inside (p : Program) (f : Flow) (e i : Nat) : Prop :=
  p.Region f e i ∧ (i = e ∨ p.isStart i = false)

theorem inside_entry : p.Inside f e e :=
  ⟨.entry, Or.inl rfl⟩

/-- What follows a statement that a routine passes through belongs to its region. -/
theorem Inside.region_step (h : p.Inside f e i) (hij : p.Link f i j) : p.Region f e j :=
  .step h.1 h.2 hij

/-- The routine passes through it too, unless another routine starts there. -/
theorem Inside.step (h : p.Inside f e i) (hij : p.Link f i j) (hj : p.isStart j = false) :
    p.Inside f e j :=
  ⟨h.region_step hij, Or.inr hj⟩

/-- The only entry of a marked subroutine that a routine passes through is its own. -/
theorem Inside.eq_entry (h : p.Inside f e i) (hi : p.isStart i = true) : i = e :=
  h.2.resolve_right (ne_false_of_eq_true hi)

/-- Whatever belongs to a region has been come to from inside, or is the entry. -/
theorem Region.eq_or_exists_link (h : p.Region f e i) :
    i = e ∨ ∃ z, p.Inside f e z ∧ p.Link f z i := by
  cases h with
  | entry => exact Or.inl rfl
  | step before own link => exact Or.inr ⟨_, ⟨before, own⟩, link⟩

/-- No link leads out of a set. -/
def Closed (p : Program) (f : Flow) (Q : List Nat) : Prop :=
  ∀ i ∈ Q, ∀ j < p.statements.size, p.Link f i j → j ∈ Q

instance (p : Program) (f : Flow) (Q : List Nat) : Decidable (p.Closed f Q) :=
  inferInstanceAs (Decidable (∀ i ∈ Q, ∀ j < p.statements.size, p.Link f i j → j ∈ Q))

/-- A region lies within every set that holds the entry and is closed under links. -/
theorem Closed.mem {Q : List Nat} (hQ : p.Closed f Q) (h : p.Region f e i) (he : e ∈ Q) :
    i ∈ Q := by
  induction h with
  | entry => exact he
  | step _ _ link ih => exact hQ _ ih _ (lt_of_isCode link.isCode) link

/-! ## The routines of a program -/

/-- All routines but the first start at marked statements, and no two at the same one. -/
theorem pairwise_roots (p : Program) :
    p.roots.Pairwise fun s r => p.isStart r.entry = true ∧ s.entry ≠ r.entry := by
  have hmarked : ∀ i ∈ (List.range p.statements.size).filter fun i =>
      p.isStart i && p.entry != some i, p.isStart i = true ∧ p.entry ≠ some i := by
    intro i hi
    have hcond := (List.mem_filter.mp hi).2
    rw [Bool.and_eq_true] at hcond
    exact ⟨hcond.1, bne_iff_ne.mp hcond.2⟩
  rw [roots, List.pairwise_append]
  refine ⟨?_, ?_, ?_⟩
  · cases p.entry with
    | none => exact List.Pairwise.nil
    | some e => exact List.pairwise_singleton _ _
  · rw [List.pairwise_map]
    have hlt := (List.pairwise_lt_range (n := p.statements.size)).filter fun i =>
      p.isStart i && p.entry != some i
    exact hlt.imp_of_mem fun _ hb hab => ⟨(hmarked _ hb).1, Nat.ne_of_lt hab⟩
  · intro s hs r hr
    obtain ⟨e, he, rfl⟩ := Option.map_eq_some_iff.mp (Option.mem_toList.mp hs)
    obtain ⟨i, hi, rfl⟩ := List.mem_map.mp hr
    refine ⟨(hmarked i hi).1, fun heq => (hmarked i hi).2 ?_⟩
    rw [he]
    exact congrArg some heq

/-- A routine starts at a marked statement, and not with one that stands before it in the list. -/
theorem start_of_roots_eq {rest : List Root} {s t : Root} (h : p.roots = done ++ rest)
    (hs : s ∈ done) (ht : t ∈ rest) : p.isStart t.entry = true ∧ s.entry ≠ t.entry := by
  have hpair := p.pairwise_roots
  rw [h] at hpair
  exact (List.pairwise_append.mp hpair).2.2 s hs t ht

/-- No routine is listed twice. -/
theorem nodup_roots (p : Program) : p.roots.Nodup :=
  p.pairwise_roots.imp fun h heq => h.2 (congrArg Root.entry heq)

/-- What stands before a routine, and what stands after it, are other routines. -/
theorem ne_of_roots_eq {rest : List Root} (h : p.roots = done ++ r :: rest) :
    (∀ s ∈ done, s ≠ r) ∧ (∀ s ∈ rest, s ≠ r) ∧ ∀ s ∈ done, ∀ t ∈ rest, s ≠ t := by
  have hnodup := p.nodup_roots
  rw [h] at hnodup
  obtain ⟨-, htail, hdisjoint⟩ := List.nodup_append.mp hnodup
  have hrest := (List.nodup_cons.mp htail).1
  refine ⟨fun s hs => hdisjoint s hs r (List.mem_cons_self ..), ?_, ?_⟩
  · intro s hs heq
    exact hrest (heq ▸ hs)
  · intro s hs t ht
    exact hdisjoint s hs t (List.mem_cons_of_mem r ht)

/-- A routine is named by the address of its entry. -/
theorem id_of_mem_roots (h : r ∈ p.roots) : r.id = p.addressOf r.entry := by
  rcases List.mem_append.mp h with hmain | hmarked
  · obtain ⟨e, -, rfl⟩ := Option.map_eq_some_iff.mp (Option.mem_toList.mp hmain)
    rfl
  · obtain ⟨i, -, rfl⟩ := List.mem_map.mp hmarked
    rfl

/-! ## One trace -/

/-- What a routine comes upon from a statement: links to what belongs to others. -/
theorem mem_trespasses {id z : Nat} :
    i ∈ p.trespasses f o id z ↔ p.Link f z i ∧ p.isForeign o id i = true := by
  rw [trespasses, List.mem_append, Option.mem_toList, Option.mem_toList,
    Option.filter_eq_some_iff, Option.filter_eq_some_iff]
  constructor
  · rintro (⟨hnext, hforeign⟩ | ⟨hjump, hcond⟩)
    · exact ⟨.next hnext (Bool.and_eq_true_iff.mp hforeign).1, hforeign⟩
    · obtain ⟨hown, hforeign⟩ := Bool.and_eq_true_iff.mp hcond
      refine ⟨.jump hjump (Bool.and_eq_true_iff.mp hforeign).1 ?_, hforeign⟩
      rw [Bool.not_eq_true'] at hown
      rw [← Bool.and_eq_true, hown]
      exact Bool.false_ne_true
  · rintro ⟨hlink, hforeign⟩
    cases hlink with
    | next hnext _ => exact Or.inl ⟨hnext, hforeign⟩
    | jump hjump _ own =>
        refine Or.inr ⟨hjump, Bool.and_eq_true_iff.mpr ⟨?_, hforeign⟩⟩
        rw [Bool.not_eq_true', ← Bool.not_eq_true, Bool.and_eq_true]
        exact own

/-- Only statements are claimed. -/
theorem lt_of_mem_claimed (h : i ∈ p.claimed f o r) : i < p.statements.size := by
  have hopen := (Array.getElem?_eq_some_iff.mp (Graph.open_of_mem_visit h)).1
  rw [barred, Array.size_setIfInBounds, Array.size_map, Array.size_range] at hopen
  exact hopen

/-- A routine owns what it claims, -/
theorem ownerOf_trace_of_mem (hsize : o.owner.size = p.statements.size)
    (h : i ∈ p.claimed f o r) : (p.trace f o r).ownerOf i = some r.id := by
  have hlt : i < o.owner.size := hsize ▸ lt_of_mem_claimed h
  show (setAll o.owner (p.claimed f o r) (some r.id))[i]?.join = _
  rw [getElem?_setAll, if_pos ⟨h, hlt⟩]
  rfl

/-- and nothing else changes its owner. -/
theorem ownerOf_trace_of_not_mem (h : ¬ i ∈ p.claimed f o r) :
    (p.trace f o r).ownerOf i = o.ownerOf i := by
  show (setAll o.owner (p.claimed f o r) (some r.id))[i]?.join = _
  rw [getElem?_setAll, if_neg fun hmem => h hmem.1]
  rfl

/-- Where a routine leads from what it claims to what is another's, it is noted. -/
theorem overlapOf_trace_of_link {z : Nat} (hsize : o.overlap.size = p.statements.size)
    (hz : z ∈ p.claimed f o r) (hlink : p.Link f z i) (hforeign : p.isForeign o r.id i = true) :
    (p.trace f o r).overlapOf i = some r.id := by
  have hlt : i < o.overlap.size := hsize ▸ lt_of_isCode hlink.isCode
  have hmem : i ∈ (p.claimed f o r).flatMap (p.trespasses f o r.id) :=
    List.mem_flatMap.mpr ⟨z, hz, mem_trespasses.mpr ⟨hlink, hforeign⟩⟩
  show (setAll o.overlap ((p.claimed f o r).flatMap (p.trespasses f o r.id)) (some r.id))[i]?.join
    = _
  rw [getElem?_setAll, if_pos ⟨hmem, hlt⟩]
  rfl

/-- It is noted nowhere else. -/
theorem overlapOf_trace_cases (f : Flow) (o : Ownership) (r : Root) (i : Nat) :
    (p.trace f o r).overlapOf i = o.overlapOf i ∨
      (p.trace f o r).overlapOf i = some r.id ∧
        ∃ z ∈ p.claimed f o r, p.Link f z i ∧ p.isForeign o r.id i = true := by
  show (setAll o.overlap ((p.claimed f o r).flatMap (p.trespasses f o r.id)) (some r.id))[i]?.join
    = _ ∨ (setAll o.overlap ((p.claimed f o r).flatMap (p.trespasses f o r.id))
      (some r.id))[i]?.join = _ ∧ _
  rw [getElem?_setAll]
  by_cases hmem : i ∈ (p.claimed f o r).flatMap (p.trespasses f o r.id) ∧ i < o.overlap.size
  · obtain ⟨z, hz, htrespass⟩ := List.mem_flatMap.mp hmem.1
    rw [if_pos hmem]
    exact Or.inr ⟨rfl, z, hz, mem_trespasses.mp htrespass⟩
  · rw [if_neg hmem]
    exact Or.inl rfl

/-! ## All traces -/

open Classical in
/-- The first routine of a list that passes through a statement. -/
noncomputable def firstInside (p : Program) (f : Flow) (rs : List Root) (i : Nat) : Option Root :=
  rs.find? fun r => decide (p.Inside f r.entry i)

/-- Nobody passes through a statement that has no first routine. -/
theorem firstInside_eq_none {rs : List Root} :
    p.firstInside f rs i = none ↔ ∀ s ∈ rs, ¬ p.Inside f s.entry i := by
  rw [firstInside, List.find?_eq_none]
  simp only [decide_eq_true_eq]

/-- The first routine that passes through a statement comes before all others that do. -/
theorem firstInside_eq_some {rs : List Root} :
    p.firstInside f rs i = some r ↔ p.Inside f r.entry i ∧
      ∃ before after, rs = before ++ r :: after ∧ ∀ s ∈ before, ¬ p.Inside f s.entry i := by
  rw [firstInside, List.find?_eq_some_iff_append]
  simp only [decide_eq_true_eq, Bool.not_eq_true', decide_eq_false_iff_not]

theorem mem_of_firstInside {rs : List Root} (h : p.firstInside f rs i = some r) : r ∈ rs :=
  List.mem_of_find?_eq_some h

/-- Routines further behind count only if nobody in front passes through. -/
theorem firstInside_append (rs rs' : List Root) (i : Nat) :
    p.firstInside f (rs ++ rs') i = (p.firstInside f rs i).or (p.firstInside f rs' i) :=
  List.find?_append

/-- If only one routine passes through, it is the first. -/
theorem firstInside_of_unique {rs : List Root} (hr : r ∈ rs) (hinside : p.Inside f r.entry i)
    (honly : ∀ s ∈ rs, p.Inside f s.entry i → s = r) : p.firstInside f rs i = some r := by
  cases hfirst : p.firstInside f rs i with
  | none => exact absurd hinside (firstInside_eq_none.mp hfirst r hr)
  | some s => rw [honly s (mem_of_firstInside hfirst) (firstInside_eq_some.mp hfirst).1]

/-- What a routine takes once the routines `done` have taken theirs: the statements that it passes
    through and none of them does. -/
def Takes (p : Program) (f : Flow) (done : List Root) (r : Root) (i : Nat) : Prop :=
  p.Inside f r.entry i ∧ ∀ s ∈ done, ¬ p.Inside f s.entry i

/-- A routine takes its own entry. -/
theorem takes_entry (hnew : ∀ s ∈ done, p.isStart r.entry = true ∧ s.entry ≠ r.entry) :
    p.Takes f done r r.entry := by
  refine ⟨inside_entry, fun s hs hinside => ?_⟩
  obtain ⟨hstart, hne⟩ := hnew s hs
  exact hne (hinside.eq_entry hstart).symm

/-- What holds of the owners, and of who comes upon what, once the routines `done` have been
    traced. -/
structure Owned (p : Program) (f : Flow) (done : List Root) (o : Ownership) : Prop where
  owner_size : o.owner.size = p.statements.size
  overlap_size : o.overlap.size = p.statements.size
  /-- A statement belongs to the first routine that passes through it. -/
  owner : ∀ i, o.ownerOf i = (p.firstInside f done i).map Root.id
  /-- Only what is in its region does a routine come upon. -/
  overlap : ∀ {i a}, o.overlapOf i = some a → ∃ s ∈ done, s.id = a ∧ p.Region f s.entry i

/-- A statement has been found exactly if some routine passes through it. -/
theorem Owned.isFound_iff (h : p.Owned f done o) :
    o.isFound i = true ↔ ∃ s ∈ done, p.Inside f s.entry i := by
  rw [Ownership.isFound, h.owner, Option.isSome_map, ← Option.ne_none_iff_isSome, Ne,
    firstInside_eq_none]
  simp only [Classical.not_forall, Classical.not_not, exists_prop]

theorem owned_unowned : p.Owned f [] p.unowned := by
  have hnone : ∀ i : Nat,
      (Array.replicate p.statements.size (none : Option Nat))[i]?.join = none := by
    intro i
    rw [Array.getElem?_replicate]
    split <;> rfl
  refine ⟨Array.size_replicate, Array.size_replicate, hnone, ?_⟩
  intro i a h
  rw [show p.unowned.overlapOf i = none from hnone i] at h
  cases h

/-- What a routine claims it passes through, and nothing of it had an owner, except maybe its
    entry. -/
theorem inside_of_mem_claimed (hentry : r.entry < p.statements.size) (hi : i ∈ p.claimed f o r) :
    p.Inside f r.entry i ∧ (i = r.entry ∨ o.isFound i = false) := by
  obtain ⟨s, hs, -, hpath⟩ := Graph.mem_visit_iff.mp hi
  rw [List.mem_singleton.mp hs] at hpath
  clear hi
  induction hpath with
  | refl => exact ⟨inside_entry, Or.inl rfl⟩
  | tail _ hstep ih =>
      rcases (open_barred hentry).mp hstep.2 with rfl | ⟨hcode, hstart, hfound⟩
      · exact ⟨inside_entry, Or.inl rfl⟩
      · exact ⟨ih.1.step (link_of_mem_succs hstep.1 hcode hstart) hstart, Or.inr hfound⟩

/-- What a routine comes upon is in its region. -/
theorem region_of_link {z : Nat} (hentry : r.entry < p.statements.size)
    (hz : z ∈ p.claimed f o r) (hlink : p.Link f z i) : p.Region f r.entry i :=
  (inside_of_mem_claimed hentry hz).1.region_step hlink

section Trace

variable (h : p.Owned f done o) (hentry : r.entry < p.statements.size)
  (hnew : ∀ s ∈ done, p.isStart r.entry = true ∧ s.entry ≠ r.entry)

include h hentry hnew

/-- A routine claims exactly what it passes through and no earlier routine does. -/
theorem Owned.mem_claimed_iff : i ∈ p.claimed f o r ↔ p.Takes f done r i := by
  obtain ⟨hstarts, hclosed⟩ := Graph.visit_closed f.succs (p.barred o r.entry) [r.entry]
  have hentry_mem : r.entry ∈ p.claimed f o r :=
    hstarts _ (List.mem_singleton.mpr rfl) ((open_barred hentry).mpr (Or.inl rfl))
  constructor
  · intro hi
    obtain ⟨hinside, rfl | hfound⟩ := inside_of_mem_claimed hentry hi
    · exact takes_entry hnew
    · refine ⟨hinside, fun s hs hs_inside => ?_⟩
      rw [h.isFound_iff.mpr ⟨s, hs, hs_inside⟩] at hfound
      cases hfound
  · rintro ⟨⟨hregion, hown⟩, hfree⟩
    induction hregion with
    | entry => exact hentry_mem
    | @step i j before own link ih =>
        rcases hown with rfl | hstart
        · exact hentry_mem
        · -- an earlier routine that passed through `i` would pass through `j` as well
          have hi : i ∈ p.claimed f o r :=
            ih (fun s hs hs_inside => hfree s hs (hs_inside.step link hstart)) own
          have hj : o.isFound j = false := by
            cases hfound : o.isFound j with
            | false => rfl
            | true =>
                obtain ⟨s, hs, hs_inside⟩ := h.isFound_iff.mp hfound
                exact absurd hs_inside (hfree s hs)
          exact hclosed i hi j
            ⟨link.mem_succs, (open_barred hentry).mpr (Or.inr ⟨link.isCode, hstart, hj⟩)⟩

/-- One more routine takes what it passes through and nobody before it does. -/
theorem Owned.trace : p.Owned f (done ++ [r]) (p.trace f o r) where
  owner_size := by
    rw [Program.trace, size_setAll]
    exact h.owner_size
  overlap_size := by
    rw [Program.trace, size_setAll]
    exact h.overlap_size
  owner i := by
    rw [firstInside_append]
    cases hfirst : p.firstInside f done i with
    | some s =>
        -- an earlier routine passes through the statement, so this one does not claim it
        have hnot : ¬ i ∈ p.claimed f o r := fun hmem =>
          ((h.mem_claimed_iff hentry hnew).mp hmem).2 s (mem_of_firstInside hfirst)
            (firstInside_eq_some.mp hfirst).1
        rw [ownerOf_trace_of_not_mem hnot, h.owner, hfirst]
        rfl
    | none =>
        have hfree := firstInside_eq_none.mp hfirst
        by_cases hinside : p.Inside f r.entry i
        · have hmem := (h.mem_claimed_iff hentry hnew).mpr ⟨hinside, hfree⟩
          have hself : p.firstInside f [r] i = some r :=
            firstInside_eq_some.mpr ⟨hinside, [], [], rfl, fun s hs => absurd hs List.not_mem_nil⟩
          rw [ownerOf_trace_of_mem h.owner_size hmem, hself]
          rfl
        · have hnot : ¬ i ∈ p.claimed f o r := fun hmem =>
            hinside ((h.mem_claimed_iff hentry hnew).mp hmem).1
          have hself : p.firstInside f [r] i = none := firstInside_eq_none.mpr fun s hs => by
            rw [List.mem_singleton.mp hs]
            exact hinside
          rw [ownerOf_trace_of_not_mem hnot, h.owner, hfirst, hself]
          rfl
  overlap := by
    intro i a ha
    rcases overlapOf_trace_cases f o r i with hsame | ⟨hmine, z, hz, hlink, -⟩
    · rw [hsame] at ha
      obtain ⟨s, hs, hid, hregion⟩ := h.overlap ha
      exact ⟨s, List.mem_append.mpr (Or.inl hs), hid, hregion⟩
    · rw [hmine] at ha
      exact ⟨r, List.mem_append.mpr (Or.inr (List.mem_singleton.mpr rfl)), Option.some.inj ha,
        region_of_link hentry hz hlink⟩

end Trace

/-- Hence all routines can be traced one after the other, -/
theorem Owned.foldl : ∀ {rs done : List Root} {o : Ownership}, p.Owned f done o →
    (done ++ rs).Pairwise (fun s r => p.isStart r.entry = true ∧ s.entry ≠ r.entry) →
      (∀ r ∈ rs, r.entry < p.statements.size) →
        p.Owned f (done ++ rs) (rs.foldl (p.trace f) o) := by
  intro rs
  induction rs with
  | nil =>
      intro done o h _ _
      rw [List.append_nil]
      exact h
  | cons r rs ih =>
      intro done o h hpair hlt
      rw [List.append_cons] at hpair ⊢
      have hnew : ∀ s ∈ done, p.isStart r.entry = true ∧ s.entry ≠ r.entry := fun s hs =>
        (List.pairwise_append.mp (List.pairwise_append.mp hpair).1).2.2 s hs r
          (List.mem_singleton.mpr rfl)
      exact ih (h.trace (hlt r (List.mem_cons_self ..)) hnew) hpair
        fun s hs => hlt s (List.mem_cons_of_mem r hs)

/-- The record of who came upon a statement lasts while the later routines keep away from it. -/
theorem Owned.overlapOf_foldl : ∀ {rs done : List Root} {o : Ownership}, p.Owned f done o →
    (done ++ rs).Pairwise (fun s r => p.isStart r.entry = true ∧ s.entry ≠ r.entry) →
      (∀ r ∈ rs, r.entry < p.statements.size) →
        (∀ r ∈ rs, p.Region f r.entry i → p.isStart i = true ∧ p.addressOf i = r.id) →
          (rs.foldl (p.trace f) o).overlapOf i = o.overlapOf i := by
  intro rs
  induction rs with
  | nil =>
      intro done o _ _ _ _
      rfl
  | cons r rs ih =>
      intro done o h hpair hlt haway
      rw [List.append_cons] at hpair
      have hnew : ∀ s ∈ done, p.isStart r.entry = true ∧ s.entry ≠ r.entry := fun s hs =>
        (List.pairwise_append.mp (List.pairwise_append.mp hpair).1).2.2 s hs r
          (List.mem_singleton.mpr rfl)
      have hr := hlt r (List.mem_cons_self ..)
      rw [List.foldl_cons, ih (h.trace hr hnew) hpair (fun s hs => hlt s (List.mem_cons_of_mem r hs))
        fun s hs => haway s (List.mem_cons_of_mem r hs)]
      rcases overlapOf_trace_cases f o r i with hsame | ⟨-, z, hz, hlink, hforeign⟩
      · exact hsame
      · -- a routine does not come upon its own entry
        obtain ⟨hstart, haddress⟩ :=
          haway r (List.mem_cons_self ..) (region_of_link hr hz hlink)
        rw [isForeign, hstart, if_pos rfl, haddress, bne_self_eq_false, Bool.and_false] at hforeign
        cases hforeign

theorem WellFormed.entry_lt (hp : p.WellFormed) : ∀ r ∈ p.roots, r.entry < p.statements.size :=
  fun r hr => lt_of_isCode (hp.isCode_of_isRoot ⟨r, hr, rfl⟩)

/-- What has been traced at any time is recorded rightly. -/
theorem WellFormed.owned_prefix (hp : p.WellFormed) {rest : List Root}
    (hroots : p.roots = done ++ rest) :
    p.Owned f done (done.foldl (p.trace f) p.unowned) := by
  have hpair := p.pairwise_roots
  rw [hroots] at hpair
  have hentries : ∀ r ∈ done, r.entry < p.statements.size := by
    intro r hr
    refine hp.entry_lt r ?_
    rw [hroots]
    exact List.mem_append.mpr (Or.inl hr)
  exact owned_unowned.foldl (List.pairwise_append.mp hpair).1 hentries

/-- and at the end ownership is settled for all of them. -/
theorem WellFormed.owned_ownership (hp : p.WellFormed) : p.Owned f p.roots (p.ownership f) :=
  hp.owned_prefix (List.append_nil p.roots).symm

/-- The owner of a statement is the first routine that passes through it. -/
theorem WellFormed.ownerOf_ownership (hp : p.WellFormed) (i : Nat) :
    (p.ownership f).ownerOf i = (p.firstInside f p.roots i).map Root.id :=
  hp.owned_ownership.owner i

/-- A routine that leaves its own statements for one of another routine is noted there, and stays so
    if no later routine comes upon it. -/
theorem WellFormed.overlapOf_ownership (hp : p.WellFormed) {rest : List Root} {z : Nat}
    (hroots : p.roots = done ++ r :: rest) (hz : p.Takes f done r z) (hlink : p.Link f z i)
    (hforeign : p.isForeign (done.foldl (p.trace f) p.unowned) r.id i = true)
    (haway : ∀ s ∈ rest, p.Region f s.entry i → p.isStart i = true ∧ p.addressOf i = s.id) :
    (p.ownership f).overlapOf i = some r.id := by
  have howned := hp.owned_prefix (f := f) hroots
  have hpair := p.pairwise_roots
  have hentries := hp.entry_lt
  rw [hroots] at hpair hentries
  have hnew : ∀ s ∈ done, p.isStart r.entry = true ∧ s.entry ≠ r.entry := fun s hs =>
    start_of_roots_eq hroots hs (List.mem_cons_self ..)
  have hentry : r.entry < p.statements.size :=
    hentries r (List.mem_append.mpr (Or.inr (List.mem_cons_self ..)))
  have hclaimed := (howned.mem_claimed_iff hentry hnew).mpr hz
  rw [List.append_cons] at hpair
  have hlast := (howned.trace hentry hnew).overlapOf_foldl hpair
    (fun s hs => hentries s (List.mem_append.mpr (Or.inr (List.mem_cons_of_mem r hs)))) haway
  rw [ownership, hroots, List.foldl_append, List.foldl_cons, hlast]
  exact overlapOf_trace_of_link howned.overlap_size hclaimed hlink hforeign

end AsmCheck.Program
