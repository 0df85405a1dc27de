import AsmCheck.Proofs.Regions
import AsmCheck.Proofs.Rounds
import AsmCheck.Proofs.Sorting

/-! # Routines that share statements

    A round notes for each statement its owner and the last other routine that
    came upon it, and lists for each routine the others that it is paired with
    in such notes.  What is listed is right: the list increases, the other
    routine lists this one, and their regions share a statement
    (`overlapsSound_round`).  A statement has room for one note only, so of
    three routines that share it two may not be told of each other
    (`threeIntoOne_shares`).  Two routines are told of each other whenever every
    third one keeps clear of what they share (`mem_overlaps_round`): the one
    that is traced first owns the statement at which the other one leaves its
    own, and nobody writes over the note. -/

namespace AsmCheck

namespace Program

variable {p : Program} {f : Flow} {o : Ownership} {r s t : Root} {i : Nat}

/-! ## Pairs and partners -/

/-- Two routines overlap in the table if one owns a statement that the other comes upon. -/
theorem mem_overlapPairs {a b : Nat} :
    (a, b) ∈ p.overlapPairs o ↔
      a ≠ b ∧ ∃ i < p.statements.size, o.ownerOf i = some a ∧ o.overlapOf i = some b := by
  rw [overlapPairs, List.mem_filterMap]
  constructor
  · rintro ⟨i, hi, hpair⟩
    split at hpair
    · next a' b' hown hover =>
      split at hpair
      · cases hpair
      · next hne =>
        cases hpair
        exact ⟨hne, i, List.mem_range.mp hi, hown, hover⟩
    · cases hpair
  · rintro ⟨hne, i, hi, hown, hover⟩
    refine ⟨i, List.mem_range.mpr hi, ?_⟩
    rw [hown, hover]
    exact if_neg hne

/-- The partners of a routine are all that it overlaps with, whoever came first. -/
theorem mem_partners {pairs : List (Nat × Nat)} {id b : Nat} :
    b ∈ partners pairs id ↔ (id, b) ∈ pairs ∨ (b, id) ∈ pairs := by
  rw [partners, Sorting.mem_eraseReps, List.mem_mergeSort, List.mem_filterMap]
  constructor
  · rintro ⟨⟨x, y⟩, hmem, hxy⟩
    dsimp only at hxy
    split at hxy
    · next hx =>
      cases hxy
      exact Or.inl (hx ▸ hmem)
    · split at hxy
      · next hy =>
        cases hxy
        exact Or.inr (hy ▸ hmem)
      · cases hxy
  · rintro (hmem | hmem)
    · exact ⟨(id, b), hmem, if_pos rfl⟩
    · refine ⟨(b, id), hmem, ?_⟩
      by_cases hb : b = id
      · subst hb
        exact if_pos rfl
      · exact (if_neg hb).trans (if_pos rfl)

/-- Partners are listed in increasing order, none of them twice. -/
theorem pairwise_partners (pairs : List (Nat × Nat)) (id : Nat) :
    (partners pairs id).Pairwise (· < ·) := by
  refine (Sorting.pairwise_eraseReps Nat.le_antisymm (List.pairwise_mergeSort' (· ≤ ·) _)).imp ?_
  rintro a b ⟨hle, hne⟩
  exact Nat.lt_of_le_of_ne hle hne

/-! ## The routines of a round -/

section Subroutines

variable {places : Array (Option Nat)} {pairs : List (Nat × Nat)}

/-- The routines of a round are the routines of the program. -/
theorem toRoot_subroutinesOf (rs : List Root) :
    (subroutinesOf places pairs rs).map Subroutine.toRoot = rs := by
  induction rs with
  | nil => rfl
  | cons r rs ih => exact congrArg (r :: ·) ih

/-- A routine lists all its partners, or none if a later one has the same address. -/
theorem overlaps_subroutinesOf {rs : List Root} {u : Subroutine}
    (h : u ∈ subroutinesOf places pairs rs) :
    u.overlaps = [] ∨ u.overlaps = partners pairs u.id := by
  induction rs with
  | nil => exact absurd h List.not_mem_nil
  | cons r rs ih =>
      rcases List.mem_cons.mp h with rfl | hrest
      · dsimp only
        split
        · exact Or.inl rfl
        · exact Or.inr rfl
      · exact ih hrest

/-- The last routine of an address lists all partners. -/
theorem exists_overlaps_eq {rs : List Root} {id : Nat} (h : ∃ r ∈ rs, r.id = id) :
    ∃ u ∈ subroutinesOf places pairs rs, u.id = id ∧ u.overlaps = partners pairs id := by
  induction rs with
  | nil =>
      obtain ⟨r, hr, -⟩ := h
      exact absurd hr List.not_mem_nil
  | cons r rs ih =>
      by_cases hlater : ∃ r' ∈ rs, r'.id = id
      · obtain ⟨u, hu, hlists⟩ := ih hlater
        exact ⟨u, List.mem_cons_of_mem _ hu, hlists⟩
      · have hid : r.id = id := by
          obtain ⟨r', hr', hid'⟩ := h
          rcases List.mem_cons.mp hr' with rfl | hrest
          · exact hid'
          · exact absurd ⟨r', hrest, hid'⟩ hlater
        refine ⟨_, List.mem_cons_self .., hid, ?_⟩
        subst hid
        refine if_neg fun hany => hlater ?_
        obtain ⟨r', hr', heq⟩ := List.any_eq_true.mp hany
        exact ⟨r', hr', beq_iff_eq.mp heq⟩

end Subroutines

theorem subroutines_round (p : Program) (arrivals : Arrivals) :
    (p.round arrivals).subroutines =
      subroutinesOf (p.round arrivals).places
        (p.overlapPairs (p.ownership (p.flow arrivals))) p.roots := rfl

theorem toRoot_subroutines (p : Program) (arrivals : Arrivals) :
    (p.round arrivals).subroutines.map Subroutine.toRoot = p.roots := by
  rw [subroutines_round, toRoot_subroutinesOf]

/-! ## Every pair shares a statement -/

/-- The owner of a statement and whoever is noted there both have it in their regions. -/
theorem WellFormed.shared_of_noted (hp : p.WellFormed) {a b : Nat}
    (howner : (p.ownership f).ownerOf i = some a) (hover : (p.ownership f).overlapOf i = some b) :
    ∃ u ∈ p.roots, ∃ v ∈ p.roots, u.id = a ∧ v.id = b ∧
      p.Region f u.entry i ∧ p.Region f v.entry i := by
  obtain ⟨v, hv, hvb, hregion⟩ := hp.owned_ownership.overlap hover
  rw [hp.ownerOf_ownership] at howner
  obtain ⟨u, hu, hua⟩ := Option.map_eq_some_iff.mp howner
  exact ⟨u, mem_of_firstInside hu, v, hv, hua, hvb, (firstInside_eq_some.mp hu).1.1, hregion⟩

/-! ## Where a routine leaves its own statements -/

/-- A walk from an entry that is in a set to a statement that is not has a link out of the set, and
    whoever passes through where it leads comes upon the end of the walk. -/
theorem Region.exists_border {C : Nat → Prop} {e x : Nat} (h : p.Region f e x) (he : C e) :
    C x ∨ ∃ z y, C z ∧ p.Link f z y ∧ ¬ C y ∧
      (y = x ∨ p.isStart y = false ∧ ∀ e', p.Inside f e' y → p.Region f e' x) := by
  induction h with
  | entry => exact Or.inl he
  | @step i j before own link ih =>
      by_cases hj : C j
      · exact Or.inl hj
      by_cases hi : C i
      · exact Or.inr ⟨i, j, hi, link, hj, Or.inl rfl⟩
      have hplain : p.isStart i = false := by
        rcases own with rfl | hplain
        · exact absurd he hi
        · exact hplain
      rcases ih with hi' | ⟨z, y, hz, hzy, hy, hlast⟩
      · exact absurd hi' hi
      · refine Or.inr ⟨z, y, hz, hzy, hy, Or.inr ?_⟩
        rcases hlast with rfl | ⟨hstart, hthrough⟩
        · exact ⟨hplain, fun e' hinside => hinside.region_step link⟩
        · refine ⟨hstart, fun e' hinside => ?_⟩
          exact Inside.region_step ⟨hthrough e' hinside, Or.inr hplain⟩ link

/-- No third routine comes upon what two routines share. -/
structure Alone (p : Program) (f : Flow) (s t : Root) : Prop where
  id_ne : s.id ≠ t.id
  apart : ∀ u ∈ p.roots, u ≠ s → u ≠ t → ∀ i, p.Region f s.entry i → p.Region f t.entry i →
    ¬ p.Region f u.entry i

/-- A pair of routines is in the notes. -/
def Noted (p : Program) (f : Flow) (s t : Root) : Prop :=
  ∃ i, (p.ownership f).ownerOf i = some s.id ∧ (p.ownership f).overlapOf i = some t.id

theorem Alone.symm (h : p.Alone f s t) : p.Alone f t s :=
  ⟨Ne.symm h.id_ne, fun u hu hut hus i hti hsi => h.apart u hu hus hut i hsi hti⟩

/-- No third routine comes to a statement that two routines have to themselves. -/
theorem Alone.eq_or_eq (h : p.Alone f s t) {u : Root} (hu : u ∈ p.roots)
    (hs : p.Region f s.entry i) (ht : p.Region f t.entry i) (hui : p.Region f u.entry i) :
    u = s ∨ u = t := by
  by_cases hus : u = s
  · exact Or.inl hus
  · by_cases hut : u = t
    · exact Or.inr hut
    · exact absurd hui (h.apart u hu hus hut i hs ht)

section Noted

variable (hp : p.WellFormed) (h : p.Alone f s t) {x : Nat}
  (hs : p.Region f s.entry x) (ht : p.Region f t.entry x)

include hp h hs ht

/-- A shared statement that the later routine claims is its entry; the earlier one came upon it. -/
theorem Alone.noted_of_claimed {before rest : List Root} (hroots : p.roots = before ++ s :: rest)
    (hlater : t ∈ rest) (htx : p.Inside f t.entry x) (hsx : ¬ p.Inside f s.entry x) :
    p.Noted f t s := by
  obtain ⟨hbefore, hrest, hcross⟩ := ne_of_roots_eq hroots
  have hmem : ∀ u ∈ before ++ s :: rest, u ∈ p.roots := fun u hu => hroots ▸ hu
  have htroot : t ∈ p.roots := hmem t (List.mem_append.mpr (Or.inr (List.mem_cons_of_mem s hlater)))
  have hstart : p.isStart x = true := by
    cases hstart : p.isStart x with
    | true => rfl
    | false => exact absurd ⟨hs, Or.inr hstart⟩ hsx
  have haddress : p.addressOf x = t.id := by
    rw [htx.eq_entry hstart, id_of_mem_roots htroot]
  obtain ⟨z, hz, hlink⟩ := hs.eq_or_exists_link.resolve_left fun heq => hsx ⟨hs, Or.inl heq⟩
  have hover : (p.ownership f).overlapOf x = some s.id := by
    refine hp.overlapOf_ownership hroots ⟨hz, ?_⟩ hlink ?_ ?_
    · -- whoever passes through `z` comes upon `x`
      intro u hu huz
      rcases h.eq_or_eq (hmem u (List.mem_append.mpr (Or.inl hu))) hs ht (huz.region_step hlink)
        with rfl | rfl
      · exact hbefore u hu rfl
      · exact hcross u hu u hlater rfl
    · rw [isForeign, hlink.isCode, hstart, if_pos rfl, haddress]
      exact bne_iff_ne.mpr (Ne.symm h.id_ne)
    · intro u hu hux
      rcases h.eq_or_eq (hmem u (List.mem_append.mpr (Or.inr (List.mem_cons_of_mem s hu)))) hs ht
        hux with rfl | rfl
      · exact absurd rfl (hrest u hu)
      · exact ⟨hstart, haddress⟩
  refine ⟨x, ?_, hover⟩
  have hfirst : p.firstInside f p.roots x = some t := by
    refine firstInside_of_unique htroot htx fun u hu hux => ?_
    rcases h.eq_or_eq hu hs ht hux.1 with rfl | rfl
    · exact absurd hux hsx
    · rfl
  rw [hp.ownerOf_ownership, hfirst]
  rfl

/-- Where the later routine leaves its own statements for one that the earlier one passes through,
    it is noted. -/
theorem Alone.noted_of_border {done after : List Root} (hroots : p.roots = done ++ t :: after)
    (hearlier : s ∈ done) {z : Nat} (hz : p.Takes f done t z) (hlink : p.Link f z x)
    (hsx : p.Inside f s.entry x) : p.Noted f s t := by
  obtain ⟨hdone, hafter, hcross⟩ := ne_of_roots_eq hroots
  have hmem : ∀ u ∈ done ++ t :: after, u ∈ p.roots := fun u hu => hroots ▸ hu
  have hsroot : s ∈ p.roots := hmem s (List.mem_append.mpr (Or.inl hearlier))
  have hfirst : p.firstInside f done x = some s := by
    refine firstInside_of_unique hearlier hsx fun u hu hux => ?_
    exact (h.eq_or_eq (hmem u (List.mem_append.mpr (Or.inl hu))) hs ht hux.1).resolve_right
      (hdone u hu)
  have hover : (p.ownership f).overlapOf x = some t.id := by
    refine hp.overlapOf_ownership hroots hz hlink ?_ ?_
    · rw [isForeign, hlink.isCode, Bool.true_and]
      cases hstart : p.isStart x with
      | true =>
          -- the entry of a marked subroutine belongs to it by its address
          rw [if_pos rfl, hsx.eq_entry hstart, ← id_of_mem_roots hsroot]
          exact bne_iff_ne.mpr h.id_ne
      | false =>
          rw [(hp.owned_prefix hroots).owner, hfirst]
          exact bne_iff_ne.mpr h.id_ne
    · intro u hu hux
      rcases h.eq_or_eq (hmem u (List.mem_append.mpr (Or.inr (List.mem_cons_of_mem t hu)))) hs ht
        hux with rfl | rfl
      · exact absurd rfl (hcross u hearlier u hu)
      · exact absurd rfl (hafter u hu)
  refine ⟨x, ?_, hover⟩
  rw [hp.ownerOf_ownership, hroots, firstInside_append, hfirst]
  rfl

/-- Two routines that share something no third one comes upon are noted as a pair. -/
theorem Alone.noted {before mid after : List Root}
    (hroots : p.roots = before ++ s :: (mid ++ t :: after)) : p.Noted f s t ∨ p.Noted f t s := by
  have hroots' : p.roots = (before ++ s :: mid) ++ t :: after := by
    rw [hroots, List.append_assoc, List.cons_append]
  have hsdone : s ∈ before ++ s :: mid := List.mem_append.mpr (Or.inr (List.mem_cons_self ..))
  have hlater : t ∈ mid ++ t :: after := List.mem_append.mpr (Or.inr (List.mem_cons_self ..))
  have htdone := (ne_of_roots_eq hroots').1
  have hdone : ∀ u ∈ before ++ s :: mid, u ∈ p.roots := fun u hu =>
    hroots' ▸ List.mem_append.mpr (Or.inl hu)
  have hentry : p.Takes f (before ++ s :: mid) t t.entry :=
    takes_entry fun u hu => start_of_roots_eq hroots' hu (List.mem_cons_self ..)
  rcases ht.exists_border hentry with hx | ⟨z, y, hz, hlink, hy, hlast⟩
  · exact Or.inr (h.noted_of_claimed hp hs ht hroots hlater hx.1 (hx.2 s hsdone))
  · have hty : p.Region f t.entry y := hz.1.region_step hlink
    have hsy : p.Inside f s.entry y := by
      cases hstart : p.isStart y with
      | true =>
          obtain rfl : y = x := hlast.resolve_right fun hplain => by
            rw [hstart] at hplain
            cases hplain.1
          obtain ⟨w, hw, rfl⟩ := hp.isRoot_iff.mpr (Or.inr hstart)
          rcases h.eq_or_eq hw hs ht .entry with rfl | rfl
          · exact inside_entry
          · exact absurd hentry hy
      | false =>
          -- `t` passes through `y` and has not claimed it, so somebody else has
          have htaken : ∃ u ∈ before ++ s :: mid, p.Inside f u.entry y := by
            by_contra hnone
            exact hy ⟨⟨hty, Or.inr hstart⟩, fun u hu hinside => hnone ⟨u, hu, hinside⟩⟩
          obtain ⟨u, hu, hinside⟩ := htaken
          have hux : p.Region f u.entry x := by
            rcases hlast with rfl | ⟨-, hthrough⟩
            · exact hinside.1
            · exact hthrough u.entry hinside
          rcases h.eq_or_eq (hdone u hu) hs ht hux with rfl | rfl
          · exact hinside
          · exact absurd rfl (htdone u hu)
    exact Or.inl (h.noted_of_border hp hsy.1 hty hroots' hsdone hz hlink hsy)

end Noted

/-- What one routine has noted about the other ends up in the table. -/
theorem WellFormed.mem_overlapPairs_of_noted (hp : p.WellFormed) (hne : s.id ≠ t.id)
    (h : p.Noted f s t) : (s.id, t.id) ∈ p.overlapPairs (p.ownership f) := by
  obtain ⟨i, howner, hover⟩ := h
  refine mem_overlapPairs.mpr ⟨hne, i, ?_, howner, hover⟩
  rw [← hp.owned_ownership.owner_size (f := f)]
  exact (Array.getElem?_eq_some_iff.mp (Option.join_eq_some_iff.mp howner)).1

/-- Two routines that share a statement, and from whose common statements all others stay away, are
    partners of each other. -/
theorem WellFormed.mem_partners_of_shared (hp : p.WellFormed) (hs : s ∈ p.roots) (ht : t ∈ p.roots)
    (h : p.Alone f s t) (hx : ∃ x, p.Region f s.entry x ∧ p.Region f t.entry x) :
    t.id ∈ partners (p.overlapPairs (p.ownership f)) s.id := by
  have hnoted : p.Noted f s t ∨ p.Noted f t s := by
    obtain ⟨x, hsx, htx⟩ := hx
    obtain ⟨before, rest, hroots⟩ := List.append_of_mem hs
    have hmem := ht
    rw [hroots] at hmem
    rcases List.mem_append.mp hmem with hearlier | hlater
    · -- the other one is traced first
      obtain ⟨before', mid, rfl⟩ := List.append_of_mem hearlier
      rw [List.append_assoc, List.cons_append] at hroots
      exact (h.symm.noted hp htx hsx hroots).symm
    · rcases List.mem_cons.mp hlater with rfl | hlater
      · exact absurd rfl h.id_ne
      · obtain ⟨mid, after, rfl⟩ := List.append_of_mem hlater
        exact h.noted hp hsx htx hroots
  refine mem_partners.mpr (hnoted.imp ?_ ?_)
  · exact hp.mem_overlapPairs_of_noted h.id_ne
  · exact hp.mem_overlapPairs_of_noted (Ne.symm h.id_ne)

/-- Without conditional jumps there is nothing to find out about the flow of control. -/
theorem flow_eq_noArrivals (h : ∀ s ∈ p.statements.toList,
      s.branch = none ∨ s.branch = some .jump ∨ s.branch = some .call) (arrivals : Arrivals) :
    p.flow arrivals = p.flow p.noArrivals := by
  have hverdict : ∀ i, p.verdictOf arrivals i = p.verdictOf p.noArrivals i := by
    intro i
    unfold verdictOf
    cases hs : p.statements[i]? with
    | none => rfl
    | some s =>
        show s.verdict _ = s.verdict _
        have hmem : s ∈ p.statements.toList := Array.mem_toList_iff.mpr (Array.mem_of_getElem? hs)
        unfold Statement.verdict
        rcases h s hmem with hb | hb | hb <;> rw [hb]
  have hnext : p.nextIn arrivals = p.nextIn p.noArrivals := by
    funext i
    rw [nextIn, nextIn, hverdict]
  have hjump : p.jumpIn arrivals = p.jumpIn p.noArrivals := by
    funext i
    rw [jumpIn, jumpIn, hverdict]
  rw [flow, flow, hnext, hjump]

end Program

/-! ## Rounds -/

namespace Round

variable {p : Program} {arrivals : Arrivals}

/-- What is listed as overlaps of a routine. -/
structure OverlapsSound (p : Program) (r : Round) (s : Subroutine) : Prop where
  increasing : s.overlaps.Pairwise (· < ·)
  other : ¬ s.id ∈ s.overlaps
  /-- The routines that are listed list this one. -/
  symmetric : ∀ b ∈ s.overlaps, ∃ t ∈ r.subroutines, t.id = b ∧ s.id ∈ t.overlaps
  /-- They have statements in common with it. -/
  shared : ∀ b ∈ s.overlaps, ∃ u ∈ p.roots, ∃ v ∈ p.roots, u.id = s.id ∧ v.id = b ∧
    ∃ i, p.Region r.flow u.entry i ∧ p.Region r.flow v.entry i

/-- Only partners are listed. -/
theorem mem_partners_of_mem_overlaps {s : Subroutine} {b : Nat}
    (hs : s ∈ (p.round arrivals).subroutines) (hb : b ∈ s.overlaps) :
    b ∈ Program.partners (p.overlapPairs (p.ownership (p.flow arrivals))) s.id := by
  rcases Program.overlaps_subroutinesOf hs with hnone | hall
  · rw [hnone] at hb
    exact absurd hb List.not_mem_nil
  · rw [hall] at hb
    exact hb

/-- Behind everything that is listed stands a note on a shared statement. -/
theorem exists_note_of_mem_overlaps (hp : p.WellFormed) {s : Subroutine} {b : Nat}
    (hs : s ∈ (p.round arrivals).subroutines) (hb : b ∈ s.overlaps) :
    ∃ i, ((p.ownership (p.flow arrivals)).overlapOf i = some b ∨
        (p.ownership (p.flow arrivals)).overlapOf i = some s.id) ∧
      ∃ u ∈ p.roots, ∃ v ∈ p.roots, u.id = s.id ∧ v.id = b ∧
        p.Region (p.flow arrivals) u.entry i ∧ p.Region (p.flow arrivals) v.entry i := by
  rcases Program.mem_partners.mp (mem_partners_of_mem_overlaps hs hb) with hpair | hpair
  · obtain ⟨-, i, -, howner, hover⟩ := Program.mem_overlapPairs.mp hpair
    exact ⟨i, Or.inl hover, hp.shared_of_noted howner hover⟩
  · obtain ⟨-, i, -, howner, hover⟩ := Program.mem_overlapPairs.mp hpair
    obtain ⟨u, hu, v, hv, hub, hvs, hui, hvi⟩ := hp.shared_of_noted howner hover
    exact ⟨i, Or.inr hover, v, hv, u, hu, hvs, hub, hvi, hui⟩

/-- In every round the overlaps of a routine are real. -/
theorem overlapsSound_round (hp : p.WellFormed) {s : Subroutine}
    (hs : s ∈ (p.round arrivals).subroutines) : (p.round arrivals).OverlapsSound p s where
  increasing := by
    rcases Program.overlaps_subroutinesOf hs with hnone | hall
    · rw [hnone]
      exact List.Pairwise.nil
    · rw [hall]
      exact Program.pairwise_partners _ _
  other := by
    intro hself
    rcases Program.mem_partners.mp (mem_partners_of_mem_overlaps hs hself) with hpair | hpair <;>
      exact (Program.mem_overlapPairs.mp hpair).1 rfl
  symmetric := by
    intro b hb
    obtain ⟨-, -, -, -, v, hv, -, rfl, -⟩ := exists_note_of_mem_overlaps hp hs hb
    obtain ⟨t, ht, hid, hlist⟩ := Program.exists_overlaps_eq ⟨v, hv, rfl⟩
    refine ⟨t, ht, hid, ?_⟩
    rw [hlist]
    have hpartner := mem_partners_of_mem_overlaps hs hb
    exact Program.mem_partners.mpr (Program.mem_partners.mp hpartner).symm
  shared := by
    intro b hb
    obtain ⟨i, -, u, hu, v, hv, hus, hvb, hui, hvi⟩ := exists_note_of_mem_overlaps hp hs hb
    exact ⟨u, hu, v, hv, hus, hvb, i, hui, hvi⟩

/-- Two routines with addresses of their own have a statement in common. -/
structure Shares (p : Program) (r : Round) (s t : Subroutine) : Prop where
  id_ne : s.id ≠ t.id
  common : ∃ i, p.Region r.flow s.entry i ∧ p.Region r.flow t.entry i

/-- A routine has nothing to do with what two others share. -/
structure KeepsClear (p : Program) (r : Round) (u s t : Subroutine) : Prop where
  id_ne : u.id ≠ s.id ∧ u.id ≠ t.id
  apart : ∀ i, p.Region r.flow s.entry i → p.Region r.flow t.entry i →
    ¬ p.Region r.flow u.entry i

/-- In every round two routines that share a statement list each other, if all others keep clear of
    it. -/
theorem mem_overlaps_round (hp : p.WellFormed) {s t : Subroutine}
    (hs : s ∈ (p.round arrivals).subroutines) (ht : t ∈ (p.round arrivals).subroutines)
    (hshared : (p.round arrivals).Shares p s t)
    (hclear : ∀ u ∈ (p.round arrivals).subroutines, u ≠ s → u ≠ t →
      (p.round arrivals).KeepsClear p u s t) :
    t.id ∈ s.overlaps := by
  have hroots := p.toRoot_subroutines arrivals
  have hmem : ∀ {u : Subroutine}, u ∈ (p.round arrivals).subroutines → u.toRoot ∈ p.roots :=
    fun hu => hroots ▸ List.mem_map_of_mem hu
  have halone : p.Alone (p.flow arrivals) s.toRoot t.toRoot := by
    refine ⟨hshared.id_ne, ?_⟩
    intro u hu hus hut
    rw [← hroots] at hu
    obtain ⟨u', hu', rfl⟩ := List.mem_map.mp hu
    refine (hclear u' hu' ?_ ?_).apart
    · exact fun heq => hus (congrArg Subroutine.toRoot heq)
    · exact fun heq => hut (congrArg Subroutine.toRoot heq)
  -- `s` is the only routine with its address
  obtain ⟨u, hu, hid, hlist⟩ : ∃ u ∈ (p.round arrivals).subroutines, u.id = s.id ∧
      u.overlaps = Program.partners (p.overlapPairs (p.ownership (p.flow arrivals))) s.id :=
    Program.exists_overlaps_eq ⟨s.toRoot, hmem hs, rfl⟩
  obtain rfl : u = s := by
    by_contra hus
    refine (hclear u hu hus ?_).id_ne.1 hid
    rintro rfl
    exact hshared.id_ne hid.symm
  rw [hlist]
  exact hp.mem_partners_of_shared (hmem hs) (hmem ht) halone hshared.common

theorem Shares.symm {r : Round} {s t : Subroutine} (h : r.Shares p s t) : r.Shares p t s := by
  obtain ⟨hne, i, hs, ht⟩ := h
  exact ⟨Ne.symm hne, i, ht, hs⟩

theorem KeepsClear.symm {r : Round} {u s t : Subroutine} (h : r.KeepsClear p u s t) :
    r.KeepsClear p u t s :=
  ⟨h.id_ne.symm, fun i hti hsi => h.apart i hsi hti⟩

end Round

namespace Analysis

/-- Overlaps are sound: for every source text and all usable settings, after any number of further
    rounds, the overlaps of a routine are listed in increasing order and without the routine itself,
    each of the routines listed lists it in turn, and they have statements in common. -/
theorem overlaps_sound (source : String) (config : Config) (hvalid : config.validate = .ok ())
    (n : Nat) :
    ∃ a, ofSource source config = .ok a ∧
      ∀ s ∈ (a.rerun n).last.subroutines,
        (a.rerun n).last.OverlapsSound (a.rerun n).program s := by
  refine ⟨ofText source config, ofSource_eq_ok hvalid, ?_⟩
  obtain ⟨hprog, arrivals, hlast⟩ := exists_last_eq_round source config n
  rw [hlast, hprog]
  intro s hs
  exact Round.overlapsSound_round (Program.wellFormed_assemble source.toList config) hs

/-- A program that calls one of two routines that go on to the same return. -/
def twoIntoOne : String :=
  "call f\nhlt\n; @SUBROUTINE\nf: jmp x\n; @SUBROUTINE\ng: jmp x\nx: ret\n"

theorem twoIntoOne_text {p : Program} (hp : p = Program.assemble twoIntoOne.toList {}) :
    (∀ s ∈ p.statements.toList,
      s.branch = none ∨ s.branch = some .jump ∨ s.branch = some .call) ∧
    p.roots = [⟨0, 0, none, true⟩, ⟨2, 2, some "f", false⟩, ⟨3, 3, some "g", false⟩] ∧
    p.Link (p.flow p.noArrivals) 2 4 ∧ p.Link (p.flow p.noArrivals) 3 4 ∧
    p.Closed (p.flow p.noArrivals) [0, 1] ∧ p.Closed (p.flow p.noArrivals) [2, 4] := by
  rw [hp]
  decide +kernel

/-- The two routines share the return, and the program itself keeps clear of it. -/
theorem twoIntoOne_shares {p : Program} {r : Round} {arrivals : Arrivals}
    (hp : p = Program.assemble twoIntoOne.toList {}) (hr : r = p.round arrivals) :
    ∃ s ∈ r.subroutines, ∃ t ∈ r.subroutines, r.Shares p s t ∧
      ∀ u ∈ r.subroutines, u ≠ s → u ≠ t → r.KeepsClear p u s t := by
  subst hr
  obtain ⟨hplain, hroots, hf, hg, hmain, hfirst⟩ := twoIntoOne_text hp
  rw [← Program.flow_eq_noArrivals hplain arrivals] at hf hg hmain hfirst
  rw [Program.subroutines_round, hroots]
  refine ⟨_, .tail _ (.head _), _, .tail _ (.tail _ (.head _)), ⟨?_, 4, ?_, ?_⟩, ?_⟩
  · exact Nat.ne_of_lt (Nat.lt_succ_self 2)
  · exact .step .entry (Or.inl rfl) hf
  · exact .step .entry (Or.inl rfl) hg
  · intro u hu hus hut
    simp only [Program.subroutinesOf, List.mem_cons, List.not_mem_nil, or_false] at hu
    rcases hu with rfl | rfl | rfl
    · refine ⟨⟨Nat.ne_of_lt (Nat.succ_pos 1), Nat.ne_of_lt (Nat.succ_pos 2)⟩, ?_⟩
      intro i hs _ hu
      have hlow := hmain.mem hu (List.mem_cons_self ..)
      have hhigh := hfirst.mem hs (List.mem_cons_self ..)
      simp only [List.mem_cons, List.not_mem_nil, or_false] at hlow hhigh
      omega
    · exact absurd rfl hus
    · exact absurd rfl hut

/-- The two routines list each other rightly. -/
theorem twoIntoOne_overlaps_sound :
    ({} : Config).validate = .ok () ∧
      ∃ a s b, ofSource twoIntoOne {} = .ok a ∧ s ∈ (a.rerun 1).last.subroutines ∧
        b ∈ s.overlaps ∧ (a.rerun 1).last.OverlapsSound (a.rerun 1).program s := by
  refine ⟨rfl, ?_⟩
  obtain ⟨a, ha, hsound⟩ := overlaps_sound twoIntoOne {} rfl 1
  obtain rfl := Except.ok.inj ((ofSource_eq_ok rfl).symm.trans ha)
  obtain ⟨hprog, arrivals, hlast⟩ := exists_last_eq_round twoIntoOne {} 1
  have hp := Program.wellFormed_assemble twoIntoOne.toList {}
  rw [← hprog] at hlast hp
  obtain ⟨s, hs, t, ht, hshares, hclear⟩ := twoIntoOne_shares hprog hlast
  refine ⟨_, s, t.id, ha, hs, ?_, hsound s hs⟩
  rw [hlast] at hs ht hshares hclear
  exact Round.mem_overlaps_round hp hs ht hshares hclear

/-- Overlaps are complete as far as two routines are alone with what they share: for every source
    text and all usable settings, after any number of further rounds, two routines whose regions
    share a statement list each other, provided that every other routine keeps clear of what they
    share. -/
theorem overlaps_complete (source : String) (config : Config) (hvalid : config.validate = .ok ())
    (n : Nat) :
    ∃ a, ofSource source config = .ok a ∧
      ∀ s ∈ (a.rerun n).last.subroutines, ∀ t ∈ (a.rerun n).last.subroutines,
        (a.rerun n).last.Shares (a.rerun n).program s t →
        (∀ u ∈ (a.rerun n).last.subroutines, u ≠ s → u ≠ t →
          (a.rerun n).last.KeepsClear (a.rerun n).program u s t) →
        t.id ∈ s.overlaps ∧ s.id ∈ t.overlaps := by
  refine ⟨ofText source config, ofSource_eq_ok hvalid, ?_⟩
  obtain ⟨hprog, arrivals, hlast⟩ := exists_last_eq_round source config n
  have hp := Program.wellFormed_assemble source.toList config
  rw [hlast, hprog]
  intro s hs t ht hshared hclear
  constructor
  · exact Round.mem_overlaps_round hp hs ht hshared hclear
  · refine Round.mem_overlaps_round hp ht hs hshared.symm ?_
    intro u hu hut hus
    exact (hclear u hu hus hut).symm

/-- The two routines that go on to the same return list each other, as nobody else gets there. -/
theorem twoIntoOne_overlaps_complete :
    ({} : Config).validate = .ok () ∧
      ∃ a s t, ofSource twoIntoOne {} = .ok a ∧ s ∈ (a.rerun 1).last.subroutines ∧
        t ∈ (a.rerun 1).last.subroutines ∧ (a.rerun 1).last.Shares (a.rerun 1).program s t ∧
        (∀ u ∈ (a.rerun 1).last.subroutines, u ≠ s → u ≠ t →
          (a.rerun 1).last.KeepsClear (a.rerun 1).program u s t) ∧
        t.id ∈ s.overlaps ∧ s.id ∈ t.overlaps := by
  refine ⟨rfl, ?_⟩
  obtain ⟨a, ha, hcomplete⟩ := overlaps_complete twoIntoOne {} rfl 1
  obtain rfl := Except.ok.inj ((ofSource_eq_ok rfl).symm.trans ha)
  obtain ⟨hprog, arrivals, hlast⟩ := exists_last_eq_round twoIntoOne {} 1
  rw [← hprog] at hlast
  obtain ⟨s, hs, t, ht, hshares, hclear⟩ := twoIntoOne_shares hprog hlast
  exact ⟨_, s, t, ha, hs, ht, hshares, hclear, hcomplete s hs t ht hshares hclear⟩

/-- Three routines that go on to the same return. -/
def threeIntoOne : String :=
  "jmp x\n; @SUBROUTINE\nf: jmp x\n; @SUBROUTINE\ng: jmp x\nx: ret\n"

theorem threeIntoOne_text {p : Program} (hp : p = Program.assemble threeIntoOne.toList {}) :
    (∀ s ∈ p.statements.toList,
      s.branch = none ∨ s.branch = some .jump ∨ s.branch = some .call) ∧
    p.roots = [⟨0, 0, none, true⟩, ⟨1, 1, some "f", false⟩, ⟨2, 2, some "g", false⟩] ∧
    (∀ i < 3, p.Link (p.flow p.noArrivals) i 3) ∧
    p.isCode 3 = true ∧ p.isStart 3 = false ∧ p.isStart 2 = true ∧
    p.Closed (p.flow p.noArrivals) [0, 3] ∧ p.Closed (p.flow p.noArrivals) [1, 3] := by
  rw [hp]
  decide +kernel

/-- The third routine writes over the note that the second one comes upon the return of the first,
    and is the only one that is noted there in the end. -/
theorem threeIntoOne_overlapOf {p : Program} (arrivals : Arrivals)
    (hp : p = Program.assemble threeIntoOne.toList {}) :
    (p.ownership (p.flow arrivals)).overlapOf 3 = some 2 := by
  have hwell : p.WellFormed := hp ▸ Program.wellFormed_assemble threeIntoOne.toList {}
  obtain ⟨hplain, hroots, hlinks, hcode, hinner, hstart, -⟩ := threeIntoOne_text hp
  rw [← Program.flow_eq_noArrivals hplain arrivals] at hlinks
  have hsplit : p.roots = [⟨0, 0, none, true⟩, ⟨1, 1, some "f", false⟩] ++
      ⟨2, 2, some "g", false⟩ :: [] := hroots
  have hinside : p.Inside (p.flow arrivals) 0 3 :=
    ⟨.step .entry (Or.inl rfl) (hlinks 0 (Nat.succ_pos 2)), Or.inr hinner⟩
  have hfirst : p.firstInside (p.flow arrivals)
      [⟨0, 0, none, true⟩, ⟨1, 1, some "f", false⟩] 3 = some ⟨0, 0, none, true⟩ :=
    Program.firstInside_eq_some.mpr
      ⟨hinside, [], _, rfl, fun s hs => absurd hs List.not_mem_nil⟩
  refine hwell.overlapOf_ownership hsplit (Program.takes_entry ?_)
    (hlinks 2 (Nat.lt_succ_self 2)) ?_ ?_
  · intro s hs
    refine ⟨hstart, ?_⟩
    simp only [List.mem_cons, List.not_mem_nil, or_false] at hs
    rcases hs with rfl | rfl
    · exact Nat.ne_of_lt (Nat.succ_pos 1)
    · exact Nat.ne_of_lt (Nat.lt_succ_self 1)
  · rw [Program.isForeign, hcode, hinner, (hwell.owned_prefix hsplit).owner, hfirst]
    rfl
  · intro s hs
    exact absurd hs List.not_mem_nil

/-- The first two routines share the return, but only the third one is noted there. -/
theorem threeIntoOne_shares {p : Program} {r : Round} {arrivals : Arrivals}
    (hp : p = Program.assemble threeIntoOne.toList {}) (hr : r = p.round arrivals) :
    ∃ s ∈ r.subroutines, ∃ t ∈ r.subroutines, r.Shares p s t ∧
      ¬ t.id ∈ s.overlaps ∧ ¬ s.id ∈ t.overlaps := by
  subst hr
  have hwell : p.WellFormed := hp ▸ Program.wellFormed_assemble threeIntoOne.toList {}
  obtain ⟨hplain, hroots, hlinks, -, -, -, hmain, hsecond⟩ := threeIntoOne_text hp
  rw [← Program.flow_eq_noArrivals hplain arrivals] at hlinks hmain hsecond
  have hentries : ∀ u ∈ p.roots, u.entry = u.id := by
    rw [hroots]
    decide
  -- the note behind an entry of either list would have to be on the return
  have hnone : ∀ s ∈ (p.round arrivals).subroutines, ∀ b ∈ s.overlaps,
      ¬ (s.id = 0 ∧ b = 1 ∨ s.id = 1 ∧ b = 0) := by
    intro s hs b hb hids
    obtain ⟨i, hnote, u, hu, v, hv, hus, hvb, hui, hvi⟩ :=
      Round.exists_note_of_mem_overlaps hwell hs hb
    rw [hentries u hu, hus] at hui
    rw [hentries v hv, hvb] at hvi
    have hboth : i ∈ [0, 3] ∧ i ∈ [1, 3] := by
      rcases hids with ⟨hsid, rfl⟩ | ⟨hsid, rfl⟩
      · rw [hsid] at hui
        exact ⟨hmain.mem hui (List.mem_cons_self ..), hsecond.mem hvi (List.mem_cons_self ..)⟩
      · rw [hsid] at hui
        exact ⟨hmain.mem hvi (List.mem_cons_self ..), hsecond.mem hui (List.mem_cons_self ..)⟩
    simp only [List.mem_cons, List.not_mem_nil, or_false] at hboth
    obtain rfl : i = 3 := by omega
    rw [threeIntoOne_overlapOf arrivals hp, Option.some.injEq, Option.some.injEq] at hnote
    omega
  have hmem : ∀ {u}, u ∈ p.roots →
      ∃ s ∈ (p.round arrivals).subroutines, s.toRoot = u := by
    intro u hu
    rw [← p.toRoot_subroutines arrivals] at hu
    exact List.mem_map.mp hu
  rw [hroots] at hmem
  obtain ⟨s, hs, hs0⟩ := hmem (.head _)
  obtain ⟨t, ht, ht1⟩ := hmem (.tail _ (.head _))
  have hsid : s.id = 0 := congrArg Program.Root.id hs0
  have htid : t.id = 1 := congrArg Program.Root.id ht1
  have hsentry : s.entry = 0 := congrArg Program.Root.entry hs0
  have htentry : t.entry = 1 := congrArg Program.Root.entry ht1
  refine ⟨s, hs, t, ht, ⟨?_, 3, ?_, ?_⟩, ?_, ?_⟩
  · omega
  · rw [hsentry]
    exact .step .entry (Or.inl rfl) (hlinks 0 (Nat.succ_pos 2))
  · rw [htentry]
    exact .step .entry (Or.inl rfl) (hlinks 1 (Nat.lt_succ_of_lt (Nat.lt_succ_self 1)))
  · exact fun hlisted => hnone s hs _ hlisted (Or.inl ⟨hsid, htid⟩)
  · exact fun hlisted => hnone t ht _ hlisted (Or.inr ⟨htid, hsid⟩)

/-- Overlaps are not complete when three routines share a statement: the first two of them are not
    told of each other. -/
theorem threeIntoOne_overlaps_incomplete :
    ∃ a s t, ofSource threeIntoOne {} = .ok a ∧ s ∈ a.last.subroutines ∧
      t ∈ a.last.subroutines ∧ a.last.Shares a.program s t ∧
      ¬ t.id ∈ s.overlaps ∧ ¬ s.id ∈ t.overlaps := by
  obtain ⟨hprog, arrivals, hlast⟩ := exists_last_eq_round threeIntoOne {} 0
  rw [← hprog] at hlast
  obtain ⟨s, hs, t, ht, hlost⟩ := threeIntoOne_shares hprog hlast
  exact ⟨_, s, t, ofSource_eq_ok rfl, hs, ht, hlost⟩

end Analysis

end AsmCheck
