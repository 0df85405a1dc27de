import AsmCheck.Proofs.CodeFlow
import AsmCheck.Proofs.Worklist

/-! # Spreading codes ends within a budget

    Items are put on the list without a look at whether they say anything new,
    so the list can grow with every step.  But an item is never empty, and only
    one that adds a code to an entry brings up others, two at most.  An entry
    holds three codes at most; so it can be changed three times, and what is
    still missing from the entries pays for the items (`length_spreadItem_le`).
    Hence spreading from any roots ends, and the updates that it counts are the
    changes of entries, of which there are at most three for each block
    (`updates_within_budget`). -/

namespace AsmCheck

namespace CodeFlow

variable {p : Program} {blocks : Array Block} {f : CodeFlow} {x : Nat × CodeSet}

/-! ## One item -/

/-- What comes of one item: what is recorded, and what the block then passes on. -/
def spreadItem (p : Program) (blocks : Array Block) (f : CodeFlow) (x : Nat × CodeSet) :
    CodeFlow × List (Nat × CodeSet) :=
  match f.entries[x.1]? with
  | none => (f, [])
  | some old =>
    if old = some (widen old x.2) then (f, [])
    else
      (f.record x.1 (widen old x.2),
        ((blocks[x.1]?).map fun block => block.passes p (widen old x.2)).getD [])

/-- An item says nothing new, or it widens the entry of its block. -/
theorem spreadItem_cases (p : Program) (blocks : Array Block) (f : CodeFlow) (x : Nat × CodeSet) :
    ((∀ {old}, f.entries[x.1]? = some old → old = some (widen old x.2)) ∧
        spreadItem p blocks f x = (f, [])) ∨
      ∃ old, f.entries[x.1]? = some old ∧ old ≠ some (widen old x.2) ∧
        spreadItem p blocks f x = (f.record x.1 (widen old x.2),
          ((blocks[x.1]?).map fun block => block.passes p (widen old x.2)).getD []) := by
  rw [spreadItem]
  cases hx : f.entries[x.1]? with
  | none =>
      refine Or.inl ⟨fun h => ?_, rfl⟩
      cases h
  | some old =>
      by_cases hold : old = some (widen old x.2)
      · refine Or.inl ⟨fun h => ?_, if_pos hold⟩
        exact Option.some.inj h ▸ hold
      · exact Or.inr ⟨old, rfl, hold, if_neg hold⟩

theorem spread_cons (f : CodeFlow) (x : Nat × CodeSet) (work : List (Nat × CodeSet)) :
    spread p blocks f (x :: work) =
      spread p blocks (spreadItem p blocks f x).1 ((spreadItem p blocks f x).2 ++ work) := by
  rcases spreadItem_cases p blocks f x with ⟨hold, heq⟩ | ⟨old, hx, hnew, heq⟩
  · rw [heq]
    exact spread_skip hold
  · rw [heq]
    exact spread_grow hx hnew

/-- Nothing empty is passed on. -/
theorem nonempty_of_mem_spreadItem {y : Nat × CodeSet} (h : y ∈ (spreadItem p blocks f x).2) :
    ∃ c, c ∈ y.2 := by
  rcases spreadItem_cases p blocks f x with ⟨-, heq⟩ | ⟨old, -, -, heq⟩ <;> rw [heq] at h
  · exact absurd h List.not_mem_nil
  · dsimp only at h
    cases hblock : blocks[x.1]? with
    | none =>
        rw [hblock] at h
        exact absurd h List.not_mem_nil
    | some block =>
        rw [hblock] at h
        exact (Block.mem_passes.mp h).2

/-! ## Room in the entries -/

/-- An entry is made with some code, so that three codes are missing from one that has not been
    made. -/
theorem room_unmade_lt {codes : CodeSet} (h : ∃ c, c ∈ codes) : 3 - (widen none codes).size < 3 := by
  obtain ⟨c, hc⟩ := h
  have hmem : c ∈ ∅ ∪ codes := EnumSet.mem_union.mpr (Or.inr hc)
  have hne : ∅ ≠ ∅ ∪ codes := by
    intro heq
    rw [← heq] at hmem
    exact EnumSet.not_mem_empty c hmem
  have hpos : (∅ : CodeSet).size < (∅ ∪ codes).size := EnumSet.size_lt_size_union hne
  show 3 - (∅ ∪ codes).size < 3
  omega

theorem totalRoom_unentered (n : Nat) : (unentered n).totalRoom 3 = 3 * n := by
  rw [totalRoom, unentered, Array.toList_replicate]
  induction n with
  | zero => rfl
  | succ n ih =>
      rw [List.replicate_succ, List.foldr_cons, ih]
      show 3 + 3 * n = _
      omega

/-- What is missing pays for the items that come up. -/
theorem length_spreadItem_le (hcodes : ∃ c, c ∈ x.2) :
    2 * (spreadItem p blocks f x).1.totalRoom 3 + (spreadItem p blocks f x).2.length ≤
      2 * f.totalRoom 3 := by
  rcases spreadItem_cases p blocks f x with ⟨-, heq⟩ | ⟨old, hx, hnew, heq⟩ <;> rw [heq]
  · exact Nat.le_refl _
  · have hless := totalRoom_record_lt (room_unmade_lt hcodes) hx hnew
    have hways := length_passes_le p blocks x.1 (widen old x.2)
    dsimp only
    omega

/-- Every update is paid for with a code that was missing. -/
theorem updates_spreadItem_le (hcodes : ∃ c, c ∈ x.2) :
    (spreadItem p blocks f x).1.updates + (spreadItem p blocks f x).1.totalRoom 3 ≤
      f.updates + f.totalRoom 3 := by
  rcases spreadItem_cases p blocks f x with ⟨-, heq⟩ | ⟨old, hx, hnew, heq⟩
  · exact Nat.le_of_eq (by rw [heq])
  · have hless := totalRoom_record_lt (room_unmade_lt hcodes) hx hnew
    rw [heq]
    show f.updates + 1 + (f.record x.1 (widen old x.2)).totalRoom 3 ≤ _
    omega

/-! ## All items -/

/-- A moment of spreading codes. -/
abbrev Moment := Worklist CodeFlow (Nat × CodeSet)

/-- No item is empty, and every update so far has been paid for out of the budget. -/
structure Affordable (budget : Nat) (m : Moment) : Prop where
  items : ∀ x ∈ m.items, ∃ c, c ∈ x.2
  roots : ∀ x ∈ m.roots, ∃ c, c ∈ x.2
  updates : m.known.updates + m.known.totalRoom 3 ≤ budget

theorem Affordable.invariant (p : Program) (blocks : Array Block) (budget : Nat) :
    Worklist.Invariant (spreadItem p blocks) (Affordable budget) := by
  refine ⟨?_, ?_⟩
  · intro f x roots h
    obtain ⟨hx, hroots⟩ := List.forall_mem_cons.mp h.roots
    exact ⟨List.forall_mem_singleton.mpr hx, hroots, h.updates⟩
  · intro f x items roots h
    obtain ⟨hx, hitems⟩ := List.forall_mem_cons.mp h.items
    refine ⟨?_, h.roots, Nat.le_trans (updates_spreadItem_le hx) h.updates⟩
    intro y hy
    rcases List.mem_append.mp hy with hy | hy
    · exact nonempty_of_mem_spreadItem hy
    · exact hitems y hy

/-- Whether an entry is changed at a moment. -/
def changesEntry (p : Program) (blocks : Array Block) (m : Moment) : Bool :=
  m.items.head?.any fun x => (spreadItem p blocks m.known x).1.entries != m.known.entries

/-- An item that widens an entry changes it. -/
theorem updates_spreadItem (f : CodeFlow) (x : Nat × CodeSet) :
    (spreadItem p blocks f x).1.updates =
      f.updates + if (spreadItem p blocks f x).1.entries != f.entries then 1 else 0 := by
  rcases spreadItem_cases p blocks f x with ⟨-, heq⟩ | ⟨old, hx, hnew, heq⟩ <;> rw [heq]
  · rw [bne_self_eq_false, if_neg Bool.false_ne_true]
    rfl
  · have hchanged : (f.record x.1 (widen old x.2)).entries ≠ f.entries := by
      intro hsame
      have hget : (f.record x.1 (widen old x.2)).entries[x.1]? = some (some (widen old x.2)) := by
        rw [record, Array.getElem?_setIfInBounds, if_pos rfl,
          if_pos (Array.getElem?_eq_some_iff.mp hx).1]
      rw [hsame, hx] at hget
      exact hnew (Option.some.inj hget)
    rw [if_pos (bne_iff_ne.mpr hchanged)]
    rfl

/-- The updates are the changes of entries. -/
theorem updates_of_run {m : Moment} {moments : List Moment} {g : CodeFlow}
    (h : Worklist.Run (spreadItem p blocks) m moments g) :
    g.updates = m.known.updates + moments.countP (changesEntry p blocks) := by
  induction h with
  | stop f => rfl
  | root _ ih => exact ih
  | @item f g x items roots moments _ ih =>
      have hhead : changesEntry p blocks ⟨f, x :: items, roots⟩ =
          ((spreadItem p blocks f x).1.entries != f.entries) := rfl
      rw [ih, List.countP_cons, hhead, updates_spreadItem]
      dsimp only
      omega

/-- Spreading codes ends within a budget.  For all blocks, whatever they lead to, and every list of
    roots, if no block has been entered yet: the pass over the roots comes to an end, after two steps
    for each root and six for each block at most.  It counts as updates the moments at which the
    entry of a block changes, and there are at most three of them for each block. -/
theorem updates_within_budget (p : Program) (blocks : Array Block) (roots : List Nat) :
    ∃ moments,
      Worklist.Run (spreadItem p blocks)
          ⟨unentered blocks.size, [], roots.map fun k => (k, EnumSet.full)⟩ moments
          (ofRoots p blocks roots) ∧
        moments.length ≤ 2 * roots.length + 6 * blocks.size ∧
        (ofRoots p blocks roots).updates = moments.countP (changesEntry p blocks) ∧
        (ofRoots p blocks roots).updates ≤ 3 * blocks.size := by
  have hstart : Affordable (3 * blocks.size)
      ⟨unentered blocks.size, [], roots.map fun k => (k, EnumSet.full)⟩ := by
    refine ⟨fun x hx => absurd hx List.not_mem_nil, ?_, ?_⟩
    · intro x hx
      obtain ⟨k, -, rfl⟩ := List.mem_map.mp hx
      exact ⟨.zero, EnumSet.mem_full _⟩
    · rw [totalRoom_unentered]
      exact Nat.le_of_eq (Nat.zero_add _)
  have hInv := Affordable.invariant p blocks (3 * blocks.size)
  obtain ⟨moments, g, hrun, hlength⟩ := Worklist.exists_run hInv (fun f => 2 * f.totalRoom 3)
    (fun h => length_spreadItem_le (h.items _ (List.mem_cons_self ..))) hstart
  obtain rfl : g = ofRoots p blocks roots := by
    refine (hrun.eq_foldl (fun f => by rw [spread]) spread_cons).trans ?_
    rw [List.foldl_map, spread]
    rfl
  refine ⟨moments, hrun, ?_, ?_, ?_⟩
  · rw [totalRoom_unentered, List.length_map, List.length_nil] at hlength
    omega
  · exact (updates_of_run hrun).trans (Nat.zero_add _)
  · exact Nat.le_trans (Nat.le_add_right ..) (hrun.invariant hInv hstart).2.updates

end CodeFlow

end AsmCheck
