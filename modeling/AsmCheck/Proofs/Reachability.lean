import AsmCheck.Flow.Ownership
import AsmCheck.Proofs.Assembly
import AsmCheck.Proofs.Search

/-! # Which statements routines reach

    `Link` is the graph that a round works on: control goes on to an executable
    statement, or jumps to one, and a call of a marked subroutine does not
    count.  Routines are traced one after the other, each around what the ones
    before it have claimed and around the entries of the others; still the
    statements that have an owner in the end are exactly those that can be
    reached along links from the entry of some routine (`isFound_iff`).  The
    reason is that what has been claimed at any time is closed under links into
    unmarked statements, and every marked statement is an entry. -/

namespace AsmCheck

open Relation

namespace Program

variable {p : Program} {f : Flow} {o : Ownership}

/-! ## Tables -/

@[simp] theorem size_setAll {α : Type} (places : List Nat) (a : α) (table : Array α) :
    (setAll table places a).size = table.size := by
  induction places generalizing table with
  | nil => rfl
  | cons i places ih =>
      rw [show setAll table (i :: places) a = setAll (table.setIfInBounds i a) places a from rfl,
        ih, Array.size_setIfInBounds]

/-- Setting entries changes these entries and no others. -/
theorem getElem?_setAll {α : Type} (places : List Nat) (a : α) (table : Array α) (i : Nat) :
    (setAll table places a)[i]? =
      if i ∈ places ∧ i < table.size then some a else table[i]? := by
  induction places generalizing table with
  | nil => exact (if_neg fun h => List.not_mem_nil h.1).symm
  | cons j places ih =>
      rw [show setAll table (j :: places) a = setAll (table.setIfInBounds j a) places a from rfl,
        ih, Array.size_setIfInBounds, Array.getElem?_setIfInBounds]
      by_cases hlt : i < table.size
      · by_cases hmem : i ∈ places
        · rw [if_pos ⟨hmem, hlt⟩, if_pos ⟨List.mem_cons_of_mem j hmem, hlt⟩]
        · rw [if_neg fun h => hmem h.1]
          by_cases hji : j = i
          · subst hji
            rw [if_pos rfl, if_pos hlt, if_pos ⟨List.mem_cons_self .., hlt⟩]
          · rw [if_neg hji, if_neg]
            rintro ⟨h, -⟩
            rcases List.mem_cons.mp h with rfl | h'
            · exact hji rfl
            · exact hmem h'
      · have hnone : table[i]? = none := Array.getElem?_eq_none (Nat.le_of_not_lt hlt)
        rw [if_neg fun h => hlt h.2, if_neg (c := i ∈ j :: places ∧ _) fun h => hlt h.2, hnone]
        split
        · next hji => rw [if_neg (hji ▸ hlt)]
        · rfl

section Filling

variable {ι α : Type} {places : ι → List Nat} {value : ι → α} {i : Nat}

/-- Filling in a table keeps its size. -/
theorem size_foldl_setAll (items : List ι) (table : Array α) :
    (items.foldl (fun t x => setAll t (places x) (value x)) table).size = table.size := by
  induction items generalizing table with
  | nil => rfl
  | cons x items ih => rw [List.foldl_cons, ih, size_setAll]

/-- Filling a table item by item leaves alone what no item fills. -/
theorem getElem?_foldl_setAll_of_not_mem : ∀ {items : List ι} {table : Array α},
    (∀ x ∈ items, ¬ i ∈ places x) →
      (items.foldl (fun t x => setAll t (places x) (value x)) table)[i]? = table[i]? := by
  intro items
  induction items with
  | nil => intro table _; rfl
  | cons x items ih =>
      intro table h
      rw [List.foldl_cons, ih fun y hy => h y (List.mem_cons_of_mem x hy), getElem?_setAll,
        if_neg fun hmem => h x (List.mem_cons_self ..) hmem.1]

/-- Filling a table item by item leaves the value that all items for a place agree on. -/
theorem getElem?_foldl_setAll_of_mem {a : α} : ∀ {items : List ι} {table : Array α},
    i < table.size → (∃ x ∈ items, i ∈ places x) → (∀ x ∈ items, i ∈ places x → value x = a) →
      (items.foldl (fun t x => setAll t (places x) (value x)) table)[i]? = some a := by
  intro items
  induction items with
  | nil =>
      rintro table - ⟨x, hx, -⟩ -
      exact nomatch hx
  | cons x items ih =>
      intro table hlt hex hall
      rw [List.foldl_cons]
      have hall' : ∀ y ∈ items, i ∈ places y → value y = a :=
        fun y hy => hall y (List.mem_cons_of_mem x hy)
      by_cases hlater : ∃ y ∈ items, i ∈ places y
      · exact ih (by rw [size_setAll]; exact hlt) hlater hall'
      · -- the first item is the last one to fill the place
        have hx : i ∈ places x := by
          obtain ⟨y, hy, hiy⟩ := hex
          rcases List.mem_cons.mp hy with rfl | hy'
          · exact hiy
          · exact absurd ⟨y, hy', hiy⟩ hlater
        rw [getElem?_foldl_setAll_of_not_mem fun y hy hiy => hlater ⟨y, hy, hiy⟩,
          getElem?_setAll, if_pos ⟨hx, hlt⟩, hall x (List.mem_cons_self ..) hx]

end Filling

/-! ## Links -/

/-- The statements that control can go to next, as far as they are executable; a call of a marked
    subroutine is passed over. -/
inductive Link (p : Program) (f : Flow) (i j : Nat) : Prop where
  | next (h : f.nextOf i = some j) (code : p.isCode j = true)
  | jump (h : f.jumpOf i = some j) (code : p.isCode j = true)
      (own : ¬ (p.isCall i = true ∧ p.isStart j = true))

/-- Links lead to executable statements. -/
theorem Link.isCode {i j : Nat} (h : p.Link f i j) : p.isCode j = true := by
  cases h with
  | next _ code => exact code
  | jump _ code _ => exact code

theorem Link.mem_succs {i j : Nat} (h : p.Link f i j) : j ∈ f.succs i := by
  rw [Flow.succs, List.mem_append, Option.mem_toList, Option.mem_toList]
  cases h with
  | next h _ => exact Or.inl h
  | jump h _ _ => exact Or.inr h

/-- What control goes on to is linked, unless a marked routine starts there. -/
theorem link_of_mem_succs {i j : Nat} (h : j ∈ f.succs i) (code : p.isCode j = true)
    (hstart : p.isStart j = false) : p.Link f i j := by
  rw [Flow.succs, List.mem_append, Option.mem_toList, Option.mem_toList] at h
  rcases h with h | h
  · exact .next h code
  · refine .jump h code ?_
    rintro ⟨-, hs⟩
    rw [hstart] at hs
    exact nomatch hs

/-- Where a round goes on to from a statement, -/
theorem nextOf_flow (p : Program) (arrivals : Arrivals) (i : Nat) :
    (p.flow arrivals).nextOf i = p.nextIn arrivals i := by
  rw [Flow.nextOf, flow, Array.getElem?_map, Array.getElem?_range]
  by_cases hi : i < p.statements.size
  · rw [if_pos hi]
    rfl
  · rw [if_neg hi, nextIn, if_neg]
    · rfl
    · rw [test, Array.getElem?_eq_none (Nat.le_of_not_lt hi)]
      intro h
      cases h

/-- and where it jumps to. -/
theorem WellFormed.jumpOf_flow (h : p.WellFormed) (arrivals : Arrivals) (i : Nat) :
    (p.flow arrivals).jumpOf i = p.jumpIn arrivals i := by
  rw [Flow.jumpOf, flow, Array.getElem?_map, Array.getElem?_range]
  by_cases hi : i < p.statements.size
  · rw [if_pos hi]
    rfl
  · rw [if_neg hi, jumpIn]
    cases ht : p.targetOf i with
    | none =>
        rw [show p.target[i]?.join = none from ht, ite_self]
        rfl
    | some t =>
        obtain ⟨s, hs, -⟩ := test_eq_true.mp (h.target_control ht)
        exact absurd (Array.getElem?_eq_some_iff.mp hs).1 hi

/-- A flow of control that the text of a program allows. -/
structure Allows (p : Program) (f : Flow) : Prop where
  next : ∀ {i n}, f.nextOf i = some n → p.isCode i = true ∧ p.follower i = some n
  jump : ∀ {i t}, f.jumpOf i = some t → p.targetOf i = some t

/-- What a round works on is allowed by the text, whatever is known about the jumps. -/
theorem WellFormed.allows_flow (h : p.WellFormed) (arrivals : Arrivals) :
    p.Allows (p.flow arrivals) where
  next := by
    intro i n hn
    rw [nextOf_flow, nextIn] at hn
    split at hn
    · next hcond =>
      rw [Bool.and_eq_true] at hcond
      obtain ⟨s, hs, hcode⟩ := test_eq_true.mp hcond.1
      rw [Bool.and_eq_true] at hcode
      exact ⟨test_eq_true.mpr ⟨s, hs, hcode.1⟩, hn⟩
    · exact nomatch hn
  jump := by
    intro i t ht
    rw [h.jumpOf_flow, jumpIn] at ht
    split at ht
    · exact nomatch ht
    · exact ht

theorem Link.source_lt (hp : p.WellFormed) (hf : p.Allows f) {i j : Nat} (h : p.Link f i j) :
    i < p.statements.size := by
  cases h with
  | next h _ => exact lt_of_isCode (hf.next h).1
  | jump h _ _ =>
      obtain ⟨s, hs, -⟩ := test_eq_true.mp (hp.target_control (hf.jump h))
      exact (Array.getElem?_eq_some_iff.mp hs).1

/-- No two statements go on to the same one. -/
theorem Allows.nextOf_inj (hp : p.WellFormed) (hf : p.Allows f) {i j n : Nat}
    (hi : f.nextOf i = some n) (hj : f.nextOf j = some n) : i = j :=
  hp.follower_inj (hf.next hi).1 (hf.next hj).1 (hf.next hi).2 (hf.next hj).2

/-! ## Routines -/

/-- The statements that routines are traced from. -/
def IsRoot (p : Program) (i : Nat) : Prop :=
  ∃ r ∈ p.roots, r.entry = i

/-- Routines start at the program's entry and at the marked statements. -/
theorem WellFormed.isRoot_iff (h : p.WellFormed) {i : Nat} :
    p.IsRoot i ↔ p.entry = some i ∨ p.isStart i = true := by
  constructor
  · rintro ⟨r, hr, rfl⟩
    rcases List.mem_append.mp hr with hmain | hmarked
    · obtain ⟨e, he, rfl⟩ := Option.map_eq_some_iff.mp (Option.mem_toList.mp hmain)
      exact Or.inl he
    · obtain ⟨e, he, rfl⟩ := List.mem_map.mp hmarked
      have hcond := (List.mem_filter.mp he).2
      rw [Bool.and_eq_true] at hcond
      exact Or.inr hcond.1
  · intro hi
    by_cases he : p.entry = some i
    · refine ⟨p.rootAt i true, List.mem_append.mpr (Or.inl ?_), rfl⟩
      rw [he]
      exact List.mem_singleton.mpr rfl
    · have hstart := hi.resolve_left he
      refine ⟨p.rootAt i false, List.mem_append.mpr (Or.inr ?_), rfl⟩
      refine List.mem_map.mpr ⟨i, List.mem_filter.mpr ⟨?_, ?_⟩, rfl⟩
      · exact List.mem_range.mpr (lt_of_isCode (h.start_code hstart))
      · rw [Bool.and_eq_true]
        exact ⟨hstart, bne_iff_ne.mpr he⟩

/-- Routines start with executable statements, -/
theorem WellFormed.isCode_of_isRoot (h : p.WellFormed) {i : Nat} (hi : p.IsRoot i) :
    p.isCode i = true := by
  rcases h.isRoot_iff.mp hi with he | hs
  · exact h.entry_code he
  · exact h.start_code hs

/-- The statements that can be reached along links from the entry of some routine. -/
def Reached (p : Program) (f : Flow) (i : Nat) : Prop :=
  ∃ r, p.IsRoot r ∧ ReflTransGen (p.Link f) r i

theorem Reached.step {i j : Nat} (h : p.Reached f i) (hij : p.Link f i j) : p.Reached f j := by
  obtain ⟨r, hr, hpath⟩ := h
  exact ⟨r, hr, hpath.tail hij⟩

theorem IsRoot.reached {i : Nat} (h : p.IsRoot i) : p.Reached f i :=
  ⟨i, h, .refl⟩

/-- and only such statements are reached. -/
theorem WellFormed.isCode_of_reached (h : p.WellFormed) {i : Nat} (hi : p.Reached f i) :
    p.isCode i = true := by
  obtain ⟨r, hr, hpath⟩ := hi
  cases hpath with
  | refl => exact h.isCode_of_isRoot hr
  | tail _ hstep => exact hstep.isCode

/-! ## Tracing -/

/-- The statements open to a trace: its entry, and every executable statement that is neither marked
    nor owned. -/
theorem open_barred {entry i : Nat} (hentry : entry < p.statements.size) :
    Graph.Open (p.barred o entry) i ↔
      i = entry ∨ (p.isCode i = true ∧ p.isStart i = false ∧ o.isFound i = false) := by
  rw [Graph.Open, barred, Array.getElem?_setIfInBounds, Array.size_map, Array.size_range]
  by_cases he : entry = i
  · subst he
    rw [if_pos rfl, if_pos hentry]
    exact ⟨fun _ => Or.inl rfl, fun _ => rfl⟩
  · rw [if_neg he, Array.getElem?_map, Array.getElem?_range]
    by_cases hi : i < p.statements.size
    · rw [if_pos hi]
      show some (!p.isCode i || p.isStart i || o.isFound i) = some false ↔ _
      rw [Option.some.injEq, Bool.or_eq_false_iff, Bool.or_eq_false_iff, Bool.not_eq_false',
        and_assoc]
      exact ⟨Or.inr, fun h => h.resolve_left (Ne.symm he)⟩
    · rw [if_neg hi]
      constructor
      · intro h
        cases h
      · rintro (h | ⟨hcode, -⟩)
        · exact absurd h.symm he
        · exact absurd (lt_of_isCode hcode) hi

/-- What a routine claims it reaches along links. -/
theorem path_of_mem_claimed {r : Root} {i : Nat} (hentry : r.entry < p.statements.size)
    (h : i ∈ p.claimed f o r) : ReflTransGen (p.Link f) r.entry i := by
  obtain ⟨s, hs, -, hpath⟩ := Graph.mem_visit_iff.mp h
  rw [List.mem_singleton.mp hs] at hpath
  clear h
  induction hpath with
  | refl => exact .refl
  | tail _ hstep ih =>
      obtain ⟨hsucc, hopen⟩ := hstep
      -- a trace that comes back to its entry has not left it
      rcases (open_barred hentry).mp hopen with rfl | ⟨hcode, hstart, -⟩
      · exact .refl
      · exact ih.tail (link_of_mem_succs hsucc hcode hstart)

/-- After a trace, what had an owner has one, and so has what the routine claimed. -/
theorem isFound_trace {r : Root} {i : Nat} (hsize : o.owner.size = p.statements.size) :
    (p.trace f o r).isFound i = true ↔ o.isFound i = true ∨ i ∈ p.claimed f o r := by
  rw [Ownership.isFound, Ownership.ownerOf, trace]
  dsimp only
  rw [getElem?_setAll]
  by_cases hmem : i ∈ p.claimed f o r
  · have hopen : i < (p.barred o r.entry).size :=
      (Array.getElem?_eq_some_iff.mp (Graph.open_of_mem_visit hmem)).1
    rw [barred, Array.size_setIfInBounds, Array.size_map, Array.size_range] at hopen
    rw [if_pos ⟨hmem, hsize ▸ hopen⟩]
    exact ⟨fun _ => Or.inr hmem, fun _ => rfl⟩
  · rw [if_neg fun h => hmem h.1]
    exact ⟨Or.inl, fun h => h.resolve_right hmem⟩

/-- What holds of the owners once the routines `done` have been traced. -/
structure Traced (p : Program) (f : Flow) (done : List Root) (o : Ownership) : Prop where
  size : o.owner.size = p.statements.size
  /-- The routines own their entries, or another one does. -/
  entries : ∀ r ∈ done, o.isFound r.entry = true
  /-- Owned statements are reached. -/
  reached : ∀ {i}, o.isFound i = true → ∃ r ∈ done, ReflTransGen (p.Link f) r.entry i
  /-- What is owned is closed under links into unmarked statements. -/
  closed : ∀ {i j}, o.isFound i = true → p.Link f i j → p.isStart j = false → o.isFound j = true

/-- Nobody owns anything at first. -/
theorem traced_unowned : p.Traced f [] p.unowned := by
  have hnone : ∀ i, p.unowned.isFound i = false := by
    intro i
    rw [Ownership.isFound, Ownership.ownerOf, unowned, Array.getElem?_replicate]
    by_cases hi : i < p.statements.size
    · rw [if_pos hi]
      rfl
    · rw [if_neg hi]
      rfl
  refine ⟨Array.size_replicate, fun r hr => (nomatch hr), ?_, ?_⟩
  · intro i h
    rw [hnone i] at h
    exact nomatch h
  · intro i j h
    rw [hnone i] at h
    exact nomatch h

/-- One more routine is traced: it finds what it reaches past the routines before it. -/
theorem Traced.trace {done : List Root} {r : Root} (h : p.Traced f done o)
    (hentry : r.entry < p.statements.size) : p.Traced f (done ++ [r]) (p.trace f o r) := by
  have hvisit := Graph.visit_closed f.succs (p.barred o r.entry) [r.entry]
  have hmine : r.entry ∈ p.claimed f o r :=
    hvisit.1 r.entry (List.mem_singleton.mpr rfl) ((open_barred hentry).mpr (Or.inl rfl))
  refine ⟨?_, ?_, ?_, ?_⟩
  · rw [Program.trace, size_setAll]
    exact h.size
  · intro s hs
    rw [isFound_trace h.size]
    rcases List.mem_append.mp hs with hs' | hs'
    · exact Or.inl (h.entries s hs')
    · rw [List.mem_singleton.mp hs']
      exact Or.inr hmine
  · intro i hi
    rcases (isFound_trace h.size).mp hi with hold | hnew
    · obtain ⟨s, hs, hpath⟩ := h.reached hold
      exact ⟨s, List.mem_append.mpr (Or.inl hs), hpath⟩
    · exact ⟨r, List.mem_append.mpr (Or.inr (List.mem_singleton.mpr rfl)),
        path_of_mem_claimed hentry hnew⟩
  · intro i j hi hij hstart
    rw [isFound_trace h.size]
    rcases (isFound_trace h.size).mp hi with hold | hnew
    · exact Or.inl (h.closed hold hij hstart)
    · -- either `j` had an owner before, or the trace was free to go there
      cases hj : o.isFound j with
      | true => exact Or.inl rfl
      | false =>
          exact Or.inr (hvisit.2 i hnew j
            ⟨hij.mem_succs, (open_barred hentry).mpr (Or.inr ⟨hij.isCode, hstart, hj⟩)⟩)

/-- Hence all routines can be traced one after the other. -/
theorem Traced.foldl : ∀ {rs done : List Root} {o : Ownership}, p.Traced f done o →
    (∀ r ∈ rs, r.entry < p.statements.size) →
      p.Traced f (done ++ rs) (rs.foldl (p.trace f) o) := by
  intro rs
  induction rs with
  | nil =>
      intro done o h _
      rw [List.append_nil]
      exact h
  | cons r rs ih =>
      intro done o h hlt
      have hstep := ih (h.trace (hlt r (List.mem_cons_self ..)))
        fun s hs => hlt s (List.mem_cons_of_mem r hs)
      rw [List.append_assoc] at hstep
      exact hstep

/-- The statements that some routine owns are exactly those that can be reached. -/
theorem WellFormed.isFound_iff (h : p.WellFormed) {i : Nat} :
    (p.ownership f).isFound i = true ↔ p.Reached f i := by
  have htraced : p.Traced f ([] ++ p.roots) (p.ownership f) :=
    traced_unowned.foldl fun r hr => lt_of_isCode (h.isCode_of_isRoot ⟨r, hr, rfl⟩)
  constructor
  · intro hi
    obtain ⟨r, hr, hpath⟩ := htraced.reached hi
    exact ⟨r.entry, ⟨r, hr, rfl⟩, hpath⟩
  · rintro ⟨r, ⟨root, hroot, rfl⟩, hpath⟩
    induction hpath with
    | refl => exact htraced.entries root hroot
    | @tail j k _ hjk ih =>
        -- a marked statement is an entry itself; any other belongs to what has been claimed
        cases hstart : p.isStart k with
        | true =>
            obtain ⟨root', hroot', rfl⟩ := h.isRoot_iff.mpr (Or.inr hstart)
            exact htraced.entries root' hroot'
        | false => exact htraced.closed ih hjk hstart

end Program

end AsmCheck
