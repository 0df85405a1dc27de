import AsmCheck.Flow.Block
import AsmCheck.Proofs.Reachability
import Mathlib.Data.List.Chain

/-! # The block graph

    The blocks of a round are the maximal straight runs of its links.  A run is
    determined by where it starts; a *head* is a start of a run that has been
    come upon from some routine.  The theory goes in four steps:

    * a run follows links, ends where nothing continues it, and from each of
      its statements on is the run of that statement;
    * every head has been explored by some routine, so the heads are closed
      under the ways out of their runs (`IsHead.of_link`);
    * the statements of heads' runs are exactly the reached ones, and each is
      in the run of one head only: where runs meet, the injectivity of
      fallthrough leads back to one head;
    * blocks carry numbers instead of heads, and the numbering is a bijection,
      so the ways out of a block are the ways out of its run. -/

namespace AsmCheck

open Relation

namespace Cutting

/-! ## Runs -/

section Runs

variable {c : Cutting}

/-- A run goes on from a statement that transfers no control to an executable one behind it that
    leads no other run. -/
theorem continuation_eq_some {i n : Nat} :
    c.continuation i = some n ↔
      c.program.test (·.isControl) i = false ∧ c.flow.nextOf i = some n ∧
        (i < n ∧ n < c.program.statements.size ∧ c.program.isCode n = true ∧
          c.isLeader n = false) := by
  rw [continuation]
  cases hctl : c.program.test (·.isControl) i with
  | true =>
      rw [if_pos rfl]
      constructor
      · intro h
        cases h
      · rintro ⟨h, -⟩
        cases h
  | false =>
      rw [if_neg Bool.false_ne_true, Option.filter_eq_some_iff]
      simp only [Bool.and_eq_true, decide_eq_true_eq, Bool.not_eq_true', true_and, and_assoc]

/-- A statement without continuation is a run of its own. -/
theorem run_last {i : Nat} (h : c.continuation i = none) : c.run i = [i] := by
  rw [run]
  split
  · rfl
  · next n hn =>
    rw [h] at hn
    cases hn

/-- A run goes on with the run of the continuation. -/
theorem run_more {i n : Nat} (h : c.continuation i = some n) : c.run i = i :: c.run n := by
  rw [run]
  split
  · next hn =>
    rw [h] at hn
    cases hn
  · next m hm =>
    rw [h] at hm
    rw [Option.some.inj hm]

/-- Runs are finite: what holds of ends of runs and is passed back along continuations holds
    everywhere. -/
@[elab_as_elim] theorem run_induction {motive : Nat → Prop}
    (last : ∀ i, c.continuation i = none → motive i)
    (more : ∀ i n, c.continuation i = some n → motive n → motive i) (i : Nat) : motive i := by
  induction i using run.induct c with
  | case1 i ih =>
      cases h : c.continuation i with
      | none => exact last i h
      | some n => exact more i n h (ih n h)

theorem self_mem_run (i : Nat) : i ∈ c.run i := by
  rw [run]
  exact List.mem_cons_self ..

/-- No run is empty. -/
theorem run_ne_nil (i : Nat) : c.run i ≠ [] := by
  rw [run]
  exact List.cons_ne_nil _ _

@[simp] theorem head?_run (i : Nat) : (c.run i).head? = some i := by
  rw [run]
  rfl

/-- All of a run but its end, step by step. -/
theorem dropLast_run_more {i n : Nat} (h : c.continuation i = some n) :
    (c.run i).dropLast = i :: (c.run n).dropLast := by
  rw [run_more h, List.dropLast_cons_of_ne_nil (run_ne_nil n)]

theorem runEnd_last {i : Nat} (h : c.continuation i = none) : c.runEnd i = i := by
  rw [runEnd, run_last h]
  rfl

theorem runEnd_more {i n : Nat} (h : c.continuation i = some n) : c.runEnd i = c.runEnd n := by
  rw [runEnd, runEnd, run_more h, List.getLast?_cons]
  cases hl : (c.run n).getLast? with
  | none => exact absurd (List.getLast?_eq_none_iff.mp hl) (run_ne_nil n)
  | some j => rfl

/-- The end of a run is its last statement. -/
theorem getLast?_run (i : Nat) : (c.run i).getLast? = some (c.runEnd i) := by
  rw [runEnd]
  cases hl : (c.run i).getLast? with
  | none => exact absurd (List.getLast?_eq_none_iff.mp hl) (run_ne_nil i)
  | some j => rfl

/-- A run goes on as long as it can. -/
theorem continuation_runEnd (i : Nat) : c.continuation (c.runEnd i) = none := by
  induction i using run_induction (c := c) with
  | last i h => rw [runEnd_last h]; exact h
  | more i n h ih => rw [runEnd_more h]; exact ih

/-- Each statement of a run is continued by the next. -/
theorem isChain_run (i : Nat) : (c.run i).IsChain fun a b => c.continuation a = some b := by
  induction i using run_induction (c := c) with
  | last i h => rw [run_last h]; exact .singleton i
  | more i n h ih =>
      rw [run_more h]
      refine List.isChain_cons.mpr ⟨?_, ih⟩
      intro b hb
      rw [head?_run] at hb
      rw [h]
      exact hb

/-- A run goes forward in the text, so no statement is in it twice. -/
theorem nodup_run (i : Nat) : (c.run i).Nodup := by
  have hchain : (c.run i).IsChain (· < ·) :=
    (isChain_run i).imp fun _ _ h => (continuation_eq_some.mp h).2.2.1
  exact (List.isChain_iff_pairwise.mp hchain).imp Nat.ne_of_lt

/-- From each of its statements on, a run is the run of that statement. -/
theorem exists_append_of_mem_run {i j : Nat} (h : j ∈ c.run i) :
    ∃ front, c.run i = front ++ c.run j := by
  induction i using run_induction (c := c) with
  | last i hi =>
      rw [run_last hi] at h
      rw [List.mem_singleton.mp h]
      exact ⟨[], rfl⟩
  | more i n hi ih =>
      rw [run_more hi] at h
      rcases List.mem_cons.mp h with rfl | hmem
      · exact ⟨[], rfl⟩
      · obtain ⟨front, hfront⟩ := ih hmem
        exact ⟨i :: front, by rw [run_more hi, hfront]; rfl⟩

/-- A run holds the continuation of each of its statements. -/
theorem mem_run_of_continuation {i j n : Nat} (h : j ∈ c.run i)
    (hn : c.continuation j = some n) : n ∈ c.run i := by
  obtain ⟨front, hfront⟩ := exists_append_of_mem_run h
  rw [hfront, run_more hn, run]
  exact List.mem_append.mpr (Or.inr (List.mem_cons_of_mem _ (List.mem_cons_self ..)))

/-- A statement of a run is its start or continues another. -/
theorem eq_or_exists_continuation {i j : Nat} (h : j ∈ c.run i) :
    j = i ∨ ∃ m ∈ c.run i, c.continuation m = some j := by
  induction i using run_induction (c := c) with
  | last i hi =>
      rw [run_last hi] at h
      exact Or.inl (List.mem_singleton.mp h)
  | more i n hi ih =>
      rw [run_more hi] at h ⊢
      rcases List.mem_cons.mp h with rfl | hmem
      · exact Or.inl rfl
      · rcases ih hmem with rfl | ⟨m, hm, hj⟩
        · exact Or.inr ⟨i, List.mem_cons_self .., hi⟩
        · exact Or.inr ⟨m, List.mem_cons_of_mem _ hm, hj⟩

/-- Only the end of a run has no continuation. -/
theorem eq_runEnd_of_mem_run {i j : Nat} (h : j ∈ c.run i) (hj : c.continuation j = none) :
    j = c.runEnd i := by
  obtain ⟨front, hfront⟩ := exists_append_of_mem_run h
  have hlast := getLast?_run (c := c) i
  rw [hfront, run_last hj, List.getLast?_append] at hlast
  exact Option.some.inj hlast

/-- Every statement before the end goes on to another one, -/
theorem exists_continuation_of_mem_dropLast {i j : Nat} (h : j ∈ (c.run i).dropLast) :
    ∃ n, c.continuation j = some n := by
  induction i using run_induction (c := c) with
  | last i hi =>
      rw [run_last hi] at h
      exact nomatch h
  | more i n hi ih =>
      rw [dropLast_run_more hi] at h
      rcases List.mem_cons.mp h with rfl | hmem
      · exact ⟨n, hi⟩
      · exact ih hmem

/-- and every statement behind the first has been gone on to. -/
theorem exists_continuation_of_mem_tail {i j : Nat} (h : j ∈ (c.run i).tail) :
    ∃ m, c.continuation m = some j := by
  cases hi : c.continuation i with
  | none =>
      rw [run_last hi] at h
      exact nomatch h
  | some n =>
      rw [run_more hi, List.tail_cons] at h
      rcases eq_or_exists_continuation h with rfl | ⟨m, -, hm⟩
      · exact ⟨i, hi⟩
      · exact ⟨m, hm⟩

theorem runEnd_mem_run (i : Nat) : c.runEnd i ∈ c.run i :=
  List.mem_of_getLast? (getLast?_run i)

end Runs

end Cutting

/-- The cutting of a flow of control, once the routines have been traced along it. -/
def Program.cut (p : Program) (f : Flow) : Cutting :=
  Cutting.ofFlow p f (p.ownership f)

/-- The blocks that routines start with. -/
def Program.rootBlocks (p : Program) (f : Flow) : List Nat :=
  p.roots.filterMap fun r => (Block.places (p.cut f).blocks p.statements.size)[r.entry]?.join

namespace Cutting

variable {p : Program} {f : Flow}

/-! ## Leaders and ways out -/

/-- Blocks have to start at entries of routines and where reached statements jump to. -/
theorem isLeader_cut (hp : p.WellFormed) (hf : p.Allows f) {i : Nat} :
    (p.cut f).isLeader i = true ↔ p.IsRoot i ∨ ∃ j, p.Reached f j ∧ f.jumpOf j = some i := by
  have hplaces : (p.cut f).isLeader i = true ↔
      (i ∈ p.roots.map Program.Root.entry ++
        ((List.range p.statements.size).filter (p.ownership f).isFound).filterMap f.jumpOf) ∧
      i < p.statements.size := by
    rw [isLeader, Program.cut, ofFlow]
    dsimp only
    rw [Program.getElem?_setAll, Array.size_replicate]
    split
    · next h => exact ⟨fun _ => h, fun _ => rfl⟩
    · next h =>
      refine ⟨fun hget => ?_, fun h' => absurd h' h⟩
      rw [Array.getElem?_replicate] at hget
      split at hget
      · exact nomatch hget
      · exact nomatch hget
  rw [hplaces, List.mem_append, List.mem_map, List.mem_filterMap]
  constructor
  · rintro ⟨⟨r, hr, rfl⟩ | ⟨j, hj, hji⟩, -⟩
    · exact Or.inl ⟨r, hr, rfl⟩
    · exact Or.inr ⟨j, hp.isFound_iff.mp (List.mem_filter.mp hj).2, hji⟩
  · rintro (⟨r, hr, rfl⟩ | ⟨j, hj, hji⟩)
    · exact ⟨Or.inl ⟨r, hr, rfl⟩, Program.lt_of_isCode (hp.isCode_of_isRoot ⟨r, hr, rfl⟩)⟩
    · refine ⟨Or.inr ⟨j, List.mem_filter.mpr ⟨?_, hp.isFound_iff.mpr hj⟩, hji⟩,
        hp.target_lt (hf.jump hji)⟩
      exact List.mem_range.mpr (Program.lt_of_isCode (hp.isCode_of_reached hj))

/-- A continuation is one of the links. -/
theorem link_of_continuation {i n : Nat} (h : (p.cut f).continuation i = some n) :
    p.Link f i n := by
  obtain ⟨-, hnext, -, -, hcode, -⟩ := continuation_eq_some.mp h
  exact .next hnext hcode

/-- A block is followed by what its last statement goes on to. -/
theorem fallTo_cut {i n : Nat} :
    (p.cut f).fallTo i = some n ↔
      f.nextOf ((p.cut f).runEnd i) = some n ∧ p.isCode n = true := by
  rw [fallTo, Option.filter_eq_some_iff]
  exact Iff.rfl

/-- A block branches to where its last statement jumps, unless that calls a marked routine. -/
theorem branchTo_cut {i t : Nat} :
    (p.cut f).branchTo i = some t ↔
      f.jumpOf ((p.cut f).runEnd i) = some t ∧ p.isCode t = true ∧
        ¬ (p.isCall ((p.cut f).runEnd i) = true ∧ p.isStart t = true) := by
  rw [branchTo, Option.filter_eq_some_iff, Bool.and_eq_true, Bool.not_eq_true',
    Bool.and_eq_false_iff]
  show _ ∧ _ ∧ (p.isCall _ = false ∨ p.isStart t = false) ↔ _
  rw [← Bool.not_eq_true, ← Bool.not_eq_true, ← not_and_or]
  exact Iff.rfl

/-- The ways out of a run are the links of its end. -/
theorem mem_leadsTo_cut {i j : Nat} :
    j ∈ (p.cut f).leadsTo i ↔ p.Link f ((p.cut f).runEnd i) j := by
  rw [leadsTo, List.mem_append, Option.mem_toList, Option.mem_toList, fallTo_cut, branchTo_cut]
  constructor
  · rintro (⟨h, hcode⟩ | ⟨h, hcode, hown⟩)
    · exact .next h hcode
    · exact .jump h hcode hown
  · intro h
    cases h with
    | next h hcode => exact Or.inl ⟨h, hcode⟩
    | jump h hcode hown => exact Or.inr ⟨h, hcode, hown⟩

/-- Whatever a run leads to that routine `id` does not explore is marked. -/
theorem mem_explores_or_isStart (id : Nat) {i j : Nat} (h : j ∈ (p.cut f).leadsTo i) :
    j ∈ (p.cut f).explores id i ∨ p.isStart j = true := by
  rw [explores, List.mem_filter]
  cases hforeign : (p.cut f).isForeignEntry id j with
  | true =>
      rw [isForeignEntry, Bool.and_eq_true] at hforeign
      exact Or.inr hforeign.1
  | false =>
      rw [leadsTo, List.mem_append] at h
      exact Or.inl ⟨List.mem_append.mpr h.symm, rfl⟩

/-- Exploration follows the block graph. -/
theorem mem_leadsTo_of_mem_explores {id i j : Nat} (h : j ∈ (p.cut f).explores id i) :
    j ∈ (p.cut f).leadsTo i := by
  have h' := List.mem_append.mp (List.mem_filter.mp h).1
  exact List.mem_append.mpr h'.symm

/-- What is reached goes on to what is reached, all along a run, -/
theorem reached_of_mem_run {i j : Nat} (hi : p.Reached f i) (hj : j ∈ (p.cut f).run i) :
    p.Reached f j := by
  induction i using run_induction (c := p.cut f) with
  | last i h =>
      rw [run_last h] at hj
      rw [List.mem_singleton.mp hj]
      exact hi
  | more i n h ih =>
      rw [run_more h] at hj
      rcases List.mem_cons.mp hj with rfl | hmem
      · exact hi
      · exact ih (hi.step (link_of_continuation h)) hmem

/-- and so does the block graph. -/
theorem reached_of_mem_leadsTo {i j : Nat} (hi : p.Reached f i)
    (hj : j ∈ (p.cut f).leadsTo i) : p.Reached f j :=
  (reached_of_mem_run hi (runEnd_mem_run i)).step (mem_leadsTo_cut.mp hj)

/-! ## Exploration -/

namespace Walk

/-- The run that starts at the statement has been explored. -/
def Explored (w : Walk) (i : Nat) : Prop :=
  w.explored[i]? = some true

/-- The start of a run has been come upon. -/
def Mentions (w : Walk) (i : Nat) : Prop :=
  i ∈ w.mentions.map (·.1)

end Walk

/-- What holds of the exploration once the routines `done` have explored their runs. -/
structure Walked (p : Program) (f : Flow) (done : List Program.Root) (w : Walk) : Prop where
  size : w.explored.size = p.statements.size
  entries : ∀ r ∈ done, w.Explored r.entry
  /-- Only reached statements start runs. -/
  reached : ∀ {i}, w.Explored i → p.Reached f i
  /-- What has been explored has been come upon. -/
  mentioned : ∀ {i}, w.Explored i → w.Mentions i
  /-- So has whatever explored runs lead to, -/
  leads : ∀ {i j}, w.Explored i → j ∈ (p.cut f).leadsTo i → w.Mentions j
  /-- and that has been explored too, unless another routine starts there. -/
  closed : ∀ {i j}, w.Explored i → j ∈ (p.cut f).leadsTo i → w.Explored j ∨ p.isStart j = true
  /-- Nothing else has been come upon. -/
  origin : ∀ {i}, w.Mentions i →
    (∃ r ∈ done, r.entry = i) ∨ ∃ x, w.Explored x ∧ i ∈ (p.cut f).leadsTo x

/-- Nothing has been explored at first. -/
theorem walked_nil : Walked p f [] { explored := Graph.unmarked p.statements.size } := by
  have hnone : ∀ i, ¬ (Walk.Explored { explored := Graph.unmarked p.statements.size } i) := by
    intro i h
    exact absurd (Array.eq_of_mem_replicate (Array.mem_of_getElem? h)) Bool.false_ne_true.symm
  exact
    { size := Array.size_replicate
      entries := fun r hr => nomatch hr
      reached := fun h => absurd h (hnone _)
      mentioned := fun h => absurd h (hnone _)
      leads := fun h => absurd h (hnone _)
      closed := fun h => absurd h (hnone _)
      origin := fun h => nomatch h }

/-- The runs that a routine explores on top of those explored before. -/
def order (c : Cutting) (w : Walk) (r : Program.Root) : List Nat :=
  (Graph.visit (c.explores r.id) w.explored [r.entry]).1

/-- Exploring from a root adds the runs of its order to those explored. -/
theorem explored_explore {w : Walk} {r : Program.Root} {i : Nat} :
    ((p.cut f).explore w r).Explored i ↔ w.Explored i ∨ i ∈ (p.cut f).order w r := by
  show (Graph.visit ((p.cut f).explores r.id) w.explored [r.entry]).2[i]? = some true ↔ _
  rw [Graph.getElem?_visit_snd]
  show (if i ∈ (p.cut f).order w r then some true else w.explored[i]?) = some true ↔ _
  by_cases hmem : i ∈ (p.cut f).order w r
  · rw [if_pos hmem]
    exact ⟨fun _ => Or.inr hmem, fun _ => rfl⟩
  · rw [if_neg hmem]
    exact ⟨Or.inl, fun h => h.resolve_right hmem⟩

/-- Runs are mentioned as roots, or because an explored run leads to them. -/
theorem mentions_explore {w : Walk} {r : Program.Root} {i : Nat} :
    ((p.cut f).explore w r).Mentions i ↔
      w.Mentions i ∨ i = r.entry ∨ ∃ x ∈ (p.cut f).order w r, i ∈ (p.cut f).leadsTo x := by
  show i ∈ (w.mentions ++ (r.entry, r.id) ::
    (((p.cut f).order w r).flatMap (p.cut f).leadsTo).map (·, r.id)).map (·.1) ↔ _
  rw [List.map_append, List.map_cons, List.map_map, List.mem_append, List.mem_cons]
  have hid : ((·.1) ∘ (·, r.id) : Nat → Nat) = id := rfl
  rw [hid, List.map_id, List.mem_flatMap]
  exact Iff.rfl

/-- What a routine explores is its entry, or another explored run leads to it. -/
theorem eq_entry_or_led {w : Walk} {r : Program.Root} {i : Nat}
    (h : i ∈ (p.cut f).order w r) :
    i = r.entry ∨ ∃ x ∈ (p.cut f).order w r, i ∈ (p.cut f).leadsTo x := by
  obtain ⟨s, hs, hopen, hpath⟩ := Graph.mem_visit_iff.mp h
  rw [List.mem_singleton.mp hs] at hpath hopen
  cases hpath with
  | refl => exact Or.inl rfl
  | tail hfront hstep =>
      exact Or.inr ⟨_, Graph.mem_visit_iff.mpr ⟨r.entry, List.mem_singleton.mpr rfl, hopen, hfront⟩,
        mem_leadsTo_of_mem_explores hstep.1⟩

/-- Only what control reaches is explored. -/
theorem reached_of_mem_order {w : Walk} {r : Program.Root} {i : Nat} (hr : r ∈ p.roots)
    (h : i ∈ (p.cut f).order w r) : p.Reached f i := by
  obtain ⟨s, hs, -, hpath⟩ := Graph.mem_visit_iff.mp h
  rw [List.mem_singleton.mp hs] at hpath
  clear h
  induction hpath with
  | refl => exact Program.IsRoot.reached ⟨r, hr, rfl⟩
  | tail _ hstep ih => exact reached_of_mem_leadsTo ih (mem_leadsTo_of_mem_explores hstep.1)

/-- A node within the marks has been explored or is open to a search. -/
theorem Walked.explored_or_open {done : List Program.Root} {w : Walk} (h : Walked p f done w)
    {i : Nat} (hi : p.isCode i = true) : w.Explored i ∨ Graph.Open w.explored i := by
  have hlt : i < w.explored.size := by
    rw [h.size]
    exact Program.lt_of_isCode hi
  rw [Walk.Explored, Graph.Open, Array.getElem?_eq_getElem hlt]
  cases w.explored[i] with
  | true => exact Or.inl rfl
  | false => exact Or.inr rfl

/-- One more root is explored: whatever it leads to is explored and mentioned too. -/
theorem Walked.explore (hp : p.WellFormed) {done : List Program.Root} {w : Walk}
    {r : Program.Root} (h : Walked p f done w) (hr : r ∈ p.roots) :
    Walked p f (done ++ [r]) ((p.cut f).explore w r) := by
  obtain ⟨htodo, hclosed⟩ :=
    Graph.visit_closed ((p.cut f).explores r.id) w.explored [r.entry]
  refine ⟨?_, ?_, ?_, ?_, ?_, ?_, ?_⟩
  · rw [← h.size]
    exact Graph.size_visit_snd _
  · intro s hs
    rw [explored_explore]
    rcases List.mem_append.mp hs with hs' | hs'
    · exact Or.inl (h.entries s hs')
    · rw [List.mem_singleton.mp hs']
      rcases h.explored_or_open (hp.isCode_of_isRoot ⟨r, hr, rfl⟩) with hold | hopen
      · exact Or.inl hold
      · exact Or.inr (htodo r.entry (List.mem_singleton.mpr rfl) hopen)
  · intro i hi
    rcases explored_explore.mp hi with hold | hnew
    · exact h.reached hold
    · exact reached_of_mem_order hr hnew
  · intro i hi
    rw [mentions_explore]
    rcases explored_explore.mp hi with hold | hnew
    · exact Or.inl (h.mentioned hold)
    · exact Or.inr (eq_entry_or_led hnew)
  · intro i j hi hj
    rw [mentions_explore]
    rcases explored_explore.mp hi with hold | hnew
    · exact Or.inl (h.leads hold hj)
    · exact Or.inr (Or.inr ⟨i, hnew, hj⟩)
  · intro i j hi hj
    rw [explored_explore]
    rcases explored_explore.mp hi with hold | hnew
    · rcases h.closed hold hj with hj' | hj'
      · exact Or.inl (Or.inl hj')
      · exact Or.inr hj'
    · -- what the routine does not go on to is the start of another one
      rcases mem_explores_or_isStart r.id hj with hexp | hstart
      · rcases h.explored_or_open (mem_leadsTo_cut.mp hj).isCode with hold | hopen
        · exact Or.inl (Or.inl hold)
        · exact Or.inl (Or.inr (hclosed i hnew j ⟨hexp, hopen⟩))
      · exact Or.inr hstart
  · intro i hi
    rcases mentions_explore.mp hi with hold | rfl | ⟨x, hx, hxi⟩
    · rcases h.origin hold with ⟨s, hs, hsi⟩ | ⟨x, hx, hxi⟩
      · exact Or.inl ⟨s, List.mem_append.mpr (Or.inl hs), hsi⟩
      · exact Or.inr ⟨x, explored_explore.mpr (Or.inl hx), hxi⟩
    · exact Or.inl ⟨r, List.mem_append.mpr (Or.inr (List.mem_singleton.mpr rfl)), rfl⟩
    · exact Or.inr ⟨x, explored_explore.mpr (Or.inr hx), hxi⟩

/-- Hence the roots can be explored one after the other, -/
theorem Walked.foldl (hp : p.WellFormed) : ∀ {rs done : List Program.Root} {w : Walk},
    Walked p f done w → (∀ r ∈ rs, r ∈ p.roots) →
      Walked p f (done ++ rs) (rs.foldl (p.cut f).explore w) := by
  intro rs
  induction rs with
  | nil =>
      intro done w h _
      rw [List.append_nil]
      exact h
  | cons r rs ih =>
      intro done w h hrs
      have hstep := ih (h.explore hp (hrs r (List.mem_cons_self ..)))
        fun s hs => hrs s (List.mem_cons_of_mem r hs)
      rw [List.append_assoc] at hstep
      exact hstep

/-- and all of them have been when the walk has ended. -/
theorem walked_walk (hp : p.WellFormed) : Walked p f p.roots (p.cut f).walk :=
  Walked.foldl hp walked_nil fun _ hr => hr

/-! ## Heads -/

/-- The statements that blocks start at: those that have been come upon. -/
def IsHead (c : Cutting) (i : Nat) : Prop :=
  c.walk.Mentions i

/-- Every start of a run that has been come upon has been explored, by the routine that came upon it
    or by the one that starts there. -/
theorem isHead_iff_explored (hp : p.WellFormed) {i : Nat} :
    (p.cut f).IsHead i ↔ (p.cut f).walk.Explored i := by
  have hw := walked_walk (f := f) hp
  refine ⟨fun h => ?_, hw.mentioned⟩
  rcases hw.origin h with ⟨r, hr, rfl⟩ | ⟨x, hx, hxi⟩
  · exact hw.entries r hr
  · rcases hw.closed hx hxi with hi | hstart
    · exact hi
    · obtain ⟨r, hr, rfl⟩ := hp.isRoot_iff.mpr (Or.inr hstart)
      exact hw.entries r hr

/-- Heads of runs are reached. -/
theorem IsHead.reached (hp : p.WellFormed) {i : Nat} (h : (p.cut f).IsHead i) :
    p.Reached f i :=
  (walked_walk hp).reached ((isHead_iff_explored hp).mp h)

/-- The entry of a routine is the head of a run. -/
theorem isHead_of_isRoot (hp : p.WellFormed) {i : Nat} (h : p.IsRoot i) :
    (p.cut f).IsHead i := by
  obtain ⟨r, hr, rfl⟩ := h
  exact (walked_walk hp).mentioned ((walked_walk hp).entries r hr)

/-- The links of the end of a head's run lead to heads. -/
theorem IsHead.of_link (hp : p.WellFormed) {i j : Nat} (h : (p.cut f).IsHead i)
    (hij : p.Link f ((p.cut f).runEnd i) j) : (p.cut f).IsHead j :=
  (walked_walk hp).leads ((isHead_iff_explored hp).mp h) (mem_leadsTo_cut.mpr hij)

/-- A head is the entry of a routine, or the end of another head's run leads to it. -/
theorem IsHead.origin (hp : p.WellFormed) {i : Nat} (h : (p.cut f).IsHead i) :
    p.IsRoot i ∨ ∃ x, (p.cut f).IsHead x ∧ p.Link f ((p.cut f).runEnd x) i := by
  rcases (walked_walk hp).origin h with hr | ⟨x, hx, hxi⟩
  · exact Or.inl hr
  · exact Or.inr ⟨x, (isHead_iff_explored hp).mpr hx, mem_leadsTo_cut.mp hxi⟩

/-- Before its end a run holds no control transfer. -/
theorem not_isControl_of_mem_dropLast {s i : Nat} (h : i ∈ ((p.cut f).run s).dropLast) :
    p.test (·.isControl) i = false := by
  obtain ⟨n, hn⟩ := exists_continuation_of_mem_dropLast h
  exact (continuation_eq_some.mp hn).1

/-- What a run continues after does not jump. -/
theorem jumpOf_of_continuation (hp : p.WellFormed) (hf : p.Allows f) {i n t : Nat}
    (hn : (p.cut f).continuation i = some n) : f.jumpOf i ≠ some t := by
  intro ht
  have hctl := hp.target_control (hf.jump ht)
  rw [show p.test (·.isControl) i = false from (continuation_eq_some.mp hn).1] at hctl
  exact nomatch hctl

/-- A run has no way out before its end. -/
theorem eq_of_link_of_continuation (hp : p.WellFormed) (hf : p.Allows f) {i j n : Nat}
    (hn : (p.cut f).continuation i = some n) (hij : p.Link f i j) : j = n := by
  obtain ⟨-, hnext, -⟩ := continuation_eq_some.mp hn
  cases hij with
  | next h _ => exact Option.some.inj (h.symm.trans hnext)
  | jump h _ _ => exact absurd h (jumpOf_of_continuation hp hf hn)

/-- A link out of a statement of a run continues the run, or leaves it from its end. -/
theorem continuation_or_runEnd (hp : p.WellFormed) (hf : p.Allows f) {s i j : Nat}
    (hi : i ∈ (p.cut f).run s) (hij : p.Link f i j) :
    (p.cut f).continuation i = some j ∨ i = (p.cut f).runEnd s := by
  cases hc : (p.cut f).continuation i with
  | none => exact Or.inr (eq_runEnd_of_mem_run hi hc)
  | some n => exact Or.inl (by rw [eq_of_link_of_continuation hp hf hc hij])

/-- What holds of the entries of routines, and is passed on along the links out of runs, holds of the
    start of a run around every reached statement. -/
theorem exists_start_of_reached (hp : p.WellFormed) (hf : p.Allows f) {P : Nat → Prop}
    (root : ∀ {r}, p.IsRoot r → P r)
    (link : ∀ {s j}, P s → p.Link f ((p.cut f).runEnd s) j → P j) {i : Nat}
    (h : p.Reached f i) : ∃ s, P s ∧ i ∈ (p.cut f).run s := by
  obtain ⟨r, hr, hpath⟩ := h
  induction hpath with
  | refl => exact ⟨r, root hr, self_mem_run r⟩
  | @tail j k _ hjk ih =>
      obtain ⟨s, hs, hj⟩ := ih
      -- a link stays within the run, or leads from its end to the start of another
      rcases continuation_or_runEnd hp hf hj hjk with hcont | rfl
      · exact ⟨s, hs, mem_run_of_continuation hj hcont⟩
      · exact ⟨k, link hs hjk, self_mem_run k⟩

/-- Every reached statement is in the run of a head. -/
theorem exists_head_of_reached (hp : p.WellFormed) (hf : p.Allows f) {i : Nat}
    (h : p.Reached f i) : ∃ s, (p.cut f).IsHead s ∧ i ∈ (p.cut f).run s :=
  exists_start_of_reached hp hf (isHead_of_isRoot hp) (fun hs hij => hs.of_link hp hij) h

/-- What continues a run is no head. -/
theorem not_isHead_of_continuation (hp : p.WellFormed) (hf : p.Allows f) {m i : Nat}
    (h : (p.cut f).continuation m = some i) : ¬ (p.cut f).IsHead i := by
  intro hi
  obtain ⟨-, hnext, -, -, -, hleader⟩ := continuation_eq_some.mp h
  rcases hi.origin hp with hroot | ⟨x, hx, hlink⟩
  · rw [(isLeader_cut hp hf).mpr (Or.inl hroot)] at hleader
    exact nomatch hleader
  · cases hlink with
    | next hxi _ =>
        -- two statements with one follower: the end of a run would be continued
        have heq := hf.nextOf_inj hp hxi hnext
        have hend := continuation_runEnd (c := p.cut f) x
        rw [heq, h] at hend
        exact nomatch hend
    | jump hxi _ _ =>
        have hreached := reached_of_mem_run (hx.reached hp) (runEnd_mem_run x)
        rw [(isLeader_cut hp hf).mpr (Or.inr ⟨_, hreached, hxi⟩)] at hleader
        exact nomatch hleader

/-- A statement is in the run of one head only. -/
theorem head_unique (hp : p.WellFormed) (hf : p.Allows f) {s t : Nat}
    (hs : (p.cut f).IsHead s) (ht : (p.cut f).IsHead t) :
    ∀ {i : Nat}, i ∈ (p.cut f).run s → i ∈ (p.cut f).run t → s = t := by
  intro i
  -- the statement before `i` is the same in both runs, and it stands earlier
  induction i using Nat.strongRecOn with
  | ind i ih =>
      intro his hit
      rcases eq_or_exists_continuation his with rfl | ⟨m, hm, hmi⟩
      · rcases eq_or_exists_continuation hit with rfl | ⟨m, -, hmi⟩
        · rfl
        · exact absurd hs (not_isHead_of_continuation hp hf hmi)
      · rcases eq_or_exists_continuation hit with rfl | ⟨m', hm', hmi'⟩
        · exact absurd ht (not_isHead_of_continuation hp hf hmi)
        · obtain ⟨-, hnext, hlt, -⟩ := continuation_eq_some.mp hmi
          obtain ⟨-, hnext', -⟩ := continuation_eq_some.mp hmi'
          have heq := hf.nextOf_inj hp hnext hnext'
          rw [← heq] at hm'
          exact ih m hlt hm hm'

/-- Heads are found one after the other: what holds of the entries of routines and is passed on from
    head to head holds of every head. -/
theorem IsHead.induction (hp : p.WellFormed) (hf : p.Allows f) {P : Nat → Prop}
    (root : ∀ {r}, p.IsRoot r → P r)
    (link : ∀ {s j}, (p.cut f).IsHead s → P s → p.Link f ((p.cut f).runEnd s) j → P j) {i : Nat}
    (h : (p.cut f).IsHead i) : P i := by
  obtain ⟨s, ⟨hs, hP⟩, hmem⟩ :=
    exists_start_of_reached hp hf (P := fun s => (p.cut f).IsHead s ∧ P s)
      (fun hr => ⟨isHead_of_isRoot hp hr, root hr⟩)
      (fun hs hij => ⟨hs.1.of_link hp hij, link hs.1 hs.2 hij⟩) (h.reached hp)
  rw [head_unique hp hf h hs (self_mem_run i) hmem]
  exact hP

/-! ## Numbers -/

namespace Numbering

/-- A numbering of some of `n` statements, read in both directions. -/
structure Consistent (n : Nat) (m : Numbering) : Prop where
  size : m.numbers.size = n
  numberOf_iff : ∀ {i k}, m.numberOf i = some k ↔ m.starts[k]? = some i

theorem consistent_empty (n : Nat) : Consistent n { numbers := Array.replicate n none } where
  size := Array.size_replicate
  numberOf_iff := by
    intro i k
    rw [numberOf, Array.getElem?_replicate]
    constructor
    · intro h
      split at h
      · exact nomatch h
      · exact nomatch h
    · intro h
      exact nomatch h

/-- A run that has not been mentioned gets the next number. -/
theorem numberOf_mention {n : Nat} {m : Numbering} (h : m.Consistent n) {i : Nat} (hi : i < n)
    (hnone : m.numberOf i = none) (j : Nat) :
    (m.mention i).numberOf j = if i = j then some m.starts.size else m.numberOf j := by
  rw [mention, hnone, if_neg (by exact Bool.false_ne_true), numberOf,
    Array.getElem?_setIfInBounds]
  by_cases hij : i = j
  · rw [if_pos hij, if_pos hij, if_pos (by rw [h.size]; exact hi)]
    rfl
  · rw [if_neg hij, if_neg hij]
    rfl

theorem starts_mention {m : Numbering} {i : Nat} (hnone : m.numberOf i = none) :
    (m.mention i).starts = m.starts.push i := by
  rw [mention, hnone, if_neg (by exact Bool.false_ne_true)]

/-- Numbers stay consistent when one more run is mentioned. -/
theorem Consistent.mention {n : Nat} {m : Numbering} (h : m.Consistent n) {i : Nat} (hi : i < n) :
    (m.mention i).Consistent n := by
  cases hnum : m.numberOf i with
  | some k =>
      rw [Numbering.mention, hnum, if_pos (by rfl)]
      exact h
  | none =>
      refine ⟨?_, ?_⟩
      · rw [Numbering.mention, hnum, if_neg (by exact Bool.false_ne_true),
          Array.size_setIfInBounds]
        exact h.size
      · intro j k
        rw [numberOf_mention h hi hnum, starts_mention hnum, Array.getElem?_push]
        by_cases hk : k = m.starts.size
        · -- the new number belongs to the new statement
          subst hk
          rw [if_pos rfl, Option.some.injEq]
          by_cases hij : i = j
          · rw [if_pos hij]
            exact ⟨fun _ => hij, fun _ => rfl⟩
          · rw [if_neg hij, h.numberOf_iff, Array.getElem?_eq_none (Nat.le_refl _)]
            exact ⟨fun h' => (nomatch h'), fun h' => absurd h' hij⟩
        · rw [if_neg hk]
          by_cases hij : i = j
          · subst hij
            rw [if_pos rfl, ← h.numberOf_iff, hnum, Option.some.injEq]
            exact ⟨fun h' => absurd h'.symm hk, fun h' => nomatch h'⟩
          · rw [if_neg hij]
            exact h.numberOf_iff

/-- A run has a number exactly if it has been mentioned. -/
theorem isSome_numberOf_mention {n : Nat} {m : Numbering} (h : m.Consistent n) {i : Nat}
    (hi : i < n) (j : Nat) :
    ((m.mention i).numberOf j).isSome = true ↔ (m.numberOf j).isSome = true ∨ j = i := by
  cases hnum : m.numberOf i with
  | some k =>
      rw [Numbering.mention, hnum, if_pos (by rfl)]
      refine ⟨Or.inl, fun h' => h'.elim id ?_⟩
      rintro rfl
      rw [hnum]
      rfl
  | none =>
      rw [numberOf_mention h hi hnum]
      by_cases hij : i = j
      · rw [if_pos hij]
        exact ⟨fun _ => Or.inr hij.symm, fun _ => rfl⟩
      · rw [if_neg hij]
        exact ⟨Or.inl, fun h' => h'.resolve_right (Ne.symm hij)⟩

/-- Numbers given out by any list of mentions. -/
theorem foldl_mention {n : Nat} : ∀ {is : List Nat} {m : Numbering}, m.Consistent n →
    (∀ i ∈ is, i < n) →
      (is.foldl Numbering.mention m).Consistent n ∧
        ∀ j, ((is.foldl Numbering.mention m).numberOf j).isSome = true ↔
          (m.numberOf j).isSome = true ∨ j ∈ is := by
  intro is
  induction is with
  | nil =>
      intro m h _
      exact ⟨h, fun j => ⟨Or.inl, fun h' => h'.resolve_right List.not_mem_nil⟩⟩
  | cons i is ih =>
      intro m h hlt
      have hi := hlt i (List.mem_cons_self ..)
      obtain ⟨hcons, hsome⟩ :=
        ih (h.mention hi) fun j hj => hlt j (List.mem_cons_of_mem i hj)
      refine ⟨hcons, fun j => ?_⟩
      rw [List.foldl_cons, hsome, isSome_numberOf_mention h hi, List.mem_cons, or_assoc]

end Numbering

/-! ## Blocks -/

/-- The numbers of the blocks. -/
def numbering (c : Cutting) : Numbering :=
  Numbering.ofMentions c.program.statements.size (c.walk.mentions.map (·.1))

/-- The block that starts at a statement. -/
def blockAt (c : Cutting) (i : Nat) : Block where
  statements := c.run i
  owner := c.ownership.ownerOf i
  overlap := (c.overlaps c.walk.mentions)[i]?.join
  next := (c.fallTo i).bind c.numbering.numberOf
  branch := (c.branchTo i).bind c.numbering.numberOf
  exits := (((c.walk.exits.lookup i).getD []).filterMap c.numbering.numberOf).mergeSort
  explored := c.walk.explored[i]?.getD false

/-- Block `k` starts at statement `i`. -/
def HeadAt (c : Cutting) (k i : Nat) : Prop :=
  c.numbering.starts[k]? = some i

/-- The blocks are the blocks at the numbered heads. -/
theorem getElem?_blocks {c : Cutting} {k : Nat} {b : Block} :
    c.blocks[k]? = some b ↔ ∃ i, c.HeadAt k i ∧ b = c.blockAt i := by
  show (c.numbering.starts.map c.blockAt)[k]? = some b ↔ _
  rw [Array.getElem?_map, Option.map_eq_some_iff]
  exact ⟨fun ⟨i, hi, hb⟩ => ⟨i, hi, hb.symm⟩, fun ⟨i, hi, hb⟩ => ⟨i, hi, hb.symm⟩⟩

/-- The heads are exactly the numbered statements, and numbers tell them apart. -/
theorem numbering_cut (hp : p.WellFormed) :
    ((p.cut f).numbering.Consistent p.statements.size) ∧
      ∀ i, ((p.cut f).numbering.numberOf i).isSome = true ↔ (p.cut f).IsHead i := by
  have hlt : ∀ i ∈ (p.cut f).walk.mentions.map (·.1), i < p.statements.size := by
    intro i hi
    exact Program.lt_of_isCode (hp.isCode_of_reached (IsHead.reached hp hi))
  obtain ⟨hcons, hsome⟩ :=
    Numbering.foldl_mention (Numbering.consistent_empty p.statements.size) hlt
  refine ⟨hcons, fun i => (hsome i).trans ?_⟩
  have hempty : ¬ (({ numbers := Array.replicate p.statements.size none } : Numbering).numberOf i
      ).isSome = true := by
    rw [Numbering.numberOf, Array.getElem?_replicate]
    split
    · exact Bool.false_ne_true
    · exact Bool.false_ne_true
  exact ⟨fun h => h.resolve_left hempty, Or.inr⟩

/-- Numbers and heads belong to each other. -/
theorem numberOf_cut (hp : p.WellFormed) {i k : Nat} :
    (p.cut f).numbering.numberOf i = some k ↔ (p.cut f).HeadAt k i :=
  (numbering_cut hp).1.numberOf_iff

/-- What is numbered is the head of a run, -/
theorem HeadAt.isHead (hp : p.WellFormed) {k i : Nat} (h : (p.cut f).HeadAt k i) :
    (p.cut f).IsHead i := by
  rw [← (numbering_cut hp).2, (numberOf_cut hp).mpr h]
  rfl

/-- and every head is numbered. -/
theorem IsHead.exists_headAt (hp : p.WellFormed) {i : Nat} (h : (p.cut f).IsHead i) :
    ∃ k, (p.cut f).HeadAt k i := by
  rw [← (numbering_cut hp).2, Option.isSome_iff_exists] at h
  obtain ⟨k, hk⟩ := h
  exact ⟨k, (numberOf_cut hp).mp hk⟩

/-- A head has one number, -/
theorem HeadAt.number_unique (hp : p.WellFormed) {k l i : Nat} (hk : (p.cut f).HeadAt k i)
    (hl : (p.cut f).HeadAt l i) : k = l := by
  rw [← numberOf_cut hp] at hk hl
  exact Option.some.inj (hk.symm.trans hl)

/-- and a number one head. -/
theorem HeadAt.head_unique {c : Cutting} {k i j : Nat} (hi : c.HeadAt k i) (hj : c.HeadAt k j) :
    i = j :=
  Option.some.inj (hi.symm.trans hj)

/-- A block goes on to the block that starts where its last statement goes on to. -/
theorem next_blockAt (hp : p.WellFormed) {i l : Nat} :
    ((p.cut f).blockAt i).next = some l ↔
      ∃ n, f.nextOf ((p.cut f).runEnd i) = some n ∧ p.isCode n = true ∧ (p.cut f).HeadAt l n := by
  show ((p.cut f).fallTo i).bind (p.cut f).numbering.numberOf = some l ↔ _
  rw [Option.bind_eq_some_iff]
  constructor
  · rintro ⟨n, hn, hl⟩
    obtain ⟨hnext, hcode⟩ := fallTo_cut.mp hn
    exact ⟨n, hnext, hcode, (numberOf_cut hp).mp hl⟩
  · rintro ⟨n, hnext, hcode, hl⟩
    exact ⟨n, fallTo_cut.mpr ⟨hnext, hcode⟩, (numberOf_cut hp).mpr hl⟩

/-- A block branches to the block that starts where its last statement jumps to. -/
theorem branch_blockAt (hp : p.WellFormed) {i l : Nat} :
    ((p.cut f).blockAt i).branch = some l ↔
      ∃ t, f.jumpOf ((p.cut f).runEnd i) = some t ∧ p.isCode t = true ∧
        ¬ (p.isCall ((p.cut f).runEnd i) = true ∧ p.isStart t = true) ∧ (p.cut f).HeadAt l t := by
  show ((p.cut f).branchTo i).bind (p.cut f).numbering.numberOf = some l ↔ _
  rw [Option.bind_eq_some_iff]
  constructor
  · rintro ⟨t, ht, hl⟩
    obtain ⟨hjump, hcode, hown⟩ := branchTo_cut.mp ht
    exact ⟨t, hjump, hcode, hown, (numberOf_cut hp).mp hl⟩
  · rintro ⟨t, hjump, hcode, hown, hl⟩
    exact ⟨t, branchTo_cut.mpr ⟨hjump, hcode, hown⟩, (numberOf_cut hp).mpr hl⟩

/-- A block is followed by what comes next and by what it branches to. -/
theorem mem_succs_blockAt {s l : Nat} :
    l ∈ ((p.cut f).blockAt s).succs ↔
      ((p.cut f).blockAt s).next = some l ∨ ((p.cut f).blockAt s).branch = some l := by
  rw [Block.succs, List.mem_append, Option.mem_toList, Option.mem_toList]

/-- What follows a block is a block. -/
theorem exists_headAt_of_mem_succs (hp : p.WellFormed) {s l : Nat}
    (hl : l ∈ ((p.cut f).blockAt s).succs) : ∃ j, (p.cut f).HeadAt l j := by
  rcases mem_succs_blockAt.mp hl with hnext | hbranch
  · obtain ⟨n, -, -, hn⟩ := (next_blockAt hp).mp hnext
    exact ⟨n, hn⟩
  · obtain ⟨t, -, -, -, ht⟩ := (branch_blockAt hp).mp hbranch
    exact ⟨t, ht⟩

/-- The links out of the end of a block lead to the heads of the blocks that it goes on to. -/
theorem link_runEnd_iff (hp : p.WellFormed) {k s j : Nat} (hs : (p.cut f).HeadAt k s) :
    p.Link f ((p.cut f).runEnd s) j ↔
      ∃ l ∈ ((p.cut f).blockAt s).succs, (p.cut f).HeadAt l j := by
  constructor
  · intro hlink
    obtain ⟨l, hl⟩ := ((hs.isHead hp).of_link hp hlink).exists_headAt hp
    refine ⟨l, mem_succs_blockAt.mpr ?_, hl⟩
    cases hlink with
    | next hnext code => exact Or.inl ((next_blockAt hp).mpr ⟨j, hnext, code, hl⟩)
    | jump hjump code own =>
        exact Or.inr ((branch_blockAt hp).mpr ⟨j, hjump, code, own, hl⟩)
  · rintro ⟨l, hl, hj⟩
    rcases mem_succs_blockAt.mp hl with hnext | hbranch
    · obtain ⟨n, hn, code, hn'⟩ := (next_blockAt hp).mp hnext
      rw [hj.head_unique hn']
      exact .next hn code
    · obtain ⟨t, ht, code, own, ht'⟩ := (branch_blockAt hp).mp hbranch
      rw [hj.head_unique ht']
      exact .jump ht code own

/-- Each block starts with the head that its number belongs to. -/
theorem first_blocks {c : Cutting} (k : Nat) :
    (c.blocks[k]?).bind (·.statements.head?) = c.numbering.starts[k]? := by
  show ((c.numbering.starts.map c.blockAt)[k]?).bind (·.statements.head?) = _
  rw [Array.getElem?_map]
  cases c.numbering.starts[k]? with
  | none => rfl
  | some i => exact head?_run i

/-- The blocks with their numbers are the runs of the numbered heads. -/
theorem mem_zipIdx_blocks {c : Cutting} {b : Block} {k : Nat} :
    (b, k) ∈ c.blocks.toList.zipIdx ↔ ∃ i, c.HeadAt k i ∧ b = c.blockAt i := by
  rw [List.mem_zipIdx_iff_getElem?, Array.getElem?_toList, getElem?_blocks]

/-- A statement is in the block whose head's run it is in, and in no other. -/
theorem places_cut (hp : p.WellFormed) (hf : p.Allows f) {i k : Nat} :
    (Block.places (p.cut f).blocks p.statements.size)[i]?.join = some k ↔
      ∃ s, (p.cut f).HeadAt k s ∧ i ∈ (p.cut f).run s := by
  show ((p.cut f).blocks.toList.zipIdx.foldl
    (fun table x => Program.setAll table x.1.statements (some x.2))
    (Array.replicate p.statements.size none))[i]?.join = some k ↔ _
  by_cases hex : ∃ x ∈ (p.cut f).blocks.toList.zipIdx, i ∈ x.1.statements
  · obtain ⟨⟨b, l⟩, hx, hi⟩ := hex
    obtain ⟨s, hs, rfl⟩ := mem_zipIdx_blocks.mp hx
    have hreached := reached_of_mem_run ((hs.isHead hp).reached hp) hi
    have hlt : i < p.statements.size := Program.lt_of_isCode (hp.isCode_of_reached hreached)
    -- every block that the statement is in is this one
    have hall : ∀ y ∈ (p.cut f).blocks.toList.zipIdx, i ∈ y.1.statements →
        some y.2 = some l := by
      rintro ⟨b', l'⟩ hy hi'
      obtain ⟨s', hs', rfl⟩ := mem_zipIdx_blocks.mp hy
      have heq := head_unique hp hf (hs'.isHead hp) (hs.isHead hp) hi' hi
      rw [heq] at hs'
      rw [hs'.number_unique hp hs]
    rw [Program.getElem?_foldl_setAll_of_mem (by rw [Array.size_replicate]; exact hlt)
      ⟨_, hx, hi⟩ hall]
    show some l = some k ↔ _
    constructor
    · intro hlk
      rw [← Option.some.inj hlk]
      exact ⟨s, hs, hi⟩
    · rintro ⟨s', hs', hi'⟩
      exact (hall _ (mem_zipIdx_blocks.mpr ⟨s', hs', rfl⟩) hi').symm
  · rw [Program.getElem?_foldl_setAll_of_not_mem fun x hx hi => hex ⟨x, hx, hi⟩,
      Array.getElem?_replicate]
    constructor
    · intro h
      split at h
      · exact nomatch h
      · exact nomatch h
    · rintro ⟨s, hs, hi⟩
      exact absurd ⟨_, mem_zipIdx_blocks.mpr ⟨s, hs, rfl⟩, hi⟩ hex

/-- The walks over the blocks start at the blocks of the routines. -/
theorem mem_rootBlocks (hp : p.WellFormed) (hf : p.Allows f) {k : Nat} :
    k ∈ p.rootBlocks f ↔ ∃ i, p.IsRoot i ∧ (p.cut f).HeadAt k i := by
  rw [Program.rootBlocks, List.mem_filterMap]
  constructor
  · rintro ⟨r, hr, hk⟩
    obtain ⟨s, hs, hmem⟩ := (places_cut hp hf).mp hk
    have hroot : p.IsRoot r.entry := ⟨r, hr, rfl⟩
    have heq := head_unique hp hf (isHead_of_isRoot hp hroot) (hs.isHead hp) (self_mem_run _) hmem
    exact ⟨r.entry, hroot, heq ▸ hs⟩
  · rintro ⟨i, ⟨r, hr, rfl⟩, hk⟩
    exact ⟨r, hr, (places_cut hp hf).mpr ⟨r.entry, hk, self_mem_run _⟩⟩

end Cutting

end AsmCheck
