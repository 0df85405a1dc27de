import AsmCheck.Proofs.CodeFlow
import AsmCheck.Proofs.Findings
import AsmCheck.Proofs.Overlaps
import AsmCheck.Proofs.Partition

/-! # Every reference is valid

    Statements, blocks and routines refer to one another by number, and the
    passes of a round look these numbers up in tables that earlier passes have
    made.  Here is shown that they always find something:

    * whatever a program or a round refers to exists, and every table has an
      entry for each statement, or for each block (`Program.RefsValid`,
      `Round.RefsValid`);
    * the four passes that follow references in a loop, that is tracing,
      exploring, the walk for registers and the spreading of codes, look up
      nothing that is not there in any of their steps (`PassesInside`).  For
      each loop an inductive predicate says what one step looks up, and the
      induction along the loop needs no more than that references are valid;
    * what is looked up for a routine afterwards, its line, its exits and the
      registers it uses, is there too (`Round.Resolves`), so that the findings
      about registers never come from a default (`Analysis.LookedUp`).

    All this holds of every round, since a round makes all its tables anew. -/

namespace AsmCheck

/-! ## Loops that look up only what exists -/

namespace Graph

/-- A search that looks at no node beyond its marks. -/
inductive StaysInside (succ : Nat → List Nat) : Array Bool → List Nat → Prop where
  | done {seen : Array Bool} : StaysInside succ seen []
  | skip {seen : Array Bool} {i : Nat} {todo : List Nat} (marked : seen[i]? = some true)
      (rest : StaysInside succ seen todo) : StaysInside succ seen (i :: todo)
  | visit {seen : Array Bool} {i : Nat} {todo : List Nat} (unmarked : seen[i]? = some false)
      (rest : StaysInside succ (seen.setIfInBounds i true) (succ i ++ todo)) :
      StaysInside succ seen (i :: todo)

/-- A search over links that stay inside looks at nothing outside. -/
theorem staysInside {succ : Nat → List Nat} {n : Nat} (hsucc : ∀ i < n, ∀ j ∈ succ i, j < n) :
    ∀ (seen : Array Bool) (todo : List Nat), seen.size = n → (∀ i ∈ todo, i < n) →
      StaysInside succ seen todo := by
  intro seen todo
  induction seen, todo using Graph.visit.induct succ with
  | case1 seen => exact fun _ _ => .done
  | case2 seen i todo hi ih =>
      intro hsize htodo
      refine .visit hi (ih ?_ ?_)
      · rw [Array.size_setIfInBounds]
        exact hsize
      · intro j hj
        rcases List.mem_append.mp hj with hj | hj
        · exact hsucc i (htodo i (List.mem_cons_self ..)) j hj
        · exact htodo j (List.mem_cons_of_mem i hj)
  | case3 seen i todo hi ih =>
      intro hsize htodo
      have hlt : i < seen.size := by
        rw [hsize]
        exact htodo i (List.mem_cons_self ..)
      refine .skip ?_ (ih hsize fun j hj => htodo j (List.mem_cons_of_mem i hj))
      rw [Array.getElem?_eq_getElem hlt] at hi ⊢
      cases hmark : seen[i] with
      | true => rfl
      | false => exact absurd (congrArg some hmark) hi

end Graph

/-- Blocks that refer to nothing but statements of the program and blocks among them. -/
structure Block.Linked (p : Program) (blocks : Array Block) : Prop where
  statements : ∀ {k : Nat} {b : Block}, blocks[k]? = some b → ∀ i ∈ b.statements,
    i < p.statements.size
  succs : ∀ {k : Nat} {b : Block}, blocks[k]? = some b → ∀ l ∈ b.succs, l < blocks.size

namespace Program

variable {p : Program} {blocks : Array Block}

/-- A walk over the blocks that looks up only blocks, results and statements that exist. -/
inductive WalkInside (p : Program) (blocks : Array Block) : Visits → List Frame → Prop where
  | done {v : Visits} : WalkInside p blocks v []
  | skip {v : Visits} {k : Nat} {rest : List Frame} {x : Visit} (result : v[k]? = some x)
      (old : x.isFresh = false) (later : WalkInside p blocks v rest) :
      WalkInside p blocks v (.enter k :: rest)
  | enter {v : Visits} {k : Nat} {rest : List Frame} {b : Block} (fresh : v[k]? = some .fresh)
      (block : blocks[k]? = some b)
      (later : WalkInside p blocks (v.setIfInBounds k .onPath)
        (b.succs.map Frame.enter ++ .leave k :: rest)) :
      WalkInside p blocks v (.enter k :: rest)
  | leave {v : Visits} {k : Nat} {rest : List Frame} {b : Block} (result : k < v.size)
      (block : blocks[k]? = some b) (ways : ∀ l ∈ b.succs, l < v.size)
      (statements : ∀ i ∈ b.statements, i < p.statements.size)
      (later : WalkInside p blocks (p.leaving v k b) rest) :
      WalkInside p blocks v (.leave k :: rest)

/-- The walk for registers looks up only blocks and statements that are there. -/
theorem walkInside (hblocks : Block.Linked p blocks) :
    ∀ (v : Visits) (frames : List Frame), v.size = blocks.size →
      (∀ frame ∈ frames, frame.block < blocks.size) → WalkInside p blocks v frames := by
  intro v frames
  induction v, frames using Program.walkBlocks.induct p blocks with
  | case1 v => exact fun _ _ => .done
  | case2 v k rest hfresh ways ih =>
      intro hsize hframes
      have hk : k < blocks.size := hframes _ (List.mem_cons_self ..)
      have hb : blocks[k]? = some blocks[k] := Array.getElem?_eq_getElem hk
      have hways : ways = blocks[k].succs.map Frame.enter := by
        show (((blocks[k]?).map Block.succs).getD []).map Frame.enter = _
        rw [hb]
        rfl
      rw [hways] at ih
      refine .enter ?_ hb (ih ?_ ?_)
      · obtain ⟨x, hx, hx'⟩ := (Option.any_eq_true _ _).mp hfresh
        cases x with
        | fresh => exact hx
        | onPath => cases hx'
        | finished result => cases hx'
      · rw [Array.size_setIfInBounds]
        exact hsize
      · intro frame hframe
        rcases List.mem_append.mp hframe with hmem | hmem
        · obtain ⟨l, hl, rfl⟩ := List.mem_map.mp hmem
          exact hblocks.succs hb l hl
        · rcases List.mem_cons.mp hmem with rfl | hmem
          · exact hk
          · exact hframes frame (List.mem_cons_of_mem _ hmem)
  | case3 v k rest hfresh ih =>
      intro hsize hframes
      have hk : k < v.size := by
        rw [hsize]
        exact hframes _ (List.mem_cons_self ..)
      refine .skip (Array.getElem?_eq_getElem hk) ?_
        (ih hsize fun frame hframe => hframes frame (List.mem_cons_of_mem _ hframe))
      rw [Visits.isFreshAt, Array.getElem?_eq_getElem hk, Option.any_some] at hfresh
      exact Bool.eq_false_iff.mpr hfresh
  | case4 v k rest hb ih =>
      intro _ hframes
      have hk : k < blocks.size := hframes _ (List.mem_cons_self ..)
      rw [Array.getElem?_eq_getElem hk] at hb
      cases hb
  | case5 v k rest b hb result ih =>
      intro hsize hframes
      refine .leave ?_ hb ?_ (hblocks.statements hb) (ih ?_ ?_)
      · rw [hsize]
        exact (Array.getElem?_eq_some_iff.mp hb).1
      · rw [hsize]
        exact hblocks.succs hb
      · rw [Array.size_setIfInBounds]
        exact hsize
      · exact fun frame hframe => hframes frame (List.mem_cons_of_mem _ hframe)

end Program

namespace CodeFlow

/-- A spreading of codes that looks up only entries, blocks and statements that exist. -/
inductive SpreadInside (p : Program) (blocks : Array Block) :
    CodeFlow → List (Nat × CodeSet) → Prop where
  | done {g : CodeFlow} : SpreadInside p blocks g []
  | skip {g : CodeFlow} {k : Nat} {codes : CodeSet} {rest : List (Nat × CodeSet)}
      {old : Option CodeSet} (entry : g.entries[k]? = some old)
      (same : old = some (widen old codes)) (later : SpreadInside p blocks g rest) :
      SpreadInside p blocks g ((k, codes) :: rest)
  | grow {g : CodeFlow} {k : Nat} {codes : CodeSet} {rest : List (Nat × CodeSet)}
      {old : Option CodeSet} {b : Block} (entry : g.entries[k]? = some old)
      (new : old ≠ some (widen old codes)) (block : blocks[k]? = some b)
      (statements : ∀ i ∈ b.statements, i < p.statements.size)
      (later : SpreadInside p blocks (g.record k (widen old codes))
        (b.passes p (widen old codes) ++ rest)) :
      SpreadInside p blocks g ((k, codes) :: rest)

/-- Spreading codes looks up only entries and blocks that are there. -/
theorem spreadInside {p : Program} {blocks : Array Block} (hblocks : Block.Linked p blocks) :
    ∀ (g : CodeFlow) (work : List (Nat × CodeSet)), g.entries.size = blocks.size →
      (∀ x ∈ work, x.1 < blocks.size) → SpreadInside p blocks g work := by
  intro g work
  induction g, work using CodeFlow.spread.induct p blocks with
  | case1 g => exact fun _ _ => .done
  | case2 g k codes rest hk ih =>
      intro hsize hwork
      have hlt : k < blocks.size := hwork _ (List.mem_cons_self ..)
      rw [Array.getElem?_eq_getElem (hsize ▸ hlt)] at hk
      cases hk
  | case3 g k codes rest old hk hsame ih =>
      intro hsize hwork
      exact .skip hk hsame (ih hsize fun x hx => hwork x (List.mem_cons_of_mem _ hx))
  | case4 g k codes rest old hk hnew ways ih =>
      intro hsize hwork
      have hlt : k < blocks.size := hwork _ (List.mem_cons_self ..)
      have hb : blocks[k]? = some blocks[k] := Array.getElem?_eq_getElem hlt
      have hways : ways = blocks[k].passes p (widen old codes) := by
        show ((blocks[k]?).map fun block => block.passes p (widen old codes)).getD [] = _
        rw [hb]
        rfl
      rw [hways] at ih
      refine .grow hk hnew hb (hblocks.statements hb) (ih ?_ ?_)
      · exact (Array.size_setIfInBounds ..).trans hsize
      · intro x hx
        rcases List.mem_append.mp hx with hx | hx
        · refine hblocks.succs hb x.1 (List.mem_append.mpr ?_)
          rw [Option.mem_toList, Option.mem_toList]
          rcases (Block.mem_passes.mp hx).1 with ⟨hl, -⟩ | ⟨hl, -⟩
          · exact Or.inr hl
          · exact Or.inl hl
        · exact hwork x (List.mem_cons_of_mem _ hx)

end CodeFlow

/-! ## References -/

/-- What a program refers to exists, and its tables have an entry for each statement. -/
structure Program.RefsValid (p : Program) : Prop where
  following_size : p.following.size = p.statements.size
  target_size : p.target.size = p.statements.size
  starts_size : p.starts.size = p.statements.size
  entry : ∀ {e}, p.entry = some e → e < p.statements.size
  label : ∀ l ∈ p.labels, ∀ i, l.statement = some i → i < p.statements.size
  /-- Control goes on to a later statement. -/
  follower : ∀ {i n}, p.follower i = some n → i < n ∧ n < p.statements.size
  target : ∀ {i t}, p.targetOf i = some t → t < p.statements.size

/-- What a round refers to exists, and its tables have an entry for each statement or block. -/
structure Round.RefsValid (p : Program) (r : Round) : Prop where
  next_size : r.flow.next.size = p.statements.size
  jump_size : r.flow.jump.size = p.statements.size
  owner_size : r.ownership.owner.size = p.statements.size
  overlap_size : r.ownership.overlap.size = p.statements.size
  places_size : r.places.size = p.statements.size
  dead_size : r.dead.size = p.statements.size
  arrivals_size : r.arrivals.size = p.statements.size
  visits_size : r.visits.size = r.blocks.size
  codes_size : r.codeFlow.entries.size = r.blocks.size
  /-- Control goes on to a later statement. -/
  next : ∀ {i n}, r.flow.nextOf i = some n → i < n ∧ n < p.statements.size
  jump : ∀ {i t}, r.flow.jumpOf i = some t → t < p.statements.size
  place : ∀ {i k : Nat}, r.places[i]?.join = some k → k < r.blocks.size
  /-- Blocks hold executable statements that have been found. -/
  statement : ∀ {k : Nat} {b : Block}, r.blocks[k]? = some b → ∀ i ∈ b.statements,
    i < p.statements.size ∧ p.isCode i = true ∧ Flag.found ∈ r.flagsOf p i
  succ : ∀ {k : Nat} {b : Block}, r.blocks[k]? = some b → ∀ l,
    b.next = some l ∨ b.branch = some l → l < r.blocks.size
  exit : ∀ {k : Nat} {b : Block}, r.blocks[k]? = some b → ∀ l ∈ b.exits, l < r.blocks.size
  /-- Every block has been scanned. -/
  result : ∀ k < r.blocks.size, ∃ scan, r.visits[k]? = some (.finished scan)
  /-- A routine starts at an executable statement that has been found, and with a block. -/
  routine : ∀ s ∈ r.subroutines, s.entry < p.statements.size ∧ p.isCode s.entry = true ∧
    Flag.found ∈ r.flagsOf p s.entry ∧ ∃ k < r.blocks.size, s.block = some k

namespace Round

variable {p : Program} {r : Round} {s : Subroutine}

/-- What is looked up for a routine: the statement `e` that it starts with, its block `b`, which is
    number `k`, and the scan of that block.  The accessors give what these hold. -/
structure Resolves (p : Program) (r : Round) (s : Subroutine) (e : Placed) (k : Nat) (b : Block)
    (scan : Scan) : Prop where
  statement : p.statements[s.entry]? = some e
  line : p.lineOf s.entry = e.line
  number : s.block = some k
  block : r.blocks[k]? = some b
  exits : r.exitsOf s = b.exits
  exit_lt : ∀ l ∈ r.exitsOf s, l < r.blocks.size
  visit : r.visits[k]? = some (.finished scan)
  table : r.tableOf k = scan.table

/-- Where references are valid, everything that is looked up for a routine is there. -/
theorem RefsValid.resolves (h : r.RefsValid p) (hs : s ∈ r.subroutines) :
    ∃ e k b scan, r.Resolves p s e k b scan := by
  obtain ⟨hlt, -, -, k, hk, hnumber⟩ := h.routine s hs
  obtain ⟨scan, hvisit⟩ := h.result k hk
  have hstatement := Array.getElem?_eq_getElem hlt
  have hblock := Array.getElem?_eq_getElem hk
  have hexits : r.exitsOf s = r.blocks[k].exits := by
    rw [exitsOf, hnumber, Option.bind_some, hblock]
    rfl
  refine ⟨p.statements[s.entry], k, r.blocks[k], scan, ?_⟩
  refine
    { statement := hstatement
      line := ?_
      number := hnumber
      block := hblock
      exits := hexits
      exit_lt := ?_
      visit := hvisit
      table := ?_ }
  · rw [Program.lineOf, hstatement]
    rfl
  · rw [hexits]
    exact h.exit hblock
  · rw [tableOf, hvisit]
    rfl

end Round

namespace Analysis

variable {a : Analysis} {f : Finding}

/-- A finding about registers that has been looked up, and not come from a default: an issue that
    the scan of a routine's block shows, at the line of the statement that the routine starts
    with. -/
def LookedUp (a : Analysis) (f : Finding) : Prop :=
  ∃ s ∈ a.last.subroutines, ∃ e k b scan, a.last.Resolves a.program s e k b scan ∧
    f.line = e.line ∧ f.issue ∈ registerIssues a s scan.table

/-- Where references are valid, the findings about registers are exactly those looked up. -/
theorem mem_registerFindings_iff_lookedUp (h : a.last.RefsValid a.program) :
    f ∈ registerFindings a ↔ a.LookedUp f := by
  rw [mem_registerFindings]
  refine exists_congr fun s => and_congr_right fun hs => ?_
  constructor
  · rintro ⟨k, hk, hline, hissue⟩
    obtain ⟨e, l, b, scan, hr⟩ := h.resolves hs
    obtain rfl := Option.some.inj (hk.symm.trans hr.number)
    rw [hr.line] at hline
    rw [hr.table] at hissue
    exact ⟨e, k, b, scan, hr, hline, hissue⟩
  · rintro ⟨e, k, b, scan, hr, hline, hissue⟩
    rw [← hr.line] at hline
    rw [← hr.table] at hissue
    exact ⟨k, hr.number, hline, hissue⟩

end Analysis

namespace Cutting

variable {p : Program} {f : Flow}

/-- The runs that a run leads to, if it has been explored. -/
def known (c : Cutting) (explored : Array Bool) (i : Nat) : List Nat :=
  if explored[i]?.getD false then c.leadsTo i else []

theorem lt_of_mem_leadsTo {i j : Nat} (h : j ∈ (p.cut f).leadsTo i) : j < p.statements.size :=
  Program.lt_of_isCode (mem_leadsTo_cut.mp h).isCode

theorem lt_of_mem_known {explored : Array Bool} {i j : Nat} (h : j ∈ (p.cut f).known explored i) :
    j < p.statements.size := by
  rw [known] at h
  split at h
  · exact lt_of_mem_leadsTo h
  · exact absurd h List.not_mem_nil

/-- The blocks of a round refer to statements and blocks that are there. -/
theorem linked_blocks (hp : p.WellFormed) : Block.Linked p (p.cut f).blocks where
  statements hb i hi := by
    obtain ⟨s, hs, rfl⟩ := getElem?_blocks.mp hb
    exact Program.lt_of_isCode
      (hp.isCode_of_reached (reached_of_mem_run ((hs.isHead hp).reached hp) hi))
  succs hb l hl := by
    obtain ⟨s, -, rfl⟩ := getElem?_blocks.mp hb
    obtain ⟨j, hj⟩ := exists_headAt_of_mem_succs hp hl
    exact hj.lt_size

/-- The exits of a block are numbers of blocks. -/
theorem lt_of_mem_exits (hp : p.WellFormed) {s l : Nat} (hl : l ∈ ((p.cut f).blockAt s).exits) :
    l < (p.cut f).blocks.size := by
  obtain ⟨i, -, hi⟩ := List.mem_filterMap.mp (List.mem_mergeSort.mp hl)
  exact ((numberOf_cut hp).mp hi).lt_size

end Cutting

namespace Program

variable {p : Program} {arrivals : Arrivals}

/-- A round that starts from a table with an entry for each statement, and whose loops, each from
    each of its starting points in turn, look up only what exists. -/
structure PassesInside (p : Program) (arrivals : Arrivals) : Prop where
  arrivals_size : arrivals.size = p.statements.size
  traces : ∀ before root after, p.roots = before ++ root :: after →
    Graph.StaysInside (p.flow arrivals).succs
      (p.barred (before.foldl (p.trace (p.flow arrivals)) p.unowned) root.entry) [root.entry]
  explorations : ∀ before root after, p.roots = before ++ root :: after → ∀ w,
    w = before.foldl (p.cut (p.flow arrivals)).explore
      { explored := Graph.unmarked p.statements.size } →
    Graph.StaysInside ((p.cut (p.flow arrivals)).explores root.id) w.explored [root.entry] ∧
      Graph.StaysInside
        ((p.cut (p.flow arrivals)).known ((p.cut (p.flow arrivals)).explore w root).explored)
        (Graph.unmarked p.statements.size) [root.entry]
  walks : ∀ before k after, p.rootBlocks (p.flow arrivals) = before ++ k :: after →
    WalkInside p (p.cut (p.flow arrivals)).blocks
      (p.registerUse (p.cut (p.flow arrivals)).blocks before) [.enter k]
  spreads : ∀ before k after, p.rootBlocks (p.flow arrivals) = before ++ k :: after →
    CodeFlow.SpreadInside p (p.cut (p.flow arrivals)).blocks
      (CodeFlow.ofRoots p (p.cut (p.flow arrivals)).blocks before) [(k, EnumSet.full)]

/-- What an assembled program refers to exists. -/
theorem refsValid_assemble (source : List Char) (config : Config) :
    (assemble source config).RefsValid := by
  have hp := wellFormed_assemble source config
  have hsize : (assemble source config).statements.size = (placed source).length :=
    List.size_toArray
  refine
    { following_size := ?_
      target_size := ?_
      starts_size := ?_
      entry := fun he => lt_of_isCode (hp.entry_code he)
      label := ?_
      follower := hp.follower_lt
      target := hp.target_lt }
  · rw [hsize]
    exact List.size_toArray.trans (length_followers 0 _)
  · rw [hsize]
    exact List.size_toArray.trans (List.length_map _)
  · show (startTable (assemble source config).statements _).size = _
    rw [startTable]
    exact List.foldlRecOn (motive := fun table : Array Bool =>
      table.size = (assemble source config).statements.size) _ _ Array.size_replicate
      fun table h i _ => (Array.size_setIfInBounds ..).trans h
  · rw [hsize]
    exact label_statement_lt

/-- A link of a round's flow leads to a statement. -/
theorem WellFormed.lt_of_mem_succs (hp : p.WellFormed) {i j : Nat}
    (h : j ∈ (p.flow arrivals).succs i) : j < p.statements.size := by
  have hf := hp.allows_flow arrivals
  rw [Flow.succs, List.mem_append, Option.mem_toList, Option.mem_toList] at h
  rcases h with h | h
  · exact (hp.follower_lt (hf.next h).2).2
  · exact hp.target_lt (hf.jump h)

theorem WellFormed.lt_of_mem_rootBlocks (hp : p.WellFormed) {k : Nat}
    (h : k ∈ p.rootBlocks (p.flow arrivals)) : k < (p.cut (p.flow arrivals)).blocks.size := by
  obtain ⟨i, -, hi⟩ := (Cutting.mem_rootBlocks hp (hp.allows_flow arrivals)).mp h
  exact hi.lt_size

/-- The loops of a round look up only what exists. -/
theorem WellFormed.passesInside (hp : p.WellFormed)
    (hsize : arrivals.size = p.statements.size) : p.PassesInside arrivals := by
  have hentry : ∀ {before root after}, p.roots = before ++ root :: after →
      ∀ i ∈ [root.entry], i < p.statements.size := by
    intro before root after hroots i hi
    rw [List.mem_singleton.mp hi]
    refine hp.entry_lt root ?_
    rw [hroots]
    exact List.mem_append.mpr (Or.inr (List.mem_cons_self ..))
  have hroot : ∀ {before k after}, p.rootBlocks (p.flow arrivals) = before ++ k :: after →
      k < (p.cut (p.flow arrivals)).blocks.size := by
    intro before k after hroots
    refine hp.lt_of_mem_rootBlocks ?_
    rw [hroots]
    exact List.mem_append.mpr (Or.inr (List.mem_cons_self ..))
  refine ⟨hsize, ?_, ?_, ?_, ?_⟩
  · intro before root after hroots
    refine Graph.staysInside (fun i _ j hj => hp.lt_of_mem_succs hj) _ _ ?_ (hentry hroots)
    rw [barred, Array.size_setIfInBounds, Array.size_map, Array.size_range]
  · rintro before root after hroots w rfl
    have hwalked : Cutting.Walked p (p.flow arrivals) ([] ++ before) _ :=
      Cutting.Walked.foldl hp Cutting.walked_nil fun s hs => by
        rw [hroots]
        exact List.mem_append.mpr (Or.inl hs)
    constructor
    · refine Graph.staysInside ?_ _ _ hwalked.size (hentry hroots)
      intro i _ j hj
      exact Cutting.lt_of_mem_leadsTo (Cutting.mem_leadsTo_of_mem_explores hj)
    · refine Graph.staysInside ?_ _ _ Array.size_replicate (hentry hroots)
      intro i _ j hj
      exact Cutting.lt_of_mem_known hj
  · intro before k after hroots
    refine walkInside (Cutting.linked_blocks hp) _ _ (touring_registerUse p _ before).size ?_
    intro frame hframe
    rw [List.mem_singleton.mp hframe]
    exact hroot hroots
  · intro before k after hroots
    refine CodeFlow.spreadInside (Cutting.linked_blocks hp) _ _
      (CodeFlow.spreading_ofRoots before).size ?_
    intro x hx
    rw [List.mem_singleton.mp hx]
    exact hroot hroots

/-- A routine starts with the block that its entry is in. -/
theorem exists_block_of_mem_subroutines {places : Array (Option Nat)} {pairs : List (Nat × Nat)}
    {rs : List Root} {s : Subroutine} (h : s ∈ subroutinesOf places pairs rs) :
    s.toRoot ∈ rs ∧ s.block = places[s.entry]?.join := by
  induction rs with
  | nil => exact absurd h List.not_mem_nil
  | cons r rs ih =>
      rcases List.mem_cons.mp h with rfl | h
      · exact ⟨List.mem_cons_self .., rfl⟩
      · exact ⟨List.mem_cons_of_mem r (ih h).1, (ih h).2⟩

/-- The block of a routine is the one that starts with its entry. -/
theorem WellFormed.block_eq_some (hp : p.WellFormed) {s : Subroutine}
    (hs : s ∈ (p.round arrivals).subroutines) {k : Nat} :
    s.block = some k ↔ (p.cut (p.flow arrivals)).HeadAt k s.entry := by
  have hf := hp.allows_flow arrivals
  obtain ⟨hroot, hblock⟩ := exists_block_of_mem_subroutines hs
  rw [hblock]
  constructor
  · intro hk
    obtain ⟨t, ht, hmem⟩ := (Cutting.places_cut hp hf).mp hk
    have hhead := Cutting.isHead_of_isRoot (f := p.flow arrivals) hp ⟨s.toRoot, hroot, rfl⟩
    rw [Cutting.head_unique hp hf hhead (ht.isHead hp) (Cutting.self_mem_run _) hmem]
    exact ht
  · intro hk
    exact (Cutting.places_cut hp hf).mpr ⟨s.entry, hk, Cutting.self_mem_run _⟩

/-- Every routine has a block. -/
theorem WellFormed.exists_block (hp : p.WellFormed) {s : Subroutine}
    (hs : s ∈ (p.round arrivals).subroutines) : ∃ k, s.block = some k := by
  have hroot : p.IsRoot s.entry := ⟨s.toRoot, (exists_block_of_mem_subroutines hs).1, rfl⟩
  obtain ⟨k, hk⟩ := (Cutting.isHead_of_isRoot hp hroot).exists_headAt hp (f := p.flow arrivals)
  exact ⟨k, (hp.block_eq_some hs).mpr hk⟩

/-- What a round refers to exists. -/
theorem WellFormed.refsValid_round (hp : p.WellFormed) (hsize : arrivals.size = p.statements.size) :
    (p.round arrivals).RefsValid p := by
  have hf := hp.allows_flow arrivals
  have hlinked := Cutting.linked_blocks (f := p.flow arrivals) hp
  have howned := hp.owned_ownership (f := p.flow arrivals)
  refine
    { next_size := (Array.size_map ..).trans Array.size_range
      jump_size := (Array.size_map ..).trans Array.size_range
      owner_size := howned.owner_size
      overlap_size := howned.overlap_size
      places_size := (size_foldl_setAll _ _).trans Array.size_replicate
      dead_size := (size_setAll ..).trans Array.size_replicate
      arrivals_size := (size_arrivalsAfter ..).trans hsize
      visits_size := (touring_registerUse p _ _).size
      codes_size := (CodeFlow.spreading_ofRoots _).size
      next := fun h => hp.follower_lt (hf.next h).2
      jump := fun h => hp.target_lt (hf.jump h)
      place := ?_
      statement := ?_
      succ := ?_
      exit := ?_
      result := ?_
      routine := ?_ }
  · intro i k h
    obtain ⟨s, hs, -⟩ := (Cutting.places_cut hp hf).mp h
    exact hs.lt_size
  · intro k b hb i hi
    obtain ⟨pos, hpos⟩ := List.mem_iff_getElem?.mp hi
    have hfound := hp.found_of_standsAt ⟨b, hb, hpos⟩
    exact ⟨hlinked.statements hb i hi, hp.isCode_of_reached (hp.found_round.mp hfound), hfound⟩
  · intro k b hb l hl
    refine hlinked.succs hb l (List.mem_append.mpr ?_)
    rw [Option.mem_toList, Option.mem_toList]
    exact hl
  · intro k b hb l hl
    obtain ⟨s, -, rfl⟩ := Cutting.getElem?_blocks.mp hb
    exact Cutting.lt_of_mem_exits hp hl
  · intro k hk
    have hscanned := hp.scanned_round (Array.getElem?_eq_getElem hk)
    cases hv : (p.round arrivals).visits[k]? with
    | none =>
        rw [hv] at hscanned
        cases hscanned
    | some x =>
        rw [hv] at hscanned
        cases x with
        | fresh => cases hscanned
        | onPath => cases hscanned
        | finished scan => exact ⟨scan, rfl⟩
  · intro s hs
    have hroot : p.IsRoot s.entry := ⟨s.toRoot, (exists_block_of_mem_subroutines hs).1, rfl⟩
    have hcode := hp.isCode_of_isRoot hroot
    obtain ⟨k, hk⟩ := hp.exists_block hs
    exact ⟨lt_of_isCode hcode, hcode, hp.found_round.mpr hroot.reached, k,
      ((hp.block_eq_some hs).mp hk).lt_size, hk⟩

/-- What is known about the jumps before a round. -/
def arrivalsBefore (p : Program) : Nat → Arrivals
  | 0 => p.noArrivals
  | n + 1 => (p.roundAfter n).arrivals

theorem round_arrivalsBefore (p : Program) (n : Nat) :
    p.round (p.arrivalsBefore n) = p.roundAfter n := by
  cases n with
  | zero => rfl
  | succ n => rfl

/-- A round keeps the table of what is known about the jumps complete for the next one. -/
theorem WellFormed.refsValid_roundAfter (hp : p.WellFormed) (n : Nat) :
    (p.roundAfter n).RefsValid p := by
  induction n with
  | zero => exact hp.refsValid_round Array.size_replicate
  | succ n ih => exact hp.refsValid_round ih.arrivals_size

theorem WellFormed.size_arrivalsBefore (hp : p.WellFormed) (n : Nat) :
    (p.arrivalsBefore n).size = p.statements.size := by
  cases n with
  | zero => exact Array.size_replicate
  | succ n => exact (hp.refsValid_roundAfter n).arrivals_size

end Program

namespace Analysis

theorem refsValid_last (source : String) (config : Config) :
    (ofText source config).last.RefsValid (ofText source config).program := by
  obtain ⟨n, -, -, hlast⟩ := exists_last_eq_roundAfter source config 0
  show (((ofText source config).rerun 0).last).RefsValid _
  rw [hlast]
  exact (Program.wellFormed_assemble source.toList config).refsValid_roundAfter n

/-- Every reference is valid: for every source text and all usable settings, after any number of
    further rounds, what the program and every round so far refer to exists, and the loops of these
    rounds have looked up nothing else.  So whatever is looked up for a routine of such a round is
    there, and the findings about registers come from nothing else. -/
theorem references_valid (source : String) (config : Config)
    (hvalid : config.validate = .ok ()) (m : Nat) :
    ∃ a n, ofSource source config = .ok a ∧ (a.rerun m).rounds = n + 1 ∧
      (a.rerun m).last = (a.rerun m).program.roundAfter n ∧ (a.rerun m).program.RefsValid ∧
      (∀ k ≤ n, ((a.rerun m).program.roundAfter k).RefsValid (a.rerun m).program ∧
        (a.rerun m).program.round ((a.rerun m).program.arrivalsBefore k) =
          (a.rerun m).program.roundAfter k ∧
        (a.rerun m).program.PassesInside ((a.rerun m).program.arrivalsBefore k) ∧
        ∀ s ∈ ((a.rerun m).program.roundAfter k).subroutines, ∃ e i b scan,
          ((a.rerun m).program.roundAfter k).Resolves (a.rerun m).program s e i b scan) ∧
      ∀ f, f ∈ registerFindings (a.rerun m) ↔ (a.rerun m).LookedUp f := by
  obtain ⟨n, hcount, hprog, hlast⟩ := exists_last_eq_roundAfter source config m
  have hp := Program.wellFormed_assemble source.toList config
  have hrefs : ((ofText source config).rerun m).last.RefsValid
      ((ofText source config).rerun m).program := by
    rw [hprog, hlast]
    exact hp.refsValid_roundAfter n
  refine ⟨ofText source config, n, ofSource_eq_ok hvalid, hcount, ?_⟩
  rw [hprog]
  refine ⟨hlast, Program.refsValid_assemble _ _, fun k _ => ?_,
    fun f => mem_registerFindings_iff_lookedUp hrefs⟩
  have hround := hp.refsValid_roundAfter k
  exact ⟨hround, Program.round_arrivalsBefore _ k, hp.passesInside (hp.size_arrivalsBefore k),
    fun s hs => hround.resolves hs⟩

/-- The block of the call goes on to the second of three blocks. -/
theorem intoRoutine_references :
    ({} : Config).validate = .ok () ∧
      ∃ a, ofSource intoRoutine {} = .ok a ∧
        (a.rerun 1).last.RefsValid (a.rerun 1).program ∧ (a.rerun 1).last.blocks.size = 3 ∧
        (a.rerun 1).last.blocks[0]?.bind Block.next = some 1 := by
  refine ⟨rfl, ?_⟩
  obtain ⟨a, n, ha, -, hlast, -, hrounds, -⟩ := references_valid intoRoutine {} rfl 1
  obtain rfl := Except.ok.inj ((ofSource_eq_ok rfl).symm.trans ha)
  refine ⟨_, ha, ?_, by decide +kernel⟩
  rw [hlast]
  exact (hrounds n (Nat.le_refl n)).1

end Analysis

end AsmCheck
