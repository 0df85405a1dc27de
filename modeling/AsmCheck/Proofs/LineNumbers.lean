import AsmCheck.Proofs.Findings
import AsmCheck.Proofs.References
import Mathlib.Order.Monotone.Basic

/-! # Line numbers

    Statements, labels and section markers carry the numbers of their lines.
    Rounds never look at them: a round of a program whose lines have been
    numbered anew, by any map at all, is the same round (`round_mapLines`), and
    an analysis runs the same rounds (`ofProgram_mapLines`).  Assembly and
    findings do look at line numbers, but only compare them: under a map that
    keeps the order of lines the same program is assembled
    (`assemble_mapLines`), and the findings are the same in the same order,
    each at its new line (`findings_mapLines`). -/

namespace AsmCheck

/-! ## Numbering lines anew -/

/-- The statement on another line. -/
def Statement.mapLine (g : Nat → Nat) (s : Statement) : Statement :=
  { s with line := g s.line }

/-- The item on another line. -/
def Item.mapLine (g : Nat → Nat) : Item → Item
  | .label name line => .label name (g line)
  | .statement s => .statement (s.mapLine g)

/-- The placed statement on another line. -/
def Placed.mapLine (g : Nat → Nat) (s : Placed) : Placed :=
  { s with line := g s.line }

/-- The label on another line. -/
def Label.mapLine (g : Nat → Nat) (l : Label) : Label :=
  { l with line := g l.line }

/-- The placed item on another line. -/
def Entry.mapLine (g : Nat → Nat) : Entry → Entry
  | .label l => .label (l.mapLine g)
  | .statement s => .statement (s.mapLine g)

/-- The section marker on another line. -/
def Mark.mapLine (g : Nat → Nat) (m : Mark) : Mark :=
  { m with line := g m.line }

/-- The finding on another line. -/
def Finding.mapLine (g : Nat → Nat) (f : Finding) : Finding :=
  { f with line := g f.line }

/-- The program with its lines numbered anew. -/
def Program.mapLines (g : Nat → Nat) (p : Program) : Program :=
  { p with
    statements := p.statements.map (Placed.mapLine g)
    labels := p.labels.map (Label.mapLine g)
    data := p.data.map (Mark.mapLine g)
    text := p.text.map (Mark.mapLine g)
    stop := p.stop.map (Mark.mapLine g) }

/-- The cutting of the program with its lines numbered anew. -/
def Cutting.mapLines (g : Nat → Nat) (c : Cutting) : Cutting :=
  { c with program := c.program.mapLines g }

/-- The analysis of the program with its lines numbered anew. -/
def Analysis.mapLines (g : Nat → Nat) (a : Analysis) : Analysis :=
  { a with program := a.program.mapLines g }

variable {g : Nat → Nat}

@[simp] theorem Placed.line_mapLine (s : Placed) : (s.mapLine g).line = g s.line := rfl

@[simp] theorem Placed.isCode_mapLine (s : Placed) : (s.mapLine g).isCode = s.isCode := rfl

/-! ## Assembly -/

namespace Entry

/-- Items are laid out at the same addresses, whatever their lines are. -/
theorem layout_mapLine (cursor : Nat) (items : List Item) :
    layout cursor (items.map (Item.mapLine g)) = (layout cursor items).map (mapLine g) := by
  induction items generalizing cursor with
  | nil => rfl
  | cons item items ih =>
      cases item with
      | label name line => exact congrArg (_ :: ·) (ih cursor)
      | statement s => exact congrArg (_ :: ·) (ih _)

/-- An entry holds the same statement, on its new line. -/
theorem statement?_mapLine (e : Entry) :
    (e.mapLine g).statement? = e.statement?.map (Placed.mapLine g) := by
  cases e <;> rfl

/-- An entry holds the same label, on its new line. -/
theorem label?_mapLine (e : Entry) :
    (e.mapLine g).label? = e.label?.map (Label.mapLine g) := by
  cases e <;> rfl

/-- What is picked out of entries may be put on new lines before or after it is picked out. -/
theorem filterMap_mapLine {β : Type} {f : Entry → Option β} {h : β → β}
    (hf : ∀ e, f (mapLine g e) = (f e).map h) (entries : List Entry) :
    (entries.map (mapLine g)).filterMap f = (entries.filterMap f).map h := by
  rw [List.filterMap_map, List.map_filterMap]
  exact congrArg (List.filterMap · entries) (funext hf)

end Entry

namespace Program

open Source

variable {data text stop : Option Mark} {ss : List Placed} {labels : List Label}

/-- The first marker of a kind is the same one. -/
theorem firstMark_mapLine (k : Kind) (ss : List Placed) :
    firstMark k (ss.map (Placed.mapLine g)) = (firstMark k ss).map (Mark.mapLine g) := by
  rw [firstMark, List.find?_map, Option.map_map, firstMark, Option.map_map]
  rfl

/-- Which statement holds an address depends on the order of the lines only. -/
theorem holder_mapLine (hg : StrictMono g) :
    holder (data.map (Mark.mapLine g)) (ss.map (Placed.mapLine g)) = holder data ss := by
  funext address
  have hpass : isAddressable (data.map (Mark.mapLine g)) ∘ Placed.mapLine g =
      isAddressable data := by
    funext s
    cases data with
    | none => rfl
    | some d =>
        show (s.size != 0 && !decide (g s.line < g d.line)) = _
        rw [decide_eq_decide.mpr hg.lt_iff_lt]
        rfl
  rw [holder, List.findIdx?_map, holder, ← hpass]
  rfl

/-- Two tests that agree on a list succeed at the same place first. -/
theorem findIdx?_congr {α : Type} {f h : α → Bool} {l : List α} (hfh : ∀ x ∈ l, f x = h x) :
    l.findIdx? f = l.findIdx? h := by
  induction l with
  | nil => rfl
  | cons x l ih =>
      rw [List.findIdx?_cons, List.findIdx?_cons, hfh x (List.mem_cons_self ..),
        ih fun y hy => hfh y (List.mem_cons_of_mem _ hy)]

/-- Without a marker of the end the search stops at the greatest line number. -/
theorem findEntry_mapLine (hg : StrictMono g)
    (hlimit : ∀ s ∈ ss, s.line < lineLimit ∧ g s.line < lineLimit) :
    findEntry (text.map (Mark.mapLine g)) (stop.map (Mark.mapLine g)) (ss.map (Placed.mapLine g)) =
      findEntry text stop ss := by
  rw [findEntry, List.findIdx?_map, findEntry]
  refine findIdx?_congr fun s hs => ?_
  have hfirst : ((text.map (Mark.mapLine g)).map Mark.line).getD 0 ≤ g s.line ↔
      (text.map Mark.line).getD 0 ≤ s.line := by
    cases text with
    | none => exact iff_of_true (Nat.zero_le _) (Nat.zero_le _)
    | some m => exact hg.le_iff_le
  have hlast : g s.line < ((stop.map (Mark.mapLine g)).map Mark.line).getD lineLimit ↔
      s.line < (stop.map Mark.line).getD lineLimit := by
    cases stop with
    | none => exact iff_of_true (hlimit s hs).2 (hlimit s hs).1
    | some m => exact hg.lt_iff_lt
  show (s.isCode && decide (_ ≤ g s.line) && decide (g s.line < _)) = _
  rw [decide_eq_decide.mpr hfirst, decide_eq_decide.mpr hlast]

/-- Where control goes on to does not depend on lines. -/
theorem followers_mapLine (i : Nat) (ss : List Placed) :
    followers i (ss.map (Placed.mapLine g)) = followers i ss := by
  induction ss generalizing i with
  | nil => rfl
  | cons s ss ih =>
      rw [List.map_cons, followers, ih, followers]
      rfl

/-- Jumps and calls lead to the same statements. -/
theorem jumpTarget_mapLine (hg : StrictMono g) (s : Placed) :
    jumpTarget (data.map (Mark.mapLine g)) (ss.map (Placed.mapLine g))
      (labels.map (Label.mapLine g)) (s.mapLine g) = jumpTarget data ss labels s := by
  have hnamed : ∀ name, (labelNamed (labels.map (Label.mapLine g)) name).bind Label.statement =
      (labelNamed labels name).bind Label.statement := by
    intro name
    rw [labelNamed, List.find?_map, Option.bind_map]
    rfl
  rw [jumpTarget, holder_mapLine hg, jumpTarget]
  simp only [hnamed]
  rfl

/-- A label keeps its place below a marker if the two lines are moved together. -/
theorem marked_mapLine (hg : StrictMono g) {lines : List Nat}
    (hbelow : ∀ i ∈ lines, g i + 1 = g (i + 1)) :
    marked (labels.map (Label.mapLine g)) (lines.map g) = marked labels lines := by
  rw [marked, List.filterMap_map, marked]
  refine List.filterMap_congr fun i hi => ?_
  show (labelOnLine (labels.map (Label.mapLine g)) (g i + 1)).bind Label.statement = _
  have hline : (fun l : Label => l.line == g (i + 1)) ∘ Label.mapLine g =
      fun l => l.line == i + 1 := by
    funext l
    exact Bool.eq_iff_iff.mpr (by simp [Label.mapLine, hg.injective.eq_iff])
  rw [hbelow i hi, labelOnLine, List.find?_map, hline, Option.bind_map]
  rfl

/-- The same statements are marked as entries of routines. -/
theorem startTable_mapLine (ss : Array Placed) (entries : List Nat) :
    startTable (ss.map (Placed.mapLine g)) entries = startTable ss entries := by
  have hcode : ∀ i : Nat,
      ((ss.map (Placed.mapLine g))[i]?).any (·.isCode) = (ss[i]?).any (·.isCode) := by
    intro i
    rw [Array.getElem?_map, Option.any_map]
    rfl
  rw [startTable, Array.size_map, startTable]
  simp only [hcode]

/-- The labels of a source text, each with the statement it names. -/
def namedLabels (source : List Char) : List Label :=
  ((Entry.layout 0 (Item.ofSource source)).filterMap Entry.label?).map fun l =>
    { l with statement := holder (firstMark .dataMark (placed source)) (placed source) l.address }

/-- What an assembled program consists of. -/
theorem assemble_eq (source : List Char) (config : Config) :
    assemble source config =
      { statements := (placed source).toArray
        labels := namedLabels source
        data := firstMark .dataMark (placed source)
        text := firstMark .textMark (placed source)
        stop := firstMark .endMark (placed source)
        entry := findEntry (firstMark .textMark (placed source))
          (firstMark .endMark (placed source)) (placed source)
        following := (followers 0 (placed source)).1.toArray
        target := ((placed source).map (jumpTarget (firstMark .dataMark (placed source))
          (placed source) (namedLabels source))).toArray
        starts := startTable (placed source).toArray
          (if config.checksSubroutines then
            marked (namedLabels source) (markerLines config.marker source) else []) } := rfl

/-- Assembly only compares lines: if the items of a text stand on other lines in the same order, and
    each marker right above the same line, the same program comes out with its lines numbered
    anew. -/
theorem assemble_mapLines {source source' : List Char} {config : Config} (hg : StrictMono g)
    (hitems : Item.ofSource source' = (Item.ofSource source).map (Item.mapLine g))
    (hlimit : ∀ s ∈ placed source, s.line < lineLimit ∧ g s.line < lineLimit)
    (hmarkers : markerLines config.marker source' = (markerLines config.marker source).map g)
    (hbelow : ∀ i ∈ markerLines config.marker source, g i + 1 = g (i + 1)) :
    assemble source' config = (assemble source config).mapLines g := by
  have hplaced : placed source' = (placed source).map (Placed.mapLine g) := by
    rw [placed, hitems, Entry.layout_mapLine, Entry.filterMap_mapLine Entry.statement?_mapLine,
      placed]
  have hlabels : namedLabels source' = (namedLabels source).map (Label.mapLine g) := by
    rw [namedLabels, hplaced, hitems, Entry.layout_mapLine,
      Entry.filterMap_mapLine Entry.label?_mapLine, firstMark_mapLine, holder_mapLine hg,
      namedLabels, List.map_map, List.map_map]
    rfl
  have htarget : ((placed source).map (Placed.mapLine g)).map
      (jumpTarget ((firstMark .dataMark (placed source)).map (Mark.mapLine g))
        ((placed source).map (Placed.mapLine g)) ((namedLabels source).map (Label.mapLine g))) =
      (placed source).map (jumpTarget (firstMark .dataMark (placed source)) (placed source)
        (namedLabels source)) := by
    rw [List.map_map]
    exact List.map_congr_left fun s _ => jumpTarget_mapLine hg s
  rw [assemble_eq, assemble_eq, hplaced, hlabels, hmarkers, marked_mapLine hg hbelow,
    firstMark_mapLine, firstMark_mapLine, firstMark_mapLine, findEntry_mapLine hg hlimit,
    followers_mapLine, htarget, ← List.map_toArray, startTable_mapLine]
  rfl

end Program

/-! ## Queries and the flow of control -/

namespace Program

@[simp] theorem data_mapLines (p : Program) :
    (p.mapLines g).data = p.data.map (Mark.mapLine g) := rfl

@[simp] theorem text_mapLines (p : Program) :
    (p.mapLines g).text = p.text.map (Mark.mapLine g) := rfl

@[simp] theorem stop_mapLines (p : Program) :
    (p.mapLines g).stop = p.stop.map (Mark.mapLine g) := rfl

@[simp] theorem size_mapLines (p : Program) :
    (p.mapLines g).statements.size = p.statements.size :=
  Array.size_map ..

/-- The statements are the same ones in the same order, each on its new line. -/
theorem getElem?_mapLines (p : Program) (i : Nat) :
    (p.mapLines g).statements[i]? = (p.statements[i]?).map (Placed.mapLine g) :=
  Array.getElem?_map ..

/-- Numbering lines anew changes no test that does not look at them. -/
theorem test_mapLines {f : Placed → Bool} (hf : ∀ s, f (s.mapLine g) = f s) (p : Program) :
    (p.mapLines g).test f = p.test f := by
  ext i
  rw [test, getElem?_mapLines, Option.any_map, test]
  exact congrArg (fun h => Option.any h p.statements[i]?) (funext hf)

/-- Renumbering makes no statement executable. -/
@[simp] theorem isCode_mapLines (p : Program) : (p.mapLines g).isCode = p.isCode :=
  test_mapLines (fun _ => rfl) p

/-- Calls stay calls. -/
@[simp] theorem isCall_mapLines (p : Program) : (p.mapLines g).isCall = p.isCall :=
  test_mapLines (fun _ => rfl) p

@[simp] theorem isStart_mapLines (p : Program) : (p.mapLines g).isStart = p.isStart := rfl

/-- Addresses are not touched. -/
@[simp] theorem addressOf_mapLines (p : Program) : (p.mapLines g).addressOf = p.addressOf := by
  ext i
  rw [addressOf, getElem?_mapLines, Option.map_map, addressOf]
  rfl

/-- Nothing is known about the same jumps. -/
@[simp] theorem noArrivals_mapLines (p : Program) : (p.mapLines g).noArrivals = p.noArrivals := by
  rw [noArrivals, size_mapLines, noArrivals]

/-- A verdict on a jump does not depend on its line. -/
@[simp] theorem verdictOf_mapLines (p : Program) : (p.mapLines g).verdictOf = p.verdictOf := by
  funext arrivals i
  rw [verdictOf, getElem?_mapLines, Option.map_map, verdictOf]
  rfl

/-- Control flows the same way. -/
@[simp] theorem flow_mapLines (p : Program) (arrivals : Arrivals) :
    (p.mapLines g).flow arrivals = p.flow arrivals := by
  have hnext : (p.mapLines g).nextIn arrivals = p.nextIn arrivals := by
    funext i
    rw [nextIn, test_mapLines (fun _ => rfl), verdictOf_mapLines, nextIn]
    rfl
  have hjump : (p.mapLines g).jumpIn arrivals = p.jumpIn arrivals := by
    funext i
    rw [jumpIn, verdictOf_mapLines, jumpIn]
    rfl
  rw [flow, hnext, hjump, size_mapLines, flow]

/-! ## Routines -/

/-- A routine is described by its address and its name, not by its line. -/
theorem rootAt_mapLines (p : Program) : (p.mapLines g).rootAt = p.rootAt := by
  funext e isMain
  have hname : ((p.mapLines g).labels.find? fun l => l.statement == some e).map Label.name =
      (p.labels.find? fun l => l.statement == some e).map Label.name := by
    show ((p.labels.map (Label.mapLine g)).find? _).map Label.name = _
    rw [List.find?_map, Option.map_map]
    rfl
  rw [rootAt, hname, addressOf_mapLines, rootAt]

/-- The routines are the same. -/
@[simp] theorem roots_mapLines (p : Program) : (p.mapLines g).roots = p.roots := by
  rw [roots, rootAt_mapLines, size_mapLines, isStart_mapLines, roots]
  rfl

/-- Every statement has the same owner. -/
@[simp] theorem ownership_mapLines (p : Program) (f : Flow) :
    (p.mapLines g).ownership f = p.ownership f := by
  have htrespasses : (p.mapLines g).trespasses f = p.trespasses f := by
    funext o id i
    simp [trespasses, isForeign]
  have htrace : (p.mapLines g).trace f = p.trace f := by
    funext o r
    simp [trace, claimed, barred, htrespasses]
  rw [ownership, htrace, roots_mapLines, unowned, size_mapLines, ownership, unowned]

end Program

/-! ## Blocks -/

namespace Cutting

@[simp] theorem program_mapLines (c : Cutting) :
    (c.mapLines g).program = c.program.mapLines g := rfl

@[simp] theorem flow_mapLines (c : Cutting) : (c.mapLines g).flow = c.flow := rfl

@[simp] theorem ownership_mapLines (c : Cutting) : (c.mapLines g).ownership = c.ownership := rfl

@[simp] theorem isLeader_mapLines (c : Cutting) : (c.mapLines g).isLeader = c.isLeader := rfl

/-- A flow is cut at the same places. -/
theorem ofFlow_mapLines (p : Program) (f : Flow) (o : Ownership) :
    ofFlow (p.mapLines g) f o = (ofFlow p f o).mapLines g := by
  rw [ofFlow, Program.size_mapLines, Program.roots_mapLines]
  rfl

/-- A run goes on to the same statement. -/
theorem continuation_mapLines (c : Cutting) (i : Nat) :
    (c.mapLines g).continuation i = c.continuation i := by
  simp [continuation, Program.test_mapLines (f := fun s => s.isControl) (fun _ => rfl)]

/-- Runs are the same lists of statements. -/
@[simp] theorem run_mapLines (c : Cutting) : (c.mapLines g).run = c.run := by
  funext i
  -- both runs take the same steps, and end together
  induction i using run_induction (c := c) with
  | last i h => rw [run_last h, run_last ((continuation_mapLines c i).trans h)]
  | more i n h ih => rw [run_more h, run_more ((continuation_mapLines c i).trans h), ih]

@[simp] theorem runEnd_mapLines (c : Cutting) : (c.mapLines g).runEnd = c.runEnd := by
  ext i
  rw [runEnd, run_mapLines, runEnd]

/-- A run that ends is followed by the same statement. -/
@[simp] theorem fallTo_mapLines (c : Cutting) : (c.mapLines g).fallTo = c.fallTo := by
  funext i
  simp [fallTo]

/-- A run that ends in a jump branches to the same statement. -/
@[simp] theorem branchTo_mapLines (c : Cutting) : (c.mapLines g).branchTo = c.branchTo := by
  funext i
  simp [branchTo]

/-- The runs are explored in the same order. -/
@[simp] theorem walk_mapLines (c : Cutting) : (c.mapLines g).walk = c.walk := by
  have hexplores : (c.mapLines g).explores = c.explores := by
    funext id i
    simp [explores, isForeignEntry]
  have hleads : (c.mapLines g).leadsTo = c.leadsTo := by
    funext i
    simp [leadsTo]
  have hexplore : (c.mapLines g).explore = c.explore := by
    funext w r
    simp [explore, hexplores, hleads,
      Program.test_mapLines (f := fun s => s.isReturn) (fun _ => rfl)]
  rw [walk, hexplore, program_mapLines, Program.roots_mapLines, Program.size_mapLines, walk]

/-- The block graph is the same. -/
@[simp] theorem blocks_mapLines (c : Cutting) : (c.mapLines g).blocks = c.blocks := by
  have hoverlaps : (c.mapLines g).overlaps = c.overlaps := by
    funext mentions
    rw [overlaps, program_mapLines, Program.size_mapLines]
    rfl
  simp [blocks, hoverlaps]

end Cutting

/-! ## Registers and condition codes -/

namespace Program

/-- A scan of statements finds the same use of registers. -/
@[simp] theorem scan_mapLines (p : Program) : (p.mapLines g).scan = p.scan := by
  funext is after
  induction is with
  | nil => rfl
  | cons i is ih =>
      rw [scan, scan, getElem?_mapLines, ih]
      cases p.statements[i]? with
      | none => rfl
      | some s => rfl

/-- The walk over the blocks takes the same steps. -/
theorem walkBlocks_mapLines (p : Program) (blocks : Array Block) (v : Visits)
    (frames : List Frame) :
    (p.mapLines g).walkBlocks blocks v frames = p.walkBlocks blocks v frames := by
  induction v, frames using walkBlocks.induct p blocks with
  | case1 v => rw [walkBlocks, walkBlocks]
  | case2 v b rest hfresh ways ih => rw [walkBlocks, if_pos hfresh, ih, walkBlocks, if_pos hfresh]
  | case3 v b rest hfresh ih => rw [walkBlocks, if_neg hfresh, ih, walkBlocks, if_neg hfresh]
  | case4 v b rest hnone ih => rw [walkBlocks, walkBlocks, hnone]; exact ih
  | case5 v b rest block hblock result ih =>
      rw [walkBlocks, walkBlocks, hblock, scan_mapLines]
      exact ih

/-- All walks together find the same use of registers. -/
@[simp] theorem registerUse_mapLines (p : Program) :
    (p.mapLines g).registerUse = p.registerUse := by
  funext blocks roots
  simp only [registerUse, walkBlocks_mapLines]

/-- The same stores are dead. -/
@[simp] theorem deadStores_mapLines (p : Program) : (p.mapLines g).deadStores = p.deadStores := by
  funext v
  rw [deadStores, size_mapLines, deadStores]

/-- Control leaves a statement with the same codes. -/
@[simp] theorem codesOutOf_mapLines (p : Program) : (p.mapLines g).codesOutOf = p.codesOutOf := by
  funext i codes
  rw [codesOutOf, getElem?_mapLines, Option.map_map, codesOutOf]
  rfl

end Program

namespace Block

/-- The same codes come to the end of a block. -/
@[simp] theorem codesAtEnd_mapLines (p : Program) :
    Block.codesAtEnd (p.mapLines g) = Block.codesAtEnd p := by
  funext b codes
  rw [codesAtEnd, Program.codesThrough, Program.codesOutOf_mapLines]
  rfl

/-- Control leaves a block with the same codes. -/
@[simp] theorem codesOut_mapLines (p : Program) :
    Block.codesOut (p.mapLines g) = Block.codesOut p := by
  funext b codes
  rw [codesOut, codesAtEnd_mapLines, Program.codesOutOf_mapLines]
  rfl

/-- A block passes the same codes on to the same blocks. -/
theorem passes_mapLines (p : Program) : Block.passes (p.mapLines g) = Block.passes p := by
  funext b codes
  rw [passes, codesOut_mapLines]
  rfl

end Block

namespace CodeFlow

/-- Codes spread along the blocks in the same steps. -/
theorem spread_mapLines (p : Program) (blocks : Array Block) (f : CodeFlow)
    (work : List (Nat × CodeSet)) :
    spread (p.mapLines g) blocks f work = spread p blocks f work := by
  induction f, work using spread_induction p blocks with
  | done f => rw [spread, spread]
  | skip f b codes rest hold ih => rw [spread_skip hold, ih, spread_skip hold]
  | grow f b codes rest old hb hnew ih =>
      rw [spread_grow hb hnew, Block.passes_mapLines, ih, spread_grow hb hnew]

/-- Blocks are entered with the same codes. -/
@[simp] theorem ofRoots_mapLines (p : Program) : ofRoots (p.mapLines g) = ofRoots p := by
  funext blocks roots
  simp only [ofRoots, spread_mapLines]

end CodeFlow

/-! ## Rounds and analyses -/

namespace Program

/-- Jumps are known by the same codes afterwards. -/
@[simp] theorem arrivalsAfter_mapLines (p : Program) :
    (p.mapLines g).arrivalsAfter = p.arrivalsAfter := by
  funext blocks f before
  rw [arrivalsAfter, test_mapLines (fun _ => rfl), Block.codesAtEnd_mapLines]
  rfl

/-- A round does not look at the numbers of lines. -/
theorem round_mapLines (p : Program) : (p.mapLines g).round = p.round := by
  funext arrivals
  simp [round, Cutting.ofFlow_mapLines, overlapPairs]

end Program

namespace Round

/-- All that a round says about a statement stays as it is. -/
theorem flagsOf_mapLines (p : Program) : flagsOf (p.mapLines g) = flagsOf p := by
  funext r i
  rw [flagsOf, Program.getElem?_mapLines, Option.map_map, Program.verdictOf_mapLines]
  rfl

/-- So does what a later round is compared with. -/
theorem print_mapLines (p : Program) : print (p.mapLines g) = print p := by
  funext r
  rw [print, flagsOf_mapLines, Program.size_mapLines, print]

/-- Control falls out of a block with the same codes. -/
theorem codesAfter_mapLines (p : Program) : codesAfter (p.mapLines g) = codesAfter p := by
  funext r b
  rw [codesAfter, Block.codesOut_mapLines]
  rfl

/-- All that a round says about a block stays as it is. -/
theorem marksOf_mapLines (p : Program) : marksOf (p.mapLines g) = marksOf p := by
  funext r b
  rw [marksOf, Program.test_mapLines (f := fun s => s.isControl) (fun _ => rfl),
    Program.test_mapLines (f := fun s => s.setsCodes) (fun _ => rfl)]
  rfl

end Round

namespace Analysis

/-- As many rounds are run as before, and with the same outcome. -/
theorem settle_mapLines (p : Program) (fuel count : Nat) (before : Array Program.Print)
    (r : Round) :
    settle (p.mapLines g) fuel count before r = settle p fuel count before r := by
  induction fuel generalizing count before r with
  | zero => rw [settle_stop, settle_stop]
  | succ fuel ih =>
      by_cases h : r.print p = before
      · rw [settle_same h, settle_same ((congrFun (Round.print_mapLines p) r).trans h)]
      · have h' : r.print (p.mapLines g) ≠ before := by rwa [Round.print_mapLines]
        rw [settle_more h, settle_more h', Round.print_mapLines, Program.round_mapLines, ih]

/-- An analysis runs the same rounds however the lines are numbered. -/
theorem ofProgram_mapLines (p : Program) (config : Config) :
    ofProgram (p.mapLines g) config = (ofProgram p config).mapLines g := by
  have hfirst : (p.mapLines g).firstPrint = p.firstPrint := by
    show (p.statements.map (Placed.mapLine g)).map _ = _
    rw [Array.map_map]
    rfl
  rw [ofProgram, settle_mapLines, hfirst, Program.round_mapLines, Program.noArrivals_mapLines]
  rfl

end Analysis

/-! ## Findings -/

namespace Program

/-- The line of a statement is its new one, provided that there is such a statement. -/
theorem lineOf_mapLines (p : Program) {i : Nat} (hi : i < p.statements.size) :
    (p.mapLines g).lineOf i = g (p.lineOf i) := by
  rw [lineOf, getElem?_mapLines, lineOf, Array.getElem?_eq_getElem hi]
  rfl

/-- A line belongs to the same section, since the order of lines is kept. -/
theorem sectionOf_mapLines (hg : StrictMono g) (p : Program) (line : Nat) :
    (p.mapLines g).sectionOf (g line) = p.sectionOf line := by
  have hstop : ((p.stop.map (Mark.mapLine g)).any fun m => decide (m.line < g line)) =
      p.stop.any fun m => decide (m.line < line) := by
    cases p.stop with
    | none => rfl
    | some m => exact decide_eq_decide.mpr hg.lt_iff_lt
  have hreached : ∀ m : Option Mark,
      ((m.map (Mark.mapLine g)).map Mark.line).filter (fun l => decide (l ≤ g line)) =
        ((m.map Mark.line).filter fun l => decide (l ≤ line)).map g := by
    intro m
    cases m with
    | none => rfl
    | some m =>
        show Option.filter _ (some (g m.line)) = (Option.filter _ (some m.line)).map g
        simp [Option.filter_some, hg.le_iff_le]
  rw [sectionOf, stop_mapLines, data_mapLines, text_mapLines, hstop]
  dsimp only
  rw [hreached, hreached, Option.isNone_map, Option.isNone_map, sectionOf]
  dsimp only
  cases (p.data.map Mark.line).filter (fun l => decide (l ≤ line)) with
  | none =>
      cases (p.text.map Mark.line).filter (fun l => decide (l ≤ line)) with
      | none => rfl
      | some t => rfl
  | some d =>
      cases (p.text.map Mark.line).filter (fun l => decide (l ≤ line)) with
      | none => rfl
      | some t => simp only [Option.map_some, hg.lt_iff_lt]

end Program

namespace Analysis

/-- Faults are reported on the new lines. -/
theorem faultFindings_mapLines (p : Program) :
    faultFindings (p.mapLines g) = (faultFindings p).map (Finding.mapLine g) := by
  show (p.statements.map (Placed.mapLine g)).toList.flatMap _ = _
  rw [faultFindings, List.map_flatMap, Array.toList_map, List.flatMap_map]
  simp only [List.map_map]
  rfl

/-- A statement is misplaced for the same reason. -/
theorem misplacement_mapLines (hg : StrictMono g) (p : Program) (s : Placed) :
    misplacement (p.mapLines g) (s.mapLine g) = misplacement p s := by
  rw [misplacement, Placed.line_mapLine, Program.sectionOf_mapLines hg, Program.data_mapLines,
    Program.text_mapLines, Option.isSome_map, Option.isSome_map]
  rfl

/-- Misplaced statements are reported on the new lines. -/
theorem placementFindings_mapLines (hg : StrictMono g) (p : Program) :
    placementFindings (p.mapLines g) = (placementFindings p).map (Finding.mapLine g) := by
  show (p.statements.map (Placed.mapLine g)).toList.filterMap _ = _
  rw [placementFindings, List.map_filterMap, Array.toList_map, List.filterMap_map]
  congr 1
  funext s
  show (misplacement (p.mapLines g) (s.mapLine g)).map _ = _
  rw [misplacement_mapLines hg, Option.map_map]
  rfl

/-- The statements with their numbers, on other lines. -/
theorem zipIdx_mapLines (p : Program) :
    (p.mapLines g).statements.toList.zipIdx =
      p.statements.toList.zipIdx.map fun x => (x.1.mapLine g, x.2) := by
  show (p.statements.map (Placed.mapLine g)).toList.zipIdx = _
  rw [Array.toList_map, List.zipIdx_map]
  rfl

variable (a : Analysis)

/-- The same is said about a statement that is reached. -/
theorem reachedIssues_mapLines (s : Placed) (i : Nat) :
    reachedIssues (a.mapLines g) (s.mapLine g) i = reachedIssues a s i := by
  have hverdict : (a.mapLines g).program.verdictOf = a.program.verdictOf :=
    Program.verdictOf_mapLines a.program
  rw [reachedIssues, hverdict]
  rfl

/-- One step of the listing at a time: whether a stretch is open does not depend on lines, and a
    stretch is reported in the same section. -/
theorem flowFrom_mapLines (hg : StrictMono g) (inStretch : Bool) (xs : List (Placed × Nat)) :
    flowFrom (a.mapLines g) inStretch (xs.map fun x => (x.1.mapLine g, x.2)) =
      (flowFrom a inStretch xs).map (Finding.mapLine g) := by
  induction xs generalizing inStretch with
  | nil => rfl
  | cons x xs ih =>
      obtain ⟨s, i⟩ := x
      have hsection : (a.mapLines g).program.sectionOf (g s.line) = a.program.sectionOf s.line :=
        Program.sectionOf_mapLines hg a.program s.line
      have hfound : (a.mapLines g).last.ownership.isFound i = a.last.ownership.isFound i := rfl
      simp only [List.map_cons, flowFrom, Placed.isCode_mapLine, Placed.line_mapLine, hsection,
        hfound, reachedIssues_mapLines, ih]
      split
      · rfl
      · split
        · rw [List.map_append, List.map_map]
          rfl
        · split <;> rfl

/-- Shared statements are reported on the new lines. -/
theorem overlapsFrom_mapLines (o : Ownership) (seen : List (Nat × Nat))
    (xs : List (Placed × Nat)) :
    overlapsFrom o seen (xs.map fun x => (x.1.mapLine g, x.2)) =
      (overlapsFrom o seen xs).map (Finding.mapLine g) := by
  induction xs generalizing seen with
  | nil => rfl
  | cons x xs ih =>
      obtain ⟨s, i⟩ := x
      simp only [List.map_cons, overlapsFrom, ih]
      split
      · split <;> rfl
      · rfl

/-- A routine's use of registers is judged the same way. -/
theorem registerIssues_mapLines : registerIssues (a.mapLines g) = registerIssues a := by
  have hwrites : (a.mapLines g).writesIn = a.writesIn := by
    funext id r
    show (a.program.mapLines g).statements.toList.zipIdx.any _ = _
    rw [zipIdx_mapLines, List.any_map]
    rfl
  funext s t
  rw [registerIssues, hwrites, registerIssues]

/-- Routines are reported on the new lines of their entries, which are all there. -/
theorem registerFindings_mapLines (hvalid : a.last.RefsValid a.program) :
    registerFindings (a.mapLines g) = (registerFindings a).map (Finding.mapLine g) := by
  rw [registerFindings, registerFindings, List.map_flatMap, registerIssues_mapLines]
  refine List.flatMap_congr fun s hs => ?_
  cases s.block with
  | none => rfl
  | some b =>
      have hline : (a.mapLines g).program.lineOf s.entry = g (a.program.lineOf s.entry) :=
        Program.lineOf_mapLines _ (hvalid.routine s hs).1
      simp only [hline, List.map_map]
      rfl

/-- All findings are reported on the new lines, in the same order. -/
theorem rawFindings_mapLines (hg : StrictMono g) (hvalid : a.last.RefsValid a.program) :
    (a.mapLines g).rawFindings = a.rawFindings.map (Finding.mapLine g) := by
  have hflow : flowFindings (a.mapLines g) = (flowFindings a).map (Finding.mapLine g) := by
    rw [flowFindings, flowFindings, ← flowFrom_mapLines a hg, ← zipIdx_mapLines]
    rfl
  have hoverlap : overlapFindings (a.mapLines g) = (overlapFindings a).map (Finding.mapLine g) := by
    rw [overlapFindings, overlapFindings, ← overlapsFrom_mapLines, ← zipIdx_mapLines]
    rfl
  rw [rawFindings, hflow, hoverlap, registerFindings_mapLines a hvalid, rawFindings]
  simp only [List.map_append, ← faultFindings_mapLines, ← placementFindings_mapLines hg]
  rfl

/-- Renumbering lines in their order leaves the findings and their order as they are. -/
theorem findings_mapLines (hg : StrictMono g) (hvalid : a.last.RefsValid a.program) :
    (a.mapLines g).findings = a.findings.map (Finding.mapLine g) := by
  have hle : ∀ f h : Finding, Finding.le f h = Finding.le (f.mapLine g) (h.mapLine g) := by
    intro f h
    rw [Bool.eq_iff_iff, Finding.le_iff, Finding.le_iff]
    show _ ↔ g f.line < g h.line ∨ g f.line = g h.line ∧ _
    rw [hg.lt_iff_lt, hg.injective.eq_iff]
    rfl
  have hinj : Function.Injective (Finding.mapLine g) := by
    rintro ⟨l, x⟩ ⟨m, y⟩ h
    have hline : l = m := hg.injective (Finding.mk.inj h).1
    have hissue : x = y := (Finding.mk.inj h).2
    rw [hline, hissue]
  rw [findings, rawFindings_mapLines a hg hvalid,
    ← List.map_mergeSort fun f _ h _ => hle f h, Sorting.eraseReps_map hinj, findings]

end Analysis

end AsmCheck
