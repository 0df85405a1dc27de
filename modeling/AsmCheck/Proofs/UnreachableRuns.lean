import AsmCheck.Proofs.LabelTargets
import AsmCheck.Proofs.LogicalLines

/-! # Code that is never reached

    The executable statements that no routine reaches form runs, which those
    that are reached keep apart.  A run is reported at its first statement, if
    that stands in the text section (`filter_flowFindings`).  So a run that
    enters the text section from before it would go unnoticed; there is none,
    because the first executable statement of the text section is the entry of
    the program, which is reached (`startsInText_of_entersText`).  Lines tell
    statements apart, so that every run with a statement in the text section is
    reported exactly once (`unreachable_runs_reported`).

    This takes lines that have numbers of their own.  Beyond the greatest line
    number lines share it, and the search for the entry leaves it out, so that
    a run can enter the text section there (`farText_unreported`). -/

namespace AsmCheck

open Source

/-! ## Runs of a list -/

namespace Runs

variable {α : Type} {p : α → Bool} {x : α} {xs : List α}

theorem splitOnP_of_pos (h : p x = true) : (x :: xs).splitOnP p = [] :: xs.splitOnP p := by
  rw [List.splitOnP_cons_eq_if_modifyHead, if_pos h]

theorem splitOnP_of_neg (h : p x = false) {run : List α} {runs : List (List α)}
    (hsplit : xs.splitOnP p = run :: runs) : (x :: xs).splitOnP p = (x :: run) :: runs := by
  rw [List.splitOnP_cons_eq_if_modifyHead, h, if_neg Bool.false_ne_true, hsplit]
  rfl

theorem exists_splitOnP_eq (p : α → Bool) (xs : List α) :
    ∃ run runs, xs.splitOnP p = run :: runs :=
  List.exists_cons_of_ne_nil (List.splitOnP_ne_nil p xs)

/-- The first elements of the runs stand in the list in the same order. -/
theorem heads_sublist (p : α → Bool) (xs : List α) :
    ((xs.splitOnP p).filterMap List.head?).Sublist xs := by
  induction xs with
  | nil => exact List.nil_sublist _
  | cons x xs ih =>
      cases hx : p x with
      | true =>
          rw [splitOnP_of_pos hx]
          exact ih.cons x
      | false =>
          obtain ⟨run, runs, hsplit⟩ := exists_splitOnP_eq p xs
          rw [hsplit] at ih
          rw [splitOnP_of_neg hx hsplit]
          refine List.Sublist.cons_cons x (List.Sublist.trans ?_ ih)
          exact (List.sublist_cons_self run runs).filterMap _

/-- The first run of a split is the start of the list. -/
theorem prefix_of_splitOnP_eq : ∀ {xs run : List α} {runs : List (List α)},
    xs.splitOnP p = run :: runs → run <+: xs := by
  intro xs
  induction xs with
  | nil =>
      intro run runs h
      rw [← (List.cons.inj h).1]
      exact List.prefix_rfl
  | cons x xs ih =>
      intro run runs h
      cases hx : p x with
      | true =>
          rw [splitOnP_of_pos hx] at h
          rw [← (List.cons.inj h).1]
          exact List.nil_prefix
      | false =>
          obtain ⟨run', runs', hsplit⟩ := exists_splitOnP_eq p xs
          rw [splitOnP_of_neg hx hsplit] at h
          rw [← (List.cons.inj h).1]
          exact List.cons_prefix_cons.mpr ⟨rfl, ih hsplit⟩

/-- A run is a stretch of the list, and holds nothing that keeps runs apart. -/
theorem infix_of_mem_splitOnP : ∀ {xs run : List α}, run ∈ xs.splitOnP p →
    run <:+: xs ∧ ∀ x ∈ run, p x = false := by
  intro xs
  induction xs with
  | nil =>
      intro run hrun
      rw [List.mem_singleton.mp hrun]
      exact ⟨List.infix_rfl, fun x hx => absurd hx List.not_mem_nil⟩
  | cons x xs ih =>
      intro run hrun
      have hlater : run ∈ xs.splitOnP p → run <:+: x :: xs ∧ ∀ y ∈ run, p y = false := fun hmem =>
        ⟨(ih hmem).1.trans (List.suffix_cons x xs).isInfix, (ih hmem).2⟩
      cases hx : p x with
      | true =>
          rw [splitOnP_of_pos hx] at hrun
          rcases List.mem_cons.mp hrun with rfl | hmem
          · exact And.intro List.nil_infix fun y hy => absurd hy List.not_mem_nil
          · exact hlater hmem
      | false =>
          obtain ⟨first, runs, hsplit⟩ := exists_splitOnP_eq p xs
          rw [splitOnP_of_neg hx hsplit] at hrun
          rw [hsplit] at ih hlater
          rcases List.mem_cons.mp hrun with rfl | hmem
          · refine ⟨(List.cons_prefix_cons.mpr ⟨rfl, prefix_of_splitOnP_eq hsplit⟩).isInfix, ?_⟩
            intro y hy
            rcases List.mem_cons.mp hy with rfl | hy
            · exact hx
            · exact (ih (List.mem_cons_self ..)).2 y hy
          · exact hlater (List.mem_cons_of_mem _ hmem)

/-- What stands between two elements of a run is in the run. -/
theorem mem_of_between {f : α → Nat} (hpairwise : xs.Pairwise fun x y => f x < f y)
    {run : List α} (hrun : run <:+: xs) {x y z : α} (hx : x ∈ run) (hy : y ∈ run) (hz : z ∈ xs)
    (hxz : f x ≤ f z) (hzy : f z ≤ f y) : z ∈ run := by
  obtain ⟨before, after, rfl⟩ := hrun
  obtain ⟨hfront, -, hafter⟩ := List.pairwise_append.mp hpairwise
  have hbefore := (List.pairwise_append.mp hfront).2.2
  rcases List.mem_append.mp hz with hz | hz
  · rcases List.mem_append.mp hz with hz | hz
    · exact absurd (hbefore z hz x hx) (Nat.not_lt.mpr hxz)
    · exact hz
  · exact absurd (hafter y (List.mem_append_right before hy) z hz) (Nat.not_lt.mpr hzy)

end Runs

/-! ## What is reported -/

namespace Program

/-- The executable statements with their numbers, in the order of the source text. -/
def codeStatements (p : Program) : List (Placed × Nat) :=
  p.statements.toList.zipIdx.filter fun x => x.1.isCode

/-- Whether a statement stands in the text section. -/
def isInText (p : Program) (x : Placed × Nat) : Bool :=
  p.sectionOf x.1.line == .text

end Program

namespace Analysis

variable (a : Analysis)

/-- Whether some routine reaches a statement. -/
def isReached (x : Placed × Nat) : Bool :=
  a.last.ownership.isFound x.2

/-- The stretches of executable statements that lie between those that are reached. -/
def stretches (xs : List (Placed × Nat)) : List (List (Placed × Nat)) :=
  (xs.filter fun x => x.1.isCode).splitOnP a.isReached

/-- The maximal runs of executable statements that are not reached. -/
def unreachedRuns : List (List (Placed × Nat)) :=
  (a.program.codeStatements.splitOnP a.isReached).filter fun run => !run.isEmpty

/-- Whether a finding says that something is never reached. -/
def isUnreachable (f : Finding) : Bool :=
  f.issue == .unreachable

/-- The finding that a statement is never reached. -/
def unreachableAt (x : Placed × Nat) : Finding :=
  { line := x.1.line, issue := .unreachable }

/-- What is reported of stretches: where they start, if that is in the text section. -/
def reported (runs : List (List (Placed × Nat))) : List Finding :=
  ((runs.filterMap List.head?).filter a.program.isInText).map unreachableAt

/-- Whatever is said about a statement that is reached, it is not that it is unreachable. -/
theorem filter_reachedIssues (s : Placed) (i : Nat) :
    ((reachedIssues a s i).map fun issue => ({ line := s.line, issue } : Finding)).filter
      isUnreachable = [] := by
  refine List.filter_eq_nil_iff.mpr fun f hf => ?_
  obtain ⟨issue, hissue, rfl⟩ := List.mem_map.mp hf
  rcases issue_reachedIssues hissue with rfl | rfl | rfl | ⟨codes, rfl⟩ <;> exact Bool.false_ne_true

section Stretches

variable {a} {x : Placed × Nat} {xs : List (Placed × Nat)}

/-- Stretches take no notice of data, -/
theorem stretches_of_data (hcode : x.1.isCode = false) :
    a.stretches (x :: xs) = a.stretches xs := by
  rw [stretches, List.filter_cons, hcode, if_neg Bool.false_ne_true, stretches]

/-- they end where a statement is reached, -/
theorem stretches_of_reached (hcode : x.1.isCode = true) (hreached : a.isReached x = true) :
    a.stretches (x :: xs) = [] :: a.stretches xs := by
  rw [stretches, List.filter_cons, if_pos hcode]
  exact Runs.splitOnP_of_pos hreached

/-- and go on where none is. -/
theorem stretches_of_unreached (hcode : x.1.isCode = true) (hreached : a.isReached x = false)
    {run : List (Placed × Nat)} {runs : List (List (Placed × Nat))}
    (hruns : a.stretches xs = run :: runs) :
    a.stretches (x :: xs) = (x :: run) :: runs := by
  rw [stretches, List.filter_cons, if_pos hcode]
  exact Runs.splitOnP_of_neg hreached hruns

/-- Of a stretch only its first statement counts. -/
theorem reported_cons (x : Placed × Nat) (run : List (Placed × Nat))
    (runs : List (List (Placed × Nat))) :
    a.reported ((x :: run) :: runs) =
      if a.program.isInText x then unreachableAt x :: a.reported runs else a.reported runs := by
  show ((x :: runs.filterMap List.head?).filter a.program.isInText).map unreachableAt = _
  rw [List.filter_cons]
  split <;> rfl

end Stretches

/-- One statement at a time: what comes first is reported, unless the first stretch goes on from
    before. -/
theorem filter_flowFrom (xs : List (Placed × Nat)) :
    (flowFrom a false xs).filter isUnreachable = a.reported (a.stretches xs) ∧
      (flowFrom a true xs).filter isUnreachable = a.reported (a.stretches xs).tail := by
  induction xs with
  | nil => exact ⟨rfl, rfl⟩
  | cons x xs ih =>
      obtain ⟨ihfalse, ihtrue⟩ := ih
      cases hcode : x.1.isCode with
      | false =>
          rw [stretches_of_data hcode, ← ihfalse, ← ihtrue]
          simp [flowFrom, hcode]
      | true =>
          cases hreached : a.isReached x with
          | true =>
              rw [stretches_of_reached hcode hreached]
              show _ = a.reported (a.stretches xs) ∧ _ = a.reported (a.stretches xs)
              rw [← ihfalse]
              rw [isReached] at hreached
              simp [flowFrom, hcode, hreached, filter_reachedIssues]
          | false =>
              obtain ⟨run, runs, hruns⟩ : ∃ run runs, a.stretches xs = run :: runs :=
                Runs.exists_splitOnP_eq ..
              -- the statement makes the first stretch of the rest longer, which then goes on from it
              rw [hruns, List.tail_cons] at ihtrue
              rw [stretches_of_unreached hcode hreached hruns, reported_cons, List.tail_cons,
                ← ihtrue, Program.isInText]
              rw [isReached] at hreached
              simp only [flowFrom, hcode, hreached]
              cases a.program.sectionOf x.1.line == .text <;> exact ⟨rfl, rfl⟩

/-- A stretch without statements has no first one. -/
theorem reported_filter (runs : List (List (Placed × Nat))) :
    a.reported (runs.filter fun run => !run.isEmpty) = a.reported runs := by
  have hheads : (runs.filter fun run => !run.isEmpty).filterMap List.head? =
      runs.filterMap List.head? := by
    rw [List.filterMap_filter]
    refine List.filterMap_congr fun run _ => ?_
    cases run <;> rfl
  rw [reported, hheads, reported]

/-- The flow of control reports the runs that start in the text section, in their order. -/
theorem filter_flowFindings :
    (flowFindings a).filter isUnreachable = a.reported a.unreachedRuns :=
  (a.filter_flowFrom _).1.trans (a.reported_filter _).symm

/-- Only the flow of control tells that something is never reached. -/
theorem filter_rawFindings :
    a.rawFindings.filter isUnreachable = a.reported a.unreachedRuns := by
  have hnone : ∀ fs : List Finding, (∀ f ∈ fs, f.issue ≠ .unreachable) →
      fs.filter isUnreachable = [] := fun fs hfs =>
    List.filter_eq_nil_iff.mpr fun f hf h => hfs f hf (beq_iff_eq.mp h)
  have hfaults : ∀ f ∈ faultFindings a.program, f.issue ≠ .unreachable := by
    intro f hf hissue
    obtain ⟨x, h⟩ := issue_faultFindings hf
    rw [hissue] at h
    cases h
  have hplacement : ∀ f ∈ placementFindings a.program, f.issue ≠ .unreachable := by
    intro f hf hissue
    have h := issue_placementFindings hf
    rw [hissue] at h
    rcases h with h | h | h | h <;> cases h
  have hoverlaps : ∀ f ∈ overlapFindings a, f.issue ≠ .unreachable := by
    intro f hf hissue
    obtain ⟨other, h⟩ := issue_overlapsFrom _ _ hf
    rw [hissue] at h
    cases h
  have hregisters : ∀ f ∈ registerFindings a, f.issue ≠ .unreachable := by
    intro f hf hissue
    have h := issue_registerFindings hf
    rw [hissue] at h
    rcases h with ⟨r, h⟩ | ⟨r, h⟩ <;> cases h
  rw [rawFindings, List.filter_append, List.filter_append, List.filter_append, List.filter_append,
    hnone _ hfaults, hnone _ hplacement, hnone _ hoverlaps, hnone _ hregisters, List.nil_append,
    List.nil_append, List.append_nil, List.append_nil, filter_flowFindings]

end Analysis

/-! ## Where the text section starts -/

namespace Program

variable {p : Program} {line line' : Nat}

/-- A line belongs to the text section if it is not behind the end and the latest marker before it
    says so, or if there are no markers at all. -/
theorem sectionOf_eq_text_iff : p.sectionOf line = .text ↔
    (∀ m ∈ p.stop, line ≤ m.line) ∧
      ((∃ t ∈ p.text, t.line ≤ line ∧ ∀ d ∈ p.data, d.line ≤ line → d.line ≤ t.line) ∨
        p.data = none ∧ p.text = none) := by
  rw [sectionOf]
  cases p.stop <;> cases p.data <;> cases p.text <;> grind

/-- On the way into the text section stands the mark where it starts. -/
theorem exists_text_between (hle : line ≤ line') (houtside : p.sectionOf line ≠ .text)
    (hinside : p.sectionOf line' = .text) : ∃ t ∈ p.text, line < t.line ∧ t.line ≤ line' := by
  obtain ⟨hstop, htext⟩ := sectionOf_eq_text_iff.mp hinside
  have hstop' : ∀ m ∈ p.stop, line ≤ m.line := fun m hm => Nat.le_trans hle (hstop m hm)
  rcases htext with ⟨t, ht, htline, hdata⟩ | hnone
  · refine ⟨t, ht, Nat.not_le.mp fun htle => houtside ?_, htline⟩
    refine sectionOf_eq_text_iff.mpr ⟨hstop', Or.inl ⟨t, ht, htle, fun d hd hdle => ?_⟩⟩
    exact hdata d hd (Nat.le_trans hdle hle)
  · exact absurd (sectionOf_eq_text_iff.mpr ⟨hstop', Or.inr hnone⟩) houtside

end Program

/-! ## Lines tell statements apart -/

/-- A line holds one statement at most. -/
theorem Item.filterMap_ofLine (l : LogicalLine) :
    (ofLine l).filterMap statement? = (ParsedLine.parse l.text l.line).statement.toList := by
  rw [ofLine]
  cases (ParsedLine.parse l.text l.line).label <;>
    cases (ParsedLine.parse l.text l.line).statement <;> rfl

/-- As long as there are numbers for all lines, statements stand on different lines in order. -/
theorem Item.pairwise_statements {source : List Char}
    (hlimit : (Text.lines source).length ≤ lineLimit) :
    ((ofSource source).filterMap statement?).Pairwise fun s s' => s.line < s'.line := by
  have hmade : MadeOf 0 false (Text.lines source) (logicalLines source) :=
    madeOf_logicalFrom 0 false (Text.lines source) (by omega)
  rw [ofSource, List.filterMap_flatMap, List.pairwise_flatMap]
  refine ⟨fun l _ => ?_, hmade.pairwise_lt.2.imp ?_⟩
  · rw [filterMap_ofLine]
    cases (ParsedLine.parse l.text l.line).statement with
    | none => exact .nil
    | some s => exact List.pairwise_singleton _ s
  · intro l l' hlt s hs s' hs'
    rw [filterMap_ofLine, Option.mem_toList] at hs hs'
    rw [ParsedLine.line_parse hs, ParsedLine.line_parse hs']
    exact hlt

namespace Program

/-- No statement that could be the entry stands before it. -/
theorem exists_findEntry {text stop : Option Mark} {ss : List Placed} {s : Placed} {i : Nat}
    (hs : ss[i]? = some s) (hcode : s.isCode = true)
    (hfirst : (text.map Mark.line).getD 0 ≤ s.line)
    (hlast : s.line < (stop.map Mark.line).getD lineLimit) :
    ∃ e s', findEntry text stop ss = some e ∧ e ≤ i ∧ ss[e]? = some s' ∧
      (text.map Mark.line).getD 0 ≤ s'.line := by
  obtain ⟨hi, rfl⟩ := List.getElem?_eq_some_iff.mp hs
  cases he : findEntry text stop ss with
  | none =>
      have hnone := List.findIdx?_eq_none_iff.mp he _ (List.getElem_mem hi)
      simp [hcode, hfirst, hlast] at hnone
  | some e =>
      obtain ⟨hlt, hfound, hbefore⟩ := List.findIdx?_eq_some_iff_getElem.mp he
      refine ⟨e, ss[e], rfl, Nat.not_lt.mp fun hie => ?_, List.getElem?_eq_getElem hlt, ?_⟩
      · have hnot := hbefore i hie
        simp [hcode, hfirst, hlast] at hnot
      · rw [Bool.and_eq_true, Bool.and_eq_true, decide_eq_true_eq] at hfound
        exact hfound.1.2

section Assemble

variable {source : List Char} {config : Config} {s : Placed} {i : Nat}
  (hlimit : (Text.lines source).length ≤ lineLimit)

include hlimit

/-- So do the statements of a program. -/
theorem pairwise_line :
    (assemble source config).statements.toList.Pairwise fun s s' => s.line < s'.line := by
  have hpairs : (((Item.ofSource source).filterMap Item.statement?).map fun s =>
      (s.line, s.text)).Pairwise fun x y => x.1 < y.1 :=
    List.pairwise_map.mpr (Item.pairwise_statements hlimit)
  have hplaced : ((assemble source config).statements.toList.map fun s =>
      (s.line, s.text)).Pairwise fun x y => x.1 < y.1 := statements_assemble ▸ hpairs
  exact (List.pairwise_map (R := fun x y : Nat × String => x.1 < y.1)).mp hplaced

theorem line_lt_lineLimit (hs : s ∈ (assemble source config).statements.toList) :
    s.line < lineLimit := by
  have hmem : (s.line, s.text) ∈ (assemble source config).statements.toList.map fun s =>
      (s.line, s.text) := List.mem_map_of_mem hs
  rw [statements_assemble] at hmem
  obtain ⟨st, hst, heq⟩ := List.mem_map.mp hmem
  have hline := Item.line_lt_of_mem_ofSource hlimit (Item.mem_of_mem_filterMap hst)
  have heq : st.line = s.line := congrArg Prod.fst heq
  omega

/-- The mark of the end stands on a line of its own. -/
theorem line_lt_stop (hs : s ∈ (assemble source config).statements.toList)
    (hcode : s.isCode = true) {m : Mark} (hm : m ∈ (assemble source config).stop)
    (hle : s.line ≤ m.line) : s.line < m.line := by
  obtain ⟨s', hs', rfl⟩ := Option.map_eq_some_iff.mp hm
  refine Nat.lt_of_le_of_ne hle fun heq => ?_
  have hnodup : ((assemble source config).statements.toList.map fun s => s.line).Nodup :=
    List.pairwise_map.mpr ((pairwise_line hlimit).imp Nat.ne_of_lt)
  have hsame : s = s' := List.inj_on_of_nodup_map hnodup hs (List.mem_of_find?_eq_some hs') heq
  have hmark : (s'.kind == .endMark) = true :=
    List.find?_some (p := fun s : Placed => s.kind == .endMark) hs'
  rw [hsame, Statement.isCode, beq_iff_eq.mp hmark] at hcode
  cases hcode

/-- Behind the mark of the text section, the entry comes first. -/
theorem exists_entry_between (hs : (assemble source config).statements[i]? = some s)
    (hcode : s.isCode = true) {t : Mark} (ht : t ∈ (assemble source config).text)
    (htext : t.line ≤ s.line) (hstop : ∀ m ∈ (assemble source config).stop, s.line ≤ m.line) :
    ∃ e s', (assemble source config).entry = some e ∧ e ≤ i ∧
      (assemble source config).statements[e]? = some s' ∧ t.line ≤ s'.line := by
  have hs : (assemble source config).statements.toList[i]? = some s :=
    (Array.getElem?_toList ..).trans hs
  have hmem := List.mem_of_getElem? hs
  have hlast : s.line < ((assemble source config).stop.map Mark.line).getD lineLimit := by
    cases hm : (assemble source config).stop with
    | none => exact line_lt_lineLimit hlimit hmem
    | some m => exact line_lt_stop hlimit hmem hcode hm (hstop m hm)
  have hfirst : ((assemble source config).text.map Mark.line).getD 0 = t.line := by
    rw [Option.mem_def.mp ht]
    rfl
  obtain ⟨e, s', he, hle, hs', hbehind⟩ :=
    exists_findEntry hs hcode (Nat.le_trans (Nat.le_of_eq hfirst) htext) hlast
  exact ⟨e, s', he, hle, (Array.getElem?_toList ..).symm.trans hs', hfirst ▸ hbehind⟩

end Assemble

/-! ## Runs do not enter the text section -/

/-- The executable statements of a program, with their numbers. -/
theorem mem_codeStatements {p : Program} {x : Placed × Nat} :
    x ∈ p.codeStatements ↔ p.statements[x.2]? = some x.1 ∧ x.1.isCode = true := by
  rw [codeStatements, List.mem_filter, List.mem_zipIdx_iff_getElem?, Array.getElem?_toList]

theorem pairwise_codeStatements (p : Program) :
    p.codeStatements.Pairwise fun x y => x.2 < y.2 := by
  refine List.Pairwise.filter _ ((List.pairwise_map (f := Prod.snd) (R := (· < ·))).mp ?_)
  rw [List.zipIdx_map_snd]
  exact List.pairwise_lt_range'

/-- Statements further on stand on no earlier line, however many lines there are. -/
theorem line_le {source : List Char} {config : Config} {i j : Nat} {s s' : Placed}
    (hs : (assemble source config).statements[i]? = some s)
    (hs' : (assemble source config).statements[j]? = some s') (hij : i ≤ j) : s.line ≤ s'.line := by
  have hle := lineOf_mono hij (Array.getElem?_eq_some_iff.mp hs').1
  rw [lineOf, lineOf, hs, hs'] at hle
  exact hle

/-- If runs do not hold the entry of the program, one that reaches into the text section starts
    there. -/
theorem startsInText_of_entersText {source : List Char} {config : Config}
    (hlimit : (Text.lines source).length ≤ lineLimit) {reached : Placed × Nat → Bool}
    (hentry : ∀ e s, (assemble source config).entry = some e → reached (s, e) = true)
    {x y : Placed × Nat} {run : List (Placed × Nat)}
    (hrun : x :: run ∈ (assemble source config).codeStatements.splitOnP reached)
    (hy : y ∈ x :: run) (hinside : (assemble source config).isInText y = true) :
    (assemble source config).isInText x = true := by
  obtain ⟨hstretch, hunreached⟩ := Runs.infix_of_mem_splitOnP hrun
  obtain ⟨hsx, -⟩ := mem_codeStatements.mp (hstretch.subset (List.mem_cons_self ..))
  obtain ⟨hsy, hcode⟩ := mem_codeStatements.mp (hstretch.subset hy)
  have hxy : x.2 ≤ y.2 := by
    rcases List.mem_cons.mp hy with rfl | hy
    · exact Nat.le_refl _
    · have hpairwise := (pairwise_codeStatements _).sublist hstretch.sublist
      exact Nat.le_of_lt ((List.pairwise_cons.mp hpairwise).1 y hy)
  have hinside : (assemble source config).sectionOf y.1.line = .text := beq_iff_eq.mp hinside
  refine beq_iff_eq.mpr (Classical.not_not.mp fun houtside => ?_)
  obtain ⟨t, ht, hxt, hty⟩ := exists_text_between (line_le hsx hsy hxy) houtside hinside
  obtain ⟨e, s, he, hey, hs, hts⟩ :=
    exists_entry_between hlimit hsy hcode ht hty (sectionOf_eq_text_iff.mp hinside).1
  have hxe : x.2 ≤ e := by
    refine Nat.le_of_lt (Nat.not_le.mp fun hex => ?_)
    exact Nat.not_lt.mpr (line_le hs hsx hex) (Nat.lt_of_lt_of_le hxt hts)
  -- the entry is executable, and so it is in the run
  obtain ⟨s, hs, hscode⟩ := test_eq_true.mp ((wellFormed_assemble source config).entry_code he)
  have hmem : (s, e) ∈ x :: run :=
    Runs.mem_of_between (pairwise_codeStatements _) hstretch (List.mem_cons_self ..) hy
      (mem_codeStatements.mpr ⟨hs, hscode⟩) hxe hey
  exact ne_true_of_eq_false (hunreached _ hmem) (hentry e s he)

end Program

/-! ## Every run is reported once -/

namespace Analysis

variable {a : Analysis} {f : Finding} {source : List Char} {config : Config}

/-- The runs that start in the text section are reported, and nothing else is. -/
theorem mem_findings_unreachable : f ∈ a.findings ∧ f.issue = .unreachable ↔
    ∃ run ∈ a.unreachedRuns, ∃ x ∈ run.head?, a.program.isInText x = true ∧
      f = unreachableAt x := by
  rw [mem_findings, ← beq_iff_eq (b := Issue.unreachable)]
  show f ∈ a.rawFindings ∧ isUnreachable f = true ↔ _
  rw [← List.mem_filter, filter_rawFindings, reported, List.mem_map]
  constructor
  · rintro ⟨x, hx, rfl⟩
    obtain ⟨hheads, htext⟩ := List.mem_filter.mp hx
    obtain ⟨run, hrun, hhead⟩ := List.mem_filterMap.mp hheads
    exact ⟨run, hrun, x, hhead, htext, rfl⟩
  · rintro ⟨run, hrun, x, hhead, htext, rfl⟩
    exact ⟨x, List.mem_filter.mpr ⟨List.mem_filterMap.mpr ⟨run, hrun, hhead⟩, htext⟩, rfl⟩

/-- Findings about runs stand on different lines, in their order. -/
theorem pairwise_reported (hprog : a.program = Program.assemble source config)
    (hlimit : (Text.lines source).length ≤ lineLimit) :
    (a.reported a.unreachedRuns).Pairwise fun f g => f.line < g.line := by
  have hall : a.program.statements.toList.zipIdx.Pairwise fun x y => x.1.line < y.1.line := by
    have hlines : (Program.assemble source config).statements.toList.Pairwise fun s s' =>
        s.line < s'.line := Program.pairwise_line hlimit
    rw [← hprog, ← List.zipIdx_map_fst 0 a.program.statements.toList] at hlines
    exact (List.pairwise_map (f := Prod.fst) (R := fun s s' : Placed => s.line < s'.line)).mp hlines
  have hheads : ((a.unreachedRuns.filterMap List.head?).filter a.program.isInText).Sublist
      a.program.statements.toList.zipIdx :=
    List.filter_sublist.trans (((List.filter_sublist.filterMap _).trans
      (Runs.heads_sublist ..)).trans List.filter_sublist)
  exact List.pairwise_map.mpr (hall.sublist hheads)

/-- Sorting the findings and dropping repetitions leaves those about runs as they are. -/
theorem filter_findings (hprog : a.program = Program.assemble source config)
    (hlimit : (Text.lines source).length ≤ lineLimit) :
    a.findings.filter isUnreachable = a.reported a.unreachedRuns := by
  have hpairwise := pairwise_reported hprog hlimit
  have hsorted : (a.rawFindings.mergeSort Finding.le).filter isUnreachable =
      a.reported a.unreachedRuns := by
    rw [Sorting.filter_mergeSort Finding.le_trans Finding.le_total, filter_rawFindings]
    exact List.mergeSort_of_pairwise (hpairwise.imp fun h => Finding.le_iff.mpr (Or.inl h))
  have hnodup : (a.reported a.unreachedRuns).Nodup :=
    hpairwise.imp fun h heq => Nat.ne_of_lt h (congrArg Finding.line heq)
  rw [findings, Sorting.filter_eraseReps_of_nodup (hsorted ▸ hnodup), hsorted]

/-- Whether some statement of a run stands in the text section. -/
def entersText (a : Analysis) (run : List (Placed × Nat)) : Bool :=
  run.any a.program.isInText

/-- Whether a finding says that a run is never reached, at its first statement. -/
def IsReportOf (run : List (Placed × Nat)) (f : Finding) : Prop :=
  ∃ x ∈ run.head?, f = unreachableAt x

/-- If runs start in the text section or stay out of it, one finding stands for each that does. -/
theorem forall₂_reported (runs : List (List (Placed × Nat)))
    (hstart : ∀ x run, x :: run ∈ runs → ∀ y ∈ x :: run, a.program.isInText y = true →
      a.program.isInText x = true) :
    List.Forall₂ IsReportOf (runs.filter a.entersText) (a.reported runs) := by
  induction runs with
  | nil => exact .nil
  | cons run runs ih =>
      have ih := ih fun x run hrun => hstart x run (List.mem_cons_of_mem _ hrun)
      cases run with
      | nil => exact ih
      | cons x run =>
          rw [reported_cons]
          cases hx : a.program.isInText x with
          | true =>
              have henters : a.entersText (x :: run) = true :=
                List.any_eq_true.mpr ⟨x, List.mem_cons_self .., hx⟩
              rw [List.filter_cons_of_pos henters, if_pos rfl]
              exact .cons ⟨x, rfl, rfl⟩ ih
          | false =>
              have hstays : ¬ a.entersText (x :: run) = true := by
                intro henters
                obtain ⟨y, hy, hinside⟩ := List.any_eq_true.mp henters
                rw [hstart x run (List.mem_cons_self ..) y hy hinside] at hx
                cases hx
              rw [List.filter_cons_of_neg hstays, if_neg Bool.false_ne_true]
              exact ih

/-- Runs of unreached code are reported where they start.  For every source text and every valid
    configuration, after any number of further rounds: what is said to be never reached is the first
    statement of a maximal run of executable statements that are not reached, in the text section.
    If the lines can be numbered, these findings are, in the order of the source text, one for each
    run that has a statement in the text section.  In a longer text the last lines would share the
    greatest number, which the search for the entry leaves out. -/
theorem unreachable_runs_reported (source : String) (config : Config)
    (hvalid : config.validate = .ok ()) (n : Nat) :
    ∃ a, ofSource source config = .ok a ∧
      (∀ f, f ∈ (a.rerun n).findings ∧ f.issue = .unreachable ↔
        ∃ run ∈ (a.rerun n).unreachedRuns, ∃ x ∈ run.head?,
          (a.rerun n).program.isInText x = true ∧ f = unreachableAt x) ∧
      ((Text.lines source.toList).length < 2 ^ 32 →
        List.Forall₂ IsReportOf ((a.rerun n).unreachedRuns.filter (a.rerun n).entersText)
          ((a.rerun n).findings.filter isUnreachable)) := by
  refine ⟨ofText source config, ofSource_eq_ok hvalid, fun f => mem_findings_unreachable, ?_⟩
  intro hlength
  have hlimit : (Text.lines source.toList).length ≤ lineLimit := by
    rw [lineLimit]
    omega
  obtain ⟨hprog, arrivals, hlast⟩ := exists_last_eq_round source config n
  rw [filter_findings hprog hlimit]
  refine forall₂_reported _ fun x run hrun y hy hinside => ?_
  have hrun := (List.mem_filter.mp hrun).1
  rw [hprog] at hrun hinside ⊢
  refine Program.startsInText_of_entersText hlimit (fun e s he => ?_) hrun hy hinside
  have hp := Program.wellFormed_assemble source.toList config
  rw [isReached, hlast]
  exact hp.isFound_iff.mpr (hp.isRoot_iff.mpr (Or.inl he)).reached

/-- A program with code in its data section, code that is jumped over, and code behind its end. -/
def skipping : String :=
  ".data\nnop\n.text\njmp out\nnop\n.long 2\nnop\nout: ret\nnop\n.end\nnop\n"

theorem runs_skipping :
    (Text.lines skipping.toList).length = 11 ∧
      ((ofText skipping {}).rerun 0).unreachedRuns.map (fun run => run.map fun x => x.1.line) =
        [[1], [4, 6], [8, 10]] ∧
      (((ofText skipping {}).rerun 0).unreachedRuns.filter
        ((ofText skipping {}).rerun 0).entersText).map (fun run => run.map fun x => x.1.line) =
        [[4, 6], [8, 10]] := by
  decide +kernel

/-- Findings that stand for runs are known from the lines of these. -/
theorem eq_of_forall₂ {runs : List (List (Placed × Nat))} {fs : List Finding}
    (h : List.Forall₂ IsReportOf runs fs) :
    fs = ((runs.map fun run => run.map fun x => x.1.line).filterMap List.head?).map fun line =>
      ({ line, issue := .unreachable } : Finding) := by
  induction h with
  | nil => rfl
  | cons hreport _ ih =>
      obtain ⟨x, hx, rfl⟩ := hreport
      obtain ⟨rest, rfl⟩ := List.head?_eq_some_iff.mp hx
      rw [ih]
      rfl

/-- The code in the data section is not reported, and the run that goes on behind the end is, at its
    start. -/
theorem skipping_reported :
    ({} : Config).validate = .ok () ∧ (Text.lines skipping.toList).length < 2 ^ 32 ∧
      ∃ a, ofSource skipping {} = .ok a ∧
        (a.rerun 0).unreachedRuns.map (fun run => run.map fun x => x.1.line) =
          [[1], [4, 6], [8, 10]] ∧
        (a.rerun 0).findings.filter isUnreachable = [⟨4, .unreachable⟩, ⟨8, .unreachable⟩] := by
  obtain ⟨hlength, hruns, hentering⟩ := runs_skipping
  have hlimit : (Text.lines skipping.toList).length < 2 ^ 32 := by
    rw [hlength]
    decide
  obtain ⟨a, ha, -, hreports⟩ := unreachable_runs_reported skipping {} rfl 0
  obtain rfl : a = ofText skipping {} := Except.ok.inj (ha.symm.trans (ofSource_eq_ok rfl))
  refine ⟨rfl, hlimit, _, ha, hruns, ?_⟩
  rw [eq_of_forall₂ (hreports hlimit), hentering]
  rfl

end Analysis

/-! ## Lines beyond the greatest number -/

/-- Line feeds in a row end blank lines. -/
theorem Text.lines_replicate (n : Nat) (back : List Char) :
    lines (List.replicate n '\n' ++ back) = List.replicate n [] ++ lines back := by
  induction n with
  | zero => rfl
  | succ n ih =>
      rw [List.replicate_succ, List.cons_append, lines_newline, ih, List.replicate_succ,
        List.cons_append]

/-- Blank lines only count. -/
theorem Item.ofLines_replicate (n start : Nat) (inBlock : Bool) (ls : List (List Char)) :
    ofLines start inBlock (List.replicate n [] ++ ls) = ofLines (start + n) inBlock ls := by
  induction n generalizing start with
  | zero => rfl
  | succ n ih =>
      rw [List.replicate_succ, List.cons_append, ofLines, logicalFrom_blank, List.flatMap_cons,
        ofLine_blank, List.nil_append, ← ofLines, ih, Nat.add_assoc, Nat.add_comm 1]

/-- A line without comments and strings is a logical line of its own. -/
theorem Item.ofLines_plain {l : List Char} (hstrip : stripLine false l = (l, false))
    (hplain : hasStringDirective l = false) (start : Nat) (ls : List (List Char)) :
    ofLines start false (l :: ls) =
      ofLine { line := lineNumber start, span := 1, text := l } ++ ofLines (start + 1) false ls := by
  have hcomplete : completeLine (stripLine false l).1 ([] ++ ls) = (l, ls) := by
    rw [hstrip, completeLine, hplain]
    rfl
  have hfirst : logicalFrom start false (l :: ([] ++ ls)) = _ :=
    logicalFrom_of_completeLine hcomplete
  rw [List.nil_append] at hfirst
  rw [ofLines, hfirst, List.flatMap_cons, hstrip]
  rfl

namespace Program

/-- What is assembled from items among which no routine is marked. -/
def ofItems (items : List Item) : Program :=
  let ss := (Entry.layout 0 items).filterMap Entry.statement?
  { statements := ss.toArray
    labels := []
    data := firstMark .dataMark ss
    text := firstMark .textMark ss
    stop := firstMark .endMark ss
    entry := findEntry (firstMark .textMark ss) (firstMark .endMark ss) ss
    following := (followers 0 ss).1.toArray
    target := (ss.map (jumpTarget (firstMark .dataMark ss) ss [])).toArray
    starts := startTable ss.toArray [] }

/-- Without labels there is nothing that a marker could mark. -/
theorem assemble_of_labels_eq_nil {source : List Char} (config : Config)
    (h : (Entry.layout 0 (Item.ofSource source)).filterMap Entry.label? = []) :
    assemble source config = ofItems (Item.ofSource source) := by
  have hlabels : namedLabels source = [] := by
    rw [namedLabels, h]
    rfl
  have hmarked : ∀ lines, marked [] lines = [] := fun lines =>
    List.filterMap_eq_nil_iff.mpr fun line _ => rfl
  rw [assemble_eq, hlabels, hmarked, ite_self]
  rfl

/-- A statement, so many blank lines, and the text section with another statement. -/
def farText (n : Nat) : String :=
  String.ofList ('n' :: 'o' :: 'p' :: '\n' :: (List.replicate n '\n' ++ ".text\nnop".toList))

/-- Its items, if the last two of them stand on the last line that has a number or beyond. -/
def farItems : List Item :=
  [(0, "nop"), (lineLimit, ".text"), (lineLimit, "nop")].flatMap fun (line, text) =>
    Item.ofLine { line, span := 1, text := text.toList }

/-- The lines of a far text. -/
theorem lines_farText (n : Nat) : Text.lines (farText n).toList =
    "nop".toList :: (List.replicate n [] ++ [".text".toList, "nop".toList]) := by
  rw [farText, String.toList_ofList]
  show Text.lines (['n', 'o', 'p'] ++ '\n' :: _) = _
  rw [Text.lines_append_newline, Text.lines_replicate]
  rfl

/-- If the text is long enough, its last lines have one number. -/
theorem ofSource_farText {n : Nat} (hn : lineLimit ≤ n + 1) :
    Item.ofSource (farText n).toList = farItems := by
  have hmark : lineNumber (1 + n) = lineLimit := Nat.min_eq_right (by omega)
  have hlast : lineNumber (1 + n + 1) = lineLimit := Nat.min_eq_right (by omega)
  have hnone : Item.ofLines (1 + n + 1 + 1) false [] = [] := by
    rw [Item.ofLines, logicalFrom]
    rfl
  show Item.ofLines 0 false (Text.lines (farText n).toList) = _
  rw [lines_farText, Item.ofLines_plain (by decide) (by decide), Item.ofLines_replicate, Nat.zero_add,
    Item.ofLines_plain (by decide) (by decide), Item.ofLines_plain (by decide) (by decide), hmark,
    hlast, hnone]
  rfl

end Program

namespace Analysis

/-- What is analysed then: one run, which starts before the text section and goes on into it. -/
theorem runs_farItems :
    (Entry.layout 0 Program.farItems).filterMap Entry.label? = [] ∧
      (((ofProgram (.ofItems Program.farItems) {}).rerun 0).unreachedRuns.filter
        ((ofProgram (.ofItems Program.farItems) {}).rerun 0).entersText).map
          (fun run => run.map fun x => x.1.line) = [[0, lineLimit]] ∧
      ((ofProgram (.ofItems Program.farItems) {}).rerun 0).rawFindings.filter isUnreachable = [] := by
  decide +kernel

/-- A run that enters the text section and is not reported.  The mark of the section has the greatest
    line number, which the search for the entry leaves out, and the statement behind it has the same
    one: so the program has no entry, and the run goes on from the statement before the section. -/
theorem farText_unreported :
    (Text.lines (Program.farText (2 ^ 32 - 2)).toList).length = 2 ^ 32 + 1 ∧
      ∃ a, ofSource (Program.farText (2 ^ 32 - 2)) {} = .ok a ∧
        ((a.rerun 0).unreachedRuns.filter (a.rerun 0).entersText).map
          (fun run => run.map fun x => x.1.line) = [[0, 4294967295]] ∧
        (a.rerun 0).findings.filter isUnreachable = [] := by
  obtain ⟨hlabels, hruns, hreports⟩ := runs_farItems
  have hitems := Program.ofSource_farText (n := 2 ^ 32 - 2) (by decide)
  have hprogram : ofText (Program.farText (2 ^ 32 - 2)) {} =
      ofProgram (.ofItems Program.farItems) {} := by
    rw [ofText, Program.assemble_of_labels_eq_nil _ (by rw [hitems]; exact hlabels), hitems]
  refine ⟨?_, _, ofSource_eq_ok rfl, ?_, ?_⟩
  · rw [Program.lines_farText, List.length_cons, List.length_append, List.length_replicate]
    rfl
  · rw [hprogram]
    exact hruns
  · rw [hprogram]
    refine List.filter_eq_nil_iff.mpr fun f hf => ?_
    exact List.filter_eq_nil_iff.mp hreports f (mem_findings.mp hf)

end Analysis

end AsmCheck
