import AsmCheck.Proofs.Overlaps
import AsmCheck.Proofs.UnreachableRuns

/-! # Findings are in order, and none is listed twice

    Findings are sorted by line and severity alone, and only equal neighbours
    are merged, so equal findings with another one of their line and severity in
    between would both be listed.  There are no equal findings, not even before
    sorting.  Every pass reports on statements or routines one after the other
    and says nothing twice about one of them (`ReportsOn`); lines tell these
    apart; and no issue is reported by two passes (`Issue.pass`).  So sorting
    leaves each finding in the list once (`findings_ordered`). -/

namespace AsmCheck

open Source

/-! ## Reports on one thing after the other -/

/-- Findings that report on things at the given lines, one after the other, and say nothing twice
    about any of them. -/
inductive ReportsOn : List Nat → List Finding → Prop
  | nil : ReportsOn [] []
  | cons {line : Nat} {lines : List Nat} {issues : List Issue} {fs : List Finding}
      (once : issues.Nodup) (rest : ReportsOn lines fs) :
      ReportsOn (line :: lines) (issues.map (Finding.mk line) ++ fs)

namespace ReportsOn

variable {line : Nat} {lines : List Nat} {f : Finding} {fs : List Finding}

theorem skip (h : ReportsOn lines fs) : ReportsOn (line :: lines) fs :=
  .cons List.nodup_nil h

theorem single (h : ReportsOn lines fs) (issue : Issue) :
    ReportsOn (line :: lines) (⟨line, issue⟩ :: fs) :=
  .cons (List.nodup_singleton issue) h

/-- Findings are reported on the lines that there are. -/
theorem line_mem (h : ReportsOn lines fs) (hf : f ∈ fs) : f.line ∈ lines := by
  induction h with
  | nil => exact absurd hf List.not_mem_nil
  | cons _ _ ih =>
      rcases List.mem_append.mp hf with hf | hf
      · obtain ⟨issue, -, rfl⟩ := List.mem_map.mp hf
        exact List.mem_cons_self ..
      · exact List.mem_cons_of_mem _ (ih hf)

/-- If the lines are different, no finding is there twice. -/
theorem nodup (h : ReportsOn lines fs) (hlines : lines.Nodup) : fs.Nodup := by
  induction h with
  | nil => exact List.nodup_nil
  | cons once rest ih =>
      obtain ⟨hnew, hlines⟩ := List.nodup_cons.mp hlines
      refine List.nodup_append.mpr ⟨once.map fun x y heq => congrArg Finding.issue heq, ih hlines, ?_⟩
      rintro f hf g hg rfl
      obtain ⟨issue, -, rfl⟩ := List.mem_map.mp hf
      exact hnew (rest.line_mem hg)

end ReportsOn

/-! ## What each pass reports -/

namespace Analysis

variable (a : Analysis)

/-- Faults are reported statement by statement, -/
theorem reportsOn_faultFindings (p : Program) :
    ReportsOn (p.statements.toList.map fun s => s.line) (faultFindings p) := by
  have hall : reportedFaults.Nodup := by decide
  rw [faultFindings]
  induction p.statements.toList with
  | nil => exact .nil
  | cons s ss ih =>
      have honce : ((reportedFaults.filter s.faults.contains).map Issue.fault).Nodup :=
        (hall.filter _).map fun x y heq => Issue.fault.inj heq
      have hcons : ReportsOn (s.line :: ss.map fun s => s.line) _ := .cons honce ih
      rw [List.map_map] at hcons
      exact hcons

/-- and so are misplaced statements. -/
theorem reportsOn_placementFindings (p : Program) :
    ReportsOn (p.statements.toList.map fun s => s.line) (placementFindings p) := by
  rw [placementFindings]
  induction p.statements.toList with
  | nil => exact .nil
  | cons s ss ih =>
      rw [List.filterMap_cons]
      cases misplacement p s with
      | none => exact ih.skip
      | some issue => exact ih.single issue

/-- What is said about a statement that is reached are different things. -/
theorem nodup_reachedIssues (s : Placed) (i : Nat) : (reachedIssues a s i).Nodup := by
  have hif : ∀ (c : Prop) [Decidable c] (x : Issue), (if c then [x] else []).Sublist [x] := by
    intro c _ x
    split
    · exact .refl _
    · exact List.nil_sublist _
  rw [reachedIssues]
  generalize a.program.verdictOf a.last.arrivals i = v
  have hall : ([Issue.deadStore] ++ ([Issue.neverTaken] ++ [Issue.alwaysTaken] ++
      [Issue.redundantCondition v.redundant])).Nodup := by
    simp
  refine hall.sublist ((hif _ .deadStore).append ?_)
  split
  · refine ((hif _ .neverTaken).append (hif _ .alwaysTaken)).append ?_
    split
    · exact List.nil_sublist _
    · exact .refl _
  · exact List.nil_sublist _

/-- Whether or not the statement before was reached, a statement is reported on in one way only. -/
theorem reportsOn_flowFrom (inStretch : Bool) (xs : List (Placed × Nat)) :
    ReportsOn (xs.map fun x => x.1.line) (flowFrom a inStretch xs) := by
  induction xs generalizing inStretch with
  | nil => exact .nil
  | cons x xs ih =>
      obtain ⟨s, i⟩ := x
      rw [flowFrom]
      split
      · exact (ih inStretch).skip
      · split
        · exact .cons (nodup_reachedIssues a s i) (ih false)
        · split
          · exact (ih true).single .unreachable
          · exact (ih true).skip

/-- Shared statements are reported one by one, each on its own line. -/
theorem reportsOn_overlapsFrom (o : Ownership) (seen : List (Nat × Nat))
    (xs : List (Placed × Nat)) :
    ReportsOn (xs.map fun x => x.1.line) (overlapsFrom o seen xs) := by
  induction xs generalizing seen with
  | nil => exact .nil
  | cons x xs ih =>
      obtain ⟨s, i⟩ := x
      rw [overlapsFrom]
      split
      · split
        · exact (ih seen).skip
        · exact (ih _).single _
      · exact (ih seen).skip

/-- Nothing is said twice about the registers of a routine. -/
theorem nodup_registerIssues (s : Subroutine) (t : RegisterTable) :
    (registerIssues a s t).Nodup := by
  have hall : Reg.listed.Nodup := by decide
  have hsaved : Reg.calleeSaved.Nodup := by decide
  rw [registerIssues]
  split
  · exact (hall.filter _).map fun x y heq => Issue.uninitializedRead.inj heq
  · exact (hsaved.filter _).map fun x y heq => Issue.unsavedRegister.inj heq

/-- Routines are reported one by one, each on the line of its entry. -/
theorem reportsOn_registerFindings :
    ReportsOn (a.last.subroutines.map fun s => a.program.lineOf s.entry) (registerFindings a) := by
  rw [registerFindings]
  induction a.last.subroutines with
  | nil => exact .nil
  | cons s ss ih =>
      rw [List.map_cons, List.flatMap_cons]
      cases s.block with
      | none => exact ih.skip
      | some b => exact .cons (nodup_registerIssues a s _) ih

/-! ## No two passes report the same -/

end Analysis

/-- The pass that reports an issue. -/
def Issue.pass : Issue → Nat
  | .fault _ => 0
  | .outsideProgram | .codeInData | .dataInText | .afterEnd => 1
  | .unreachable | .deadStore | .neverTaken | .alwaysTaken | .redundantCondition _ => 2
  | .subroutineOverlap _ => 3
  | .uninitializedRead _ | .unsavedRegister _ => 4

/-- Findings of the first `n` passes, none of them twice. -/
structure OfPasses (n : Nat) (fs : List Finding) : Prop where
  nodup : fs.Nodup
  pass : ∀ f ∈ fs, f.issue.pass < n

/-- One more pass adds findings of its own. -/
theorem OfPasses.append {n : Nat} {fs gs : List Finding} (h : OfPasses n fs) (hgs : gs.Nodup)
    (hpass : ∀ g ∈ gs, g.issue.pass = n) : OfPasses (n + 1) (fs ++ gs) := by
  refine ⟨List.nodup_append.mpr ⟨h.nodup, hgs, ?_⟩, ?_⟩
  · rintro f hf g hg rfl
    exact absurd (hpass f hg) (Nat.ne_of_lt (h.pass f hf))
  · intro f hf
    rcases List.mem_append.mp hf with hf | hf
    · exact Nat.lt_succ_of_lt (h.pass f hf)
    · exact Nat.lt_succ_of_le (Nat.le_of_eq (hpass f hf))

namespace Analysis

variable {a : Analysis} {f : Finding}

theorem pass_faultFindings {p : Program} (h : f ∈ faultFindings p) : f.issue.pass = 0 := by
  obtain ⟨x, hx⟩ := issue_faultFindings h
  rw [hx]
  rfl

theorem pass_placementFindings {p : Program} (h : f ∈ placementFindings p) :
    f.issue.pass = 1 := by
  rcases issue_placementFindings h with hx | hx | hx | hx <;>
  · rw [hx]
    rfl

/-- What the flow of control gives away belongs to the third pass. -/
theorem pass_flowFindings (h : f ∈ flowFindings a) : f.issue.pass = 2 := by
  rcases issue_flowFrom _ _ h with hx | ⟨s, i, hx⟩
  · rw [hx]
    rfl
  · rcases issue_reachedIssues hx with hx | hx | hx | ⟨codes, hx⟩ <;>
    · rw [hx]
      rfl

theorem pass_overlapFindings (h : f ∈ overlapFindings a) : f.issue.pass = 3 := by
  obtain ⟨other, hx⟩ := issue_overlapsFrom _ _ h
  rw [hx]
  rfl

theorem pass_registerFindings (h : f ∈ registerFindings a) : f.issue.pass = 4 := by
  rcases issue_registerFindings h with ⟨r, hx⟩ | ⟨r, hx⟩ <;>
  · rw [hx]
    rfl

/-! ## All findings -/

/-- Lines tell statements apart. -/
theorem eq_of_lineOf_eq {p : Program} (hlines : (p.statements.toList.map fun s => s.line).Nodup)
    {i j : Nat} (hi : i < p.statements.size) (hj : j < p.statements.size)
    (h : p.lineOf i = p.lineOf j) : i = j := by
  have hget : ∀ {k}, k < p.statements.size →
      (p.statements.toList.map fun s => s.line)[k]? = some (p.lineOf k) := by
    intro k hk
    rw [List.getElem?_map, Array.getElem?_toList, Program.lineOf, Array.getElem?_eq_getElem hk]
    rfl
  refine (List.getElem?_inj ?_ hlines).mp (by rw [hget hi, hget hj, h])
  rw [List.length_map]
  exact hi

/-- Routines start at different statements, so on different lines. -/
theorem nodup_entryLines {p : Program} (hp : p.WellFormed)
    (hlines : (p.statements.toList.map fun s => s.line).Nodup) (arrivals : Arrivals) :
    ((p.round arrivals).subroutines.map fun s => p.lineOf s.entry).Nodup := by
  have hroots : (p.roots.map fun r => p.lineOf r.entry).Nodup := by
    refine List.pairwise_map.mpr (p.pairwise_roots.imp_of_mem ?_)
    intro r s hr hs hne heq
    exact hne.2 (eq_of_lineOf_eq hlines (hp.entry_lt r hr) (hp.entry_lt s hs) heq)
  rw [← p.toRoot_subroutines arrivals, List.map_map] at hroots
  exact hroots

/-- If lines tell statements apart, nothing is reported twice. -/
theorem nodup_rawFindings {arrivals : Arrivals} (hp : a.program.WellFormed)
    (hlast : a.last = a.program.round arrivals)
    (hlines : (a.program.statements.toList.map fun s => s.line).Nodup) : a.rawFindings.Nodup := by
  have hentries : (a.last.subroutines.map fun s => a.program.lineOf s.entry).Nodup := by
    rw [hlast]
    exact nodup_entryLines hp hlines arrivals
  have hfaults := (reportsOn_faultFindings a.program).nodup hlines
  have hplacement := (reportsOn_placementFindings a.program).nodup hlines
  have hzip : (a.program.statements.toList.zipIdx.map fun x => x.1.line).Nodup := by
    rw [← List.zipIdx_map_fst 0 a.program.statements.toList, List.map_map] at hlines
    exact hlines
  have hflow := (reportsOn_flowFrom a false _).nodup hzip
  have hoverlaps := (reportsOn_overlapsFrom a.last.ownership [] _).nodup hzip
  have hregisters := (reportsOn_registerFindings a).nodup hentries
  have hnone : OfPasses 0 [] := ⟨List.nodup_nil, fun f hf => absurd hf List.not_mem_nil⟩
  have hfirst := hnone.append hfaults fun f => pass_faultFindings
  have hsecond := hfirst.append hplacement fun f => pass_placementFindings
  have hthird := hsecond.append hflow fun f => pass_flowFindings
  have hfourth := hthird.append hoverlaps fun f => pass_overlapFindings
  exact (hfourth.append hregisters fun f => pass_registerFindings).nodup

/-- Then the findings are what is reported, sorted. -/
theorem findings_of_nodup (h : a.rawFindings.Nodup) :
    a.findings = a.rawFindings.mergeSort Finding.le :=
  Sorting.eraseReps_of_nodup ((List.mergeSort_perm ..).nodup_iff.mpr h)

/-- Findings are in order, and none is listed twice.  For every source text whose lines can be
    numbered and every valid configuration, after any number of further rounds: the findings are
    listed by line and, for one line, by severity, errors first and notes last.  No finding is in
    the list twice, and each that is reported is there. -/
theorem findings_ordered (source : String) (config : Config) (hvalid : config.validate = .ok ())
    (hlength : (Text.lines source.toList).length < 2 ^ 32) (n : Nat) :
    ∃ a, ofSource source config = .ok a ∧
      (a.rerun n).findings.Pairwise (fun f g => f.line < g.line ∨
        f.line = g.line ∧ f.severity.rank ≤ g.severity.rank) ∧
      (a.rerun n).findings.Nodup ∧
      (a.rerun n).findings.Perm (a.rerun n).rawFindings := by
  refine ⟨ofText source config, ofSource_eq_ok hvalid, ?_⟩
  obtain ⟨hprog, arrivals, hlast⟩ := exists_last_eq_round source config n
  have hlimit : (Text.lines source.toList).length ≤ lineLimit := by
    rw [lineLimit]
    omega
  have hlines : ((Program.assemble source.toList config).statements.toList.map fun s =>
      s.line).Nodup :=
    List.pairwise_map.mpr ((Program.pairwise_line hlimit).imp Nat.ne_of_lt)
  have hp := Program.wellFormed_assemble source.toList config
  rw [← hprog] at hlines hp hlast
  have hnodup := nodup_rawFindings hp hlast hlines
  rw [findings_of_nodup hnodup]
  refine ⟨?_, (List.mergeSort_perm ..).nodup_iff.mpr hnodup, List.mergeSort_perm ..⟩
  exact (List.pairwise_mergeSort Finding.le_trans Finding.le_total _).imp Finding.le_iff.mp

/-- A routine that shares its line with a label and uses two registers that nobody has set, and a
    statement that is never reached. -/
def crowdedLine : String :=
  "e: addl %eax, %ebx\nret\nnop\n"

theorem rawFindings_crowdedLine :
    (Text.lines crowdedLine.toList).length = 3 ∧
      ((ofText crowdedLine {}).rerun 0).rawFindings =
        [⟨0, .fault .sharesLine⟩, ⟨2, .unreachable⟩, ⟨0, .uninitializedRead .eax⟩,
          ⟨0, .uninitializedRead .ebx⟩] := by
  decide +kernel

/-- The four findings are listed once each: the two warnings about the first line, the note about
    it, and the warning about the last line. -/
theorem crowdedLine_ordered :
    ({} : Config).validate = .ok () ∧ (Text.lines crowdedLine.toList).length < 2 ^ 32 ∧
      ∃ a, ofSource crowdedLine {} = .ok a ∧
        (a.rerun 0).findings.Pairwise (fun f g => f.line < g.line ∨
          f.line = g.line ∧ f.severity.rank ≤ g.severity.rank) ∧
        (a.rerun 0).findings.Nodup ∧
        (a.rerun 0).findings.Perm
          [⟨0, .fault .sharesLine⟩, ⟨2, .unreachable⟩, ⟨0, .uninitializedRead .eax⟩,
            ⟨0, .uninitializedRead .ebx⟩] := by
  obtain ⟨hlength, hraw⟩ := rawFindings_crowdedLine
  have hlimit : (Text.lines crowdedLine.toList).length < 2 ^ 32 := by
    rw [hlength]
    decide
  obtain ⟨a, ha, hsorted, hnodup, hperm⟩ := findings_ordered crowdedLine {} rfl hlimit 0
  obtain rfl : a = ofText crowdedLine {} := Except.ok.inj (ha.symm.trans (ofSource_eq_ok rfl))
  rw [hraw] at hperm
  exact ⟨rfl, hlimit, _, ha, hsorted, hnodup, hperm⟩

end Analysis

end AsmCheck
