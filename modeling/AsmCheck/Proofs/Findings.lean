import AsmCheck.Proofs.Rounds
import AsmCheck.Proofs.Sorting
import AsmCheck.Report

/-! # What the findings depend on

    Errors and notes are read off the statements and sections of a program,
    and no round changes the faults among them (`faultFindings_eq_flaggedFaults`);
    all that rounds find out is reported as warnings (`firm_rawFindings`).
    Findings are sorted by line and severity with a stable sort, so that the
    warnings in between do not disturb the others (`firm_findings`).  The
    settings decide where marked routines start and how many rounds are run,
    hence they have no influence on errors and notes (`firm_findings_eq`). -/

namespace AsmCheck

namespace Finding

variable {f g : Finding}

/-- Whether a finding is an error or a note, that is no warning. -/
def isFirm (f : Finding) : Bool :=
  f.severity == .error || f.severity == .info

theorem isFirm_eq_false (hf : f.severity = .warning) : f.isFirm = false := by
  rw [isFirm, hf]
  rfl

/-! ## The order of findings -/

/-- The order of findings: by line, and on one line by severity. -/
theorem le_iff : le f g = true ↔
    f.line < g.line ∨ f.line = g.line ∧ f.severity.rank ≤ g.severity.rank := by
  rw [le, Bool.or_eq_true, Bool.and_eq_true, decide_eq_true_eq, decide_eq_true_eq, beq_iff_eq]

theorem le_trans (f g h : Finding) (hfg : le f g = true) (hgh : le g h = true) :
    le f h = true := by
  rw [le_iff] at hfg hgh ⊢
  omega

theorem le_total (f g : Finding) : (le f g || le g f) = true := by
  rw [Bool.or_eq_true, le_iff, le_iff]
  omega

end Finding

/-- Severities differ in rank. -/
theorem Severity.rank_inj {s t : Severity} (h : s.rank = t.rank) : s = t := by
  cases s <;> cases t <;> first | rfl | cases h

/-- Findings that may stand in either order are of the same severity. -/
theorem Finding.isFirm_eq_of_le (f g : Finding) (hfg : le f g = true) (hgf : le g f = true) :
    f.isFirm = g.isFirm := by
  have hrank : f.severity.rank = g.severity.rank := by
    rw [le_iff] at hfg hgf
    omega
  rw [isFirm, isFirm, Severity.rank_inj hrank]

namespace Analysis

variable {a : Analysis} {f : Finding}

/-! ## What can be reported -/

theorem issue_faultFindings {p : Program} (h : f ∈ faultFindings p) :
    ∃ x, f.issue = .fault x := by
  obtain ⟨s, -, hs⟩ := List.mem_flatMap.mp h
  obtain ⟨x, -, rfl⟩ := List.mem_map.mp hs
  exact ⟨x, rfl⟩

/-- A statement can be misplaced in four ways. -/
theorem misplacement_cases {p : Program} {s : Placed} {x : Issue} (h : misplacement p s = some x) :
    x = .afterEnd ∨ x = .outsideProgram ∨ x = .codeInData ∨ x = .dataInText := by
  rw [misplacement] at h
  split at h
  · cases h
  · split at h
    · cases h
      simp
    all_goals
      split at h
      · cases h
        simp
      · cases h

/-- Misplacement is all that this pass reports. -/
theorem issue_placementFindings {p : Program} (h : f ∈ placementFindings p) :
    f.issue = .afterEnd ∨ f.issue = .outsideProgram ∨ f.issue = .codeInData ∨
      f.issue = .dataInText := by
  obtain ⟨s, -, hs⟩ := List.mem_filterMap.mp h
  obtain ⟨x, hx, rfl⟩ := Option.map_eq_some_iff.mp hs
  exact misplacement_cases hx

theorem eq_of_mem_ite {c : Prop} [Decidable c] {x y : Issue} (h : x ∈ if c then [y] else []) :
    x = y := by
  split at h
  · exact List.mem_singleton.mp h
  · exact absurd h List.not_mem_nil

/-- What can be said about a statement that is reached. -/
theorem issue_reachedIssues {s : Placed} {i : Nat} {x : Issue} (h : x ∈ reachedIssues a s i) :
    x = .deadStore ∨ x = .neverTaken ∨ x = .alwaysTaken ∨ ∃ codes, x = .redundantCondition codes := by
  rw [reachedIssues, List.mem_append] at h
  rcases h with h | h
  · exact Or.inl (eq_of_mem_ite h)
  · split at h
    · rw [List.mem_append, List.mem_append] at h
      rcases h with (h | h) | h
      · exact Or.inr (Or.inl (eq_of_mem_ite h))
      · exact Or.inr (Or.inr (Or.inl (eq_of_mem_ite h)))
      · split at h
        · exact absurd h List.not_mem_nil
        · exact Or.inr (Or.inr (Or.inr ⟨_, List.mem_singleton.mp h⟩))
    · exact absurd h List.not_mem_nil

/-- What the flow of control gives away: a stretch that is not reached, or something about a
    statement that is. -/
theorem issue_flowFrom (inStretch : Bool) (placed : List (Placed × Nat))
    (h : f ∈ flowFrom a inStretch placed) :
    f.issue = .unreachable ∨ ∃ s i, f.issue ∈ reachedIssues a s i := by
  induction placed generalizing inStretch with
  | nil => exact absurd h List.not_mem_nil
  | cons x rest ih =>
      obtain ⟨s, i⟩ := x
      rw [flowFrom] at h
      split at h
      · exact ih inStretch h
      · split at h
        · rcases List.mem_append.mp h with hhere | hlater
          · obtain ⟨issue, hissue, rfl⟩ := List.mem_map.mp hhere
            exact Or.inr ⟨s, i, hissue⟩
          · exact ih false hlater
        · split at h
          · rcases List.mem_cons.mp h with rfl | hlater
            · exact Or.inl rfl
            · exact ih true hlater
          · exact ih true h

/-- All that this pass reports is shared statements. -/
theorem issue_overlapsFrom {o : Ownership} (seen : List (Nat × Nat))
    (placed : List (Placed × Nat)) (h : f ∈ overlapsFrom o seen placed) :
    ∃ other, f.issue = .subroutineOverlap other := by
  induction placed generalizing seen with
  | nil => exact absurd h List.not_mem_nil
  | cons x rest ih =>
      obtain ⟨s, i⟩ := x
      rw [overlapsFrom] at h
      split at h
      · split at h
        · exact ih seen h
        · rcases List.mem_cons.mp h with rfl | hlater
          · exact ⟨_, rfl⟩
          · exact ih _ hlater
      · exact ih seen h

/-- What is reported about a routine is what the table of its block shows, at the line of its
    entry. -/
theorem mem_registerFindings :
    f ∈ registerFindings a ↔ ∃ s ∈ a.last.subroutines, ∃ k, s.block = some k ∧
      f.line = a.program.lineOf s.entry ∧ f.issue ∈ registerIssues a s (a.last.tableOf k) := by
  rw [registerFindings, List.mem_flatMap]
  refine exists_congr fun s => and_congr_right fun _ => ?_
  cases s.block with
  | none => simp
  | some k =>
      constructor
      · intro hf
        obtain ⟨issue, hissue, rfl⟩ := List.mem_map.mp hf
        exact ⟨k, rfl, rfl, hissue⟩
      · rintro ⟨l, hl, hline, hissue⟩
        obtain rfl := Option.some.inj hl
        exact List.mem_map.mpr ⟨f.issue, hissue, by rw [← hline]⟩

/-- Reported about a routine are the values that nobody gave it and the registers that it does not
    hand back. -/
theorem issue_registerFindings (h : f ∈ registerFindings a) :
    (∃ r, f.issue = .uninitializedRead r) ∨ ∃ r, f.issue = .unsavedRegister r := by
  obtain ⟨s, -, k, -, -, hissue⟩ := mem_registerFindings.mp h
  rw [registerIssues] at hissue
  split at hissue
  · obtain ⟨r, -, heq⟩ := List.mem_map.mp hissue
    exact Or.inl ⟨r, heq.symm⟩
  · obtain ⟨r, -, heq⟩ := List.mem_map.mp hissue
    exact Or.inr ⟨r, heq.symm⟩

/-! ## Faults and flags -/

/-- What is reported as a fault is never a verdict of the analysis. -/
theorem not_mem_verdicts_of_mem_reportedFaults :
    ∀ g ∈ reportedFaults, ¬ g ∈ FlagSet.verdicts := by
  decide

/-- The faults among all that is said about the statements after a round. -/
def flaggedFaults (p : Program) (r : Round) : List Finding :=
  p.statements.toList.zipIdx.flatMap fun (s, i) =>
    (reportedFaults.filter (r.flagsOf p i).contains).map fun f =>
      { line := s.line, issue := .fault f }

/-- The faults that are reported are those of the spelling, and no round adds to them or takes one
    away: it makes no difference whether they are read off the statements or off what any round says
    about them. -/
theorem faultFindings_eq_flaggedFaults (p : Program) (r : Round) :
    faultFindings p = flaggedFaults p r := by
  have hread : ∀ x ∈ p.statements.toList.zipIdx,
      reportedFaults.filter x.1.faults.contains =
        reportedFaults.filter (r.flagsOf p x.2).contains := by
    rintro ⟨s, i⟩ hx
    have hs : p.statements[i]? = some s := by
      rw [← Array.getElem?_toList]
      exact List.mem_zipIdx_iff_getElem?.mp hx
    refine List.filter_congr fun g hg => Bool.eq_iff_iff.mpr ?_
    exact (Round.fault_mem_flagsOf hs (not_mem_verdicts_of_mem_reportedFaults g hg)).symm
  calc faultFindings p
      = (p.statements.toList.zipIdx.map Prod.fst).flatMap fun s =>
          (reportedFaults.filter s.faults.contains).map fun f =>
            { line := s.line, issue := .fault f } := by rw [List.zipIdx_map_fst, faultFindings]
    _ = flaggedFaults p r := by
          rw [List.flatMap_map, flaggedFaults, List.flatMap_def, List.flatMap_def]
          refine congrArg List.flatten (List.map_congr_left fun x hx => ?_)
          rw [hread x hx]

/-! ## What rounds find out is a warning -/

/-- What the flow of control gives away is a warning, -/
theorem severity_flowFrom (inStretch : Bool) (placed : List (Placed × Nat))
    (h : f ∈ flowFrom a inStretch placed) : f.severity = .warning := by
  show f.issue.severity = .warning
  rcases issue_flowFrom inStretch placed h with hissue | ⟨s, i, hissue⟩
  · rw [hissue]
    rfl
  · rcases issue_reachedIssues hissue with hx | hx | hx | ⟨codes, hx⟩ <;>
    · rw [hx]
      rfl

/-- a shared statement is one, -/
theorem severity_overlapsFrom {o : Ownership} (seen : List (Nat × Nat))
    (placed : List (Placed × Nat)) (h : f ∈ overlapsFrom o seen placed) :
    f.severity = .warning := by
  obtain ⟨other, hissue⟩ := issue_overlapsFrom seen placed h
  rw [Finding.severity, hissue]
  rfl

/-- and so is whatever is wrong with registers. -/
theorem severity_registerFindings (h : f ∈ registerFindings a) : f.severity = .warning := by
  rcases issue_registerFindings h with ⟨r, hissue⟩ | ⟨r, hissue⟩ <;>
  · rw [Finding.severity, hissue]
    rfl

/-! ## Errors and notes -/

/-- The errors and notes are among what the statements and sections give away. -/
theorem firm_rawFindings (a : Analysis) :
    a.rawFindings.filter Finding.isFirm =
      (faultFindings a.program ++ placementFindings a.program).filter Finding.isFirm := by
  have hnone : ∀ fs : List Finding, (∀ f ∈ fs, f.severity = .warning) →
      fs.filter Finding.isFirm = [] := by
    intro fs hfs
    refine List.filter_eq_nil_iff.mpr fun f hf => ?_
    rw [Finding.isFirm_eq_false (hfs f hf)]
    exact Bool.false_ne_true
  rw [rawFindings, List.filter_append, List.filter_append, List.filter_append,
    hnone (flowFindings a) fun f => severity_flowFrom _ _,
    hnone (overlapFindings a) fun f => severity_overlapsFrom _ _,
    hnone (registerFindings a) fun f => severity_registerFindings, List.append_nil,
    List.append_nil, List.append_nil]

/-- The errors and notes of an analysis, in the order in which they are listed. -/
theorem firm_findings (a : Analysis) :
    a.findings.filter Finding.isFirm =
      (((faultFindings a.program ++ placementFindings a.program).filter
        Finding.isFirm).mergeSort Finding.le).eraseReps := by
  rw [findings, Sorting.filter_sorted Finding.le_trans Finding.le_total Finding.isFirm_eq_of_le,
    firm_rawFindings]

/-- Sorting and dropping repetitions loses no finding. -/
theorem mem_findings : f ∈ a.findings ↔ f ∈ a.rawFindings := by
  rw [findings, Sorting.mem_eraseReps, List.mem_mergeSort]

/-- The settings have no influence on what the statements and sections give away. -/
theorem firm_findings_eq {b : Analysis} {source : String} {c d : Config}
    (ha : a.program = Program.assemble source.toList c)
    (hb : b.program = Program.assemble source.toList d) :
    a.findings.filter Finding.isFirm = b.findings.filter Finding.isFirm := by
  rw [firm_findings, firm_findings, ha, hb]
  rfl

end Analysis

namespace FileReport

/-- Whether there are errors can be told from the errors and notes alone. -/
theorem hasErrors_eq {r s : FileReport}
    (h : r.findings.filter Finding.isFirm = s.findings.filter Finding.isFirm) :
    r.hasErrors = s.hasErrors := by
  have hcount : ∀ r : FileReport, r.count .error =
      (r.findings.filter Finding.isFirm).countP fun f => f.severity == .error := by
    intro r
    rw [count, List.countP_filter]
    refine List.countP_congr fun f _ => ?_
    rw [Bool.and_eq_true, Finding.isFirm, Bool.or_eq_true]
    exact ⟨fun herror => ⟨herror, Or.inl herror⟩, And.left⟩
  rw [hasErrors, hasErrors, hcount r, hcount s, h]

/-- The report on a file that can be read, under usable settings. -/
theorem ofFile_eq_ok {read : Reader} {config : Config} {path source : String}
    (hread : read path = .ok source) (hvalid : config.validate = .ok ()) :
    ofFile read config path = .ok
      { path
        analysis := Analysis.ofText source config
        findings := (Analysis.ofText source config).findings } := by
  rw [ofFile, hread]
  dsimp only
  rw [Analysis.ofSource_eq_ok hvalid]

end FileReport

namespace Analysis

/-- Errors and notes do not depend on the settings: for every source text and any two usable
    settings, however many further rounds are run under either, the errors and notes are the same
    list, and a report on the text has errors under both or under neither. -/
theorem firm_findings_under_settings (source : String) (c d : Config)
    (hc : c.validate = .ok ()) (hd : d.validate = .ok ()) :
    ∃ a b, ofSource source c = .ok a ∧ ofSource source d = .ok b ∧
      (∀ m n, (a.rerun m).findings.filter Finding.isFirm =
        (b.rerun n).findings.filter Finding.isFirm) ∧
      ∀ (read : Reader) (path : String), read path = .ok source →
        ∃ r s, FileReport.ofFile read c path = .ok r ∧ FileReport.ofFile read d path = .ok s ∧
          r.hasErrors = s.hasErrors := by
  refine ⟨ofText source c, ofText source d, ofSource_eq_ok hc, ofSource_eq_ok hd, ?_, ?_⟩
  · intro m n
    exact firm_findings_eq (exists_last_eq_round source c m).1 (exists_last_eq_round source d n).1
  · intro read path hread
    refine ⟨_, _, FileReport.ofFile_eq_ok hread hc, FileReport.ofFile_eq_ok hread hd, ?_⟩
    exact FileReport.hasErrors_eq (firm_findings_eq rfl rfl)

/-- A marked routine whose first statement nobody knows. -/
def unknownStatement : String :=
  "call f\nhlt\n; @SUBROUTINE\nf: bogus\nret\n"

/-- Whether marks count or not, the unknown statement is an error. -/
theorem unknownStatement_under_settings :
    ({} : Config).validate = .ok () ∧
      ({ maxRounds := 1, checksSubroutines := false } : Config).validate = .ok () ∧
      ∃ a b, ofSource unknownStatement {} = .ok a ∧
        ofSource unknownStatement { maxRounds := 1, checksSubroutines := false } = .ok b ∧
        a.findings.filter Finding.isFirm = b.findings.filter Finding.isFirm ∧
        { line := 3, issue := .fault .unknownMnemonic } ∈ a.findings.filter Finding.isFirm ∧
        ∃ r s, FileReport.ofFile (fun _ => .ok unknownStatement) {} "f" = .ok r ∧
          FileReport.ofFile (fun _ => .ok unknownStatement)
            { maxRounds := 1, checksSubroutines := false } "f" = .ok s ∧
          r.hasErrors = s.hasErrors := by
  refine ⟨rfl, by decide +kernel, ?_⟩
  obtain ⟨a, b, ha, hb, hsame, hreports⟩ := firm_findings_under_settings unknownStatement {}
    { maxRounds := 1, checksSubroutines := false } rfl (by decide +kernel)
  refine ⟨a, b, ha, hb, hsame 0 0, ?_, hreports _ "f" rfl⟩
  obtain rfl := Except.ok.inj ((ofSource_eq_ok rfl).symm.trans ha)
  have hfault : ({ line := 3, issue := .fault .unknownMnemonic } : Finding) ∈
      faultFindings (Program.assemble unknownStatement.toList {}) := by
    decide +kernel
  refine List.mem_filter.mpr ⟨mem_findings.mpr ?_, rfl⟩
  simp only [rawFindings, List.mem_append]
  exact Or.inl (Or.inl (Or.inl (Or.inl hfault)))

end Analysis

end AsmCheck
