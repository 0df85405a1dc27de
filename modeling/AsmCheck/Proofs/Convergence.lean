import AsmCheck.Proofs.CodeFlow
import AsmCheck.Proofs.Rounds

/-! # Rounds settle, and what they settle on is exact

    What one round finds out about the jumps prunes the flow of control that
    the next one works on.  The ways that are left out are ways that no code
    goes (`Justified.passes_iff`), so the codes that arrive somewhere are the
    same in every round: those of the sign model (`Justified.arrives_iff`).
    Hence a round on justified knowledge ends with complete knowledge
    (`Justified.round`), of which there is only one, and a round on complete
    knowledge changes nothing any more (`Complete.round_eq`).

    With complete knowledge the links that remain lead exactly where the sign
    model gets (`Complete.reached_iff`). -/

namespace AsmCheck

open Relation

namespace Verdict

variable {test codes : CodeSet}

/-- A test is passed over at times if some code is not among those tested. -/
theorem always_ofTest : (ofTest test codes).always = false ↔ ∃ c, c ∈ codes ∧ ¬ c ∈ test := by
  show (codes \ test).isEmpty = false ↔ _
  rw [← Bool.not_eq_true, EnumSet.isEmpty_iff, EnumSet.eq_empty_iff]
  simp only [EnumSet.mem_sdiff, not_forall, not_not]

/-- It is taken at times if some code is. -/
theorem never_ofTest : (ofTest test codes).never = false ↔ ∃ c, c ∈ codes ∧ c ∈ test := by
  show (codes ∩ test).isEmpty = false ↔ _
  rw [← Bool.not_eq_true, EnumSet.isEmpty_iff, EnumSet.eq_empty_iff]
  simp only [EnumSet.mem_inter, not_forall, not_not]

theorem isRedundant_ofTest :
    (ofTest test codes).isRedundant = true ↔
      (∃ c, c ∈ test ∧ ¬ c ∈ codes) ∨ (ofTest test codes).always = true := by
  show (!(test \ codes).isEmpty || (ofTest test codes).always) = true ↔ _
  rw [Bool.or_eq_true, Bool.not_eq_true', ← Bool.not_eq_true, EnumSet.isEmpty_iff,
    EnumSet.eq_empty_iff]
  simp only [EnumSet.mem_sdiff, not_forall, not_not]

end Verdict

namespace Program

variable {p : Program} {A B : Arrivals}

/-! ## Knowledge about the jumps -/

/-- What is known about the jumps is what the sign model says. -/
structure Justified (p : Program) (A : Arrivals) : Prop where
  size : A.size = p.statements.size
  known : ∀ {i : Nat} {codes : CodeSet}, A[i]? = some (some codes) →
    (∃ test, p.Tests i test) ∧ (∃ c, p.SignReach i c) ∧ ∀ c, c ∈ codes ↔ p.SignReach i c

/-- Something is known about every conditional jump that the sign model gets to. -/
structure Complete (p : Program) (A : Arrivals) : Prop extends Justified p A where
  told : ∀ {i : Nat} {test : CodeSet} {c : CondCode}, p.Tests i test → p.SignReach i c →
    ∃ codes, A[i]? = some (some codes)

theorem justified_noArrivals (p : Program) : p.Justified p.noArrivals where
  size := Array.size_replicate
  known {i codes} h := by
    have hnone := join_noArrivals p i
    rw [h] at hnone
    exact nomatch hnone

/-! ## Pruned ways carry no code -/

/-- Where a statement goes on to depends only on what is known about the statement. -/
theorem nextOf_flow_congr {i : Nat} (h : A[i]?.join = B[i]?.join) :
    (p.flow A).nextOf i = (p.flow B).nextOf i := by
  rw [nextOf_flow, nextOf_flow, nextIn, nextIn, verdictOf, verdictOf, h]

theorem WellFormed.jumpOf_flow_congr (hp : p.WellFormed) {i : Nat}
    (h : A[i]?.join = B[i]?.join) : (p.flow A).jumpOf i = (p.flow B).jumpOf i := by
  rw [hp.jumpOf_flow, hp.jumpOf_flow, jumpIn, jumpIn, verdictOf, verdictOf, h]

theorem verdict_conditional {s : Statement} {test codes : CodeSet}
    (hb : s.branch = some (.conditional test)) :
    s.verdict (some codes) = Verdict.ofTest test codes := by
  unfold Statement.verdict
  rw [hb]

/-- A way on is kept if some code that the sign model gets there with goes it. -/
theorem Justified.nextOf_iff (hp : p.WellFormed) (h : p.Justified A) {i j : Nat} {codes : CodeSet}
    (hi : A[i]?.join = some codes) :
    (p.flow A).nextOf i = some j ↔
      (p.flow p.noArrivals).nextOf i = some j ∧
        ∃ c c', p.SignReach i c ∧ c' ∈ (p.codesOutOf i {c}).fall := by
  obtain ⟨⟨test, htest⟩, -, hmem⟩ := h.known (Option.join_eq_some_iff.mp hi)
  obtain ⟨s, hs, hb⟩ := id htest
  rw [nextOf_flow_eq_some hs, hp.nextOf_noArrivals hs, hi, verdict_conditional hb,
    Verdict.always_ofTest]
  constructor
  · rintro ⟨hcode, hgoes, ⟨c, hc, hnot⟩, hon⟩
    exact ⟨⟨hcode, hgoes, hon⟩, c, c, (hmem c).mp hc, (htest.mem_fall hp).mpr ⟨rfl, hnot⟩⟩
  · rintro ⟨⟨hcode, hgoes, hon⟩, c, c', hc, hc'⟩
    obtain ⟨rfl, hnot⟩ := (htest.mem_fall hp).mp hc'
    exact ⟨hcode, hgoes, ⟨c', (hmem c').mpr hc, hnot⟩, hon⟩

/-- A jump is kept if some code that the sign model gets there with takes it. -/
theorem Justified.jumpOf_iff (hp : p.WellFormed) (h : p.Justified A) {i j : Nat} {codes : CodeSet}
    (hi : A[i]?.join = some codes) :
    (p.flow A).jumpOf i = some j ↔
      (p.flow p.noArrivals).jumpOf i = some j ∧
        ∃ c c', p.SignReach i c ∧ c' ∈ (p.codesOutOf i {c}).taken := by
  obtain ⟨⟨test, htest⟩, -, hmem⟩ := h.known (Option.join_eq_some_iff.mp hi)
  obtain ⟨s, hs, hb⟩ := id htest
  rw [hp.jumpOf_flow_eq_some hs, hp.jumpOf_noArrivals, hi, verdict_conditional hb,
    Verdict.never_ofTest]
  constructor
  · rintro ⟨⟨c, hc, hin⟩, hto⟩
    exact ⟨hto, c, c, (hmem c).mp hc, (htest.mem_taken hp).mpr ⟨rfl, hin⟩⟩
  · rintro ⟨hto, c, c', hc, hc'⟩
    obtain ⟨rfl, hin⟩ := (htest.mem_taken hp).mp hc'
    exact ⟨⟨c', (hmem c').mpr hc, hin⟩, hto⟩

/-- Where the sign model gets, codes are passed on as if nothing were known about the jumps. -/
theorem Justified.passes_iff (hp : p.WellFormed) (h : p.Justified A) {i j : Nat}
    {c c' : CondCode} (hc : p.SignReach i c) :
    p.Passes (p.flow A) i c j c' ↔ p.Passes (p.flow p.noArrivals) i c j c' := by
  cases hi : A[i]?.join with
  | none =>
      -- nothing is known about the statement itself, so its ways are the same
      have hjoin : A[i]?.join = p.noArrivals[i]?.join := hi.trans (join_noArrivals p i).symm
      have hnext := nextOf_flow_congr (p := p) hjoin
      have hjump := hp.jumpOf_flow_congr hjoin
      constructor
      · intro hpass
        cases hpass with
        | fall hn code out => exact .fall (hnext ▸ hn) code out
        | taken hj code own out => exact .taken (hjump ▸ hj) code own out
      · intro hpass
        cases hpass with
        | fall hn code out => exact .fall (hnext.symm ▸ hn) code out
        | taken hj code own out => exact .taken (hjump.symm ▸ hj) code own out
  | some codes =>
      -- a way that is left out is one that `c` does not go
      constructor
      · intro hpass
        cases hpass with
        | fall hn code out => exact .fall ((h.nextOf_iff hp hi).mp hn).1 code out
        | taken hj code own out => exact .taken ((h.jumpOf_iff hp hi).mp hj).1 code own out
      · intro hpass
        cases hpass with
        | fall hn code out =>
            exact .fall ((h.nextOf_iff hp hi).mpr ⟨hn, c, c', hc, out⟩) code out
        | taken hj code own out =>
            exact .taken ((h.jumpOf_iff hp hi).mpr ⟨hj, c, c', hc, out⟩) code own out

/-- Whatever has been found out so far, control arrives with the codes of the sign model. -/
theorem Justified.arrives_iff (hp : p.WellFormed) (h : p.Justified A) {i : Nat} {c : CondCode} :
    p.Arrives (p.flow A) i c ↔ p.SignReach i c := by
  constructor
  · intro harr
    induction harr with
    | root hroot => exact hp.signReach_iff.mpr (.root hroot)
    | step _ hpass ih =>
        exact hp.signReach_iff.mpr (.step (hp.signReach_iff.mp ih) ((h.passes_iff hp ih).mp hpass))
  · intro hreach
    rw [hp.signReach_iff] at hreach
    induction hreach with
    | root hroot => exact .root hroot
    | step hprev hpass ih =>
        exact .step ih ((h.passes_iff hp (hp.signReach_iff.mpr hprev)).mpr hpass)

/-! ## A round completes what is known -/

theorem arrivals_round (p : Program) (A : Arrivals) :
    (p.round A).arrivals =
      p.arrivalsAfter (p.cut (p.flow A)).blocks (p.codeFlow (p.flow A)) A := rfl

/-- A round on justified knowledge leaves complete knowledge. -/
theorem Justified.round (hp : p.WellFormed) (h : p.Justified A) :
    p.Complete (p.round A).arrivals := by
  have hf := hp.allows_flow A
  have harr : ∀ {i}, (∃ c, p.Arrives (p.flow A) i c) ↔ ∃ c, p.SignReach i c :=
    exists_congr fun c => h.arrives_iff hp
  rw [arrivals_round]
  refine ⟨⟨?_, ?_⟩, ?_⟩
  · rw [size_arrivalsAfter]
    exact h.size
  · intro i codes hi
    -- what is known stems from this round or from before
    by_cases hseen : (∃ test, p.Tests i test) ∧ ∃ c, p.Arrives (p.flow A) i c
    · obtain ⟨⟨test, htest⟩, hc⟩ := hseen
      obtain ⟨codes', hi', hmem⟩ := arrivalsAfter_of_arrives hp hf h.size htest hc
      rw [hi, Option.some.injEq, Option.some.injEq] at hi'
      subst hi'
      exact ⟨⟨test, htest⟩, harr.mp hc, fun c => (hmem c).trans (h.arrives_iff hp)⟩
    · rw [arrivalsAfter_of_not_arrives hp hf hseen] at hi
      exact h.known hi
  · intro i test c htest hc
    obtain ⟨codes, hi, -⟩ := arrivalsAfter_of_arrives hp hf h.size htest (harr.mpr ⟨c, hc⟩)
    exact ⟨codes, hi⟩

/-- There is only one complete knowledge. -/
theorem Complete.unique (hA : p.Complete A) (hB : p.Complete B) : A = B := by
  refine Array.ext_getElem? fun i => ?_
  -- what one of the two knows about a jump the other knows too
  have hsome : ∀ {A B : Arrivals}, p.Complete A → p.Complete B → ∀ {codes},
      A[i]? = some (some codes) → B[i]? = some (some codes) := by
    intro A B hA hB codes hi
    obtain ⟨⟨test, htest⟩, ⟨c, hc⟩, hmem⟩ := hA.known hi
    obtain ⟨codes', hi'⟩ := hB.told htest hc
    rw [hi', Option.some.injEq, Option.some.injEq]
    ext d
    rw [hmem d, (hB.known hi').2.2 d]
  have hnone : A[i]? = none ↔ B[i]? = none := by
    rw [Array.getElem?_eq_none_iff, Array.getElem?_eq_none_iff, hA.size, hB.size]
  cases hi : A[i]? with
  | none => exact (hnone.mp hi).symm
  | some a =>
      cases a with
      | some codes => exact (hsome hA hB hi).symm
      | none =>
          cases hi' : B[i]? with
          | none => rw [hnone.mpr hi'] at hi; exact nomatch hi
          | some b =>
              cases b with
              | none => rfl
              | some codes => rw [hsome hB hA hi'] at hi; exact nomatch hi

/-- A round on complete knowledge finds out nothing new. -/
theorem Complete.round_eq (hp : p.WellFormed) (h : p.Complete A) : (p.round A).arrivals = A :=
  (h.round hp).unique h

/-- With complete knowledge, a link out of a statement that the sign model gets to is gone with some
    code. -/
theorem Complete.exists_passes (hp : p.WellFormed) (h : p.Complete A) {i j : Nat} {c₀ : CondCode}
    (hc₀ : p.SignReach i c₀) (hlink : p.Link (p.flow A) i j) :
    ∃ c c', p.SignReach i c ∧ p.Passes (p.flow A) i c j c' := by
  by_cases htests : ∃ test, p.Tests i test
  · obtain ⟨test, htest⟩ := htests
    obtain ⟨codes, hi⟩ := h.told htest hc₀
    rw [← Option.join_eq_some_iff] at hi
    cases hlink with
    | next hnext code =>
        obtain ⟨-, c, c', hc, out⟩ := (h.nextOf_iff hp hi).mp hnext
        exact ⟨c, c', hc, .fall hnext code out⟩
    | jump hjump code own =>
        obtain ⟨-, c, c', hc, out⟩ := (h.jumpOf_iff hp hi).mp hjump
        exact ⟨c, c', hc, .taken hjump code own out⟩
  · -- anything but a conditional jump passes on the code at hand
    refine ⟨c₀, c₀, hc₀, ?_⟩
    cases hlink with
    | next hnext code =>
        obtain ⟨s, hs, -⟩ := test_eq_true.mp ((hp.allows_flow A).next hnext).1
        refine .fall hnext code ?_
        rw [codesOutOf_some hs]
        exact Statement.mem_fall_codesOut (fun test hb => htests ⟨test, s, hs, hb⟩) c₀
    | jump hjump code own =>
        obtain ⟨s, hs, hctl⟩ := test_eq_true.mp (hp.target_control ((hp.allows_flow A).jump hjump))
        rw [← (hp.sound hs).isSome_branch, Option.isSome_iff_exists] at hctl
        obtain ⟨b, hb⟩ := hctl
        refine .taken hjump code own ?_
        rw [codesOutOf_some hs]
        refine (hp.sound hs).mem_taken_codesOut hb (fun test hcond => ?_) c₀
        exact htests ⟨test, s, hs, hcond ▸ hb⟩

/-- With complete knowledge, links lead exactly where the sign model gets. -/
theorem Complete.reached_iff (hp : p.WellFormed) (h : p.Complete A) {i : Nat} :
    p.Reached (p.flow A) i ↔ ∃ c, p.SignReach i c := by
  constructor
  · rintro ⟨r, hr, hpath⟩
    induction hpath with
    | refl => exact ⟨.zero, hp.signReach_iff.mpr (.root hr)⟩
    | tail _ hlink ih =>
        obtain ⟨c₀, hc₀⟩ := ih
        obtain ⟨c, c', hc, hpass⟩ := h.exists_passes hp hc₀ hlink
        exact ⟨c', (h.arrives_iff hp).mp (.step ((h.arrives_iff hp).mpr hc) hpass)⟩
  · rintro ⟨c, hc⟩
    exact ((h.arrives_iff hp).mpr hc).reached

end Program

/-! ## Exact verdicts -/

/-- What a round says about a conditional jump on the codes `test` is right if the jump can be
    executed with exactly the codes that `arrives` holds of. -/
structure Round.Judges (p : Program) (r : Round) (i : Nat) (test : CodeSet)
    (arrives : CondCode → Prop) : Prop where
  never : Flag.neverTaken ∈ r.flagsOf p i ↔ ∀ c, arrives c → ¬ c ∈ test
  always : Flag.alwaysTaken ∈ r.flagsOf p i ↔ ∀ c, arrives c → c ∈ test
  /-- The redundant codes are those that are tested though they cannot hold. -/
  redundant : ∀ c, c ∈ (p.verdictOf r.arrivals i).redundant ↔ c ∈ test ∧ ¬ arrives c
  /-- A test is too wide if it has redundant codes or lets nothing pass. -/
  isRedundant : Flag.redundantTest ∈ r.flagsOf p i ↔
    (∃ c, c ∈ test ∧ ¬ arrives c) ∨ ∀ c, arrives c → c ∈ test

/-- What a round says about a conditional jump on the codes `test` is what the sign model can do
    there. -/
def Round.IsExactAt (p : Program) (r : Round) (i : Nat) (test : CodeSet) : Prop :=
  r.Judges p i test (p.SignReach i)

namespace Program

variable {p : Program} {A : Arrivals}

/-- A round judges a conditional jump by the codes that it knows to arrive there. -/
theorem WellFormed.judges (hp : p.WellFormed) {r : Round} {i : Nat} {test codes : CodeSet}
    {arrives : CondCode → Prop} (htest : p.Tests i test)
    (hi : r.arrivals[i]? = some (some codes)) (hmem : ∀ c, c ∈ codes ↔ arrives c) :
    r.Judges p i test arrives := by
  obtain ⟨s, hs, hb⟩ := htest
  have hverdict : p.verdictOf r.arrivals i = Verdict.ofTest test codes := by
    rw [verdictOf_some hs, Option.join_eq_some_iff.mpr hi, verdict_conditional hb]
  have halways : (Verdict.ofTest test codes).always = true ↔ ∀ c, arrives c → c ∈ test := by
    rw [← Bool.not_eq_false, Verdict.always_ofTest]
    simp only [hmem, not_exists, not_and, not_not]
  have hnever : (Verdict.ofTest test codes).never = true ↔ ∀ c, arrives c → ¬ c ∈ test := by
    rw [← Bool.not_eq_false, Verdict.never_ofTest]
    simp only [hmem, not_exists, not_and]
  refine ⟨?_, ?_, ?_, ?_⟩
  · rw [Round.verdict_mem_flagsOf hp (Or.inl rfl), hverdict, Verdict.mem_flags, ← hnever]
    simp
  · rw [Round.verdict_mem_flagsOf hp (Or.inr (Or.inl rfl)), hverdict, Verdict.mem_flags, ← halways]
    simp
  · intro d
    rw [hverdict, ← hmem d]
    exact EnumSet.mem_sdiff
  · rw [Round.verdict_mem_flagsOf hp (Or.inr (Or.inr rfl)), hverdict, Verdict.mem_flags, ← halways]
    simp only [← hmem, ← Verdict.isRedundant_ofTest]
    simp

/-- With complete knowledge the verdicts on the jumps that the sign model gets to are exact. -/
theorem Complete.isExactAt (hp : p.WellFormed) (h : p.Complete A) {i : Nat} {test : CodeSet}
    {c : CondCode} (htest : p.Tests i test) (hc : p.SignReach i c) :
    (p.round A).IsExactAt p i test := by
  obtain ⟨codes, hi⟩ := h.told htest hc
  have hmem := (h.known hi).2.2
  rw [← h.round_eq hp] at hi
  exact hp.judges htest hi hmem

/-! ## Analyses settle -/

/-- A round that says nothing new about a program at the start has nothing to start from. -/
theorem WellFormed.not_isRoot_of_print (hp : p.WellFormed)
    (h : (p.round A).print p = p.firstPrint) (i : Nat) : ¬ p.IsRoot i := by
  intro hroot
  have hfound : Flag.found ∈ (p.round A).flagsOf p i := hp.found_round.mpr hroot.reached
  obtain ⟨s, hs, -⟩ := test_eq_true.mp (hp.isCode_of_isRoot hroot)
  have hlt : i < p.statements.size := (Array.getElem?_eq_some_iff.mp hs).1
  -- at first an entry is not flagged as found
  have hflags : (p.round A).flagsOf p i = s.flags := by
    have hget : ((p.round A).print p)[i]? = p.firstPrint[i]? := by rw [h]
    rw [Round.print, firstPrint, Array.getElem?_map, Array.getElem?_map, Array.getElem?_range,
      if_pos hlt, hs] at hget
    exact congrArg Print.flags (Option.some.inj hget)
  rw [hflags, Statement.flags, EnumSet.mem_union, EnumSet.mem_when, EnumSet.mem_singleton] at hfound
  rcases hfound with hfault | ⟨-, heq⟩
  · exact (hp.sound hs).spelling .found hfault (by decide)
  · exact nomatch heq

/-- If there is nothing to start from, knowing nothing is complete. -/
theorem WellFormed.complete_noArrivals (hp : p.WellFormed) (h : ∀ i, ¬ p.IsRoot i) :
    p.Complete p.noArrivals := by
  refine ⟨justified_noArrivals p, ?_⟩
  rintro i test c - ⟨start, c₀, hstart, -⟩
  exact absurd (hp.isRoot_iff.mpr hstart) (h start)

end Program

namespace Analysis

variable {p : Program}

/-- With two rounds or more, an analysis ends within three with the outcome of a round on complete
    knowledge. -/
theorem settle_complete (hp : p.WellFormed) (fuel : Nat) :
    (settle p (fuel + 1) 1 p.firstPrint (p.round p.noArrivals)).1 ≤ 3 ∧
      ∃ A, p.Complete A ∧
        (settle p (fuel + 1) 1 p.firstPrint (p.round p.noArrivals)).2 = p.round A := by
  have hfirst : p.Complete (p.round p.noArrivals).arrivals := (p.justified_noArrivals).round hp
  by_cases hprint : (p.round p.noArrivals).print p = p.firstPrint
  · -- nothing starts anywhere, so the first round is the last
    rw [settle_same hprint]
    exact ⟨Nat.le_add_left 1 2, _, hp.complete_noArrivals (hp.not_isRoot_of_print hprint), rfl⟩
  rw [settle_more hprint]
  by_cases hsecond : (p.round (p.round p.noArrivals).arrivals).print p =
      (p.round p.noArrivals).print p
  · rw [settle_same hsecond]
    exact ⟨Nat.le_add_left 2 1, _, hfirst, rfl⟩
  cases fuel with
  | zero =>
      rw [settle_stop]
      exact ⟨Nat.le_add_left 2 1, _, hfirst, rfl⟩
  | succ fuel =>
      -- the third round repeats the second
      rw [settle_more hsecond, hfirst.round_eq hp, settle_same rfl]
      exact ⟨Nat.le_refl 3, _, hfirst, rfl⟩

/-- An analysis with two rounds or more ends within three, with complete knowledge. -/
theorem ofText_complete (source : String) {config : Config} (hrounds : 2 ≤ config.maxRounds) :
    (ofText source config).rounds ≤ 3 ∧
      ∃ A, (Program.assemble source.toList config).Complete A ∧
        (ofText source config).last = (Program.assemble source.toList config).round A := by
  obtain ⟨fuel, hfuel⟩ : ∃ fuel, config.maxRounds - 1 = fuel + 1 :=
    ⟨config.maxRounds - 2, by omega⟩
  have h := settle_complete (Program.wellFormed_assemble source.toList config) fuel
  rw [← hfuel] at h
  exact h

/-- Once knowledge is complete, going on changes nothing but the number of rounds. -/
theorem rerun_eq {a : Analysis} (hp : a.program.WellFormed) {A : Arrivals}
    (hA : a.program.Complete A) (hlast : a.last = a.program.round A) (n : Nat) :
    a.rerun n = { a with rounds := a.rounds + n } := by
  induction n with
  | zero => rfl
  | succ n ih =>
      rw [rerun_succ, ih, again]
      dsimp only
      rw [hlast, hA.round_eq hp]
      rfl

/-- Analyses settle: with two rounds or more, at most three are run, and any number of further
    rounds changes nothing but their count. -/
theorem settles (source : String) (config : Config) (hvalid : config.validate = .ok ())
    (hrounds : 2 ≤ config.maxRounds) :
    ∃ a, ofSource source config = .ok a ∧ a.rounds ≤ 3 ∧
      ∀ n, a.rerun n = { a with rounds := a.rounds + n } ∧ (a.rerun n).again.2 = false := by
  obtain ⟨hcount, A, hA, hlast⟩ := ofText_complete source hrounds
  refine ⟨ofText source config, ofSource_eq_ok hvalid, hcount, fun n => ?_⟩
  have hp := Program.wellFormed_assemble source.toList config
  have hrerun := rerun_eq (a := ofText source config) hp hA hlast n
  refine ⟨hrerun, ?_⟩
  rw [hrerun, again]
  dsimp only
  rw [hlast, hA.round_eq hp]
  exact decide_eq_false fun hnew => hnew rfl

theorem countdown_settles :
    ({} : Config).validate = .ok () ∧ 2 ≤ ({} : Config).maxRounds ∧
      ∃ a, ofSource countdown {} = .ok a ∧ a.rounds ≤ 3 ∧
        a.rerun 5 = { a with rounds := a.rounds + 5 } ∧ (a.rerun 5).again.2 = false := by
  have hrounds : 2 ≤ ({} : Config).maxRounds := by decide
  obtain ⟨a, ha, hcount, hagain⟩ := settles countdown {} rfl hrounds
  exact ⟨rfl, hrounds, a, ha, hcount, hagain 5⟩

/-- The outcome is exact for the sign model: with two rounds or more, exactly the statements that
    the sign model gets to are found, and the verdicts on the conditional jumps among them are what
    it can do there. -/
theorem verdicts_exact (source : String) (config : Config) (hvalid : config.validate = .ok ())
    (hrounds : 2 ≤ config.maxRounds) :
    ∃ a, ofSource source config = .ok a ∧
      (∀ i, Flag.found ∈ a.last.flagsOf a.program i ↔ ∃ c, a.program.SignReach i c) ∧
      ∀ i test, a.program.Tests i test → Flag.found ∈ a.last.flagsOf a.program i →
        a.last.IsExactAt a.program i test := by
  obtain ⟨-, A, hA, hlast⟩ := ofText_complete source hrounds
  have hp := Program.wellFormed_assemble source.toList config
  have hfound : ∀ i, Flag.found ∈ (ofText source config).last.flagsOf
      (Program.assemble source.toList config) i ↔
        ∃ c, (Program.assemble source.toList config).SignReach i c := by
    intro i
    rw [hlast, hp.found_round]
    exact hA.reached_iff hp
  refine ⟨ofText source config, ofSource_eq_ok hvalid, hfound, ?_⟩
  intro i test htest hi
  obtain ⟨c, hc⟩ := (hfound i).mp hi
  rw [hlast]
  exact hA.isExactAt hp htest hc

/-- The jump back of the loop is found, and it can go either way. -/
theorem countdown_verdicts :
    ({} : Config).validate = .ok () ∧ 2 ≤ ({} : Config).maxRounds ∧
      ∃ a, ofSource countdown {} = .ok a ∧ Flag.found ∈ a.last.flagsOf a.program 1 ∧
        ¬ Flag.neverTaken ∈ a.last.flagsOf a.program 1 ∧
        ¬ Flag.alwaysTaken ∈ a.last.flagsOf a.program 1 := by
  have hrounds : 2 ≤ ({} : Config).maxRounds := by decide
  obtain ⟨a, ha, hfound, hexact⟩ := verdicts_exact countdown {} rfl hrounds
  obtain rfl := Except.ok.inj ((ofSource_eq_ok rfl).symm.trans ha)
  have htest : (Program.assemble countdown.toList {}).Tests 1 (EnumSet.compl {.zero}) := by
    have hbranch : ((Program.assemble countdown.toList {}).statements[1]?).bind (·.branch) =
        some (.conditional (EnumSet.compl {.zero})) := by decide +kernel
    exact Option.bind_eq_some_iff.mp hbranch
  -- counting down leaves any code behind
  have hreach : ∀ c, (Program.assemble countdown.toList {}).SignReach 1 c := by
    intro c
    have htext : (Program.assemble countdown.toList {}).entry = some 0 ∧
        (Program.assemble countdown.toList {}).test (·.setsCodes) 0 = true ∧
        (Program.assemble countdown.toList {}).follower 0 = some 1 ∧
        (Program.assemble countdown.toList {}).isCode 1 = true := by decide +kernel
    obtain ⟨hentry, hsets, hon, hcode⟩ := htext
    obtain ⟨s, hs, hsets⟩ := Program.test_eq_true.mp hsets
    exact ⟨0, c, Or.inl hentry, .single (.sets hs hsets hon hcode)⟩
  have hjump := (hfound 1).mpr ⟨.zero, hreach .zero⟩
  refine ⟨rfl, hrounds, _, ha, hjump, ?_, ?_⟩
  · intro hnever
    exact (hexact 1 _ htest hjump).never.mp hnever .positive (hreach _) (by decide)
  · intro halways
    exact absurd ((hexact 1 _ htest hjump).always.mp halways .zero (hreach _)) (by decide)

end Analysis

end AsmCheck
