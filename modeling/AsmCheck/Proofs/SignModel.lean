import AsmCheck.Flow.CodeFlow
import AsmCheck.Proofs.Reachability

/-! # The sign model

    What the program can do as far as signs go: a point of execution is a
    statement and the condition code at hand, and a step goes on to the next
    point.  `SignStep` spells the steps out statement by statement, as the text
    alone decides them; `Arrives` is the same reachability in terms of the
    links of a round and of the transfer of codes through a statement.  With
    nothing known about the jumps the two agree (`signReach_iff`).

    The transfer of codes is additive: what a set of codes turns into is what
    its members turn into (`additive_fall`, `additive_codesThrough`).  That is
    why working with sets loses nothing. -/

namespace AsmCheck

open Relation

/-! ## Additive transfer -/

namespace CodeSet

/-- A transfer of codes that never does more for a set than for its members. -/
structure Additive (F : CodeSet → CodeSet) : Prop where
  mono : ∀ {S T : CodeSet}, (∀ c, c ∈ S → c ∈ T) → ∀ {c}, c ∈ F S → c ∈ F T
  split : ∀ {S : CodeSet}, (∃ c, c ∈ S) → ∀ {c'}, c' ∈ F S → ∃ c ∈ S, c' ∈ F {c}

namespace Additive

variable {F G : CodeSet → CodeSet}

/-- What a set turns into, member by member. -/
theorem mem_iff (hF : Additive F) {S : CodeSet} (hne : ∃ c, c ∈ S) {c' : CondCode} :
    c' ∈ F S ↔ ∃ c ∈ S, c' ∈ F {c} := by
  refine ⟨hF.split hne, ?_⟩
  rintro ⟨c, hc, hc'⟩
  refine hF.mono (fun d hd => ?_) hc'
  rw [EnumSet.mem_singleton.mp hd]
  exact hc

theorem id : Additive fun S => S where
  mono h := h _
  split _ c hc := ⟨c, hc, EnumSet.mem_singleton.mpr rfl⟩

theorem const (T : CodeSet) : Additive fun _ => T where
  mono _ _ hc := hc
  split hne _ hc' := ⟨hne.choose, hne.choose_spec, hc'⟩

/-- Keeping only some codes is additive, -/
theorem inter (T : CodeSet) : Additive fun S => S ∩ T where
  mono h c hc := by
    obtain ⟨hS, hT⟩ := EnumSet.mem_inter.mp hc
    exact EnumSet.mem_inter.mpr ⟨h c hS, hT⟩
  split _ c hc := by
    obtain ⟨hS, hT⟩ := EnumSet.mem_inter.mp hc
    exact ⟨c, hS, EnumSet.mem_inter.mpr ⟨EnumSet.mem_singleton.mpr rfl, hT⟩⟩

/-- and so is keeping all but some, -/
theorem sdiff (T : CodeSet) : Additive fun S => S \ T where
  mono h c hc := by
    obtain ⟨hS, hT⟩ := EnumSet.mem_sdiff.mp hc
    exact EnumSet.mem_sdiff.mpr ⟨h c hS, hT⟩
  split _ c hc := by
    obtain ⟨hS, hT⟩ := EnumSet.mem_sdiff.mp hc
    exact ⟨c, hS, EnumSet.mem_sdiff.mpr ⟨EnumSet.mem_singleton.mpr rfl, hT⟩⟩

/-- and doing one after the other. -/
theorem comp (hG : Additive G) (hF : Additive F) : Additive fun S => G (F S) where
  mono h _ hc := hG.mono (fun _ => hF.mono h) hc
  split {S} hne c' hc' := by
    by_cases hmid : ∃ d, d ∈ F S
    · obtain ⟨d, hd, hdc⟩ := hG.split hmid hc'
      obtain ⟨c, hc, hcd⟩ := hF.split hne hd
      exact ⟨c, hc, (hG.mem_iff ⟨d, hcd⟩).mpr ⟨d, hcd, hdc⟩⟩
    · -- nothing comes out of the first transfer, so any member will do
      obtain ⟨c, hc⟩ := hne
      exact ⟨c, hc, hG.mono (fun d hd => absurd ⟨d, hd⟩ hmid) hc'⟩

end Additive

end CodeSet

open CodeSet (Additive)

namespace Statement

/-- What goes on from a statement is additive in the codes that come to it, -/
theorem additive_fall (s : Statement) : Additive fun S => (s.codesOut S).fall := by
  unfold codesOut
  by_cases hsets : s.setsCodes = true
  · simp only [if_pos hsets]
    exact .const _
  · simp only [if_neg hsets]
    cases s.branch with
    | none => exact .id
    | some b =>
        cases b with
        | jump => exact .id
        | conditional test => exact .sdiff test
        | untracked => exact .id
        | call => exact .const _

/-- and so is what is jumped away with. -/
theorem additive_taken (s : Statement) : Additive fun S => (s.codesOut S).taken := by
  unfold codesOut
  by_cases hsets : s.setsCodes = true
  · simp only [if_pos hsets]
    exact .const _
  · simp only [if_neg hsets]
    cases s.branch with
    | none => exact .const _
    | some b =>
        cases b with
        | jump => exact .id
        | conditional test => exact .inter test
        | untracked => exact .id
        | call => exact .id

/-- What transfers control sets no code. -/
theorem Sound.keeps_of_branch {s : Statement} (h : s.Sound) {b : Branch} (hb : s.branch = some b) :
    s.setsCodes = false := by
  refine Bool.eq_false_iff.mpr fun hsets => ?_
  rw [(h.plain_of_setsCodes hsets).1] at hb
  exact nomatch hb

/-- Only a conditional jump keeps a code from going on. -/
theorem mem_fall_codesOut {s : Statement} (h : ∀ test, s.branch ≠ some (.conditional test))
    (c : CondCode) : c ∈ (s.codesOut {c}).fall := by
  unfold codesOut
  by_cases hsets : s.setsCodes = true
  · simp [hsets]
  · cases hb : s.branch with
    | none => simp [hsets]
    | some b =>
        cases b with
        | jump => simp [hsets]
        | conditional test => exact absurd hb (h test)
        | untracked => simp [hsets]
        | call => simp [hsets]

/-- Only a conditional jump keeps a code from being jumped away with. -/
theorem Sound.mem_taken_codesOut {s : Statement} (hs : s.Sound) {b : Branch}
    (hb : s.branch = some b) (h : ∀ test, b ≠ .conditional test) (c : CondCode) :
    c ∈ (s.codesOut {c}).taken := by
  unfold codesOut
  rw [hs.keeps_of_branch hb, hb]
  cases b with
  | jump => simp
  | conditional test => exact absurd rfl (h test)
  | untracked => simp
  | call => simp

end Statement

namespace Program

variable {p : Program} {f : Flow}

/-- The codes out of a statement of a program are its own. -/
theorem codesOutOf_some {i : Nat} {s : Placed} (h : p.statements[i]? = some s) (codes : CodeSet) :
    p.codesOutOf i codes = s.codesOut codes := by
  rw [codesOutOf, h]
  rfl

/-- Where there is no statement, codes go on as they are. -/
theorem codesOutOf_none {i : Nat} (h : p.statements[i]? = none) (codes : CodeSet) :
    p.codesOutOf i codes = { fall := codes, taken := ∅ } := by
  rw [codesOutOf, h]
  rfl

theorem additive_fall (p : Program) (i : Nat) : Additive fun S => (p.codesOutOf i S).fall := by
  cases hs : p.statements[i]? with
  | none =>
      simp only [codesOutOf_none hs]
      exact .id
  | some s =>
      simp only [codesOutOf_some hs]
      exact s.additive_fall

theorem additive_taken (p : Program) (i : Nat) : Additive fun S => (p.codesOutOf i S).taken := by
  cases hs : p.statements[i]? with
  | none =>
      simp only [codesOutOf_none hs]
      exact .const ∅
  | some s =>
      simp only [codesOutOf_some hs]
      exact s.additive_taken

/-- What comes through a run of statements is additive. -/
theorem additive_codesThrough (p : Program) (is : List Nat) : Additive (p.codesThrough is) := by
  induction is with
  | nil => exact .id
  | cons i is ih => exact ih.comp (p.additive_fall i)

/-- Statement `i` is a conditional jump on the codes `test`. -/
def Tests (p : Program) (i : Nat) (test : CodeSet) : Prop :=
  ∃ s, p.statements[i]? = some s ∧ s.branch = some (.conditional test)

/-- A conditional jump is passed over with a code that it does not test, -/
theorem Tests.mem_fall (hp : p.WellFormed) {i : Nat} {test : CodeSet} (h : p.Tests i test)
    {c c' : CondCode} : c' ∈ (p.codesOutOf i {c}).fall ↔ c' = c ∧ ¬ c' ∈ test := by
  obtain ⟨s, hs, hb⟩ := h
  rw [codesOutOf_some hs, Statement.codesOut, (hp.sound hs).keeps_of_branch hb, hb]
  exact EnumSet.mem_sdiff.trans (and_congr_left' EnumSet.mem_singleton)

/-- and taken with one that it tests. -/
theorem Tests.mem_taken (hp : p.WellFormed) {i : Nat} {test : CodeSet} (h : p.Tests i test)
    {c c' : CondCode} : c' ∈ (p.codesOutOf i {c}).taken ↔ c' = c ∧ c' ∈ test := by
  obtain ⟨s, hs, hb⟩ := h
  rw [codesOutOf_some hs, Statement.codesOut, (hp.sound hs).keeps_of_branch hb, hb]
  exact EnumSet.mem_inter.trans (and_congr_left' EnumSet.mem_singleton)

/-! ## Steps along links -/

/-- Control goes on along a link from one statement to another, with a code that the first passes
    on. -/
inductive Passes (p : Program) (f : Flow) (i : Nat) (c : CondCode) (j : Nat) (c' : CondCode) :
    Prop where
  | fall (h : f.nextOf i = some j) (code : p.isCode j = true)
      (out : c' ∈ (p.codesOutOf i {c}).fall)
  | taken (h : f.jumpOf i = some j) (code : p.isCode j = true)
      (own : ¬ (p.isCall i = true ∧ p.isStart j = true)) (out : c' ∈ (p.codesOutOf i {c}).taken)

/-- Codes are passed on along links. -/
theorem Passes.link {i j : Nat} {c c' : CondCode} (h : p.Passes f i c j c') : p.Link f i j := by
  cases h with
  | fall h code _ => exact .next h code
  | taken h code own _ => exact .jump h code own

/-- The codes with which control can arrive at a statement: any code at the entries of routines,
    and from there on what is passed. -/
inductive Arrives (p : Program) (f : Flow) : Nat → CondCode → Prop where
  | root {i : Nat} {c : CondCode} (h : p.IsRoot i) : Arrives p f i c
  | step {i j : Nat} {c c' : CondCode} (h : Arrives p f i c) (hpass : p.Passes f i c j c') :
      Arrives p f j c'

/-- Where a code arrives, control comes. -/
theorem Arrives.reached {i : Nat} {c : CondCode} (h : p.Arrives f i c) : p.Reached f i := by
  induction h with
  | root h => exact h.reached
  | step _ hpass ih => exact ih.step hpass.link

/-! ## Steps as the text decides them -/

/-- One step of the sign model, from a statement and the code at hand. -/
inductive SignStep (p : Program) : Nat × CondCode → Nat × CondCode → Prop where
  /-- What sets the code goes on with any code. -/
  | sets {i j : Nat} {s : Placed} {c c' : CondCode} (at_i : p.statements[i]? = some s)
      (h : s.setsCodes = true) (hon : p.follower i = some j) (code : p.isCode j = true) :
      SignStep p (i, c) (j, c')
  /-- A conditional jump is taken with a code that it tests, -/
  | taken {i j : Nat} {s : Placed} {test : CodeSet} {c : CondCode}
      (at_i : p.statements[i]? = some s) (h : s.branch = some (.conditional test)) (hc : c ∈ test)
      (hto : p.targetOf i = some j) (code : p.isCode j = true) : SignStep p (i, c) (j, c)
  /-- and passed over with any other. -/
  | passed {i j : Nat} {s : Placed} {test : CodeSet} {c : CondCode}
      (at_i : p.statements[i]? = some s) (h : s.branch = some (.conditional test))
      (hc : ¬ c ∈ test) (hon : p.follower i = some j) (code : p.isCode j = true) :
      SignStep p (i, c) (j, c)
  /-- An unconditional jump goes to its target. -/
  | jump {i j : Nat} {s : Placed} {c : CondCode} (at_i : p.statements[i]? = some s)
      (h : s.branch = some .jump) (hto : p.targetOf i = some j) (code : p.isCode j = true) :
      SignStep p (i, c) (j, c)
  /-- A jump on some other condition goes either way. -/
  | untracked {i j : Nat} {s : Placed} {c : CondCode} (at_i : p.statements[i]? = some s)
      (h : s.branch = some .untracked) (hto : p.targetOf i = some j ∨ p.follower i = some j)
      (code : p.isCode j = true) : SignStep p (i, c) (j, c)
  /-- A call goes to its target, unless a marked subroutine starts there, -/
  | call {i j : Nat} {s : Placed} {c : CondCode} (at_i : p.statements[i]? = some s)
      (h : s.branch = some .call) (hto : p.targetOf i = some j) (code : p.isCode j = true)
      (own : p.isStart j = false) : SignStep p (i, c) (j, c)
  /-- and comes back with any code. -/
  | returns {i j : Nat} {s : Placed} {c c' : CondCode} (at_i : p.statements[i]? = some s)
      (h : s.branch = some .call) (hon : p.follower i = some j) (code : p.isCode j = true) :
      SignStep p (i, c) (j, c')
  /-- Any other statement that does not end the flow goes on with the code at hand. -/
  | plain {i j : Nat} {s : Placed} {c : CondCode} (at_i : p.statements[i]? = some s)
      (h : s.branch = none) (keeps : s.setsCodes = false) (goes : s.terminates = false)
      (hon : p.follower i = some j) (code : p.isCode j = true) : SignStep p (i, c) (j, c)

/-- The points that the sign model reaches from the program's entry and the marked subroutines,
    entered with any code. -/
def SignReach (p : Program) (i : Nat) (c : CondCode) : Prop :=
  ∃ start c₀, (p.entry = some start ∨ p.isStart start = true) ∧
    ReflTransGen p.SignStep (start, c₀) (i, c)

/-! ## The two agree while nothing is known about the jumps -/

/-- The verdict on a statement follows from the codes that it is known by. -/
theorem verdictOf_some {i : Nat} {s : Placed} (hs : p.statements[i]? = some s)
    (arrivals : Arrivals) : p.verdictOf arrivals i = s.verdict arrivals[i]?.join := by
  rw [verdictOf, hs]
  rfl

/-- A round goes on from a statement to what follows it, unless it is said to be always taken. -/
theorem nextOf_flow_eq_some {arrivals : Arrivals} {i j : Nat} {s : Placed}
    (hs : p.statements[i]? = some s) :
    (p.flow arrivals).nextOf i = some j ↔
      s.isCode = true ∧ s.terminates = false ∧ (s.verdict arrivals[i]?.join).always = false ∧
        p.follower i = some j := by
  rw [nextOf_flow, nextIn, test, hs, verdictOf_some hs, Option.any_some]
  by_cases hcond : (s.isCode && !s.terminates && !(s.verdict arrivals[i]?.join).always) = true
  · rw [if_pos hcond]
    simp only [Bool.and_eq_true, Bool.not_eq_true'] at hcond
    exact ⟨fun h => ⟨hcond.1.1, hcond.1.2, hcond.2, h⟩, fun h => h.2.2.2⟩
  · rw [if_neg hcond]
    constructor
    · intro h
      cases h
    · intro h
      refine absurd ?_ hcond
      rw [h.1, h.2.1, h.2.2.1]
      rfl

/-- A round jumps to the target of a statement, unless it is said to be never taken. -/
theorem WellFormed.jumpOf_flow_eq_some (hp : p.WellFormed) {arrivals : Arrivals} {i j : Nat}
    {s : Placed} (hs : p.statements[i]? = some s) :
    (p.flow arrivals).jumpOf i = some j ↔
      (s.verdict arrivals[i]?.join).never = false ∧ p.targetOf i = some j := by
  rw [hp.jumpOf_flow, jumpIn, verdictOf_some hs]
  by_cases hnever : (s.verdict arrivals[i]?.join).never = true
  · rw [if_pos hnever, hnever]
    constructor
    · intro h
      cases h
    · rintro ⟨h, -⟩
      cases h
  · rw [if_neg hnever]
    exact ⟨fun h => ⟨Bool.eq_false_iff.mpr hnever, h⟩, fun h => h.2⟩

/-- At first nothing is known about any jump. -/
theorem join_noArrivals (p : Program) (i : Nat) : p.noArrivals[i]?.join = none := by
  rw [noArrivals, Array.getElem?_replicate]
  by_cases hi : i < p.statements.size
  · rw [if_pos hi]
    rfl
  · rw [if_neg hi]
    rfl

/-- Unless it never goes on anyway, nothing keeps a statement from going on at first. -/
theorem WellFormed.nextOf_noArrivals (hp : p.WellFormed) {i j : Nat} {s : Placed}
    (hs : p.statements[i]? = some s) :
    (p.flow p.noArrivals).nextOf i = some j ↔
      s.isCode = true ∧ s.terminates = false ∧ p.follower i = some j := by
  rw [nextOf_flow_eq_some hs, join_noArrivals]
  refine ⟨fun h => ⟨h.1, h.2.1, h.2.2.2⟩, fun h => ⟨h.1, h.2.1, ?_, h.2.2⟩⟩
  cases hb : s.branch with
  | none => simp [Statement.verdict, hb]
  | some b =>
      -- only the unconditional jump is always taken, and that one ends the flow
      have hends := (hp.sound hs).terminates_of_branch hb
      rw [h.2.1] at hends
      cases b with
      | jump => exact nomatch hends
      | conditional test => simp [Statement.verdict, hb]
      | untracked => simp [Statement.verdict, hb]
      | call => simp [Statement.verdict, hb]

/-- Nothing keeps a statement from jumping at first. -/
theorem WellFormed.jumpOf_noArrivals (hp : p.WellFormed) {i j : Nat} :
    (p.flow p.noArrivals).jumpOf i = some j ↔ p.targetOf i = some j := by
  refine ⟨(hp.allows_flow _).jump, fun h => ?_⟩
  obtain ⟨s, hs, -⟩ := test_eq_true.mp (hp.target_control h)
  rw [hp.jumpOf_flow_eq_some hs, join_noArrivals]
  refine ⟨?_, h⟩
  cases hb : s.branch with
  | none => simp [Statement.verdict, hb]
  | some b => cases b <;> simp [Statement.verdict, hb]

/-- At first a code that falls out of a statement is passed on to what follows. -/
theorem WellFormed.passes_fall (hp : p.WellFormed) {i j : Nat} {c c' : CondCode} {s : Placed}
    (hcode : p.isCode i = true) (at_i : p.statements[i]? = some s) (goes : s.terminates = false)
    (hon : p.follower i = some j) (code : p.isCode j = true) (out : c' ∈ (s.codesOut {c}).fall) :
    p.Passes (p.flow p.noArrivals) i c j c' := by
  obtain ⟨s', hs', hcode'⟩ := test_eq_true.mp hcode
  rw [at_i, Option.some.injEq] at hs'
  subst hs'
  refine .fall ((hp.nextOf_noArrivals at_i).mpr ⟨hcode', goes, hon⟩) code ?_
  rw [codesOutOf_some at_i]
  exact out

/-- At first a code that is jumped away with is passed on to the target, except for calls of marked
    routines. -/
theorem WellFormed.passes_taken (hp : p.WellFormed) {i j : Nat} {c c' : CondCode} {s : Placed}
    {b : Branch} (at_i : p.statements[i]? = some s) (hb : s.branch = some b)
    (own : b = .call → p.isStart j = false) (hto : p.targetOf i = some j)
    (code : p.isCode j = true) (out : c' ∈ (s.codesOut {c}).taken) :
    p.Passes (p.flow p.noArrivals) i c j c' := by
  refine .taken (hp.jumpOf_noArrivals.mpr hto) code ?_ ?_
  · rintro ⟨hcall, hstart⟩
    obtain ⟨s', hs', hcall'⟩ := test_eq_true.mp hcall
    rw [at_i, Option.some.injEq] at hs'
    subst hs'
    rw [Statement.isCall, hb, beq_iff_eq, Option.some.injEq] at hcall'
    rw [own hcall'] at hstart
    exact nomatch hstart
  · rw [codesOutOf_some at_i]
    exact out

/-- A step of the sign model passes its code along a link. -/
theorem SignStep.passes (hp : p.WellFormed) {i j : Nat} {c c' : CondCode}
    (hcode : p.isCode i = true) (h : p.SignStep (i, c) (j, c')) :
    p.Passes (p.flow p.noArrivals) i c j c' := by
  cases h with
  | sets at_i h hon code =>
      have hplain := (hp.sound at_i).plain_of_setsCodes h
      exact hp.passes_fall hcode at_i hplain.2 hon code (by simp [Statement.codesOut, h])
  | taken at_i h hc hto code =>
      have hkeeps := (hp.sound at_i).keeps_of_branch h
      exact hp.passes_taken at_i h (fun hb => (nomatch hb)) hto code
        (by simp [Statement.codesOut, hkeeps, h, hc])
  | passed at_i h hc hon code =>
      have hkeeps := (hp.sound at_i).keeps_of_branch h
      exact hp.passes_fall hcode at_i ((hp.sound at_i).terminates_of_branch h) hon code
        (by simp [Statement.codesOut, hkeeps, h, hc])
  | jump at_i h hto code =>
      have hkeeps := (hp.sound at_i).keeps_of_branch h
      exact hp.passes_taken at_i h (fun hb => (nomatch hb)) hto code
        (by simp [Statement.codesOut, hkeeps, h])
  | untracked at_i h hto code =>
      have hkeeps := (hp.sound at_i).keeps_of_branch h
      rcases hto with hto | hon
      · exact hp.passes_taken at_i h (fun hb => (nomatch hb)) hto code
          (by simp [Statement.codesOut, hkeeps, h])
      · exact hp.passes_fall hcode at_i ((hp.sound at_i).terminates_of_branch h) hon code
          (by simp [Statement.codesOut, hkeeps, h])
  | call at_i h hto code own =>
      have hkeeps := (hp.sound at_i).keeps_of_branch h
      exact hp.passes_taken at_i h (fun _ => own) hto code
        (by simp [Statement.codesOut, hkeeps, h])
  | returns at_i h hon code =>
      have hkeeps := (hp.sound at_i).keeps_of_branch h
      exact hp.passes_fall hcode at_i ((hp.sound at_i).terminates_of_branch h) hon code
        (by simp [Statement.codesOut, hkeeps, h])
  | plain at_i h keeps goes hon code =>
      exact hp.passes_fall hcode at_i goes hon code (by simp [Statement.codesOut, keeps, h])

/-- A code that is passed along a link is passed in a step of the sign model. -/
theorem Passes.signStep (hp : p.WellFormed) {i j : Nat} {c c' : CondCode}
    (h : p.Passes (p.flow p.noArrivals) i c j c') : p.SignStep (i, c) (j, c') := by
  cases h with
  -- the way the code goes and the kind of branch decide the step
  | fall hnext code out =>
      obtain ⟨hcode, hon⟩ := (hp.allows_flow _).next hnext
      obtain ⟨s, at_i, -⟩ := test_eq_true.mp hcode
      obtain ⟨-, goes, -⟩ := (hp.nextOf_noArrivals at_i).mp hnext
      rw [codesOutOf_some at_i, Statement.codesOut] at out
      by_cases hsets : s.setsCodes = true
      · exact .sets at_i hsets hon code
      · rw [if_neg hsets] at out
        cases hb : s.branch with
        | none =>
            rw [hb] at out
            obtain rfl := EnumSet.mem_singleton.mp out
            exact .plain at_i hb (Bool.eq_false_iff.mpr hsets) goes hon code
        | some b =>
            rw [hb] at out
            cases b with
            | jump =>
                -- an unconditional jump never goes on
                rw [(hp.sound at_i).terminates_of_branch hb] at goes
                exact nomatch goes
            | conditional test =>
                obtain ⟨hc, hnot⟩ := EnumSet.mem_sdiff.mp out
                obtain rfl := EnumSet.mem_singleton.mp hc
                exact .passed at_i hb hnot hon code
            | untracked =>
                obtain rfl := EnumSet.mem_singleton.mp out
                exact .untracked at_i hb (Or.inr hon) code
            | call => exact .returns at_i hb hon code
  | taken hjump code own out =>
      have hto := (hp.allows_flow _).jump hjump
      obtain ⟨s, at_i, -⟩ := test_eq_true.mp (hp.target_control hto)
      rw [codesOutOf_some at_i, Statement.codesOut] at out
      by_cases hsets : s.setsCodes = true
      · rw [if_pos hsets] at out
        exact absurd out (EnumSet.not_mem_empty c')
      · rw [if_neg hsets] at out
        cases hb : s.branch with
        | none =>
            rw [hb] at out
            exact absurd out (EnumSet.not_mem_empty c')
        | some b =>
            rw [hb] at out
            cases b with
            | jump =>
                obtain rfl := EnumSet.mem_singleton.mp out
                exact .jump at_i hb hto code
            | conditional test =>
                obtain ⟨hc, htest⟩ := EnumSet.mem_inter.mp out
                obtain rfl := EnumSet.mem_singleton.mp hc
                exact .taken at_i hb htest hto code
            | untracked =>
                obtain rfl := EnumSet.mem_singleton.mp out
                exact .untracked at_i hb (Or.inl hto) code
            | call =>
                obtain rfl := EnumSet.mem_singleton.mp out
                have hcall : p.isCall i = true :=
                  test_eq_true.mpr ⟨s, at_i, by rw [Statement.isCall, hb]; rfl⟩
                exact .call at_i hb hto code (Bool.eq_false_iff.mpr fun hs => own ⟨hcall, hs⟩)

/-- The sign model reaches what control arrives at while nothing is known about the jumps. -/
theorem WellFormed.signReach_iff (hp : p.WellFormed) {i : Nat} {c : CondCode} :
    p.SignReach i c ↔ p.Arrives (p.flow p.noArrivals) i c := by
  constructor
  · rintro ⟨start, c₀, hstart, hpath⟩
    have hroot : p.Arrives (p.flow p.noArrivals) start c₀ := .root (hp.isRoot_iff.mpr hstart)
    -- the induction is over points, so the pair has to be a variable
    suffices h : ∀ x, ReflTransGen p.SignStep (start, c₀) x →
        p.Arrives (p.flow p.noArrivals) x.1 x.2 from h (i, c) hpath
    intro x hx
    induction hx with
    | refl => exact hroot
    | tail _ hstep ih =>
        exact .step ih (SignStep.passes hp (hp.isCode_of_reached ih.reached) hstep)
  · intro h
    induction h with
    | root hi => exact ⟨_, _, hp.isRoot_iff.mp hi, .refl⟩
    | step _ hpass ih =>
        obtain ⟨start, c₀, hstart, hpath⟩ := ih
        exact ⟨start, c₀, hstart, hpath.tail (hpass.signStep hp)⟩

end Program

end AsmCheck
