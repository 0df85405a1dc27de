import AsmCheck.Analysis
import AsmCheck.Proofs.Blocks
import Mathlib.Logic.Function.Iterate

/-! # What holds after every round

    However many rounds an analysis runs, and however often it is told to go on
    afterwards, its state is always the outcome of one round of its program
    (`exists_last_eq_round`).  So whatever is proved of a round for arbitrary
    knowledge about the jumps holds of every state that an analysis can be in.
    The first such result is that the block graph is the statement graph cut
    into maximal straight runs. -/

namespace AsmCheck

/-! ## Flags -/

namespace Verdict

theorem mem_flags {v : Verdict} {g : Flag} :
    g ∈ v.flags ↔
      (v.never = true ∧ g = .neverTaken) ∨ (v.always = true ∧ g = .alwaysTaken) ∨
        (v.isRedundant = true ∧ g = .redundantTest) := by
  rw [flags, EnumSet.mem_union, EnumSet.mem_union, EnumSet.mem_when, EnumSet.mem_when,
    EnumSet.mem_when, EnumSet.mem_singleton, EnumSet.mem_singleton, EnumSet.mem_singleton,
    or_assoc]

end Verdict

namespace Round

variable {p : Program} {r : Round} {i : Nat}

/-- What the analysis says about a statement, verdict by verdict. -/
theorem mem_flagsOf (hp : p.WellFormed) {g : Flag} (hg : g ∈ FlagSet.verdicts) :
    g ∈ r.flagsOf p i ↔
      g ∈ (p.verdictOf r.arrivals i).flags ∨ (p.isStart i = true ∧ g = .subroutineStart) ∨
        (r.ownership.isFound i = true ∧ g = .found) ∨
          (r.dead[i]?.getD false = true ∧ g = .dead) := by
  -- a verdict is never a fault of spelling
  have hfaults : ¬ g ∈ ((p.statements[i]?).map fun s => s.faults).getD ∅ := by
    cases hs : p.statements[i]? with
    | none => exact EnumSet.not_mem_empty g
    | some s => exact fun h => (hp.sound hs).spelling g h hg
  rw [flagsOf, EnumSet.mem_union, EnumSet.mem_union, EnumSet.mem_union, EnumSet.mem_union,
    EnumSet.mem_when, EnumSet.mem_when, EnumSet.mem_when, EnumSet.mem_singleton,
    EnumSet.mem_singleton, EnumSet.mem_singleton, or_assoc, or_assoc, or_assoc]
  exact ⟨fun h => h.resolve_left hfaults, Or.inr⟩

/-- A statement is flagged as found exactly when some routine owns it. -/
theorem found_mem_flagsOf (hp : p.WellFormed) :
    Flag.found ∈ r.flagsOf p i ↔ r.ownership.isFound i = true := by
  rw [mem_flagsOf hp (by decide), Verdict.mem_flags]
  simp

theorem dead_mem_flagsOf (hp : p.WellFormed) :
    Flag.dead ∈ r.flagsOf p i ↔ r.dead[i]?.getD false = true := by
  rw [mem_flagsOf hp (by decide), Verdict.mem_flags]
  simp

/-- The flags that tell a verdict on a jump are those of the verdict. -/
theorem verdict_mem_flagsOf (hp : p.WellFormed) {g : Flag}
    (hg : g = .neverTaken ∨ g = .alwaysTaken ∨ g = .redundantTest) :
    g ∈ r.flagsOf p i ↔ g ∈ (p.verdictOf r.arrivals i).flags := by
  rcases hg with rfl | rfl | rfl <;>
  · rw [mem_flagsOf hp (by decide)]
    simp

/-- Whatever is no verdict of the analysis is said about a statement exactly if it is a fault of its
    spelling. -/
theorem fault_mem_flagsOf {s : Placed} (hs : p.statements[i]? = some s) {g : Flag}
    (hg : ¬ g ∈ FlagSet.verdicts) : g ∈ r.flagsOf p i ↔ g ∈ s.faults := by
  have hverdict : ¬ g ∈ (p.verdictOf r.arrivals i).flags := by
    rw [Verdict.mem_flags]
    rintro (⟨-, rfl⟩ | ⟨-, rfl⟩ | ⟨-, rfl⟩) <;> exact hg (by decide)
  have hother : ∀ f ∈ FlagSet.verdicts, ∀ c : Bool, ¬ g ∈ EnumSet.when {f} c := by
    intro f hf c hc
    exact hg (EnumSet.mem_singleton.mp (EnumSet.mem_when.mp hc).2 ▸ hf)
  rw [flagsOf, hs, EnumSet.mem_union, EnumSet.mem_union, EnumSet.mem_union, EnumSet.mem_union]
  refine ⟨fun h => ?_, fun h => Or.inl (Or.inl (Or.inl (Or.inl h)))⟩
  rcases h with (((h | h) | h) | h) | h
  · exact h
  · exact absurd h hverdict
  · exact absurd h (hother .subroutineStart (by decide) _)
  · exact absurd h (hother .found (by decide) _)
  · exact absurd h (hother .dead (by decide) _)

/-- The first statement of a block. -/
def firstOf (r : Round) (k : Nat) : Option Nat :=
  (r.blocks[k]?).bind (·.statements.head?)

/-- A block that is a maximal straight run of the links of its round, with the block graph leading
    where the links of its last statement lead. -/
structure IsMaximalRun (p : Program) (r : Round) (b : Block) (last : Nat) : Prop where
  getLast : b.statements.getLast? = some last
  /-- Each statement after the first is what the one before it goes on to. -/
  straight : b.statements.IsChain fun i j => r.flow.nextOf i = some j
  /-- Only the last statement may transfer control. -/
  control : ∀ i ∈ b.statements.dropLast, p.test (·.isControl) i = false
  /-- Nothing but the first statement is the entry of a routine or jumped to. -/
  inside : ∀ i ∈ b.statements.tail,
    ¬ p.IsRoot i ∧ ∀ j, Flag.found ∈ r.flagsOf p j → r.flow.jumpOf j ≠ some i
  next_isSome : (∃ k, b.next = some k) ↔
    ∃ n, r.flow.nextOf last = some n ∧ p.isCode n = true
  /-- What the last statement goes on to is the first statement of the next block. -/
  next_first : ∀ {k n}, b.next = some k → r.flow.nextOf last = some n → r.firstOf k = some n
  branch_isSome : (∃ k, b.branch = some k) ↔
    ∃ t, r.flow.jumpOf last = some t ∧ p.isCode t = true ∧
      ¬ (p.isCall last = true ∧ p.isStart t = true)
  /-- What the last statement jumps to is the first statement of the block branched to. -/
  branch_first : ∀ {k t}, b.branch = some k → r.flow.jumpOf last = some t → r.firstOf k = some t
  /-- A run that no transfer of control ends is cut off by a leader. -/
  maximal : p.test (·.isControl) last = false → ∀ {k n}, b.next = some k → r.firstOf k = some n →
    p.IsRoot n ∨ ∃ j, Flag.found ∈ r.flagsOf p j ∧ r.flow.jumpOf j = some n

end Round

namespace Program

variable {p : Program} {arrivals : Arrivals}

/-- The rounds of a program one after the other, each starting from what the one before it found
    out. -/
def roundAfter (p : Program) : Nat → Round
  | 0 => p.round p.noArrivals
  | n + 1 => p.round (p.roundAfter n).arrivals

theorem exists_roundAfter_eq (p : Program) (n : Nat) : ∃ A, p.roundAfter n = p.round A := by
  cases n with
  | zero => exact ⟨_, rfl⟩
  | succ n => exact ⟨_, rfl⟩

theorem blocks_round (p : Program) (arrivals : Arrivals) :
    (p.round arrivals).blocks = (p.cut (p.flow arrivals)).blocks := rfl

theorem firstOf_round {k i : Nat} :
    (p.round arrivals).firstOf k = some i ↔ (p.cut (p.flow arrivals)).HeadAt k i := by
  rw [Round.firstOf, blocks_round, Cutting.first_blocks]
  exact Iff.rfl

/-- A statement is flagged as found in a round exactly when its links lead there. -/
theorem WellFormed.found_round (hp : p.WellFormed) {i : Nat} :
    Flag.found ∈ (p.round arrivals).flagsOf p i ↔ p.Reached (p.flow arrivals) i := by
  rw [Round.found_mem_flagsOf hp]
  exact hp.isFound_iff

/-- The blocks of a round share out what it finds. -/
theorem WellFormed.found_iff_block (hp : p.WellFormed) {i : Nat} :
    Flag.found ∈ (p.round arrivals).flagsOf p i ↔
      ∃! k : Nat, ∃ b : Block, (p.round arrivals).blocks[k]? = some b ∧ i ∈ b.statements := by
  have hf := hp.allows_flow arrivals
  rw [hp.found_round, blocks_round]
  constructor
  · intro hi
    obtain ⟨s, hs, hmem⟩ := Cutting.exists_head_of_reached hp hf hi
    obtain ⟨k, hk⟩ := hs.exists_headAt hp
    refine ⟨k, ⟨_, Cutting.getElem?_blocks.mpr ⟨s, hk, rfl⟩, hmem⟩, ?_⟩
    rintro l ⟨b, hl, hmem'⟩
    obtain ⟨s', hs', rfl⟩ := Cutting.getElem?_blocks.mp hl
    obtain rfl := Cutting.head_unique hp hf (hs'.isHead hp) hs hmem' hmem
    exact hs'.number_unique hp hk
  · rintro ⟨k, ⟨b, hk, hmem⟩, -⟩
    obtain ⟨s, hs, rfl⟩ := Cutting.getElem?_blocks.mp hk
    exact Cutting.reached_of_mem_run ((hs.isHead hp).reached hp) hmem

/-- Every block of a round is a maximal run. -/
theorem WellFormed.isMaximalRun_round (hp : p.WellFormed) {k : Nat} {b : Block}
    (h : (p.round arrivals).blocks[k]? = some b) :
    ∃ last, (p.round arrivals).IsMaximalRun p b last := by
  have hf := hp.allows_flow arrivals
  rw [blocks_round] at h
  obtain ⟨i, hi, rfl⟩ := Cutting.getElem?_blocks.mp h
  have hhead := hi.isHead hp
  -- a link out of the run's end leads to a head, so to the start of a numbered block
  have hlinked : ∀ {j}, p.Link (p.flow arrivals) ((p.cut (p.flow arrivals)).runEnd i) j →
      ∃ l, (p.cut (p.flow arrivals)).HeadAt l j :=
    fun hlink => (hhead.of_link hp hlink).exists_headAt hp
  refine ⟨(p.cut (p.flow arrivals)).runEnd i, ?_⟩
  refine
    { getLast := Cutting.getLast?_run i
      straight := (Cutting.isChain_run i).imp fun _ _ h => (Cutting.continuation_eq_some.mp h).2.1
      control := ?_
      inside := ?_
      next_isSome := ?_
      next_first := ?_
      branch_isSome := ?_
      branch_first := ?_
      maximal := ?_ }
  · intro j hj
    exact Cutting.not_isControl_of_mem_dropLast hj
  · intro j hj
    obtain ⟨m, hm⟩ := Cutting.exists_continuation_of_mem_tail hj
    obtain ⟨-, -, -, -, -, hleader⟩ := Cutting.continuation_eq_some.mp hm
    have hno := Bool.eq_false_iff.mp hleader
    -- a statement within a run is no leader
    rw [Ne, Cutting.isLeader_cut hp hf] at hno
    refine ⟨fun hroot => hno (Or.inl hroot), fun x hx hjump => hno (Or.inr ⟨x, ?_, hjump⟩)⟩
    exact hp.found_round.mp hx
  · constructor
    · rintro ⟨l, hl⟩
      obtain ⟨n, hnext, hcode, -⟩ := (Cutting.next_blockAt hp).mp hl
      exact ⟨n, hnext, hcode⟩
    · rintro ⟨n, hnext, hcode⟩
      obtain ⟨l, hl⟩ := hlinked (.next hnext hcode)
      exact ⟨l, (Cutting.next_blockAt hp).mpr ⟨n, hnext, hcode, hl⟩⟩
  · intro l n hl hn
    obtain ⟨n', hnext, -, hat⟩ := (Cutting.next_blockAt hp).mp hl
    rw [Option.some.inj (hn.symm.trans hnext)]
    exact firstOf_round.mpr hat
  · constructor
    · rintro ⟨l, hl⟩
      obtain ⟨t, hjump, hcode, hown, -⟩ := (Cutting.branch_blockAt hp).mp hl
      exact ⟨t, hjump, hcode, hown⟩
    · rintro ⟨t, hjump, hcode, hown⟩
      obtain ⟨l, hl⟩ := hlinked (.jump hjump hcode hown)
      exact ⟨l, (Cutting.branch_blockAt hp).mpr ⟨t, hjump, hcode, hown, hl⟩⟩
  · intro l t hl ht
    obtain ⟨t', hjump, -, -, hat⟩ := (Cutting.branch_blockAt hp).mp hl
    rw [Option.some.inj (ht.symm.trans hjump)]
    exact firstOf_round.mpr hat
  · intro hctl l n hl hn
    obtain ⟨n', hnext, hcode, hat⟩ := (Cutting.next_blockAt hp).mp hl
    rw [Cutting.HeadAt.head_unique (firstOf_round.mp hn) hat]
    have hlt := hp.follower_lt (hf.next hnext).2
    -- otherwise the run would have gone on
    have hleader : (p.cut (p.flow arrivals)).isLeader n' = true := by
      cases hl : (p.cut (p.flow arrivals)).isLeader n' with
      | true => rfl
      | false =>
          have hmore := Cutting.continuation_eq_some.mpr
            ⟨hctl, hnext, hlt.1, hlt.2, hcode, hl⟩
          rw [Cutting.continuation_runEnd] at hmore
          exact nomatch hmore
    rcases (Cutting.isLeader_cut hp hf).mp hleader with hroot | ⟨j, hj, hjump⟩
    · exact Or.inl hroot
    · exact Or.inr ⟨j, hp.found_round.mpr hj, hjump⟩

end Program

/-! ## Every state of an analysis -/

namespace Analysis

/-- An analysis that has been told to go on `n` times. -/
def rerun (a : Analysis) (n : Nat) : Analysis :=
  (fun a => a.again.1)^[n] a

theorem rerun_succ (a : Analysis) (n : Nat) : a.rerun (n + 1) = (a.rerun n).again.1 :=
  Function.iterate_succ_apply' _ n a

/-- Under usable settings an analysis never fails. -/
theorem ofSource_eq_ok {source : String} {config : Config} (h : config.validate = .ok ()) :
    ofSource source config = .ok (ofText source config) := by
  rw [ofSource, h]
  rfl

section Settle

variable {p : Program} {fuel count : Nat} {before : Array Program.Print} {r : Round}

theorem settle_same (h : r.print p = before) : settle p fuel count before r = (count, r) := by
  rw [settle.eq_def, if_pos h]

theorem settle_stop : settle p 0 count before r = (count, r) := by
  rw [settle.eq_def]
  exact ite_self _

theorem settle_more (h : r.print p ≠ before) :
    settle p (fuel + 1) count before r =
      settle p fuel (count + 1) (r.print p) (p.round r.arrivals) := by
  rw [settle.eq_def, if_neg h]

end Settle

/-- What an analysis of a source text gives, if the settings allow one. -/
theorem eq_ofText_of_ofSource {source : String} {config : Config} {a : Analysis}
    (h : ofSource source config = .ok a) : a = ofText source config := by
  cases hvalid : config.validate with
  | error e =>
      rw [ofSource, hvalid] at h
      cases h
  | ok u => exact Except.ok.inj (h.symm.trans (ofSource_eq_ok hvalid))

/-- The states of an analysis are the rounds of its program one after the other: settling goes from
    one to the next, and so does every further round. -/
theorem exists_settle_eq_roundAfter (p : Program) :
    ∀ (fuel n : Nat) (before : Array Program.Print),
      ∃ m, settle p fuel (n + 1) before (p.roundAfter n) = (m + 1, p.roundAfter m) := by
  intro fuel
  induction fuel with
  | zero =>
      intro n before
      exact ⟨n, settle_stop⟩
  | succ fuel ih =>
      intro n before
      by_cases h : (p.roundAfter n).print p = before
      · exact ⟨n, settle_same h⟩
      · rw [settle_more h]
        exact ih (n + 1) _

/-- Every state of an analysis is its program after some number of rounds. -/
theorem exists_last_eq_roundAfter (source : String) (config : Config) (m : Nat) :
    ∃ n, ((ofText source config).rerun m).rounds = n + 1 ∧
      ((ofText source config).rerun m).program = Program.assemble source.toList config ∧
      ((ofText source config).rerun m).last =
        (Program.assemble source.toList config).roundAfter n := by
  induction m with
  | zero =>
      obtain ⟨n, hn⟩ := exists_settle_eq_roundAfter (Program.assemble source.toList config)
        (config.maxRounds - 1) 0 (Program.assemble source.toList config).firstPrint
      exact ⟨n, congrArg Prod.fst hn, rfl, congrArg Prod.snd hn⟩
  | succ m ih =>
      obtain ⟨n, hcount, hprog, hlast⟩ := ih
      rw [rerun_succ]
      refine ⟨n + 1, congrArg Nat.succ hcount, hprog, ?_⟩
      show ((ofText source config).rerun m).program.round
        ((ofText source config).rerun m).last.arrivals = _
      rw [hprog, hlast]
      rfl

/-- An analysis keeps its program, and its state is always the outcome of one of its rounds. -/
theorem exists_last_eq_round (source : String) (config : Config) (n : Nat) :
    ((ofText source config).rerun n).program = Program.assemble source.toList config ∧
      ∃ arrivals, ((ofText source config).rerun n).last =
        (Program.assemble source.toList config).round arrivals := by
  obtain ⟨m, -, hprog, hlast⟩ := exists_last_eq_roundAfter source config n
  obtain ⟨arrivals, hround⟩ := (Program.assemble source.toList config).exists_roundAfter_eq m
  exact ⟨hprog, arrivals, hlast.trans hround⟩

/-- The block graph is the statement graph, cut into maximal straight runs: for every source text
    and all usable settings, after any number of further rounds, what is found is shared out among
    the blocks, and each block is such a run. -/
theorem blocks_isMaximalRun (source : String) (config : Config)
    (hvalid : config.validate = .ok ()) (n : Nat) :
    ∃ a, ofSource source config = .ok a ∧
      (∀ i, Flag.found ∈ (a.rerun n).last.flagsOf (a.rerun n).program i ↔
        ∃! k : Nat, ∃ b : Block, (a.rerun n).last.blocks[k]? = some b ∧ i ∈ b.statements) ∧
      ∀ (k : Nat) (b : Block), (a.rerun n).last.blocks[k]? = some b →
        ∃ last, (a.rerun n).last.IsMaximalRun (a.rerun n).program b last := by
  refine ⟨ofText source config, ofSource_eq_ok hvalid, ?_⟩
  obtain ⟨hprog, arrivals, hlast⟩ := exists_last_eq_round source config n
  have hp := Program.wellFormed_assemble source.toList config
  rw [hlast, hprog]
  exact ⟨fun i => hp.found_iff_block, fun k b hb => hp.isMaximalRun_round hb⟩

/-- A loop that counts down to zero. -/
def countdown : String :=
  "top: decl %ecx\njne top\nret\n"

/-- The loop is found, so it is in a block, and that block is a maximal run. -/
theorem countdown_isMaximalRun :
    ({} : Config).validate = .ok () ∧
      ∃ (a : Analysis) (k : Nat) (b : Block) (last : Nat), ofSource countdown {} = .ok a ∧
        (a.rerun 2).last.blocks[k]? = some b ∧ 0 ∈ b.statements ∧
        (a.rerun 2).last.IsMaximalRun (a.rerun 2).program b last := by
  refine ⟨rfl, ?_⟩
  obtain ⟨a, ha, hfound, hruns⟩ := blocks_isMaximalRun countdown {} rfl 2
  obtain rfl := Except.ok.inj ((ofSource_eq_ok rfl).symm.trans ha)
  obtain ⟨hprog, arrivals, hlast⟩ := exists_last_eq_round countdown {} 2
  have hp := Program.wellFormed_assemble countdown.toList {}
  have hentry : (Program.assemble countdown.toList {}).entry = some 0 := by decide +kernel
  have hroot : (Program.assemble countdown.toList {}).IsRoot 0 :=
    hp.isRoot_iff.mpr (Or.inl hentry)
  rw [hprog, hlast] at hfound
  obtain ⟨k, ⟨b, hb, hmem⟩, -⟩ := (hfound 0).mp (hp.found_round.mpr hroot.reached)
  rw [← hlast] at hb
  obtain ⟨last, hrun⟩ := hruns k b hb
  exact ⟨_, k, b, last, ha, hb, hmem, hrun⟩

end Analysis

end AsmCheck
