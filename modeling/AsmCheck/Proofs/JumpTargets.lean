import AsmCheck.Proofs.References
import AsmCheck.Proofs.SignModel
import AsmCheck.Proofs.Sizes
import Mathlib.Data.List.TakeWhile

/-! # Where jumps lead

    What stands in the text of a jump decides where it leads, and the rounds of
    an analysis only ever take a jump away (`jumpOf_last`):

    * a jump to a name leads to what the first label of that name is linked to
      (`targetOf_of_name`);
    * a jump to a bare number leads to what its address names
      (`targetOf_of_number`).  The address is the exact sum, or there is none:
      the sums stop at the ends of the 64-bit range, but whatever they stop at
      is no address any more (`relative_eq`).

    In a program that fits into the address range, an address names at most one
    statement, and so a jump to a number has at most one place to go to
    (`numeric_jumps_exact`). -/

namespace AsmCheck

open Source

/-! ## Names and numbers as operands -/

namespace Literal

/-- Names do not start with digits. -/
theorem isNameStart_of_isDigit {c : Char} (h : c.isDigit = true) : isNameStart c = false := by
  have hdigit : 48 ≤ c.toNat ∧ c.toNat ≤ 57 := Char.isDigit_iff_toNat.mp h
  rw [← Bool.not_eq_true, isNameStart, Bool.or_eq_true, Bool.or_eq_true, beq_iff_eq, beq_iff_eq]
  rintro ((hletter | rfl) | rfl)
  · rcases Bool.or_eq_true_iff.mp hletter with hupper | hlower
    · have hfrom : 65 ≤ c.toNat := UInt32.le_iff_toNat_le.mp (of_decide_eq_true hupper).1
      omega
    · have hfrom : 97 ≤ c.toNat :=
        UInt32.le_iff_toNat_le.mp (of_decide_eq_true (Bool.and_eq_true_iff.mp hlower).1)
      omega
  · exact absurd hdigit (by decide)
  · exact absurd hdigit (by decide)

/-- A name holds only characters that names may hold. -/
theorem ne_of_mem_name {name : List Char} (h : isName name = true) {d : Char}
    (hd : (isNameStart d || d.isDigit) = false) : ∀ c ∈ name, c ≠ d := by
  rintro c hc rfl
  cases name with
  | nil => cases h
  | cons first rest =>
      rw [isName, Bool.and_eq_true, List.all_eq_true] at h
      rcases List.mem_cons.mp hc with rfl | hrest
      · rw [h.1] at hd
        cases hd
      · rw [h.2 c hrest] at hd
        cases hd

/-- A name is no number. -/
theorem readNumber_of_isName {name : List Char} (h : isName name = true) :
    readNumber name = none := by
  cases name with
  | nil => cases h
  | cons c cs =>
      have hstart : isNameStart c = true := (Bool.and_eq_true_iff.mp h).1
      refine readNumber_eq_none ?_ (Bool.eq_false_iff.mpr fun hdigit => ?_) cs
      · rintro rfl
        exact absurd hstart (by decide)
      · rw [isNameStart_of_isDigit hdigit] at hstart
        cases hstart

end Literal

namespace MemoryRef

/-- A number is read as a displacement, -/
theorem readDisplacement_of_number {cs : List Char} {n : Int} {radix : Radix}
    (h : Literal.readNumber cs = some (n, radix)) : readDisplacement cs = (some n, none, ∅) := by
  obtain ⟨c, rest, rfl, -⟩ := Literal.exists_head_of_readNumber h
  rw [readDisplacement, if_neg (by simp), h]

/-- and a name as a symbol. -/
theorem readDisplacement_of_name {name : List Char} (h : Literal.isName name = true) :
    readDisplacement name = (none, some (String.ofList name), ∅) := by
  have hwhole : (name.takeWhile fun c => c != '+' && c != '-') = name := by
    refine List.takeWhile_eq_self_iff.mpr fun c hc => ?_
    rw [Bool.and_eq_true, bne_iff_ne, bne_iff_ne]
    exact ⟨Literal.ne_of_mem_name h (by decide) c hc, Literal.ne_of_mem_name h (by decide) c hc⟩
  have hne : ¬ name.isEmpty = true := by
    rintro hempty
    rw [List.isEmpty_iff.mp hempty] at h
    cases h
  rw [readDisplacement, if_neg hne, Literal.readNumber_of_isName h]
  dsimp only
  rw [hwhole, if_pos h]

/-- A place without parentheses is what stands in front of them. -/
theorem read_of_unparenthesized {cs : List Char} (h : ∀ c ∈ cs, c ≠ '(') (indirect : Bool) :
    (read indirect cs).1 =
      { text := String.ofList cs, symbol := (readDisplacement cs).2.1
        displacement := (readDisplacement cs).1, indirect } := by
  have hwhole : cs.takeWhile (· != '(') = cs :=
    List.takeWhile_eq_self_iff.mpr fun c hc => bne_iff_ne.mpr (h c hc)
  rw [read, hwhole]
  generalize readDisplacement cs = front
  obtain ⟨displacement, symbol, flags⟩ := front
  dsimp only
  rw [List.drop_length]

end MemoryRef

namespace Operand

/-- A name without anything else refers to memory by that name. -/
theorem classify_name {name : List Char} (h : Literal.isName name = true) :
    (classify name).1 =
      .memory { text := String.ofList name, symbol := some (String.ofList name) } := by
  have hread := MemoryRef.read_of_unparenthesized (Literal.ne_of_mem_name h (by decide)) false
  rw [MemoryRef.readDisplacement_of_name h] at hread
  cases name with
  | nil => cases h
  | cons c cs =>
      have hne : ∀ {d}, (Literal.isNameStart d || d.isDigit) = false → c ≠ d := fun hd =>
        Literal.ne_of_mem_name h hd c (List.mem_cons_self ..)
      rw [classify_place cs (hne (by decide)) (hne (by decide)) (hne (by decide)), hread]

/-- There is no bracket in a number. -/
theorem ne_paren_of_readNumber {cs : List Char} {n : Int} {radix : Radix}
    (h : Literal.readNumber cs = some (n, radix)) : ∀ c ∈ cs, c ≠ '(' := by
  rintro c hc rfl
  have hplain := List.all_eq_true.mp (Literal.plain_of_readNumber h) '(' hc
  exact absurd hplain (by decide)

/-- A number without anything else refers to memory by that number. -/
theorem classify_number {cs : List Char} {n : Int} {radix : Radix}
    (h : Literal.readNumber cs = some (n, radix)) :
    (classify cs).1 = .memory { text := String.ofList cs, displacement := some n } := by
  have hread := MemoryRef.read_of_unparenthesized (ne_paren_of_readNumber h) false
  rw [MemoryRef.readDisplacement_of_number h] at hread
  obtain ⟨c, rest, rfl, hc⟩ := Literal.exists_head_of_readNumber h
  have hne : ∀ {d : Char}, d ≠ '-' → d.isDigit = false → c ≠ d := by
    rintro d hminus hdigit rfl
    rcases hc with rfl | hc
    · exact hminus rfl
    · rw [hdigit] at hc
      cases hc
  rw [classify_place rest (hne (by decide) (by decide)) (hne (by decide) (by decide))
    (hne (by decide) (by decide)), hread]

end Operand

/-! ## What the text of a jump says -/

/-- Whatever transfers control has one operand, its target. -/
theorem Opcode.shape_of_control {mnemonic : String} {op : Opcode}
    (h : ofMnemonic? mnemonic = some op) (hkind : op.kind = .control) : op.shape = .target := by
  refine of_ofMnemonic (P := fun op => op.kind = .control → op.shape = .target) h ?_
    (fun _ _ => rfl) (fun _ _ h => h) hkind
  decide

namespace Statement

variable {s : Statement}

/-- A control transfer with one operand token has that operand. -/
theorem IsRead.operands_of_control (h : s.IsRead) (hcontrol : s.isControl = true)
    {token : List Char} (htoken : (tokens s.text.toList).tail = [token]) :
    s.operands = [(Operand.classify token).1] := by
  rw [isControl, kind, beq_iff_eq] at hcontrol
  cases h with
  | unknown hopcode _ =>
      rw [hopcode] at hcontrol
      cases hcontrol
  | known hopcode hmnemonic hoperands _ _ _ =>
      rw [hopcode] at hcontrol
      rw [hoperands, readingAs, htoken, Opcode.shape_of_control hmnemonic hcontrol]
      rfl

/-- A jump to a name has that name as its target, -/
theorem targetSymbol_of_name (hcontrol : s.isControl = true) {name : List Char}
    (hname : Literal.isName name = true) (h : s.operands = [(Operand.classify name).1]) :
    s.targetSymbol = some (String.ofList name) := by
  rw [targetSymbol, target, if_pos hcontrol, h, Operand.classify_name hname]
  rfl

/-- and a jump to a number goes by this number. -/
theorem targetOffset_of_number (hcontrol : s.isControl = true) {cs : List Char} {n : Int}
    {radix : Radix} (hnumber : Literal.readNumber cs = some (n, radix))
    (h : s.operands = [(Operand.classify cs).1]) :
    s.targetSymbol = none ∧ s.targetOffset = some n := by
  have hparen : cs.contains '(' = false := by
    rw [List.contains_eq_mem, decide_eq_false_iff_not]
    exact fun hmem => Operand.ne_paren_of_readNumber hnumber _ hmem rfl
  rw [targetSymbol, targetOffset, target, if_pos hcontrol, h, Operand.classify_number hnumber]
  refine ⟨rfl, ?_⟩
  show MemoryRef.bareNumber _ = some n
  rw [MemoryRef.bareNumber, String.toList_ofList, hparen]
  rfl

/-- Only conditional jumps can be found to be never taken. -/
theorem conditional_of_never {arriving : Option CodeSet}
    (h : (s.verdict arriving).never = true) : ∃ test, s.branch = some (.conditional test) := by
  unfold verdict at h
  split at h
  · next test _ hbranch => exact ⟨test, hbranch⟩
  · cases h
  · cases h

end Statement

/-- An offset leads to the exact sum, or nowhere. -/
theorem Placed.relative_eq {address : Nat} (h : address ≤ Statement.addressLimit) (offset : Int) :
    relative address offset =
      if 0 ≤ (address : Int) + 1 + offset ∧ (address : Int) + 1 + offset < 2 ^ 32 then
        some ((address : Int) + 1 + offset).toNat
      else none := by
  rw [Statement.addressLimit] at h
  have hsum : Literal.clamp (Literal.clamp ((address : Int) + 1) + offset) =
      Literal.clamp ((address : Int) + 1 + offset) := by
    simp only [Literal.clamp]
    omega
  rw [relative, hsum, Statement.addressLimit]
  by_cases hrange : 0 ≤ (address : Int) + 1 + offset ∧ (address : Int) + 1 + offset < 2 ^ 32
  · have hexact : Literal.clamp ((address : Int) + 1 + offset) = (address : Int) + 1 + offset := by
      simp only [Literal.clamp]
      omega
    rw [if_pos hrange, hexact, if_pos (by omega)]
  · -- the ends of the 64-bit range are no addresses either
    have houtside : ¬ (0 ≤ Literal.clamp ((address : Int) + 1 + offset) ∧
        Literal.clamp ((address : Int) + 1 + offset) ≤ (4294967295 : Nat)) := by
      simp only [Literal.clamp]
      omega
    rw [if_neg hrange, if_neg houtside]

/-! ## Targets in a program -/

namespace Program

variable {source : List Char} {config : Config} {p : Program} {b i j n : Nat} {s : Placed}

/-- The target of a statement is looked up among all statements and labels. -/
theorem targetOf_eq (hs : (assemble source config).statements[b]? = some s) :
    (assemble source config).targetOf b =
      jumpTarget (assemble source config).data (assemble source config).statements.toList
        (assemble source config).labels s := by
  have hs' : (placed source)[b]? = some s := (List.getElem?_toArray ..).symm.trans hs
  show (((placed source).map (jumpTarget (assemble source config).data (placed source)
    (assemble source config).labels)).toArray)[b]?.join = _
  rw [List.getElem?_toArray, List.getElem?_map, hs']
  rfl

/-- A jump to a name leads to what the first label of the name is linked to. -/
theorem targetOf_of_name (hs : (assemble source config).statements[b]? = some s) {name : String}
    (hname : s.targetSymbol = some name) :
    (assemble source config).targetOf b =
      (labelNamed (assemble source config).labels name).bind Label.statement := by
  rw [targetOf_eq hs, jumpTarget, hname]

/-- Any other jump leads to what its address names. -/
theorem targetOf_of_number (hs : (assemble source config).statements[b]? = some s)
    (hname : s.targetSymbol = none) :
    (assemble source config).targetOf b =
      s.targetAddress.bind (assemble source config).statementAt := by
  rw [targetOf_eq hs, jumpTarget, hname]
  rfl

/-- The operand of a jump is read off its only token. -/
theorem operands_of_control (hs : (assemble source config).statements[b]? = some s)
    (hcontrol : s.isControl = true) {token : List Char}
    (htoken : (tokens s.text.toList).tail = [token]) :
    s.operands = [(Operand.classify token).1] := by
  obtain ⟨st, -, hread, heq⟩ := exists_isRead_of_getElem? hs
  rw [heq] at hcontrol htoken ⊢
  exact hread.operands_of_control hcontrol htoken

/-- No address is beyond the limit. -/
theorem addressOf_le (source : List Char) (config : Config) (i : Nat) :
    (assemble source config).addressOf i ≤ Statement.addressLimit := by
  rw [addressOf]
  cases hs : (assemble source config).statements[i]? with
  | none => exact Nat.zero_le _
  | some s => exact (address_assemble hs).trans_le (Nat.min_le_right _ _)

/-- The address that a jump to a number goes to. -/
theorem targetAddress_of_number (hs : (assemble source config).statements[b]? = some s) {k : Int}
    (hoffset : s.targetOffset = some k) :
    s.targetAddress =
      if 0 ≤ (s.address : Int) + 1 + k ∧ (s.address : Int) + 1 + k < 2 ^ 32 then
        some ((s.address : Int) + 1 + k).toNat
      else none := by
  have hrange : s.address ≤ Statement.addressLimit :=
    (address_assemble hs).trans_le (Nat.min_le_right _ _)
  have haddress : s.targetAddress = s.targetOffset.bind (Placed.relative s.address) := by
    obtain ⟨st, -, -, heq⟩ := exists_isRead_of_getElem? hs
    rw [heq]
    rfl
  rw [haddress, hoffset, Option.bind_some, Placed.relative_eq hrange]

/-- A jump to a number leads to the statement that takes room from the exact sum on. -/
theorem targetOf_eq_some_of_number
    (hfits : (assemble source config).extent (assemble source config).statements.size ≤
      Statement.addressLimit)
    (hs : (assemble source config).statements[b]? = some s) {k : Int}
    (hname : s.targetSymbol = none) (hoffset : s.targetOffset = some k) :
    (assemble source config).targetOf b = some i ↔
      (assemble source config).HoldsAt i ((s.address : Int) + 1 + k) := by
  rw [targetOf_of_number hs hname, targetAddress_of_number hs hoffset]
  split
  · next hrange =>
    rw [Option.bind_some, statementAt_iff_holdsAt (address_eq_extent hfits),
      Int.toNat_of_nonneg hrange.1]
  · next hrange =>
    constructor
    · intro h
      cases h
    · rintro ⟨-, hstart, -⟩
      have hle := addressOf_le source config i
      rw [Statement.addressLimit] at hle
      omega

/-! ## Rounds -/

/-- What is said about a statement when round `n` links the statements. -/
def flagsBefore (p : Program) : Nat → Nat → FlagSet
  | 0, i => ((p.statements[i]?).map fun s => s.flags).getD ∅
  | n + 1, i => (p.roundAfter n).flagsOf p i

/-- The text of a program does not tell that a jump is never taken. -/
theorem WellFormed.neverTaken_flagsBefore_zero (hp : p.WellFormed) :
    ¬ Flag.neverTaken ∈ p.flagsBefore 0 i := by
  rw [flagsBefore]
  cases hs : p.statements[i]? with
  | none => exact EnumSet.not_mem_empty _
  | some s =>
      rw [Option.map_some, Option.getD_some, Statement.flags, EnumSet.mem_union, EnumSet.mem_when,
        EnumSet.mem_singleton]
      rintro (hfault | ⟨-, heq⟩)
      · exact (hp.sound hs).spelling _ hfault (by decide)
      · cases heq

/-- A jump is flagged as never taken before a round if the round before has said so. -/
theorem WellFormed.neverTaken_flagsBefore_succ (hp : p.WellFormed) :
    Flag.neverTaken ∈ p.flagsBefore (n + 1) i ↔
      (p.verdictOf (p.roundAfter n).arrivals i).never = true := by
  rw [flagsBefore, Round.verdict_mem_flagsOf hp (Or.inl rfl), Verdict.mem_flags]
  simp

/-- In every round, the jumps that are not known to be never taken lead where the text says, and the
    others nowhere. -/
theorem WellFormed.jumpOf_roundAfter (hp : p.WellFormed) :
    (p.roundAfter n).flow.jumpOf i = some j ↔
      ¬ Flag.neverTaken ∈ p.flagsBefore n i ∧ p.targetOf i = some j := by
  cases n with
  | zero =>
      rw [and_iff_right hp.neverTaken_flagsBefore_zero]
      exact hp.jumpOf_noArrivals
  | succ n =>
      show (p.flow (p.roundAfter n).arrivals).jumpOf i = some j ↔ _
      rw [hp.neverTaken_flagsBefore_succ, hp.jumpOf_flow, jumpIn]
      by_cases hnever : (p.verdictOf (p.roundAfter n).arrivals i).never = true
      · rw [if_pos hnever]
        constructor
        · intro h
          cases h
        · rintro ⟨h, -⟩
          exact absurd hnever h
      · rw [if_neg hnever, and_iff_right hnever]
        rfl

/-- Only conditional jumps are ever known to be never taken. -/
theorem WellFormed.conditional_of_neverTaken (hp : p.WellFormed) (hs : p.statements[i]? = some s)
    (h : Flag.neverTaken ∈ p.flagsBefore n i) : ∃ test, s.branch = some (.conditional test) := by
  cases n with
  | zero => exact absurd h hp.neverTaken_flagsBefore_zero
  | succ n =>
      rw [hp.neverTaken_flagsBefore_succ, verdictOf_some hs] at h
      exact Statement.conditional_of_never h

end Program

namespace Analysis

variable {source : String} {config : Config} {a : Analysis}

/-- A state of the analysis of a source text: what comes out of it first, or after some further
    rounds. -/
def IsStateOf (a : Analysis) (source : String) (config : Config) : Prop :=
  ∃ first m, ofSource source config = .ok first ∧ a = first.rerun m

/-- What was said about a statement when the last round linked the statements. -/
def flagsAtLink (a : Analysis) (i : Nat) : FlagSet :=
  a.program.flagsBefore (a.rounds - 1) i

/-- Every state that an analysis comes to is a state of its source text. -/
theorem isStateOf_rerun (source : String) (config : Config) (h : config.validate = .ok ())
    (m : Nat) : ((ofText source config).rerun m).IsStateOf source config :=
  ⟨_, m, ofSource_eq_ok h, rfl⟩

/-- The program of a state is the assembled source text, -/
theorem IsStateOf.program_eq (h : a.IsStateOf source config) :
    a.program = Program.assemble source.toList config := by
  obtain ⟨first, m, hfirst, rfl⟩ := h
  obtain rfl := eq_ofText_of_ofSource hfirst
  exact (exists_last_eq_round source config m).1

/-- and its last round is the one that its count of rounds tells. -/
theorem IsStateOf.last_eq (h : a.IsStateOf source config) :
    a.last = a.program.roundAfter (a.rounds - 1) := by
  obtain ⟨first, m, hfirst, rfl⟩ := h
  obtain rfl := eq_ofText_of_ofSource hfirst
  obtain ⟨n, hrounds, hprogram, hlast⟩ := exists_last_eq_roundAfter source config m
  rw [hrounds, hprogram, hlast]
  rfl

theorem IsStateOf.wellFormed (h : a.IsStateOf source config) : a.program.WellFormed := by
  rw [h.program_eq]
  exact Program.wellFormed_assemble source.toList config

/-- In every state, the jumps that were not known to be never taken lead where the text says, and
    the others nowhere. -/
theorem IsStateOf.jumpOf_last (h : a.IsStateOf source config) {i j : Nat} :
    a.last.flow.jumpOf i = some j ↔
      ¬ Flag.neverTaken ∈ a.flagsAtLink i ∧ a.program.targetOf i = some j := by
  rw [h.last_eq]
  exact h.wellFormed.jumpOf_roundAfter

/-- Nobody says of an unconditional jump that it is never taken. -/
theorem IsStateOf.neverTaken_of_jump (h : a.IsStateOf source config) {i : Nat} {s : Placed}
    (hs : a.program.statements[i]? = some s) (hjump : s.branch = some .jump) :
    ¬ Flag.neverTaken ∈ a.flagsAtLink i := by
  intro hnever
  obtain ⟨test, hbranch⟩ := h.wellFormed.conditional_of_neverTaken hs hnever
  rw [hjump] at hbranch
  cases hbranch

/-! ## Jumps to numbers -/

/-- Jumps to numbers never wrap around: in every state of the analysis of a source text that fits
    into the address range, a control transfer to a bare number goes to the exact sum of its operand
    and the address after it, if that is an address, and to none otherwise; and unless it was known
    to be never taken, it leads to the statement that takes room from there on and does not stand
    before the data section, of which there is at most one. -/
theorem numeric_jumps_exact (source : String) (config : Config) (a : Analysis)
    (ha : a.IsStateOf source config)
    (hfits : a.program.extent a.program.statements.size ≤ Statement.addressLimit)
    {b : Nat} {s : Placed} (hs : a.program.statements[b]? = some s) (hcontrol : s.isControl = true)
    {token : List Char} (htoken : (tokens s.text.toList).tail = [token]) {k : Int} {radix : Radix}
    (hnumber : Literal.readNumber token = some (k, radix)) :
    s.targetAddress =
        (if 0 ≤ (s.address : Int) + 1 + k ∧ (s.address : Int) + 1 + k < 2 ^ 32 then
          some ((s.address : Int) + 1 + k).toNat
        else none) ∧
      (∀ i j, a.program.HoldsAt i ((s.address : Int) + 1 + k) →
        a.program.HoldsAt j ((s.address : Int) + 1 + k) → i = j) ∧
      ∀ i, a.last.flow.jumpOf b = some i ↔
        ¬ Flag.neverTaken ∈ a.flagsAtLink b ∧
          a.program.HoldsAt i ((s.address : Int) + 1 + k) := by
  have hjump := fun i => ha.jumpOf_last (i := b) (j := i)
  rw [ha.program_eq] at hfits hs hjump ⊢
  have hoperands := Program.operands_of_control hs hcontrol htoken
  obtain ⟨hname, hoffset⟩ := Statement.targetOffset_of_number hcontrol hnumber hoperands
  refine ⟨Program.targetAddress_of_number hs hoffset, fun i j => ?_, fun i => ?_⟩
  · exact Program.HoldsAt.unique (Program.address_eq_extent hfits)
  · rw [hjump, Program.targetOf_eq_some_of_number hfits hs hname hoffset]

/-- A jump over four bytes of data, and one to before the first address. -/
def jumpsByNumber : String :=
  "jmp 5\njmp -5\n.long 7\nret\n"

theorem jumpsByNumber_text {p : Program} (hp : p = Program.assemble jumpsByNumber.toList {}) :
    p.extent p.statements.size ≤ Statement.addressLimit ∧
      (p.statements[0]?).map (fun s : Placed =>
        (s.address, s.isControl && s.branch == some .jump, (tokens s.text.toList).tail)) =
          some (0, true, ["5".toList]) ∧
      (p.statements[1]?).map (fun s : Placed =>
        (s.address, s.isControl && s.branch == some .jump, (tokens s.text.toList).tail)) =
          some (1, true, ["-5".toList]) ∧
      (p.roomOf 3, p.addressOf 3, p.data.isNone) = (1, 6, true) := by
  subst hp
  decide +kernel

/-- The one jump leads past the data, and the other one nowhere. -/
theorem jumpsByNumber_exact :
    ∃ a : Analysis, a.IsStateOf jumpsByNumber {} ∧ a.last.flow.jumpOf 0 = some 3 ∧
      a.last.flow.jumpOf 1 = none := by
  have ha := isStateOf_rerun jumpsByNumber {} rfl 1
  generalize (ofText jumpsByNumber {}).rerun 1 = a at ha
  obtain ⟨hfits, h0, h1, hret⟩ := jumpsByNumber_text ha.program_eq
  simp only [Prod.mk.injEq] at hret
  obtain ⟨hroom, haddress, hdata⟩ := hret
  refine ⟨a, ha, ?_, ?_⟩
  · obtain ⟨s, hs, hx⟩ := Option.map_eq_some_iff.mp h0
    simp only [Prod.mk.injEq, Bool.and_eq_true, beq_iff_eq] at hx
    obtain ⟨hplace, ⟨hcontrol, hjump⟩, htoken⟩ := hx
    have hnumber : Literal.readNumber "5".toList = some (5, .decimal) := rfl
    obtain ⟨-, -, hleads⟩ :=
      numeric_jumps_exact jumpsByNumber {} a ha hfits hs hcontrol htoken hnumber
    rw [hleads, hplace]
    exact ⟨ha.neverTaken_of_jump hs hjump, by rw [hroom]; decide, by rw [haddress]; rfl,
      Program.not_beforeData hdata⟩
  · obtain ⟨s, hs, hx⟩ := Option.map_eq_some_iff.mp h1
    simp only [Prod.mk.injEq, Bool.and_eq_true, beq_iff_eq] at hx
    obtain ⟨hplace, ⟨hcontrol, -⟩, htoken⟩ := hx
    have hnumber : Literal.readNumber "-5".toList = some (-5, .decimal) := rfl
    obtain ⟨-, -, hleads⟩ :=
      numeric_jumps_exact jumpsByNumber {} a ha hfits hs hcontrol htoken hnumber
    rw [Option.eq_none_iff_forall_ne_some]
    intro i hi
    obtain ⟨-, hholds⟩ := (hleads i).mp hi
    have hstart := hholds.address_eq
    rw [hplace] at hstart
    omega

end Analysis

end AsmCheck
