import AsmCheck.Program

/-! # What assembly guarantees

    Every later argument about a program rests on a few facts that hold of
    whatever comes out of `Program.assemble`, for every source text:

    * control goes on to a later statement and passes over nothing executable,
      so no two executable statements are followed by the same one;
    * a jump leads to a statement of the program, and only control transfers
      jump;
    * routines start at executable statements;
    * the operation of a statement is a row of the opcode tables, and its
      faults are faults of its spelling, never a verdict of the analysis.

    `WellFormed` collects them and `wellFormed_assemble` proves them. -/

namespace AsmCheck

/-! ## Operations -/

namespace Opcode

/-- What the rows of the tables have in common: exactly the control transfers have a way to branch,
    what sets the code neither branches nor ends the flow, and of the branches only the
    unconditional jump ends it. -/
def isRegular (op : Opcode) : Bool :=
  (op.branch.isSome == (op.kind == .control)) &&
    (!op.setsCodes || (op.branch.isNone && !op.terminates)) &&
    (op.branch.isNone || (op.terminates == (op.branch == some .jump)))

/-- What a table gives for a name stands in one of its rows. -/
theorem findRow_mem {α : Type} {table : List (List String × α)} {name : String} {a : α}
    (h : findRow table name = some a) : ∃ row ∈ table, name ∈ row.1 ∧ row.2 = a := by
  obtain ⟨row, hrow, hval⟩ := Option.map_eq_some_iff.mp h
  have hname := List.find?_some hrow
  exact ⟨row, List.mem_of_find?_eq_some hrow, List.contains_iff_mem.mp hname, hval⟩

/-- A known mnemonic stands in a table as it is, or it is a conditional jump, or the name of a
    family with a width letter. -/
theorem ofMnemonic_cases {mnemonic : String} {op : Opcode} (h : ofMnemonic? mnemonic = some op) :
    (∃ row ∈ fixed ++ families, mnemonic ∈ row.1 ∧ row.2 = op) ∨
      (∃ test, mnemonic.toList.head? = some 'j' ∧
        op = { kind := .control, shape := .target, effect := .none,
               branch := some (.conditional test) }) ∨
      ∃ row ∈ families, ∃ name ∈ row.1, ∃ c w, mnemonic.toList = name.toList ++ [c] ∧
        Width.ofSuffix? c = some w ∧ op = { row.2 with width := some w } := by
  rw [ofMnemonic?, Option.or_eq_some_iff, Option.or_eq_some_iff, Option.or_eq_some_iff] at h
  rcases h with h | ⟨-, h | ⟨-, h | ⟨-, h⟩⟩⟩
  · obtain ⟨row, hrow, hname, rfl⟩ := findRow_mem h
    exact Or.inl ⟨row, List.mem_append.mpr (Or.inl hrow), hname, rfl⟩
  · rw [conditional?] at h
    split at h
    · next hj =>
      obtain ⟨test, -, rfl⟩ := Option.map_eq_some_iff.mp h
      exact Or.inr (Or.inl ⟨test, by rw [hj]; rfl, rfl⟩)
    · cases h
  · obtain ⟨row, hrow, hname, rfl⟩ := findRow_mem h
    exact Or.inl ⟨row, List.mem_append.mpr (Or.inr hrow), hname, rfl⟩
  · rw [suffixed?] at h
    split at h
    · next w hw =>
      obtain ⟨c, hc, hw⟩ := Option.bind_eq_some_iff.mp hw
      obtain ⟨op', hop', rfl⟩ := Option.map_eq_some_iff.mp h
      obtain ⟨row, hrow, hname, rfl⟩ := findRow_mem hop'
      refine Or.inr (Or.inr ⟨row, hrow, _, hname, c, w, ?_, hw, rfl⟩)
      obtain ⟨front, hfront⟩ := List.getLast?_eq_some_iff.mp hc
      rw [String.toList_ofList, hfront, List.dropLast_concat]
    · cases h

/-- What holds of the rows of the tables and of the conditional jumps, and does not ask for the
    width, holds of every operation that has a mnemonic. -/
theorem of_ofMnemonic {P : Opcode → Prop} {mnemonic : String} {op : Opcode}
    (h : ofMnemonic? mnemonic = some op) (rows : ∀ row ∈ fixed ++ families, P row.2)
    (jumps : ∀ test, P { kind := .control, shape := .target, effect := .none,
                         branch := some (.conditional test) })
    (widths : ∀ op w, P op → P { op with width := some w }) : P op := by
  rcases ofMnemonic_cases h with ⟨row, hrow, -, rfl⟩ | ⟨test, -, rfl⟩ |
    ⟨row, hrow, -, -, -, w, -, -, rfl⟩
  · exact rows row hrow
  · exact jumps test
  · exact widths row.2 w (rows row (List.mem_append.mpr (Or.inr hrow)))

/-- Every mnemonic stands for an operation that is regular. -/
theorem isRegular_ofMnemonic {mnemonic : String} {op : Opcode}
    (h : ofMnemonic? mnemonic = some op) : op.isRegular = true := by
  refine of_ofMnemonic (P := fun op => op.isRegular = true) h ?_ (fun _ => rfl) fun _ _ h => h
  decide

end Opcode

/-! ## Faults -/

namespace FlagSet

/-- The remarks that only the analysis makes. -/
def verdicts : FlagSet :=
  {.subroutineStart, .found, .dead, .alwaysTaken, .neverTaken, .redundantTest}

/-- A set of remarks none of which is a verdict of the analysis. -/
def IsSpelling (fl : FlagSet) : Prop :=
  ∀ f, f ∈ fl → ¬ f ∈ verdicts

/-- The faults that operands have by themselves. -/
def operandFaults : FlagSet :=
  {.incomplete, .memoryTwice, .immediateTwice, .badCount, .missingDollar, .missingPercent,
    .unknownRegister}

/-- The faults that operands have against a width. -/
def againstWidth : FlagSet :=
  {.outOfRange, .sizeMismatch, .unsupportedWidth}

/-- A set of remarks that are all among some others. -/
def IsWithin (limit fl : FlagSet) : Prop :=
  ∀ f, f ∈ fl → f ∈ limit

/-- A remark is collected from one of the parts, or was there before. -/
theorem mem_foldl_union {α : Type} {g : α → FlagSet} {f : Flag} {as : List α} {init : FlagSet} :
    f ∈ as.foldl (fun fl a => fl ∪ g a) init ↔ f ∈ init ∨ ∃ a ∈ as, f ∈ g a := by
  induction as generalizing init with
  | nil => simp
  | cons a as ih =>
      rw [List.foldl_cons, ih, EnumSet.mem_union, or_assoc]
      simp

namespace IsWithin

variable {limit limit' a b : FlagSet} {f : Flag}

theorem empty : IsWithin limit ∅ :=
  fun f hf => absurd hf (EnumSet.not_mem_empty f)

theorem singleton (h : f ∈ limit) : IsWithin limit {f} := by
  intro g hg
  rw [EnumSet.mem_singleton.mp hg]
  exact h

/-- Remarks within the same limits may be united. -/
theorem union (ha : IsWithin limit a) (hb : IsWithin limit b) : IsWithin limit (a ∪ b) := by
  intro f hf
  rcases EnumSet.mem_union.mp hf with h | h
  · exact ha f h
  · exact hb f h

theorem when {c : Bool} (ha : IsWithin limit a) : IsWithin limit (a.when c) :=
  fun f hf => ha f (EnumSet.mem_when.mp hf).2

theorem erase (ha : IsWithin limit a) : IsWithin limit (a.erase f) :=
  fun g hg => ha g (EnumSet.mem_erase.mp hg).1

/-- So may those of a whole list. -/
theorem foldl {α : Type} {g : α → FlagSet} (hg : ∀ x, IsWithin limit (g x)) (as : List α)
    (ha : IsWithin limit a) : IsWithin limit (as.foldl (fun fl x => fl ∪ g x) a) := by
  intro f hf
  rcases mem_foldl_union.mp hf with h | ⟨x, -, h⟩
  · exact ha f h
  · exact hg x f h

/-- Wider limits hold what narrower ones do. -/
theorem mono (h : IsWithin limit a) (hlimit : limit'.includes limit = true) :
    IsWithin limit' a :=
  fun f hf => EnumSet.includes_iff.mp hlimit f (h f hf)

end IsWithin

/-- Spelling is all that is no verdict. -/
theorem isSpelling_iff {fl : FlagSet} : IsSpelling fl ↔ IsWithin verdicts.compl fl :=
  forall₂_congr fun _ _ => EnumSet.mem_compl.symm

end FlagSet

open FlagSet (IsSpelling IsWithin operandFaults againstWidth)

namespace MemoryRef

theorem within_readDisplacement (cs : List Char) :
    IsWithin operandFaults (readDisplacement cs).2.2 := by
  rw [readDisplacement]
  split
  · exact .empty
  · split
    · exact .empty
    · dsimp only
      split
      · exact .empty
      · exact .singleton (by decide)

theorem within_readPart (cs : List Char) : IsWithin operandFaults (readPart cs).2 := by
  unfold readPart
  split
  · split
    · exact .empty
    · exact .singleton (by decide)
  · split
    · exact .singleton (by decide)
    · split
      · exact .empty
      · exact .singleton (by decide)

/-- Reading a reference to memory finds no faults but those of operands. -/
theorem within_read (indirect : Bool) (cs : List Char) :
    IsWithin operandFaults (read indirect cs).2 := by
  have hfront := within_readDisplacement (cs.takeWhile (· != '('))
  have hpercent : IsWithin operandFaults
      (EnumSet.when {.missingPercent} (Register.ofName? cs).isSome) :=
    .when (.singleton (by decide))
  rw [read]
  dsimp only
  split
  · exact .union (.union hfront hpercent) (.when (.singleton (by decide)))
  · split
    · dsimp only
      rw [readParts, List.foldl_map]
      exact .foldl within_readPart _ (.union hfront hpercent)
    · exact .union (.union hfront hpercent) (.singleton (by decide))

end MemoryRef

namespace Operand

theorem within_readBody (indirect : Bool) (token cs : List Char) :
    IsWithin operandFaults (readBody indirect token cs).2 := by
  unfold readBody
  split
  · exact .singleton (by decide)
  · split
    · exact .singleton (by decide)
    · split <;> exact .empty
  · exact MemoryRef.within_read indirect _

/-- Classifying an operand finds no faults but those of operands. -/
theorem within_classify (cs : List Char) : IsWithin operandFaults (classify cs).2 := by
  unfold classify
  split
  · split
    · exact .empty
    · exact .singleton (by decide)
  · exact within_readBody true _ _
  · exact within_readBody false _ _

end Operand

namespace Statement

namespace Reading

/-- Classifying all operands finds no others either. -/
theorem within_classified (args : List (List Char)) :
    IsWithin operandFaults (classified args).faults :=
  .foldl Operand.within_classify args .empty

/-- Two operands together may have a fault that neither has alone. -/
theorem within_pairFault (ops : List Operand) : IsWithin operandFaults (pairFault ops) := by
  unfold pairFault
  split
  · exact .singleton (by decide)
  · exact .singleton (by decide)
  · exact .empty

theorem within_value (arg : List Char) : IsWithin operandFaults (value arg).2 := by
  fun_cases value arg with
  | case1 => exact .empty
  | case2 => exact .singleton (by decide)

/-- The values of a directive have no faults but those of operands. -/
theorem within_values (args : List (List Char)) : IsWithin operandFaults (values args).faults :=
  .foldl within_value args .empty

/-- However a shape asks for the operands to be read, their faults are their own. -/
theorem within_ofShape (shape : Shape) (args : List (List Char)) :
    IsWithin operandFaults (ofShape shape args).faults := by
  have hpair : IsWithin operandFaults (pair args).faults :=
    .union (within_classified args) (within_pairFault _)
  cases shape with
  | nullary => exact .empty
  | unary => exact hpair
  | binary => exact hpair
  | unaryOrBinary => exact hpair
  | frame => exact .union (within_classified args) (.when (.singleton (by decide)))
  | target => exact .union (.erase (within_classified args)) (.when (.singleton (by decide)))
  | values => exact within_values args
  | alignment =>
      show IsWithin operandFaults (alignment args).faults
      rw [alignment]
      split
      · exact within_values args
      · exact .union (within_values args) (.singleton (by decide))
  | symbol =>
      show IsWithin operandFaults (symbol args).faults
      rw [symbol]
      split
      · exact .empty
      · exact .singleton (by decide)
  | strings => exact .when (.singleton (by decide))

/-- Whatever shape an operation has, its operands have no other faults. -/
theorem within_ofTokens (shape : Shape) (args : List (List Char)) :
    IsWithin operandFaults (ofTokens shape args).faults := by
  rw [ofTokens]
  split
  · exact within_ofShape shape args
  · exact .singleton (by decide)

end Reading

theorem within_widthFault (op : Opcode) (w : Width) (o : Operand) :
    IsWithin againstWidth (widthFault op w o) := by
  unfold widthFault
  split
  · exact .when (.singleton (by decide))
  · exact .when (.singleton (by decide))
  · exact .empty

/-- Holding operands to a width finds no faults but those against the width. -/
theorem within_widthFaults (op : Opcode) (operands : List Operand) :
    IsWithin againstWidth (widthFaults op operands) := by
  unfold widthFaults
  split
  · exact .empty
  · split
    · exact .singleton (by decide)
    · dsimp only
      split
      · exact .union (.when (within_widthFault _ _ _)) (within_widthFault _ _ _)
      · exact .foldl (within_widthFault _ _) _ .empty

/-- What reading guarantees about a statement. -/
structure Sound (s : Statement) : Prop where
  /-- Its operation is one of the tables'. -/
  regular : ∀ {op}, s.opcode = some op → op.isRegular = true
  /-- Its faults are faults of its spelling. -/
  spelling : IsSpelling s.faults

/-- What is parsed is sound. -/
theorem sound_parse (text : List Char) (line : Nat) : Sound (parse text line) := by
  rw [parse]
  dsimp only
  split
  · refine ⟨fun h => ?_, FlagSet.isSpelling_iff.mpr (.singleton (by decide))⟩
    cases h
  · next op hop =>
    refine ⟨fun h => ?_, FlagSet.isSpelling_iff.mpr (.union ?_ ?_)⟩
    · rw [← Option.some.inj h]
      exact Opcode.isRegular_ofMnemonic hop
    · exact (Reading.within_ofTokens _ _).mono (by decide)
    · exact (within_widthFaults _ _).mono (by decide)

end Statement

/-- The statement of a line is sound. -/
theorem ParsedLine.sound_parse {text : List Char} {line : Nat} {s : Statement}
    (h : (ParsedLine.parse text line).statement = some s) : s.Sound := by
  rw [ParsedLine.parse] at h
  dsimp only at h
  split at h
  · cases h
  · rw [← Option.some.inj h]
    have hs := Statement.sound_parse (ParsedLine.splitLabel (Text.trim text)).2 line
    have hspelling := FlagSet.isSpelling_iff.mp hs.spelling
    exact ⟨hs.regular, FlagSet.isSpelling_iff.mpr (hspelling.union (.when (.singleton (by decide))))⟩

namespace Statement.Sound

variable {s : Statement}

/-- Exactly the control transfers have a way to branch. -/
theorem isSome_branch (h : s.Sound) : s.branch.isSome = s.isControl := by
  rw [branch, isControl, kind]
  cases hop : s.opcode with
  | none => rfl
  | some op =>
      have hr := h.regular hop
      simp only [Opcode.isRegular, Bool.and_eq_true, beq_iff_eq] at hr
      exact hr.1.1

/-- What sets the code neither branches nor ends the flow of control. -/
theorem plain_of_setsCodes (h : s.Sound) (hc : s.setsCodes = true) :
    s.branch = none ∧ s.terminates = false := by
  rw [setsCodes, Bool.and_eq_true] at hc
  rw [branch, terminates]
  cases hop : s.opcode with
  | none => exact ⟨rfl, rfl⟩
  | some op =>
      have hr := h.regular hop
      rw [hop] at hc
      have hsets : op.setsCodes = true := hc.1
      simp only [Opcode.isRegular, hsets, Bool.and_eq_true, Bool.not_true, Bool.false_or,
        Option.isNone_iff_eq_none, Bool.not_eq_true'] at hr
      exact hr.1.2

/-- Of the control transfers, exactly the unconditional jumps end the flow of control. -/
theorem terminates_of_branch (h : s.Sound) {b : Branch} (hb : s.branch = some b) :
    s.terminates = (b == .jump) := by
  rw [branch] at hb
  rw [terminates]
  cases hop : s.opcode with
  | none => rw [hop] at hb; exact nomatch hb
  | some op =>
      have hr := h.regular hop
      rw [hop] at hb
      have hbr : op.branch = some b := hb
      simp only [Opcode.isRegular, hbr, Bool.and_eq_true] at hr
      simpa using hr.2

end Statement.Sound

/-! ## Layout -/

/-- A placed statement is a statement of the source text, put somewhere. -/
theorem Entry.exists_of_mem_layout {pl : Placed} :
    ∀ {items : List Item} {cursor : Nat}, Entry.statement pl ∈ layout cursor items →
      ∃ s address, Item.statement s ∈ items ∧ pl = Placed.place s address := by
  intro items
  induction items with
  | nil => intro cursor h; exact nomatch h
  | cons item items ih =>
      intro cursor h
      cases item with
      | label name line =>
          rw [layout] at h
          rcases List.mem_cons.mp h with heq | hmem
          · exact nomatch heq
          · obtain ⟨s, a, hs, hpl⟩ := ih hmem
            exact ⟨s, a, List.mem_cons_of_mem _ hs, hpl⟩
      | statement s =>
          rw [layout] at h
          rcases List.mem_cons.mp h with heq | hmem
          · exact ⟨s, cursor, List.mem_cons_self .., Entry.statement.inj heq⟩
          · obtain ⟨s', a, hs, hpl⟩ := ih hmem
            exact ⟨s', a, List.mem_cons_of_mem _ hs, hpl⟩

/-- A statement of a source text is read from one of its lines. -/
theorem Item.exists_of_mem_ofSource {source : List Char} {s : Statement}
    (h : Item.statement s ∈ Item.ofSource source) :
    ∃ l ∈ Source.logicalLines source, (ParsedLine.parse l.text l.line).statement = some s := by
  rw [Item.ofSource, List.mem_flatMap] at h
  obtain ⟨l, hmem, hl⟩ := h
  rw [Item.ofLine] at hl
  rcases List.mem_append.mp hl with hlab | hst
  · rw [Option.mem_toList] at hlab
    obtain ⟨name, -, heq⟩ := Option.map_eq_some_iff.mp hlab
    exact nomatch heq
  · rw [Option.mem_toList] at hst
    obtain ⟨s', hs', heq⟩ := Option.map_eq_some_iff.mp hst
    rw [← Item.statement.inj heq]
    exact ⟨l, hmem, hs'⟩

/-- Every statement of a source text is sound. -/
theorem Item.sound_of_mem_ofSource {source : List Char} {s : Statement}
    (h : Item.statement s ∈ Item.ofSource source) : s.Sound := by
  obtain ⟨l, -, hl⟩ := exists_of_mem_ofSource h
  exact ParsedLine.sound_parse hl

namespace Placed

/-- A statement is as sound at its address as it was before. -/
theorem sound_place {s : Statement} (h : s.Sound) (address : Nat) :
    (place s address).toStatement.Sound :=
  ⟨h.regular, h.spelling⟩

/-- What names its target by a symbol transfers control, -/
theorem isControl_of_targetSymbol {s : Statement} {name : String}
    (h : s.targetSymbol = some name) : s.isControl = true := by
  rw [Statement.targetSymbol, Statement.target] at h
  cases hc : s.isControl with
  | true => rfl
  | false => rw [hc] at h; exact nomatch h

/-- and so does what names it by an address. -/
theorem isControl_of_targetAddress {s : Statement} {address t : Nat}
    (h : (place s address).targetAddress = some t) : s.isControl = true := by
  have h' : s.targetOffset.bind (relative address) = some t := h
  rw [Statement.targetOffset, Statement.target] at h'
  cases hc : s.isControl with
  | true => rfl
  | false => rw [hc] at h'; exact nomatch h'

end Placed

namespace Program

/-! ## Where control goes on to -/

/-- Every statement has an entry in the table of followers. -/
theorem length_followers : ∀ (i : Nat) (ss : List Placed), (followers i ss).1.length = ss.length
  | _, [] => rfl
  | i, _ :: ss => congrArg (· + 1) (length_followers (i + 1) ss)

/-- The follower of a statement is what comes first in the rest of the list. -/
theorem getElem?_followers :
    ∀ (ss : List Placed) (i k : Nat), k < ss.length →
      (followers i ss).1[k]? = some (followers (i + k + 1) (ss.drop (k + 1))).2 := by
  intro ss
  induction ss with
  | nil => intro i k hk; exact absurd hk (Nat.not_lt_zero k)
  | cons s ss ih =>
      intro i k hk
      cases k with
      | zero => rfl
      | succ k =>
          have hk' : k < ss.length := Nat.lt_of_succ_lt_succ hk
          rw [followers, List.getElem?_cons_succ, ih (i + 1) k hk', List.drop_succ_cons]
          rw [show i + 1 + k + 1 = i + (k + 1) + 1 by omega]

/-- What comes first in a list is one of its statements, with only statements before it that control
    passes over. -/
theorem followers_snd :
    ∀ (ss : List Placed) (i n : Nat), (followers i ss).2 = some n →
      i ≤ n ∧ n < i + ss.length ∧
        ∀ k s, i + k < n → ss[k]? = some s → s.kind.isTransparent = true := by
  intro ss
  induction ss with
  | nil => intro i n h; exact nomatch h
  | cons s ss ih =>
      intro i n h
      rw [followers] at h
      dsimp only at h
      by_cases hend : s.kind = .endMark
      · rw [if_pos hend] at h; exact nomatch h
      · rw [if_neg hend] at h
        by_cases htr : s.kind.isTransparent = true
        · rw [if_pos htr] at h
          obtain ⟨hle, hlt, hbetween⟩ := ih (i + 1) n h
          refine ⟨by omega, by rw [List.length_cons]; omega, ?_⟩
          intro k t hk ht
          cases k with
          | zero => rw [← Option.some.inj ht]; exact htr
          | succ k => exact hbetween k t (by omega) ht
        · rw [if_neg htr] at h
          -- the first statement of the list is the one, so there is nothing before it
          have hn : i = n := Option.some.inj h
          refine ⟨by omega, by rw [List.length_cons]; omega, ?_⟩
          intro k t hk _
          omega

/-- What control passes over is not executable. -/
theorem isCode_of_isTransparent {k : Kind} (h : k.isTransparent = true) : k.isCode = false := by
  cases k <;> first | rfl | exact nomatch h

/-- The statement that the text places after a statement. -/
def follower (p : Program) (i : Nat) : Option Nat :=
  p.following[i]?.join

/-- The statement that the text makes a statement jump to. -/
def targetOf (p : Program) (i : Nat) : Option Nat :=
  p.target[i]?.join

/-- What assembly guarantees about a program. -/
structure WellFormed (p : Program) : Prop where
  /-- Its statements are sound. -/
  sound : ∀ {i : Nat} {s : Placed}, p.statements[i]? = some s → s.toStatement.Sound
  /-- Control goes on to a later statement. -/
  follower_lt : ∀ {i n}, p.follower i = some n → i < n ∧ n < p.statements.size
  /-- On its way it passes over nothing executable. -/
  follower_passes : ∀ {i j n}, p.follower i = some n → i < j → j < n → p.isCode j = false
  /-- A jump leads to a statement of the program. -/
  target_lt : ∀ {i t}, p.targetOf i = some t → t < p.statements.size
  /-- Only control transfers jump. -/
  target_control : ∀ {i t}, p.targetOf i = some t → p.test (·.isControl) i = true
  /-- Execution starts at something executable. -/
  entry_code : ∀ {i}, p.entry = some i → p.isCode i = true
  /-- So do the marked subroutines. -/
  start_code : ∀ {i}, p.isStart i = true → p.isCode i = true

/-- A statement that passes a test is a statement of the program. -/
theorem test_eq_true {p : Program} {f : Placed → Bool} {i : Nat} :
    p.test f i = true ↔ ∃ s, p.statements[i]? = some s ∧ f s = true := by
  rw [test, Option.any_eq_true]

/-- Only statements are executable. -/
theorem lt_of_isCode {p : Program} {i : Nat} (h : p.isCode i = true) : i < p.statements.size := by
  obtain ⟨s, hs, -⟩ := test_eq_true.mp h
  exact (Array.getElem?_eq_some_iff.mp hs).1

/-- No two executable statements are followed by the same one. -/
theorem WellFormed.follower_inj {p : Program} (h : p.WellFormed) {i j n : Nat}
    (hi : p.isCode i = true) (hj : p.isCode j = true)
    (hin : p.follower i = some n) (hjn : p.follower j = some n) : i = j := by
  -- of two such statements, the earlier one would pass over the later one
  rcases Nat.lt_trichotomy i j with hlt | heq | hlt
  · have hpass := h.follower_passes hin hlt (h.follower_lt hjn).1
    rw [hj] at hpass
    exact nomatch hpass
  · exact heq
  · have hpass := h.follower_passes hjn hlt (h.follower_lt hin).1
    rw [hi] at hpass
    exact nomatch hpass

/-! ## Assembled programs -/

/-- The statements of a source text in their places. -/
def placed (source : List Char) : List Placed :=
  (Entry.layout 0 (Item.ofSource source)).filterMap Entry.statement?

/-- Every placed statement is one of the source text, at an address. -/
theorem exists_place_of_mem_placed {source : List Char} {pl : Placed} (h : pl ∈ placed source) :
    ∃ s address, Item.statement s ∈ Item.ofSource source ∧ pl = Placed.place s address := by
  rw [placed, List.mem_filterMap] at h
  obtain ⟨e, he, hpl⟩ := h
  cases e with
  | label l => exact nomatch hpl
  | statement pl' =>
      rw [← Option.some.inj hpl]
      exact Entry.exists_of_mem_layout he

/-- Every statement of a program is sound. -/
theorem exists_place_of_getElem? {source : List Char} {config : Config} {i : Nat} {pl : Placed}
    (h : (assemble source config).statements[i]? = some pl) :
    ∃ s address, s.Sound ∧ pl = Placed.place s address := by
  have hmem : pl ∈ placed source := by
    rw [← List.mem_toArray]
    exact Array.mem_of_getElem? h
  obtain ⟨s, a, hs, heq⟩ := exists_place_of_mem_placed hmem
  exact ⟨s, a, Item.sound_of_mem_ofSource hs, heq⟩

/-- What an address names is a statement of the list. -/
theorem holder_lt {data : Option Mark} {ss : List Placed} {address i : Nat}
    (h : holder data ss address = some i) : i < ss.length :=
  (List.findIdx?_eq_some_iff_getElem.mp h).1

/-- A jump leads to a statement of the list, if labels name such statements. -/
theorem jumpTarget_lt {data : Option Mark} {ss : List Placed} {labels : List Label} {s : Placed}
    {t : Nat} (hlabels : ∀ l ∈ labels, ∀ i, l.statement = some i → i < ss.length)
    (h : jumpTarget data ss labels s = some t) : t < ss.length := by
  rw [jumpTarget] at h
  split at h
  · obtain ⟨l, hl, ht⟩ := Option.bind_eq_some_iff.mp h
    exact hlabels l (List.mem_of_find?_eq_some hl) t ht
  · obtain ⟨a, -, ht⟩ := Option.bind_eq_some_iff.mp h
    exact holder_lt ht

/-- What jumps somewhere transfers control. -/
theorem isControl_of_jumpTarget {data : Option Mark} {ss : List Placed} {labels : List Label}
    {s : Statement} {address t : Nat}
    (h : jumpTarget data ss labels (Placed.place s address) = some t) : s.isControl = true := by
  rw [jumpTarget] at h
  split at h
  · next name hname => exact Placed.isControl_of_targetSymbol (s := s) hname
  · obtain ⟨a, ha, -⟩ := Option.bind_eq_some_iff.mp h
    exact Placed.isControl_of_targetAddress ha

/-- Only executable statements are marked as entries of routines. -/
theorem isCode_of_startTable {ss : Array Placed} {i : Nat} (entries : List Nat)
    (h : (startTable ss entries)[i]? = some true) : (ss[i]?).any (·.isCode) = true := by
  revert h
  rw [startTable]
  -- the invariant: whatever is marked so far is executable
  refine List.foldlRecOn (motive := fun table : Array Bool =>
    table[i]? = some true → (ss[i]?).any (·.isCode) = true) entries _ ?_ ?_
  · intro h
    exact absurd (Array.eq_of_mem_replicate (Array.mem_of_getElem? h)) Bool.false_ne_true.symm
  · intro table ih j _ h
    rw [Array.getElem?_setIfInBounds] at h
    split at h
    · next hji =>
      split at h
      · rw [← hji]
        exact Option.some.inj h
      · exact nomatch h
    · exact ih h

/-- The follower of a statement comes first among the statements after it. -/
theorem followers_of_follower {source : List Char} {config : Config} {i n : Nat}
    (h : (assemble source config).follower i = some n) :
    (followers (i + 1) ((placed source).drop (i + 1))).2 = some n := by
  have h' : ((followers 0 (placed source)).1.toArray)[i]?.join = some n := h
  rw [List.getElem?_toArray] at h'
  by_cases hi : i < (placed source).length
  · rw [getElem?_followers _ 0 i hi, Nat.zero_add] at h'
    exact h'
  · rw [List.getElem?_eq_none (by rw [length_followers]; omega)] at h'
    exact nomatch h'

/-- The table of targets holds where each statement jumps to. -/
theorem jumpTarget_of_targetOf {source : List Char} {config : Config} {i t : Nat}
    (h : (assemble source config).targetOf i = some t) :
    ∃ s, (assemble source config).statements[i]? = some s ∧
      jumpTarget (assemble source config).data (placed source) (assemble source config).labels s
        = some t := by
  have h' : (((placed source).map (jumpTarget (assemble source config).data (placed source)
    (assemble source config).labels)).toArray)[i]?.join = some t := h
  rw [List.getElem?_toArray, List.getElem?_map] at h'
  cases hs : (placed source)[i]? with
  | none => rw [hs] at h'; exact nomatch h'
  | some s =>
      rw [hs] at h'
      refine ⟨s, ?_, h'⟩
      show (placed source).toArray[i]? = some s
      rw [List.getElem?_toArray]
      exact hs

/-- A label names a statement that is there. -/
theorem label_statement_lt {source : List Char} {config : Config} :
    ∀ l ∈ (assemble source config).labels, ∀ i, l.statement = some i →
      i < (placed source).length := by
  intro l hl i hi
  obtain ⟨l', -, rfl⟩ := List.mem_map.mp hl
  exact holder_lt hi

/-- Every assembled program is well formed. -/
theorem wellFormed_assemble (source : List Char) (config : Config) :
    (assemble source config).WellFormed where
  sound := by
    intro i s hs
    obtain ⟨s', a, hsound, rfl⟩ := exists_place_of_getElem? hs
    exact Placed.sound_place hsound a
  follower_lt := by
    intro i n h
    obtain ⟨hle, hlt, -⟩ := followers_snd _ _ _ (followers_of_follower h)
    rw [List.length_drop] at hlt
    refine ⟨by omega, ?_⟩
    show n < (placed source).toArray.size
    rw [List.size_toArray]
    omega
  follower_passes := by
    intro i j n h hij hjn
    obtain ⟨-, -, hbetween⟩ := followers_snd _ _ _ (followers_of_follower h)
    show ((placed source).toArray[j]?).any (·.isCode) = false
    rw [List.getElem?_toArray]
    cases hs : (placed source)[j]? with
    | none => rfl
    | some s =>
        -- statement `j` is among those after `i`, where the follower of `i` comes first
        have hj : ((placed source).drop (i + 1))[j - (i + 1)]? = some s := by
          rw [List.getElem?_drop, show i + 1 + (j - (i + 1)) = j by omega]
          exact hs
        exact isCode_of_isTransparent (hbetween _ s (by omega) hj)
  target_lt := by
    intro i t h
    obtain ⟨s, -, ht⟩ := jumpTarget_of_targetOf h
    show t < (placed source).toArray.size
    rw [List.size_toArray]
    exact jumpTarget_lt label_statement_lt ht
  target_control := by
    intro i t h
    obtain ⟨s, hs, ht⟩ := jumpTarget_of_targetOf h
    obtain ⟨s', a, -, rfl⟩ := exists_place_of_getElem? hs
    exact test_eq_true.mpr ⟨_, hs, isControl_of_jumpTarget ht⟩
  entry_code := by
    intro i h
    obtain ⟨hi, hcode, -⟩ := List.findIdx?_eq_some_iff_getElem.mp h
    rw [Bool.and_eq_true, Bool.and_eq_true] at hcode
    refine test_eq_true.mpr ⟨(placed source)[i], ?_, hcode.1.1⟩
    show (placed source).toArray[i]? = _
    rw [List.getElem?_toArray]
    exact List.getElem?_eq_getElem hi
  start_code := by
    intro i h
    rw [isStart] at h
    cases hs : (assemble source config).starts[i]? with
    | none => rw [hs] at h; exact nomatch h
    | some b =>
        rw [hs] at h
        have hb : b = true := h
        rw [hb] at hs
        exact isCode_of_startTable _ hs

end Program

end AsmCheck
