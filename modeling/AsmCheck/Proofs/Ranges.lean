import AsmCheck.Proofs.LiteralValues
import AsmCheck.Proofs.Sizes

/-! # Ranges of immediates

    An immediate has to fit the width that its statement works on, as a signed
    or as an unsigned number.  What is checked is the number that was read,
    which never leaves the range of 64-bit integers.  Up to 32 bits that makes
    no difference (`admits_clamp`), and the check is about what the literals
    of the statement mean, however long they are (`outOfRange_exact`).

    At 64 bits the limits of the check are the limits of reading.  Whatever
    has been read passes, and a number that does not fit is not noticed
    (`quad_never_outOfRange`). -/

namespace AsmCheck

open Source

namespace Width

/-- How many bits an operand of this width has. -/
def bits : Width → Nat
  | .byte => 8
  | .word => 16
  | .long => 32
  | .quad => 64

/-- Except at the greatest width, a number can be checked after it has been moved into the range of
    64-bit integers; there every such number passes. -/
theorem admits_clamp (w : Width) (m : Int) :
    w.admits (Literal.clamp m) = true ↔
      w = .quad ∨ -2 ^ (w.bits - 1) ≤ m ∧ m ≤ 2 ^ w.bits - 1 := by
  rw [admits, Bool.and_eq_true, decide_eq_true_iff, decide_eq_true_iff, Literal.clamp]
  cases w with
  | quad =>
      simp only [least, greatest, true_or, iff_true]
      omega
  | byte | word | long =>
      simp only [least, greatest, bits, reduceCtorEq, false_or]
      omega

end Width

namespace Statement

/-! ## The check -/

section Check

variable {op : Opcode} {w : Width} {o : Operand} {ops : List Operand}

/-- A value is reported as out of range exactly if the width does not admit it. -/
theorem outOfRange_mem_widthFault :
    Flag.outOfRange ∈ widthFault op w o ↔
      ∃ v n, o = .immediate v ∧ v.value? = some n ∧ w.admits n = false := by
  cases o with
  | immediate v =>
      rw [widthFault, EnumSet.mem_when, and_iff_left (EnumSet.mem_singleton.mpr rfl)]
      cases hvalue : v.value? with
      | none => simp [hvalue]
      | some n => simp [hvalue]
  | register r => simp [widthFault]
  | memory m => simp [widthFault]
  | invalid text => simp [widthFault]

/-- Each operand is checked; that the first of two may be a count only matters to registers. -/
theorem outOfRange_mem_widthFaults (hcheck : checkedWidth op = some w)
    (hquad : ¬ (op.kind.isCode && op.width == some .quad) = true) :
    Flag.outOfRange ∈ widthFaults op ops ↔
      ∃ o ∈ ops, Flag.outOfRange ∈ widthFault op w o := by
  rw [widthFaults, hcheck]
  dsimp only
  rw [if_neg hquad]
  split
  · next r dst =>
    have hregister : ¬ Flag.outOfRange ∈ widthFault op w (.register r) := by
      rw [outOfRange_mem_widthFault]
      rintro ⟨v, n, hv, -⟩
      cases hv
    rw [EnumSet.mem_union, EnumSet.mem_when]
    simp [hregister]
  · rw [FlagSet.mem_foldl_union]
    simp

end Check

/-! ## Operands and their tokens -/

/-- The tokens that stand for the operands of a statement. -/
def operandTokens (s : Statement) : List (List Char) :=
  (tokens s.text.toList).tail

/-- The tokens that are immediates with a number, in a statement of some kind: a dollar sign and a
    text that means the number, or, where numbers are stored, that text alone. -/
inductive Gives (kind : Kind) : List Char → Int → Prop where
  | dollar {cs : List Char} {m : Int} (literal : Literal.Means cs m) : Gives kind ('$' :: cs) m
  | bare {cs : List Char} {m : Int} (stored : kind = .number) (literal : Literal.Means cs m) :
      Gives kind cs m

/-- The operand that a token is read as, in a statement of some kind. -/
def operandOf (kind : Kind) (token : List Char) : Operand :=
  if kind = .number then (Reading.value token).1 else (Operand.classify token).1

/-- A value of a directive is a number, with or without a dollar sign. -/
theorem value_eq_immediate {token : List Char} {v : Immediate} :
    (Reading.value token).1 = .immediate v ↔
      ∃ literal, (token = '$' :: literal ∨ token = literal) ∧ Immediate.read literal = some v := by
  constructor
  · intro hv
    obtain ⟨literal, htoken, ⟨v', hread, hv'⟩ | ⟨-, hinvalid⟩⟩ := Reading.value_cases token
    · rw [hv'] at hv
      cases hv
      exact ⟨literal, htoken.imp_right And.left, hread⟩
    · rw [hinvalid] at hv
      cases hv
  · rintro ⟨literal, htoken, hread⟩
    rw [Reading.value_of_read hread htoken]

/-- An operand is a number only behind a dollar sign. -/
theorem classify_eq_immediate {token : List Char} {v : Immediate} :
    (Operand.classify token).1 = .immediate v ↔
      ∃ literal, token = '$' :: literal ∧ Immediate.read literal = some v := by
  constructor
  · intro hv
    by_cases hdollar : token.head? = some '$'
    · obtain ⟨cs, rfl⟩ := List.head?_eq_some_iff.mp hdollar
      cases hread : Immediate.read cs with
      | none =>
          rw [Operand.classify_dollar_none hread] at hv
          cases hv
      | some v' =>
          rw [Operand.classify_dollar_some hread] at hv
          cases hv
          exact ⟨cs, rfl, hread⟩
    · exact absurd hv ((Operand.classify_render_of_head hdollar).2 v)
  · rintro ⟨literal, rfl, hread⟩
    rw [Operand.classify_dollar_some hread]

/-- Both cases together, by the kind of the statement. -/
theorem operandOf_eq_immediate {kind : Kind} {token : List Char} {v : Immediate} :
    operandOf kind token = .immediate v ↔
      ∃ literal, (token = '$' :: literal ∨ kind = .number ∧ token = literal) ∧
        Immediate.read literal = some v := by
  by_cases hkind : kind = .number
  · rw [operandOf, if_pos hkind, value_eq_immediate]
    simp only [hkind, true_and]
  · rw [operandOf, if_neg hkind, classify_eq_immediate]
    simp only [hkind, false_and, or_false]

/-- A token gives what its literal means. -/
theorem gives_iff {kind : Kind} {token : List Char} {m : Int} :
    Gives kind token m ↔ ∃ literal, (token = '$' :: literal ∨ kind = .number ∧ token = literal) ∧
      Literal.Means literal m := by
  constructor
  · intro h
    cases h with
    | dollar hm => exact ⟨_, Or.inl rfl, hm⟩
    | bare hstored hm => exact ⟨_, Or.inr ⟨hstored, rfl⟩, hm⟩
  · rintro ⟨literal, rfl | ⟨hstored, rfl⟩, hm⟩
    · exact .dollar hm
    · exact .bare hstored hm

/-- A token is read as an immediate with a number if it gives one, and then as the nearest 64-bit
    integer. -/
theorem exists_value_operandOf {kind : Kind} {token : List Char} {n : Int} :
    (∃ v, operandOf kind token = .immediate v ∧ v.value? = some n) ↔
      ∃ m, Gives kind token m ∧ n = Literal.clamp m := by
  constructor
  · rintro ⟨v, hv, hvalue⟩
    obtain ⟨literal, htoken, hread⟩ := operandOf_eq_immediate.mp hv
    obtain ⟨m, hm, hn⟩ := Immediate.exists_value_read.mp ⟨v, hread, hvalue⟩
    exact ⟨m, gives_iff.mpr ⟨literal, htoken, hm⟩, hn⟩
  · rintro ⟨m, hm, hn⟩
    obtain ⟨literal, htoken, hmeans⟩ := gives_iff.mp hm
    obtain ⟨v, hread, hvalue⟩ := Immediate.exists_value_read.mpr ⟨m, hmeans, hn⟩
    exact ⟨v, operandOf_eq_immediate.mpr ⟨literal, htoken, hread⟩, hvalue⟩

end Statement

/-- The shapes of instructions. -/
def Shape.ofCode : List Shape :=
  [.nullary, .unary, .binary, .unaryOrBinary, .frame, .target]

/-- Executable operations have one of the shapes for code. -/
theorem Opcode.shape_of_isCode {mnemonic : String} {op : Opcode}
    (h : ofMnemonic? mnemonic = some op) (hcode : op.kind.isCode = true) :
    op.shape ∈ Shape.ofCode := by
  refine of_ofMnemonic (P := fun op => op.kind.isCode = true → op.shape ∈ Shape.ofCode) h ?_ ?_
    (fun _ _ h => h) hcode
  · decide
  · intro test _
    show Shape.target ∈ Shape.ofCode
    decide

namespace Statement

/-- Only numbers and code are held to a width. -/
theorem kind_of_checkedWidth {op : Opcode} {w : Width} (h : checkedWidth op = some w) :
    op.kind = .number ∨ op.kind.isCode = true := by
  rw [checkedWidth] at h
  split at h
  · next hkind => simpa using hkind
  · cases h

/-- If their number is right, the operands that are held to a width are those of the tokens, one by
    one, whatever the shape. -/
theorem operands_ofTokens {mnemonic : String} {op : Opcode} {w : Width}
    {args : List (List Char)} (hop : Opcode.ofMnemonic? mnemonic = some op)
    (hcheck : checkedWidth op = some w) (hcount : op.shape.accepts args.length = true) :
    (Reading.ofTokens op.shape args).operands = args.map (operandOf op.kind) := by
  rw [Reading.ofTokens, if_pos hcount]
  rcases kind_of_checkedWidth hcheck with hkind | hcode
  · rw [(Opcode.shape_of_number hop hkind).1, hkind]
    rfl
  · have hkind : op.kind ≠ .number := by
      intro hkind
      rw [hkind] at hcode
      cases hcode
    have hclassify : args.map (operandOf op.kind) = args.map fun a => (Operand.classify a).1 :=
      List.map_congr_left fun a _ => if_neg hkind
    rw [hclassify]
    have hshape := Opcode.shape_of_isCode hop hcode
    simp only [Shape.ofCode, List.mem_cons, List.not_mem_nil, or_false] at hshape
    rcases hshape with hshape | hshape | hshape | hshape | hshape | hshape <;>
      rw [hshape] at hcount ⊢
    · obtain rfl : args = [] := List.length_eq_zero_iff.mp (beq_iff_eq.mp hcount)
      rfl
    all_goals rfl

/-! ## Statements as they are read -/

/-- The statements that reading gives: from a text that is nothing but a statement, or from a line
    that may start with a label. -/
inductive IsParsed : Statement → Prop where
  | text (cs : List Char) (line : Nat) : IsParsed (parse cs line)
  | line {cs : List Char} {line : Nat} {s : Statement}
      (statement : (ParsedLine.parse cs line).statement = some s) : IsParsed s

/-- The operation is looked up by the mnemonic. -/
theorem opcode_parse (cs : List Char) (line : Nat) :
    (parse cs line).opcode = Opcode.ofMnemonic? (parse cs line).mnemonic := by
  rw [parse]
  dsimp only
  split
  · next hop => exact hop.symm
  · next hop => exact hop.symm

/-- Reading operands never says that a value is out of range; only holding them to a width does. -/
theorem outOfRange_mem_parse {cs : List Char} {line : Nat} {op : Opcode}
    (hop : (parse cs line).opcode = some op) :
    Flag.outOfRange ∈ (parse cs line).faults ↔
      Flag.outOfRange ∈ widthFaults op (parse cs line).operands := by
  rw [parse] at hop ⊢
  dsimp only at hop ⊢
  split at hop
  · cases hop
  · obtain rfl := Option.some.inj hop
    show Flag.outOfRange ∈ _ ∪ _ ↔ _
    rw [EnumSet.mem_union]
    refine or_iff_right fun hown => ?_
    exact absurd (Reading.within_ofTokens _ _ _ hown) (by decide)

namespace IsParsed

variable {s : Statement} {op : Opcode} {w : Width}

theorem isRead (h : s.IsParsed) : s.IsRead := by
  cases h with
  | text cs line => exact isRead_parse cs line
  | line hs => exact ParsedLine.isRead_parse hs

/-- A label on the same line adds to the faults, and to nothing else. -/
theorem exists_parse (h : s.IsParsed) : ∃ cs line shares, s =
    { parse cs line with faults := (parse cs line).faults ∪ EnumSet.when {.sharesLine} shares } := by
  cases h with
  | text cs line =>
      refine ⟨cs, line, false, ?_⟩
      have hnone : (parse cs line).faults ∪ EnumSet.when {.sharesLine} false =
          (parse cs line).faults := by
        ext f
        simp
      rw [hnone]
  | line hs =>
      rw [ParsedLine.parse] at hs
      dsimp only at hs
      split at hs
      · cases hs
      · exact ⟨_, _, _, (Option.some.inj hs).symm⟩

theorem opcode_eq (h : s.IsParsed) : s.opcode = Opcode.ofMnemonic? s.mnemonic := by
  obtain ⟨cs, line, shares, rfl⟩ := h.exists_parse
  exact opcode_parse cs line

/-- Only the check against a width finds that an immediate is out of range. -/
theorem outOfRange_mem_flags (h : s.IsParsed) (hop : s.opcode = some op) :
    Flag.outOfRange ∈ s.flags ↔ Flag.outOfRange ∈ widthFaults op s.operands := by
  have hother : ∀ {f : Flag} {b : Bool}, Flag.outOfRange ≠ f →
      ¬ Flag.outOfRange ∈ EnumSet.when {f} b := by
    intro f b hne hmem
    exact hne (EnumSet.mem_singleton.mp (EnumSet.mem_when.mp hmem).2)
  obtain ⟨cs, line, shares, rfl⟩ := h.exists_parse
  rw [flags, EnumSet.mem_union, or_iff_left (hother (by decide)), EnumSet.mem_union,
    or_iff_left (hother (by decide))]
  exact outOfRange_mem_parse hop

/-- An immediate is found out of range if a token gives a number that the width does not admit once
    it has been moved into the range of 64-bit integers. -/
theorem outOfRange_iff (h : s.IsParsed) (hop : s.opcode = some op)
    (hcheck : checkedWidth op = some w)
    (hquad : ¬ (op.kind.isCode && op.width == some .quad) = true)
    (hcount : op.shape.accepts s.operandTokens.length = true) :
    Flag.outOfRange ∈ s.flags ↔ ∃ token ∈ s.operandTokens, ∃ m, Gives s.kind token m ∧
      w.admits (Literal.clamp m) = false := by
  have hmnemonic := h.opcode_eq.symm.trans hop
  have hkind : s.kind = op.kind := by
    rw [kind, hop]
    rfl
  have hoperands : s.operands = s.operandTokens.map (operandOf op.kind) := by
    cases h.isRead with
    | unknown hnone _ =>
        rw [hop] at hnone
        cases hnone
    | known hsome _ hread _ _ _ =>
        obtain rfl := Option.some.inj (hsome.symm.trans hop)
        rw [hread]
        exact operands_ofTokens hmnemonic hcheck hcount
  rw [h.outOfRange_mem_flags hop, outOfRange_mem_widthFaults hcheck hquad, hoperands, hkind]
  constructor
  · rintro ⟨o, ho, hfault⟩
    obtain ⟨token, htoken, rfl⟩ := List.mem_map.mp ho
    obtain ⟨v, n, hv, hvalue, hadmits⟩ := outOfRange_mem_widthFault.mp hfault
    obtain ⟨m, hm, rfl⟩ := exists_value_operandOf.mp ⟨v, hv, hvalue⟩
    exact ⟨token, htoken, m, hm, hadmits⟩
  · rintro ⟨token, htoken, m, hm, hadmits⟩
    obtain ⟨v, hv, hvalue⟩ := exists_value_operandOf.mpr ⟨m, hm, rfl⟩
    refine ⟨_, List.mem_map_of_mem htoken, ?_⟩
    exact outOfRange_mem_widthFault.mpr ⟨v, _, hv, hvalue, hadmits⟩

end IsParsed

/-! ## Up to 32 bits -/

/-- The directives that store numbers of up to 32 bits. -/
def storing : List (String × Width) :=
  [(".byte", .byte), (".word", .word), (".short", .word), (".long", .long), (".int", .long)]

end Statement

namespace Opcode

/-- The letters that name a width at the end of a mnemonic. -/
def widthLetters : List (Char × Width) :=
  [('b', .byte), ('w', .word), ('l', .long), ('q', .quad)]

/-- A mnemonic that is the name of a family of instructions with a width letter behind it. -/
def CarriesWidth (mnemonic : String) (w : Width) : Prop :=
  ∃ name ∈ families.flatMap Prod.fst, ∃ letter, (letter, w) ∈ widthLetters ∧
    mnemonic.toList = name.toList ++ [letter]

/-- The letters that carry a width, all of them. -/
theorem mem_widthLetters {c : Char} {w : Width} (h : Width.ofSuffix? c = some w) :
    (c, w) ∈ widthLetters := by
  revert h
  fun_cases Width.ofSuffix? c with
  | case1 | case2 | case3 | case4 =>
      intro h
      cases h
      decide
  | case5 =>
      intro h
      cases h

/-- No mnemonic of the tables is the name of a family with a letter behind it, and no such name starts
    like a conditional jump. -/
theorem names_apart :
    (∀ mnemonic ∈ (fixed ++ families).flatMap Prod.fst,
        ¬ mnemonic.toList.dropLast ∈ (families.flatMap Prod.fst).map String.toList) ∧
      ∀ name ∈ families.flatMap Prod.fst, name.toList ≠ [] ∧ name.toList.head? ≠ some 'j' := by
  decide +kernel

/-- Of the instructions, those have a width whose mnemonic carries it. -/
theorem width_eq_some_iff {mnemonic : String} {op : Opcode} {w : Width}
    (h : ofMnemonic? mnemonic = some op) (hcode : op.kind.isCode = true) :
    op.width = some w ↔ CarriesWidth mnemonic w := by
  have hnone : ∀ row ∈ fixed ++ families, row.2.kind.isCode = true → row.2.width = none := by
    decide
  constructor
  · intro hwidth
    rcases ofMnemonic_cases h with ⟨row, hrow, -, rfl⟩ | ⟨test, -, rfl⟩ |
      ⟨row, hrow, name, hname, letter, w', htext, hletter, rfl⟩
    · rw [hnone row hrow hcode] at hwidth
      cases hwidth
    · cases hwidth
    · obtain rfl : w' = w := Option.some.inj hwidth
      exact ⟨name, List.mem_flatMap.mpr ⟨row, hrow, hname⟩, letter, mem_widthLetters hletter, htext⟩
  · rintro ⟨name, hname, letter, hletter, htext⟩
    obtain ⟨hsome, hjump⟩ := names_apart.2 name hname
    rcases ofMnemonic_cases h with ⟨row, hrow, hmem, -⟩ | ⟨test, hj, -⟩ |
      ⟨row, -, name', -, letter', w', htext', hletter', rfl⟩
    · refine absurd ?_ (names_apart.1 mnemonic (List.mem_flatMap.mpr ⟨row, hrow, hmem⟩))
      rw [htext, List.dropLast_concat]
      exact List.mem_map_of_mem hname
    · rw [htext, List.head?_append_of_ne_nil _ hsome] at hj
      exact absurd hj hjump
    · -- the last letter is one and the same
      obtain rfl : letter' = letter := by
        have heq := htext'.symm.trans htext
        exact List.singleton_inj.mp (List.append_inj' heq rfl).2
      have hsame : ∀ x ∈ widthLetters, Width.ofSuffix? x.1 = some x.2 := by decide
      exact hletter'.symm.trans (hsame _ hletter)

end Opcode

namespace Statement

/-- The statements whose immediates have to fit a width of up to 32 bits: directives that store
    numbers, and instructions by the letter at the end of their mnemonic, or at 32 bits if there is
    none. -/
inductive HeldTo (s : Statement) (w : Width) : Prop where
  | directive {name : String} (entry : (name, w) ∈ storing) (mnemonic : s.mnemonic = name)
      (some : s.operandTokens ≠ [])
  | code {op : Opcode} (known : s.opcode = some op) (isCode : op.kind.isCode = true)
      (count : op.shape.accepts s.operandTokens.length = true)
      (width : Opcode.CarriesWidth s.mnemonic w ∨
        w = .long ∧ ∀ v, ¬ Opcode.CarriesWidth s.mnemonic v)
      (supported : w ≠ .quad)

/-- The directives that store numbers, with their widths. -/
theorem ofMnemonic?_of_storing : ∀ entry ∈ storing, entry.2 ≠ .quad ∧
    Opcode.ofMnemonic? entry.1 = some
      { kind := .number, shape := .values, effect := .none, width := some entry.2 } := by
  decide +kernel

/-- Such a statement has an operation that is checked against the width, and operands of the right
    number. -/
theorem HeldTo.exists_opcode {s : Statement} {w : Width} (hs : s.IsParsed) (h : s.HeldTo w) :
    w ≠ .quad ∧ ∃ op, s.opcode = some op ∧ checkedWidth op = some w ∧
      ¬ (op.kind.isCode && op.width == some .quad) = true ∧
      op.shape.accepts s.operandTokens.length = true := by
  cases h with
  | @directive name hentry hname hsome =>
      obtain ⟨hne, hop⟩ := ofMnemonic?_of_storing _ hentry
      rw [← hname, ← hs.opcode_eq] at hop
      refine ⟨hne, _, hop, rfl, Bool.false_ne_true, ?_⟩
      exact decide_eq_true (List.length_pos_iff.mpr hsome)
  | @code op hop hcode hcount hcarries hne =>
      have hiff : ∀ v, op.width = some v ↔ Opcode.CarriesWidth s.mnemonic v := fun v =>
        Opcode.width_eq_some_iff (hs.opcode_eq ▸ hop) hcode
      have hwidth : op.width.getD .long = w := by
        rcases hcarries with hcarries | ⟨rfl, hnone⟩
        · rw [(hiff w).mpr hcarries]
          rfl
        · rw [Option.eq_none_iff_forall_ne_some.mpr fun v hv => hnone v ((hiff v).mp hv)]
          rfl
      refine ⟨hne, op, hop, ?_, ?_, hcount⟩
      · rw [checkedWidth, if_pos (by rw [hcode, Bool.or_true]), hwidth]
      · rw [Bool.and_eq_true, beq_iff_eq]
        rintro ⟨-, hquad⟩
        rw [hquad] at hwidth
        exact hne hwidth.symm

/-- Immediates are checked exactly up to 32 bits.  A statement is found to have an immediate that is
    out of range if and only if one of its operands is an immediate whose number, as it is written
    and without regard to any limit, does not fit the width, be it as a signed or as an unsigned
    number. -/
theorem outOfRange_exact {s : Statement} {w : Width} (hs : s.IsParsed) (hheld : s.HeldTo w) :
    Flag.outOfRange ∈ s.flags ↔ ∃ token ∈ s.operandTokens, ∃ m, Gives s.kind token m ∧
      ¬ (-2 ^ (w.bits - 1) ≤ m ∧ m ≤ 2 ^ w.bits - 1) := by
  obtain ⟨hne, op, hop, hcheck, hquad, hcount⟩ := hheld.exists_opcode hs
  have hadmits : ∀ m, w.admits (Literal.clamp m) = false ↔
      ¬ (-2 ^ (w.bits - 1) ≤ m ∧ m ≤ 2 ^ w.bits - 1) := by
    intro m
    rw [← Bool.not_eq_true, w.admits_clamp, or_iff_right hne]
  rw [hs.outOfRange_iff hop hcheck hquad hcount]
  simp only [hadmits]

/-- A rotation whose count has 41 digits, more than 128 bits hold. -/
def longCount : Statement :=
  parse ("ROLW $-1".toList ++ (List.replicate 40 '0' ++ ", %ax".toList)) 0

theorem longCount_text :
    longCount.opcode = some
        { kind := .arithmetic, shape := .unaryOrBinary, effect := .update, width := some .word,
          setsCodes := true, hasCount := true } ∧
      longCount.mnemonic.toList = "rol".toList ++ ['w'] ∧
      longCount.operandTokens.length = 2 ∧ Flag.outOfRange ∈ longCount.flags := by
  decide +kernel

/-- It is found out of range, and this is because of what it means. -/
theorem longCount_exact :
    longCount.HeldTo .word ∧ Flag.outOfRange ∈ longCount.flags ∧
      ∃ token ∈ longCount.operandTokens, ∃ m, Gives longCount.kind token m ∧
        ¬ (-2 ^ 15 ≤ m ∧ m ≤ 2 ^ 16 - 1) := by
  obtain ⟨hop, hmnemonic, hlength, hflag⟩ := longCount_text
  have hcarries : Opcode.CarriesWidth longCount.mnemonic .word :=
    ⟨"rol", by decide, 'w', by decide, hmnemonic⟩
  have hheld : longCount.HeldTo .word :=
    .code hop rfl (by rw [hlength]; rfl) (Or.inl hcarries) (by decide)
  exact ⟨hheld, hflag, (outOfRange_exact (.text _ 0) hheld).mp hflag⟩

/-! ## 64 bits -/

/-- Numbers of 64 bits are never found out of range, and so they are checked rightly only as long as
    each of them fits, be it as a signed or as an unsigned number. -/
theorem quad_never_outOfRange {s : Statement} (hs : s.IsParsed) (hname : s.mnemonic = ".quad")
    (hsome : s.operandTokens ≠ []) :
    ¬ Flag.outOfRange ∈ s.flags ∧
      ((Flag.outOfRange ∈ s.flags ↔ ∃ token ∈ s.operandTokens, ∃ m, Gives s.kind token m ∧
          ¬ (-2 ^ 63 ≤ m ∧ m ≤ 2 ^ 64 - 1)) ↔
        ∀ token ∈ s.operandTokens, ∀ m, Gives s.kind token m → -2 ^ 63 ≤ m ∧ m ≤ 2 ^ 64 - 1) := by
  have hop : s.opcode = some
      { kind := .number, shape := .values, effect := .none, width := some .quad } := by
    rw [hs.opcode_eq, hname]
    decide +kernel
  have hnever : ¬ Flag.outOfRange ∈ s.flags := by
    rw [hs.outOfRange_iff (w := .quad) hop rfl Bool.false_ne_true
      (decide_eq_true (List.length_pos_iff.mpr hsome))]
    rintro ⟨token, -, m, -, hadmits⟩
    rw [(Width.admits_clamp .quad m).mpr (Or.inl rfl)] at hadmits
    cases hadmits
  refine ⟨hnever, ?_⟩
  rw [iff_false_left hnever]
  constructor
  · intro hno token htoken m hm
    by_contra hrange
    exact hno ⟨token, htoken, m, hm, hrange⟩
  · rintro hall ⟨token, htoken, m, hm, hrange⟩
    exact hrange (hall token htoken m hm)

/-- The two ends of the range of 64 bits. -/
def quadLimits : Statement :=
  parse (".quad 0x-8".toList ++ (List.replicate 15 '0' ++ (", $0x".toList ++
    List.replicate 16 'f'))) 0

theorem quadLimits_text :
    quadLimits.mnemonic = ".quad" ∧ quadLimits.operandTokens ≠ [] := by
  decide +kernel

/-- Both pass. -/
theorem quadLimits_never_outOfRange :
    quadLimits.mnemonic = ".quad" ∧ quadLimits.operandTokens ≠ [] ∧
      ¬ Flag.outOfRange ∈ quadLimits.flags := by
  obtain ⟨hname, hsome⟩ := quadLimits_text
  exact ⟨hname, hsome, (quad_never_outOfRange (.text _ 0) hname hsome).1⟩

/-- The least positive number that 64 bits do not hold. -/
def beyondQuad : Statement :=
  parse (".quad 0x1".toList ++ List.replicate 16 '0') 0

theorem beyondQuad_text :
    beyondQuad.mnemonic = ".quad" ∧
      beyondQuad.operandTokens = ['0' :: 'x' :: '1' :: List.replicate 16 '0'] ∧
      ¬ Flag.outOfRange ∈ beyondQuad.flags := by
  decide +kernel

theorem denotes_beyondQuad :
    Literal.Denotes ('0' :: 'x' :: '1' :: List.replicate 16 '0') (2 ^ 64) .hex := by
  have hdigits : Literal.DigitsDenote 16 ('1' :: List.replicate 16 '0') (2 ^ 64) :=
    (Literal.digitsDenote_iff Literal.testsDigits_hex).mpr ⟨by decide, by decide +kernel⟩
  exact .hex false false (Or.inl rfl) (List.cons_ne_nil _ _) hdigits

/-- It is stored without notice. -/
theorem beyondQuad_unnoticed :
    beyondQuad.mnemonic = ".quad" ∧ beyondQuad.operandTokens ≠ [] ∧
      (∀ token ∈ beyondQuad.operandTokens, ∃ m radix, Literal.Denotes token m radix) ∧
      ¬ (Flag.outOfRange ∈ beyondQuad.flags ↔
        ∃ token ∈ beyondQuad.operandTokens, ∃ m radix, Literal.Denotes token m radix ∧
          ¬ (-2 ^ 63 ≤ m ∧ m ≤ 2 ^ 64 - 1)) := by
  obtain ⟨hname, htokens, hflag⟩ := beyondQuad_text
  rw [htokens]
  refine ⟨hname, List.cons_ne_nil _ _, ?_, fun hiff => hflag (hiff.mpr ?_)⟩
  · intro token htoken
    rw [List.mem_singleton.mp htoken]
    exact ⟨_, _, denotes_beyondQuad⟩
  · exact ⟨_, List.mem_singleton.mpr rfl, _, _, denotes_beyondQuad, by decide⟩

end Statement

end AsmCheck
