import AsmCheck.Proofs.Assembly
import AsmCheck.Proofs.RegisterWalk
import AsmCheck.Proofs.StatementText

/-! # Narrow results

    A result of 8 or 16 bits is merged into its register, whose old value
    therefore counts as read.  If this is done throughout (`Merges`), a narrow
    result cannot make an earlier store look dead.

    There are two ways around it (`Replaces`).  A multiplication by one operand
    counts as writing `%edx` whatever its width, and does not read it as a
    division does; and an extension from 8 to 16 bits names no width that its
    destination is held to, so that it may be a whole register.  For every other
    well-formed statement all that is written is also read
    (`narrow_replaces_iff`). -/

namespace AsmCheck

/-- Whether results of this width fill only a part of a register. -/
def Width.isNarrow : Width → Bool
  | .byte | .word => true
  | .long | .quad => false

/-- The registers that an operand names. -/
def Operand.slots : Operand → RegSet
  | .register r => {r.slot}
  | .memory m => EnumSet.ofList (m.registers.map Register.slot)
  | _ => ∅

namespace Statement

/-- The mnemonic names a narrow width: by its last letter, or as the result of an extension. -/
def IsNarrow (s : Statement) : Prop :=
  (∃ w, s.opcode.bind Opcode.width = some w ∧ w.isNarrow = true) ∨
    s.mnemonic ∈ ["movzbw", "movsbw"]

/-- A narrow statement that writes the whole of a register without regard to its old value. -/
inductive Replaces (s : Statement) : Reg → Prop where
  /-- The upper half of a product goes to `%edx`. -/
  | product {src : Operand} (name : s.mnemonic ∈ ["mulb", "mulw", "imulb", "imulw"])
      (operands : s.operands = [src]) (unread : ¬ Reg.edx ∈ src.slots) : Replaces s .edx
  /-- An extension may go to a register that is wider than it says. -/
  | extension {src : Operand} {r : Register} (name : s.mnemonic ∈ ["movzbw", "movsbw"])
      (operands : s.operands = [src, .register r]) (full : r.isFull = true)
      (unread : ¬ r.slot ∈ src.slots) : Replaces s r.slot

end Statement

/-! ## Effects that merge -/

namespace Effects

variable {a b e : Effects} {o : Operand} {r : Reg} {rs : RegSet}

/-- All that is written is also read. -/
def Merges (e : Effects) : Prop :=
  ∀ r, r ∈ e.writes → r ∈ e.reads

@[simp] theorem mem_reads_union : r ∈ (a ∪ b).reads ↔ r ∈ a.reads ∨ r ∈ b.reads :=
  EnumSet.mem_union

@[simp] theorem mem_writes_union : r ∈ (a ∪ b).writes ↔ r ∈ a.writes ∨ r ∈ b.writes :=
  EnumSet.mem_union

@[simp] theorem reads_empty : (∅ : Effects).reads = ∅ := rfl

@[simp] theorem writes_empty : (∅ : Effects).writes = ∅ := rfl

@[simp] theorem address_register (reg : Register) : address (.register reg) = ∅ := rfl

@[simp] theorem writes_readOperand (o : Operand) : (readOperand o).writes = ∅ := by
  cases o <;> rfl

@[simp] theorem writes_address (o : Operand) : (address o).writes = ∅ := by
  cases o <;> rfl

/-- Effects that write nothing merge with what is there, -/
theorem merges_of_writes (h : e.writes = ∅) : e.Merges := by
  intro r hr
  rw [h] at hr
  exact absurd hr (EnumSet.not_mem_empty r)

/-- and so do effects together that merge each alone. -/
theorem Merges.union (ha : a.Merges) (hb : b.Merges) : (a ∪ b).Merges := by
  intro r hr
  rw [mem_reads_union]
  exact (mem_writes_union.mp hr).imp (ha r) (hb r)

theorem merges_readOperand (o : Operand) : (readOperand o).Merges :=
  merges_of_writes (writes_readOperand o)

/-- The same holds of a whole list of effects. -/
theorem merges_all {es : List Effects} (h : ∀ e ∈ es, e.Merges) : (all es).Merges := by
  have hfold : ∀ {es : List Effects} {init : Effects}, init.Merges → (∀ e ∈ es, e.Merges) →
      (es.foldl (· ∪ ·) init).Merges := by
    intro es
    induction es with
    | nil => exact fun hinit _ => hinit
    | cons e es ih =>
        intro init hinit hes
        exact ih (hinit.union (hes e (List.mem_cons_self ..)))
          fun e' he' => hes e' (List.mem_cons_of_mem e he')
  exact hfold (merges_of_writes rfl) h

/-- Registers that are read anyway may be written. -/
theorem Merges.overwrite (h : e.Merges) (hread : ∀ r ∈ rs, r ∈ e.reads) :
    (e ∪ Effects.overwrite rs).Merges := by
  intro r hr
  rw [mem_reads_union]
  exact Or.inl ((mem_writes_union.mp hr).elim (h r) (hread r))

/-- Writing an operand merges, unless it is a full register. -/
theorem merges_writeOperand (h : ∀ reg, o = .register reg → reg.isFull = false) :
    (writeOperand o).Merges := by
  cases o with
  | register reg =>
      intro r hr
      show r ∈ EnumSet.when {reg.slot} (!reg.isFull)
      rw [h reg rfl]
      exact hr
  | _ => exact merges_of_writes rfl

end Effects

namespace Statement

open Effects

variable {s : Statement} {op : Opcode} {src : Operand} {r : Reg}

/-- What an operation does merges, if a register that is its last operand is narrow, if it pops one
    operand only, and if it is no multiplication by one operand. -/
theorem merges_operation
    (hlast : ∀ reg, s.operands.getLast? = some (.register reg) → reg.isFull = false)
    (hpop : op.effect = .pop → ∃ o, s.operands = [o])
    (hmul : ∀ src, op.effect = .mulDiv → s.operands = [src] →
      Text.hasPart "div".toList s.mnemonic.toList = true) : (s.operation op).Merges := by
  have hdst : ∀ {dst : Operand}, s.operands.getLast? = some dst → (writeOperand dst).Merges :=
    fun hdst => merges_writeOperand fun reg hreg => hlast reg (hreg ▸ hdst)
  have hstack : ∀ {e : Effects}, e.Merges → (e ∪ consume {.esp} ∪ overwrite {.esp}).Merges :=
    fun he => (he.union (merges_of_writes rfl)).overwrite fun r hr =>
      mem_reads_union.mpr (Or.inr hr)
  have hreads : ∀ ops : List Operand, (all (ops.map readOperand)).Merges := by
    refine fun ops => merges_all fun e he => ?_
    obtain ⟨o, -, rfl⟩ := List.mem_map.mp he
    exact merges_readOperand o
  fun_cases operation s op with
  | case1 src dst hops => exact hdst (by rw [hops]; rfl)
  | case2 src dst hops | case6 src dst hops =>
      exact ((merges_readOperand src).union (merges_readOperand dst)).union
        (hdst (by rw [hops]; rfl))
  | case3 dst hops => exact (merges_readOperand dst).union (hdst (by rw [hops]; rfl))
  | case4 => exact hreads _
  | case5 src dst hops => exact (merges_readOperand src).union (hdst (by rw [hops]; rfl))
  | case7 src hops heffect =>
      refine ((merges_readOperand src).union (merges_of_writes rfl)).overwrite fun r hr => ?_
      rw [mem_reads_union]
      refine Or.inr ?_
      show r ∈ s.implied
      rw [implied, if_pos (hmul src heffect hops)]
      exact hr
  | case8 => exact hstack (hreads _)
  | case9 heffect =>
      obtain ⟨o, hops⟩ := hpop heffect
      refine hstack (merges_all fun e he => ?_)
      rw [hops, List.map_singleton, List.mem_singleton] at he
      rw [he]
      exact hdst (by rw [hops]; rfl)
  | case10 => exact (merges_of_writes rfl).overwrite fun _ hr => hr
  | case11 => exact fun r _ => EnumSet.mem_full r
  | case12 => exact fun r _ => EnumSet.mem_full r
  | case13 => exact hreads _
  | case14 | case15 => exact merges_of_writes rfl

/-- A statement reads what its operands' addresses need, and does what its operation does. -/
theorem effects_eq (hop : s.opcode = some op) :
    s.effects = all (s.operands.map address) ∪ s.operation op := by
  rw [effects, hop]

/-- What a statement does merges if what its operation does merges. -/
theorem merges_effects (hop : s.opcode = some op) (h : (s.operation op).Merges) :
    s.effects.Merges := by
  rw [effects_eq hop]
  refine (merges_all fun e he => ?_).union h
  obtain ⟨o, -, rfl⟩ := List.mem_map.mp he
  exact merges_of_writes (writes_address o)

/-! ## Effects that do not -/

/-- The slots of an operand are the registers that it reads, for its address or for its value. -/
theorem mem_slots_iff {o : Operand} :
    r ∈ o.slots ↔ r ∈ (address o).reads ∨ r ∈ (readOperand o).reads := by
  cases o with
  | register reg => exact (or_iff_right (EnumSet.not_mem_empty r)).symm
  | memory m => exact (or_iff_left (EnumSet.not_mem_empty r)).symm
  | _ => exact (or_self_iff).symm

/-- A multiplication by one operand writes two registers and reads one of them. -/
theorem effects_product (hop : s.opcode = some op) (heffect : op.effect = .mulDiv)
    (hops : s.operands = [src]) (hdiv : Text.hasPart "div".toList s.mnemonic.toList = false) :
    (r ∈ s.effects.writes ↔ r = .eax ∨ r = .edx) ∧
      (r ∈ s.effects.reads ↔ r ∈ src.slots ∨ r = .eax) := by
  have hoperation : s.operation op =
      readOperand src ∪ consume {.eax} ∪ overwrite {.eax, .edx} := by
    rw [operation, heffect, hops, implied, hdiv]
    rfl
  rw [effects_eq hop, hoperation, hops, mem_slots_iff]
  simp [all, consume, overwrite, or_assoc]

/-- A move to a register reads its source and what the result is merged into. -/
theorem effects_assign {reg : Register} (hop : s.opcode = some op) (heffect : op.effect = .assign)
    (hops : s.operands = [src, .register reg]) (hfull : reg.isFull = true) :
    (r ∈ s.effects.writes ↔ r = reg.slot) ∧ (r ∈ s.effects.reads ↔ r ∈ src.slots) := by
  have hoperation : s.operation op = readOperand src ∪ writeOperand (.register reg) := by
    rw [operation, heffect, hops]
  rw [effects_eq hop, hoperation, hops, mem_slots_iff]
  simp [all, writeOperand, hfull]

end Statement

/-! ## What a mnemonic says -/

/-- Only two letters stand for narrow widths. -/
theorem Width.letter_of_narrow {c : Char} {w : Width} (h : ofSuffix? c = some w)
    (hnarrow : w.isNarrow = true) : c = 'b' ∨ c = 'w' := by
  revert h
  fun_cases ofSuffix? c with
  | case1 => exact fun _ => Or.inl rfl
  | case2 => exact fun _ => Or.inr rfl
  | case3 | case4 =>
      intro h
      cases h
      cases hnarrow
  | case5 =>
      intro h
      cases h

namespace Opcode

variable {mnemonic : String} {op : Opcode} {w : Width}

/-- Operands are held to a width that the mnemonic names. -/
theorem checkedWidth_of_width (h : ofMnemonic? mnemonic = some op) (hw : op.width = some w) :
    Statement.checkedWidth op = some w := by
  have hkind : op.kind = .number ∨ op.kind.isCode = true := by
    rcases ofMnemonic_cases h with ⟨row, hrow, -, rfl⟩ | ⟨test, -, rfl⟩ |
      ⟨row, hrow, -, -, -, -, -, -, rfl⟩
    · have hrows : ∀ row ∈ fixed ++ families, row.2.width ≠ none →
          row.2.kind = .number ∨ row.2.kind.isCode = true := by decide
      exact hrows row hrow (by rw [hw]; exact Option.some_ne_none w)
    · cases hw
    · have hrows : ∀ row ∈ families, row.2.kind.isCode = true := by decide
      exact Or.inr (hrows row hrow)
  rw [Statement.checkedWidth, if_pos (by simpa using hkind), hw]
  rfl

/-- Taking something from the stack needs one operand. -/
theorem shape_of_pop (h : ofMnemonic? mnemonic = some op) (heffect : op.effect = .pop) :
    op.shape = .unary := by
  refine of_ofMnemonic (P := fun op => op.effect = .pop → op.shape = .unary) h ?_ ?_
    (fun _ _ h => h) heffect
  · decide
  · intro test hpop
    cases hpop

/-- The narrow multiplications. -/
theorem mem_products (h : ofMnemonic? mnemonic = some op) (hw : op.width = some w)
    (hnarrow : w.isNarrow = true) (heffect : op.effect = .mulDiv)
    (hdiv : Text.hasPart "div".toList mnemonic.toList = false) :
    mnemonic ∈ ["mulb", "mulw", "imulb", "imulw"] := by
  rcases ofMnemonic_cases h with ⟨row, hrow, -, rfl⟩ | ⟨test, -, rfl⟩ |
    ⟨row, hrow, name, hname, c, w', hspelling, hc, rfl⟩
  · have hrows : ∀ row ∈ fixed ++ families, row.2.effect = .mulDiv → row.2.width = none := by
      decide
    rw [hrows row hrow heffect] at hw
    cases hw
  · cases heffect
  · have hrows : ∀ row ∈ families, row.2.effect = .mulDiv →
        row.1 = ["mul", "imul", "div", "idiv"] := by decide
    rw [hrows row hrow heffect] at hname
    have hletter := Width.letter_of_narrow hc (Option.some.inj hw ▸ hnarrow)
    have hmnemonic : mnemonic = String.ofList (name.toList ++ [c]) := by
      rw [← hspelling, String.ofList_toList]
    simp only [List.mem_cons, List.not_mem_nil, or_false] at hname
    subst hmnemonic
    rcases hname with rfl | rfl | rfl | rfl <;> rcases hletter with rfl | rfl <;>
      first
        | decide +kernel
        | exact absurd hdiv (by decide +kernel)

/-- The narrow products multiply, and none of them is a division. -/
theorem effect_of_product (h : ofMnemonic? mnemonic = some op)
    (hname : mnemonic ∈ ["mulb", "mulw", "imulb", "imulw"]) :
    op.effect = .mulDiv ∧ Text.hasPart "div".toList mnemonic.toList = false := by
  have hnames : ∀ m ∈ ["mulb", "mulw", "imulb", "imulw"],
      (ofMnemonic? m).map Opcode.effect = some .mulDiv ∧
        Text.hasPart "div".toList m.toList = false := by decide +kernel
  obtain ⟨heffect, hdiv⟩ := hnames mnemonic hname
  rw [h] at heffect
  exact ⟨Option.some.inj heffect, hdiv⟩

/-- The extensions to a word are moves that carry no width. -/
theorem eq_of_extension (h : ofMnemonic? mnemonic = some op)
    (hname : mnemonic ∈ ["movzbw", "movsbw"]) :
    op = { kind := .move, shape := .binary, effect := .assign } := by
  have hnames : ∀ m ∈ ["movzbw", "movsbw"],
      ofMnemonic? m = some { kind := .move, shape := .binary, effect := .assign } := by
    decide +kernel
  exact Option.some.inj (h.symm.trans (hnames mnemonic hname))

end Opcode

/-! ## Statements without faults -/

namespace Statement

open Source Text

variable {s : Statement} {op : Opcode} {w : Width} {r : Reg}

/-- A register that is the last operand has the width that the mnemonic names. -/
theorem width_of_last {ops : List Operand} {reg : Register} (hcheck : checkedWidth op = some w)
    (hw : op.width = some w) (hnarrow : w.isNarrow = true)
    (hfits : ¬ Flag.sizeMismatch ∈ widthFaults op ops)
    (hlast : ops.getLast? = some (.register reg)) : reg.width = w := by
  by_contra hne
  refine hfits ?_
  have hfault : Flag.sizeMismatch ∈ widthFault op w (.register reg) := by
    rw [widthFault, hw, EnumSet.mem_when]
    exact ⟨by simpa using hne, EnumSet.mem_singleton.mpr rfl⟩
  have hquad : ¬ (op.kind.isCode && op.width == some .quad) = true := by
    rw [hw]
    cases w <;> simp_all [Width.isNarrow]
  rw [widthFaults, hcheck]
  dsimp only
  rw [if_neg hquad]
  -- of two operands the first may be a count, which is not compared
  split
  · next first dst =>
    obtain rfl : dst = .register reg := Option.some.inj hlast
    exact EnumSet.mem_union.mpr (Or.inr hfault)
  · exact FlagSet.mem_foldl_union.mpr (Or.inr ⟨_, List.mem_of_getLast? hlast, hfault⟩)

/-- What is known of a statement that was read as an operation and has no faults. -/
structure ReadAs (s : Statement) (op : Opcode) : Prop where
  opcode : s.opcode = some op
  known : Opcode.ofMnemonic? s.mnemonic = some op
  count : op.shape = .unary ∨ op.shape = .binary → op.shape.accepts s.operands.length = true
  widths : ¬ Flag.sizeMismatch ∈ widthFaults op s.operands

/-- A statement that is not malformed has been read as some operation. -/
theorem exists_readAs {text : List Char} {line : Nat}
    (h : (parse text line).flags.meets FlagSet.malformed = false) :
    ∃ op, (parse text line).ReadAs op := by
  obtain ⟨t, args, op, htokens, hop⟩ := exists_opcode_of_flags h
  have hcount := not_mem_faults (f := .badCount) h (by decide)
  have hwidth := not_mem_faults (f := .sizeMismatch) h (by decide)
  rw [parse_eq line htokens hop] at hcount hwidth ⊢
  refine ⟨op, rfl, hop, ?_, fun hmem => hwidth (EnumSet.mem_union.mpr (Or.inr hmem))⟩
  intro hshape
  by_cases hacc : op.shape.accepts args.length = true
  · have hlength : (Reading.ofTokens op.shape args).operands.length = args.length := by
      rw [Reading.ofTokens, if_pos hacc]
      rcases hshape with hshape | hshape <;> rw [hshape] <;> exact List.length_map _
    rw [hlength]
    exact hacc
  · refine absurd (EnumSet.mem_union.mpr (Or.inl ?_)) hcount
    rw [Reading.ofTokens, if_neg hacc]
    exact EnumSet.mem_singleton.mpr rfl

namespace ReadAs

/-- At a narrow width the destination is no full register. -/
theorem isFull_of_width (h : s.ReadAs op) (hw : op.width = some w) (hnarrow : w.isNarrow = true)
    {reg : Register} (hlast : s.operands.getLast? = some (.register reg)) : reg.isFull = false := by
  have hwidth := width_of_last (Opcode.checkedWidth_of_width h.known hw) hw hnarrow h.widths hlast
  rw [Register.isFull, hwidth]
  cases w <;> simp_all [Width.isNarrow]

/-- Unless it is a multiplication by one operand, what is written last has to be a whole register
    for a statement to write more than it reads. -/
theorem merges_effects (h : s.ReadAs op)
    (hlast : ∀ reg, s.operands.getLast? = some (.register reg) → reg.isFull = false)
    (hmul : ∀ src, op.effect = .mulDiv → s.operands = [src] →
      hasPart "div".toList s.mnemonic.toList = true) : s.effects.Merges := by
  refine Statement.merges_effects h.opcode (merges_operation hlast (fun hpop => ?_) hmul)
  have hshape := Opcode.shape_of_pop h.known hpop
  have hcount := h.count (Or.inl hshape)
  rw [hshape] at hcount
  exact List.length_eq_one_iff.mp (beq_iff_eq.mp hcount)

/-- What replaces a register writes it without reading it. -/
theorem unread_of_replaces (h : s.ReadAs op) (hreplaces : s.Replaces r) :
    r ∈ s.effects.writes ∧ ¬ r ∈ s.effects.reads := by
  cases hreplaces with
  | @product src hname hops hunread =>
      obtain ⟨heffect, hdiv⟩ := Opcode.effect_of_product h.known hname
      obtain ⟨hwrites, hreads⟩ := effects_product (r := .edx) h.opcode heffect hops hdiv
      rw [hwrites, hreads]
      exact ⟨Or.inr rfl, fun hmem => hmem.elim hunread (by decide)⟩
  | @extension src reg hname hops hfull hunread =>
      have heffect : op.effect = .assign := by rw [Opcode.eq_of_extension h.known hname]
      obtain ⟨hwrites, hreads⟩ := effects_assign (r := reg.slot) h.opcode heffect hops hfull
      rw [hwrites, hreads]
      exact ⟨rfl, hunread⟩

/-- A narrow statement that writes a register without reading it replaces it. -/
theorem replaces_of_unread (h : s.ReadAs op) (hnarrow : s.IsNarrow) (hwrites : r ∈ s.effects.writes)
    (hunread : ¬ r ∈ s.effects.reads) : s.Replaces r := by
  by_cases hlast : ∃ reg, s.operands.getLast? = some (.register reg) ∧ reg.isFull = true
  · obtain ⟨reg, hlast, hfull⟩ := hlast
    rcases hnarrow with ⟨w, hw, hnarrow⟩ | hname
    · -- registers are held to the width that a last letter names
      rw [h.opcode] at hw
      rw [h.isFull_of_width hw hnarrow hlast] at hfull
      cases hfull
    · have hop := Opcode.eq_of_extension h.known hname
      have hcount := h.count (Or.inr (by rw [hop]))
      rw [hop] at hcount
      obtain ⟨src, dst, hops⟩ := List.length_eq_two.mp (beq_iff_eq.mp hcount)
      obtain rfl : dst = .register reg := by
        rw [hops] at hlast
        exact Option.some.inj hlast
      obtain ⟨hwrites', hreads⟩ := effects_assign (r := r) h.opcode (by rw [hop]) hops hfull
      obtain rfl := hwrites'.mp hwrites
      exact .extension hname hops hfull fun hmem => hunread (hreads.mpr hmem)
  · have hlast : ∀ reg, s.operands.getLast? = some (.register reg) → reg.isFull = false :=
      fun reg hreg => Bool.eq_false_iff.mpr fun hfull => hlast ⟨reg, hreg, hfull⟩
    by_cases hmul : ∃ src, op.effect = .mulDiv ∧ s.operands = [src] ∧
        hasPart "div".toList s.mnemonic.toList = false
    · obtain ⟨src, heffect, hops, hdiv⟩ := hmul
      obtain ⟨hwrites', hreads⟩ := effects_product (r := r) h.opcode heffect hops hdiv
      rw [hreads, not_or] at hunread
      obtain rfl := (hwrites'.mp hwrites).resolve_left hunread.2
      refine .product ?_ hops hunread.1
      rcases hnarrow with ⟨w, hw, hnarrow⟩ | hname
      · rw [h.opcode] at hw
        exact Opcode.mem_products h.known hw hnarrow heffect hdiv
      · rw [Opcode.eq_of_extension h.known hname] at heffect
        cases heffect
    · refine absurd (h.merges_effects hlast (fun src heffect hops => ?_) r hwrites) hunread
      exact Bool.of_not_eq_false fun hdiv => hmul ⟨src, heffect, hops, hdiv⟩

end ReadAs

/-- Narrow results are merged, with two exceptions: if nothing is wrong with a statement whose
    mnemonic names 8 or 16 bits, the registers that it writes without reading them are exactly those
    that it replaces, and these are the ones that an earlier store would be dead for. -/
theorem narrow_replaces_iff (text : List Char) (line : Nat)
    (hwell : (parse text line).flags.meets FlagSet.malformed = false)
    (hnarrow : (parse text line).IsNarrow) (r : Reg) :
    (r ∈ (parse text line).effects.writes ∧ ¬ r ∈ (parse text line).effects.reads ↔
        (parse text line).Replaces r) ∧
      ∀ after : RegisterTable, r ∈ (parse text line).effects.writes →
        ((((parse text line).tableBefore after).get r).access = {.write} ↔
          (parse text line).Replaces r) := by
  obtain ⟨op, h⟩ := exists_readAs hwell
  have hunread : r ∈ (parse text line).effects.writes ∧ ¬ r ∈ (parse text line).effects.reads ↔
      (parse text line).Replaces r :=
    ⟨fun hr => h.replaces_of_unread hnarrow hr.1 hr.2, h.unread_of_replaces⟩
  refine ⟨hunread, fun after hwrites => ?_⟩
  rw [RegisterTable.get_tableBefore, RegisterStatus.access_before, ← hunread]
  by_cases hread : r ∈ (parse text line).effects.reads
  · rw [if_pos hread]
    exact iff_of_false (by decide) fun hr => hr.2 hread
  · rw [if_neg hread, if_pos hwrites]
    exact iff_of_true rfl ⟨hwrites, hread⟩

theorem moveWord_text :
    (parse "movw %bx, %dx".toList 0).flags.meets FlagSet.malformed = false ∧
      (parse "movw %bx, %dx".toList 0).opcode.bind Opcode.width = some .word ∧
      Reg.edx ∈ (parse "movw %bx, %dx".toList 0).effects.writes ∧
      (parse "movw %bx, %dx".toList 0).operands = [.register .bx, .register .dx] := by
  decide +kernel

/-- A word that is moved to the lower half of a register keeps the upper half, and so the register
    is read. -/
theorem moveWord_merges :
    (parse "movw %bx, %dx".toList 0).flags.meets FlagSet.malformed = false ∧
      (parse "movw %bx, %dx".toList 0).IsNarrow ∧
      Reg.edx ∈ (parse "movw %bx, %dx".toList 0).effects.writes ∧
      Reg.edx ∈ (parse "movw %bx, %dx".toList 0).effects.reads := by
  obtain ⟨hwell, hwidth, hwrites, hops⟩ := moveWord_text
  have hnarrow : (parse "movw %bx, %dx".toList 0).IsNarrow := Or.inl ⟨.word, hwidth, rfl⟩
  refine ⟨hwell, hnarrow, hwrites, ?_⟩
  by_contra hunread
  have hreplaces :=
    (narrow_replaces_iff "movw %bx, %dx".toList 0 hwell hnarrow .edx).1.mp ⟨hwrites, hunread⟩
  generalize hr : Reg.edx = r at hreplaces
  cases hreplaces with
  | product _ hops' =>
      rw [hops] at hops'
      cases hops'
  | extension _ hops' hfull =>
      rw [hops] at hops'
      cases hops'
      cases hfull

/-- A product of bytes counts as writing `%edx` and does not count as reading it. -/
theorem multiplyByte_replaces_edx :
    (parse "mulb %bl".toList 0).flags.meets FlagSet.malformed = false ∧
      (parse "mulb %bl".toList 0).opcode.bind Opcode.width = some .byte ∧
      Reg.edx ∈ (parse "mulb %bl".toList 0).effects.writes ∧
      ¬ Reg.edx ∈ (parse "mulb %bl".toList 0).effects.reads := by
  decide +kernel

end Statement

end AsmCheck
