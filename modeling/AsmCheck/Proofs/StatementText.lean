import AsmCheck.Proofs.OperandText
import AsmCheck.Proofs.Tokens
import AsmCheck.Statement.Parse

/-! # Statements and their written form

    A statement is written with its mnemonic in small letters and one text for
    each operand or string.  If nothing is wrong with the statement, reading
    the written form gives the statement back, and for two reasons:

    * the text of an operand can stand where the operand's token stood
      (`standsFor_rewrite`): it is unbroken, and it ends with as many open
      parentheses and strings, so that it may be the last token where the old
      one had to be;
    * the operand is read from that text as it was from the token
      (`ofShape_rewrite`).

    The backslash as a character is the one operand that is not. -/

namespace AsmCheck

open AsmCheck.Source AsmCheck.Text

/-! ## Plain texts -/

namespace Literal

theorem isPlain_of_isHexDigit {c : Char} (h : isHexDigit c = true) : isPlain c = true := by
  have hcodes := codes_of_isHexDigit h
  exact isPlain_of_ascii (by omega) (by omega) (by omega)

theorem plain_of_hexDigits {P : Char → Bool} {ds : List Char}
    (hP : ∀ {c}, P c = true → isHexDigit c = true) (h : ds.all P = true) :
    ds.all isPlain = true := by
  rw [List.all_eq_true] at h ⊢
  exact fun c hc => isPlain_of_isHexDigit (hP (h c hc))

/-- A number is spelled with plain characters. -/
theorem plain_of_spells {cs ds : List Char} {minus : Bool} {radix : Radix}
    (h : Spells cs minus ds radix) : cs.all isPlain = true := by
  cases h with
  | decimal _ all => exact plain_of_hexDigits isHexDigit_of_isDigit all
  | @hex x ds minus mark _ all =>
      have hx : isPlain x = true := by
        rcases mark with rfl | rfl <;> decide
      have hsign : (sign minus).all isPlain = true := by
        cases minus <;> decide
      rw [List.all_cons, List.all_cons, List.all_append, hx, hsign, plain_of_hexDigits id all]
      decide
  | octal all =>
      rw [List.all_cons, plain_of_hexDigits isHexDigit_of_isOctalDigit all]
      decide

/-- Whatever is read as a number is plain. -/
theorem plain_of_readNumber {cs : List Char} {n : Int} {radix : Radix}
    (h : readNumber cs = some (n, radix)) : cs.all isPlain = true := by
  obtain ⟨front, minus, rest, ds, rfl, hspells, -⟩ := readNumber_eq_some.mp h
  have hsign : (sign front).all isPlain = true := by
    cases front <;> decide
  rw [List.all_append, hsign, plain_of_spells hspells]
  rfl

/-! ## Characters -/

/-- A character that is no separator is written in a way that ends in the same state. -/
theorem unbroken_writeQuoted {c : Char} {st : TokenState} (h : Unbroken {} [c] st) :
    Unbroken {} (writeQuoted c) st := by
  have hjoins := (Unbroken.cons_iff.mp h).1
  rw [writeQuoted.eq_def]
  split
  · exact absurd hjoins (by decide)
  · exact absurd hjoins (by decide)
  · exact absurd hjoins (by decide)
  · rw [Unbroken.plain_iff (by decide)] at h
    subst h
    exact .cons (by decide) (.cons (by decide) (.nil _))
  · exact h

/-- The written form of a character ends in the state where the text it was read from ends. -/
theorem unbroken_of_readQuoted {body : List Char} {c : Char} {st : TokenState}
    (hread : readQuoted body = some c) (h : Unbroken {} body st) :
    Unbroken {} (writeQuoted c) st := by
  rcases readQuoted_eq_some.mp hread with ⟨rfl, -⟩ | ⟨e, rfl, rfl⟩
  · exact unbroken_writeQuoted h
  · -- outside strings the backslash in front does nothing
    have he : Unbroken {} [e] st := (Unbroken.cons_iff.mp h).2
    rw [unescape.eq_def]
    split
    · exact h
    · exact h
    · exact h
    · exact h
    · exact unbroken_writeQuoted he

end Literal

/-! ## Operands -/

namespace Immediate

open Literal

/-- A character that is read from a token is written back as one that stands for it. -/
theorem standsFor_writeChar {cs : List Char} {c : Char} (h : readChar cs = some c) :
    StandsFor ('$' :: writeChar c) cs := by
  obtain ⟨body, rfl, hbody⟩ := readChar_eq_some.mp h
  refine ⟨List.cons_ne_nil _ _, fun hcs => ?_⟩
  rw [Unbroken.cons_plain_iff (by decide), Unbroken.append_iff] at hcs
  obtain ⟨mid, hmid, hend⟩ := hcs
  rw [Unbroken.cons_plain_iff (by decide), writeChar, List.cons_append,
    Unbroken.cons_plain_iff (by decide), Unbroken.append_iff]
  exact ⟨mid, unbroken_of_readQuoted hbody hmid, hend⟩

/-- The written form of an immediate stands for the text it was read from. -/
theorem standsFor_render {cs : List Char} {v : Immediate} (h : read cs = some v) :
    StandsFor ('$' :: v.render.toList) cs := by
  rcases read_cases h with ⟨n, radix, rfl, hnumber⟩ | ⟨c, rfl, hchar⟩ | rfl
  · have hagain := (isWritable_of_readNumber hnumber).readNumber
    rw [render, String.toList_ofList]
    refine .plain (List.cons_ne_nil _ _) ?_ (plain_of_readNumber hnumber)
    rw [List.all_cons, plain_of_readNumber hagain]
    decide
  · rw [render, String.toList_ofList]
    exact standsFor_writeChar hchar
  · rw [render, String.toList_ofList]
    exact ⟨List.cons_ne_nil _ _, (Unbroken.cons_plain_iff (by decide)).mpr⟩

end Immediate

/-- A dollar sign in front of a token makes no difference to what may stand for it. -/
theorem Source.StandsFor.dollar {w' w : List Char} (h : StandsFor w' w) :
    StandsFor w' ('$' :: w) :=
  ⟨h.nonempty, fun hw => h.whole ((Unbroken.cons_plain_iff (by decide)).mp hw)⟩

/-- Registers are named in lower case. -/
theorem Register.lower_of_ofName? {name : List Char} {r : Register}
    (h : Register.ofName? name = some r) : lower name = r.name.toList := by
  have hname := List.find?_some h
  exact (beq_iff_eq.mp hname).symm

namespace Operand

/-- Only a percent sign and a register's name are read as a register. -/
theorem name_of_readBody {indirect : Bool} {token body : List Char} {r : Register}
    (h : readBody indirect token body = (.register r, ∅)) :
    indirect = false ∧ lower body = r.render.toList := by
  rw [readBody.eq_def] at h
  split at h
  · cases h
  · split at h
    · cases h
    · next name _ r' hname =>
      cases indirect with
      | true => cases h
      | false =>
          cases h
          have hlower : lower ('%' :: name) = '%' :: lower name := rfl
          rw [hlower, Register.lower_of_ofName? hname]
          simp [Register.render]
  · cases h

/-- The written form of an operand stands for the token it was read from. -/
theorem standsFor_classify {token : List Char} (hne : token ≠ []) :
    StandsFor (classify token).1.render.toList token := by
  by_cases hdollar : token.head? = some '$'
  · obtain ⟨cs, rfl⟩ := List.head?_eq_some_iff.mp hdollar
    cases hread : Immediate.read cs with
    | none =>
        rw [classify_dollar_none hread, render, String.toList_ofList]
        exact .refl hne
    | some v =>
        rw [classify_dollar_some hread, toList_render_immediate]
        exact (Immediate.standsFor_render hread).dollar
  · obtain ⟨indirect, body, hbody, htoken⟩ := classify_eq_readBody hdollar
    rcases readBody_cases indirect body htoken with ⟨r, hr⟩ | ⟨htext, -⟩
    · obtain ⟨rfl, hlower⟩ := name_of_readBody hr
      rw [hbody, hr]
      show StandsFor r.render.toList token
      obtain rfl : token = body := htoken
      rw [← hlower]
      exact .lower hne
    · rw [hbody, htext]
      exact .refl hne

/-- An operand is read from its written form as it was from its token. -/
theorem classify_render {token : List Char}
    (h : (classify token).1 ≠ .immediate (.character '\\')) :
    classify (classify token).1.render.toList = classify token := by
  by_cases hdollar : token.head? = some '$'
  · obtain ⟨cs, rfl⟩ := List.head?_eq_some_iff.mp hdollar
    cases hread : Immediate.read cs with
    | none =>
        rw [classify_dollar_none hread, render, String.toList_ofList, classify_dollar_none hread]
    | some v =>
        rw [classify_dollar_some hread] at h ⊢
        exact (classify_render_immediate hread).mpr fun hv => h (congrArg _ hv)
  · exact (classify_render_of_head hdollar).1

/-- A name is written as it is. -/
theorem render_classify_name {token : List Char} (h : Literal.isName token = true) :
    (classify token).1.render.toList = token := by
  cases token with
  | nil => cases h
  | cons c cs =>
      have hc : Literal.isNameStart c = true := (Bool.and_eq_true_iff.mp h).1
      have hne : ∀ {d}, Literal.isNameStart d = false → c ≠ d := by
        rintro d hd rfl
        rw [hc] at hd
        cases hd
      rw [classify_place cs (hne (by decide)) (hne (by decide)) (hne (by decide))]
      exact MemoryRef.render_read false (c :: cs)

end Operand

namespace Statement

namespace Reading

/-- What a value is read from: what follows a dollar sign, or all of it. -/
theorem value_cases (token : List Char) :
    ∃ literal, (token = '$' :: literal ∨ token = literal ∧ token.head? ≠ some '$') ∧
      ((∃ v, Immediate.read literal = some v ∧ value token = (.immediate v, ∅)) ∨
        Immediate.read literal = none ∧ (value token).1 = .invalid (String.ofList token)) := by
  by_cases hdollar : token.head? = some '$'
  · obtain ⟨cs, rfl⟩ := List.head?_eq_some_iff.mp hdollar
    refine ⟨cs, Or.inl rfl, ?_⟩
    fun_cases value ('$' :: cs) with
    | case1 _ v hread => exact Or.inl ⟨v, hread, rfl⟩
    | case2 _ hread => exact Or.inr ⟨hread, rfl⟩
  · refine ⟨token, Or.inr ⟨rfl, hdollar⟩, ?_⟩
    have hhead : ∀ cs, token ≠ '$' :: cs := by
      rintro cs rfl
      exact hdollar rfl
    fun_cases value token with
    | case1 literal v hread =>
        have hliteral : literal = token := by simp [literal]
        exact Or.inl ⟨v, hliteral ▸ hread, rfl⟩
    | case2 literal hread =>
        have hliteral : literal = token := by simp [literal]
        exact Or.inr ⟨hliteral ▸ hread, rfl⟩

/-- What is written for a value stands for the token that it was read from, -/
theorem standsFor_value {token : List Char} (hne : token ≠ []) :
    StandsFor (value token).1.render.toList token := by
  obtain ⟨literal, htoken, ⟨v, hread, hvalue⟩ | ⟨-, hinvalid⟩⟩ := value_cases token
  · have hstands := Immediate.standsFor_render hread
    rw [hvalue, Operand.toList_render_immediate]
    rcases htoken with rfl | ⟨rfl, -⟩
    · exact hstands.dollar
    · exact hstands
  · rw [hinvalid, Operand.render, String.toList_ofList]
    exact .refl hne

/-- A literal is read with or without a dollar sign. -/
theorem value_of_read {token literal : List Char} {v : Immediate}
    (hread : Immediate.read literal = some v) (htoken : token = '$' :: literal ∨ token = literal) :
    value token = (.immediate v, ∅) := by
  obtain ⟨literal', htoken', hcases⟩ := value_cases token
  have hliteral : literal' = literal := by
    rcases htoken with rfl | rfl
    · rcases htoken' with heq | ⟨-, hhead⟩
      · exact (List.cons.inj heq).2.symm
      · exact absurd rfl hhead
    · rcases htoken' with rfl | ⟨rfl, -⟩
      · rw [Immediate.read_dollar] at hread
        cases hread
      · rfl
  rw [hliteral, hread] at hcases
  rcases hcases with ⟨v', hv, hvalue⟩ | ⟨hnone, -⟩
  · rw [hvalue, Option.some.inj hv]
  · cases hnone

/-- A value is read from its written form, which has a dollar sign, as it was from its token. -/
theorem value_render {token : List Char}
    (h : (value token).1 ≠ .immediate (.character '\\')) :
    value (value token).1.render.toList = value token := by
  obtain ⟨literal, -, ⟨v, hread, hvalue⟩ | ⟨-, hinvalid⟩⟩ := value_cases token
  · have hagain := Immediate.read_render hread
    rw [hvalue] at h ⊢
    rw [if_neg fun hv => h (congrArg _ hv)] at hagain
    rw [Operand.toList_render_immediate, value_of_read hagain (Or.inl rfl)]
  · rw [hinvalid, Operand.render, String.toList_ofList]

/-! ## Shapes -/

/-- The text that a token is written with, once it has been read as a shape asks. -/
def rewrite : Shape → List Char → List Char
  | .values, token | .alignment, token => (value token).1.render.toList
  | .strings, token => token
  | _, token => (Operand.classify token).1.render.toList

/-- The texts that a reading is written with. -/
def parts (r : Reading) : List String :=
  if r.strings.isEmpty then r.operands.map Operand.render else r.strings

/-- and so does what is written for any operand. -/
theorem standsFor_rewrite (shape : Shape) {token : List Char} (hne : token ≠ []) :
    StandsFor (rewrite shape token) token := by
  cases shape with
  | values => exact standsFor_value hne
  | alignment => exact standsFor_value hne
  | strings => exact .refl hne
  | _ => exact Operand.standsFor_classify hne

/-- Operands that classify alike are read alike, -/
theorem classified_congr {args args' : List (List Char)}
    (h : args'.map Operand.classify = args.map Operand.classify) :
    classified args' = classified args := by
  have hsplit : ∀ as : List (List Char), classified as =
      { operands := (as.map Operand.classify).map (·.1)
        faults := (as.map Operand.classify).foldl (fun fl x => fl ∪ x.2) ∅ } := by
    intro as
    rw [classified, List.map_map, List.foldl_map]
    rfl
  rw [hsplit, hsplit, h]

/-- and so are values. -/
theorem values_congr {args args' : List (List Char)} (h : args'.map value = args.map value) :
    values args' = values args := by
  have hsplit : ∀ as : List (List Char), values as =
      { operands := (as.map value).map (·.1)
        faults := (as.map value).foldl (fun fl x => fl ∪ x.2) ∅ } := by
    intro as
    rw [values, List.map_map, List.foldl_map]
    rfl
  rw [hsplit, hsplit, h]

/-- An alignment keeps its operands as they were read. -/
theorem operands_alignment (args : List (List Char)) :
    (alignment args).operands = (values args).operands ∧ (alignment args).strings = [] := by
  rw [alignment]
  split
  · exact ⟨rfl, rfl⟩
  · exact ⟨rfl, rfl⟩

/-- A symbol that is complete consists of names. -/
theorem symbol_of_names {args : List (List Char)}
    (h : ¬ Flag.incomplete ∈ (symbol args).faults) :
    args.all Literal.isName = true ∧ symbol args = { operands := (classified args).operands } := by
  rw [symbol] at h ⊢
  by_cases hnames : args.all Literal.isName = true
  · rw [if_pos hnames]
    exact ⟨hnames, rfl⟩
  · rw [if_neg hnames] at h
    exact absurd (EnumSet.mem_singleton.mpr rfl) h

/-- Each token that was accepted has a text in the written form. -/
theorem parts_ofShape {shape : Shape} {args : List (List Char)}
    (haccepts : shape.accepts args.length = true)
    (hcomplete : ¬ Flag.incomplete ∈ (ofShape shape args).faults) :
    (ofShape shape args).parts.map String.toList = args.map (rewrite shape) := by
  have hclassified : ∀ r : Reading, r.strings = [] → r.operands = (classified args).operands →
      r.parts.map String.toList = args.map fun a => (Operand.classify a).1.render.toList := by
    intro r hstrings hoperands
    rw [parts, hstrings, hoperands]
    simp [classified]
  have hvalues : ∀ r : Reading, r.strings = [] → r.operands = (values args).operands →
      r.parts.map String.toList = args.map fun a => (value a).1.render.toList := by
    intro r hstrings hoperands
    rw [parts, hstrings, hoperands]
    simp [values]
  cases shape with
  | nullary =>
      obtain rfl : args = [] := List.length_eq_zero_iff.mp (beq_iff_eq.mp haccepts)
      rfl
  | unary => exact hclassified _ rfl rfl
  | binary => exact hclassified _ rfl rfl
  | unaryOrBinary => exact hclassified _ rfl rfl
  | frame => exact hclassified _ rfl rfl
  | target => exact hclassified _ rfl rfl
  | values => exact hvalues _ rfl rfl
  | alignment =>
      obtain ⟨hoperands, hstrings⟩ := operands_alignment args
      exact hvalues _ hstrings hoperands
  | symbol =>
      obtain ⟨-, hsymbol⟩ := symbol_of_names hcomplete
      refine hclassified _ ?_ ?_
      · show (symbol args).strings = []
        rw [hsymbol]
      · show (symbol args).operands = _
        rw [hsymbol]
  | strings =>
      have hne : (args.map String.ofList).isEmpty = false := by
        cases args with
        | nil => cases haccepts
        | cons a args => rfl
      show (if (args.map String.ofList).isEmpty then [] else args.map String.ofList).map _ = _
      rw [hne, if_neg Bool.false_ne_true, List.map_map]
      exact List.map_congr_left fun a _ => String.toList_ofList

/-- The written texts are read as the tokens were. -/
theorem ofShape_rewrite {shape : Shape} {args : List (List Char)}
    (hcomplete : ¬ Flag.incomplete ∈ (ofShape shape args).faults)
    (hback : ∀ op ∈ (ofShape shape args).operands, op ≠ .immediate (.character '\\')) :
    ofShape shape (args.map (rewrite shape)) = ofShape shape args := by
  have hclassified : (ofShape shape args).operands = (classified args).operands →
      classified (args.map fun a => (Operand.classify a).1.render.toList) = classified args := by
    intro hoperands
    refine classified_congr ?_
    rw [List.map_map]
    refine List.map_congr_left fun a ha => Operand.classify_render (hback _ ?_)
    rw [hoperands]
    exact List.mem_map_of_mem ha
  have hvalues : (ofShape shape args).operands = (values args).operands →
      values (args.map fun a => (value a).1.render.toList) = values args := by
    intro hoperands
    refine values_congr ?_
    rw [List.map_map]
    refine List.map_congr_left fun a ha => value_render (hback _ ?_)
    rw [hoperands]
    exact List.mem_map_of_mem ha
  have hpair : ∀ as, classified as = classified args → pair as = pair args := by
    intro as h
    rw [pair, pair, h]
  cases shape with
  | nullary => rfl
  | unary => exact hpair _ (hclassified rfl)
  | binary => exact hpair _ (hclassified rfl)
  | unaryOrBinary => exact hpair _ (hclassified rfl)
  | frame =>
      show frame _ = frame args
      rw [frame, frame, ← hclassified rfl]
      rfl
  | target =>
      show target _ = target args
      rw [target, target, ← hclassified rfl]
      rfl
  | values => exact hvalues rfl
  | alignment =>
      show alignment _ = alignment args
      rw [alignment, alignment, ← hvalues (operands_alignment args).1]
      rfl
  | symbol =>
      -- names are written as they are
      obtain ⟨hnames, -⟩ := symbol_of_names hcomplete
      have hsame : args.map (rewrite .symbol) = args := by
        refine (List.map_congr_left fun a ha => ?_).trans (List.map_id args)
        exact Operand.render_classify_name (List.all_eq_true.mp hnames a ha)
      rw [hsame]
  | strings =>
      show ofShape .strings (args.map id) = _
      rw [List.map_id]

end Reading

/-! ## Statements -/

/-- The tokens of a written form are its mnemonic and its parts. -/
theorem tokens_write {m : List Char} {ws : List (List Char)} (h : TokenList (m :: ws)) :
    tokens (if ws.isEmpty then m else m ++ (' ' :: [',', ' '].intercalate ws)) = m :: ws := by
  cases h with
  | last nonempty whole => exact tokens_single nonempty whole
  | cons nonempty whole rest =>
      cases ws with
      | nil => exact tokens_single nonempty whole
      | cons w ws =>
          have hgap : [',', ' '].all ({} : TokenState).separates = true := by decide
          have hblank : [' '].all ({} : TokenState).separates = true := by decide
          have hjoined : tokens ([',', ' '].intercalate (w :: ws)) = w :: ws :=
            rest.tokens_intercalate (List.cons_ne_nil _ _) (List.all_eq_true.mp hgap)
          calc tokens (m ++ (' ' :: [',', ' '].intercalate (w :: ws)))
              = m :: tokens ([',', ' '].intercalate (w :: ws)) :=
                tokens_append nonempty whole (List.cons_ne_nil ' ' []) (List.all_eq_true.mp hblank) _
            _ = m :: w :: ws := by rw [hjoined]

/-- The text of a statement is its mnemonic and its operands with commas between them. -/
theorem toList_render {s : Statement} {ws : List (List Char)} {parts : List String}
    (hparts : (if s.strings.isEmpty then s.operands.map Operand.render else s.strings) = parts)
    (hws : parts.map String.toList = ws) :
    s.render.toList = if ws.isEmpty then s.mnemonic.toList
      else s.mnemonic.toList ++ (' ' :: [',', ' '].intercalate ws) := by
  rw [render, hparts, ← hws]
  cases parts with
  | nil => rfl
  | cons part parts =>
      show (s.mnemonic ++ " " ++ ", ".intercalate (part :: parts)).toList = _
      simp [String.toList_intercalate]

/-- A statement whose mnemonic is known, as it is read from its tokens. -/
theorem parse_eq {text t : List Char} {args : List (List Char)} {op : Opcode} (line : Nat)
    (htokens : tokens text = t :: args)
    (hop : Opcode.ofMnemonic? (String.ofList (lower t)) = some op) :
    parse text line =
      { line, text := String.ofList text, mnemonic := String.ofList (lower t)
        opcode := some op
        operands := (Reading.ofTokens op.shape args).operands
        strings := (Reading.ofTokens op.shape args).strings
        faults := (Reading.ofTokens op.shape args).faults ∪
          widthFaults op (Reading.ofTokens op.shape args).operands
        size := unitSize op (String.ofList (lower t)) (Reading.ofTokens op.shape args)
        align := (Reading.ofTokens op.shape args).align } := by
  simp only [parse, htokens, List.head?_cons, Option.getD_some, List.tail_cons, hop]

theorem not_mem_faults {s : Statement} (h : s.flags.meets FlagSet.malformed = false) {f : Flag}
    (hf : f ∈ FlagSet.malformed) : ¬ f ∈ s.faults := by
  intro hmem
  have hempty : s.flags ∩ FlagSet.malformed = ∅ :=
    EnumSet.isEmpty_iff.mp (Bool.not_eq_eq_eq_not.mp h)
  refine EnumSet.eq_empty_iff.mp hempty f (EnumSet.mem_inter.mpr ⟨?_, hf⟩)
  exact EnumSet.mem_union.mpr (Or.inl hmem)

/-- A statement without faults has tokens, and a known mnemonic in front of them. -/
theorem exists_opcode_of_flags {text : List Char} {line : Nat}
    (h : (parse text line).flags.meets FlagSet.malformed = false) :
    ∃ t args op, tokens text = t :: args ∧
      Opcode.ofMnemonic? (String.ofList (lower t)) = some op := by
  have hknown := not_mem_faults (f := .unknownMnemonic) h (by decide)
  cases hop : Opcode.ofMnemonic? (String.ofList (lower ((tokens text).head?.getD []))) with
  | none =>
      refine absurd ?_ hknown
      rw [parse]
      dsimp only
      rw [hop]
      exact EnumSet.mem_singleton.mpr rfl
  | some op =>
      cases htokens : tokens text with
      | nil =>
          have hempty : Opcode.ofMnemonic? (String.ofList []) = none := by decide +kernel
          rw [htokens] at hop
          exact absurd (hempty.symm.trans hop) (by simp)
      | cons t args =>
          rw [htokens] at hop
          exact ⟨t, args, op, rfl, hop⟩

/-- Reading the written form of a statement without faults gives the statement back. -/
theorem parse_render {text : List Char} {line : Nat} (line' : Nat)
    (hflags : (parse text line).flags.meets FlagSet.malformed = false)
    (hback : ¬ .immediate (.character '\\') ∈ (parse text line).operands) :
    parse (parse text line).render.toList line' =
      { parse text line with line := line', text := (parse text line).render } := by
  obtain ⟨t, args, op, htokens, hop⟩ := exists_opcode_of_flags hflags
  have hincomplete := not_mem_faults (f := .incomplete) hflags (by decide)
  have hcount := not_mem_faults (f := .badCount) hflags (by decide)
  have hlist : TokenList (t :: args) := htokens ▸ tokenList_tokens text
  have hparse := parse_eq line htokens hop
  rw [hparse] at hincomplete hcount hback
  -- the operands were accepted, or their number would be a fault
  have haccepts : op.shape.accepts args.length = true := by
    cases hacc : op.shape.accepts args.length with
    | true => rfl
    | false =>
        refine absurd (EnumSet.mem_union.mpr (Or.inl ?_)) hcount
        rw [Reading.ofTokens, hacc]
        exact EnumSet.mem_singleton.mpr rfl
  have hread : Reading.ofTokens op.shape args = Reading.ofShape op.shape args := by
    rw [Reading.ofTokens, if_pos haccepts]
  rw [hread] at hincomplete hback
  have hcomplete : ¬ Flag.incomplete ∈ (Reading.ofShape op.shape args).faults :=
    fun hmem => hincomplete (EnumSet.mem_union.mpr (Or.inl hmem))
  have hagain := Reading.ofShape_rewrite hcomplete fun op' hop' heq => hback (heq ▸ hop')
  have hread' : Reading.ofTokens op.shape (args.map (Reading.rewrite op.shape)) =
      Reading.ofTokens op.shape args := by
    rw [Reading.ofTokens, List.length_map, if_pos haccepts, hagain, hread]
  -- the written form has the texts of the operands for its tokens
  have htext : tokens (parse text line).render.toList =
      lower t :: args.map (Reading.rewrite op.shape) := by
    have hparts := Reading.parts_ofShape haccepts hcomplete
    rw [← hread] at hparts
    rw [toList_render (s := parse text line) (by rw [hparse]; rfl) hparts, hparse]
    show tokens (if _ then (String.ofList (lower t)).toList
      else (String.ofList (lower t)).toList ++ _) = _
    rw [String.toList_ofList]
    refine tokens_write (hlist.map_tail (.lower ?_) fun a ha => ?_)
    · exact hlist.ne_nil t (List.mem_cons_self ..)
    · exact Reading.standsFor_rewrite op.shape (hlist.ne_nil a (List.mem_cons_of_mem t ha))
  have hop' : Opcode.ofMnemonic? (String.ofList (lower (lower t))) = some op := by
    rw [lower_lower]
    exact hop
  rw [parse_eq line' htext hop', hread', lower_lower, String.ofList_toList, hparse]

/-- Two statements that say the same, whatever their lines and their spelling. -/
structure Agrees (s' s : Statement) : Prop where
  mnemonic : s'.mnemonic = s.mnemonic
  kind : s'.kind = s.kind
  operands : s'.operands = s.operands
  strings : s'.strings = s.strings
  flags : s'.flags = s.flags
  size : s'.size = s.size
  align : s'.align = s.align

/-- Writing a statement down and reading it again loses nothing: if nothing is wrong with a statement
    and the backslash is not among its operands, its written form is read as a statement with the
    same mnemonic, kind, operands, strings, flags, size and alignment. -/
theorem written_form_reads_back (text : List Char) (line line' : Nat)
    (hflags : (parse text line).flags.meets FlagSet.malformed = false)
    (hback : ¬ .immediate (.character '\\') ∈ (parse text line).operands) :
    Agrees (parse (parse text line).render.toList line') (parse text line) := by
  rw [parse_render line' hflags hback]
  exact ⟨rfl, rfl, rfl, rfl, rfl, rfl, rfl⟩

/-- Three numbers to store: a character, a number in capital letters, and a parenthesis that stays
    open to the end of the text. -/
def storedBytes : List Char :=
  ".BYTE 'a' 0X1F,'('".toList

/-- They are written with dollar signs and commas, and read back. -/
theorem storedBytes_read_back :
    (parse storedBytes 0).render = ".byte $'a', $0x1f, $'('" ∧
      (parse storedBytes 0).size = 3 ∧
      Agrees (parse ".byte $'a', $0x1f, $'('".toList 7) (parse storedBytes 0) := by
  have hrender : (parse storedBytes 0).render = ".byte $'a', $0x1f, $'('" := by decide +kernel
  have hback := written_form_reads_back storedBytes 0 7 (by decide +kernel) (by decide +kernel)
  rw [hrender] at hback
  exact ⟨hrender, by decide +kernel, hback⟩

end Statement

end AsmCheck
