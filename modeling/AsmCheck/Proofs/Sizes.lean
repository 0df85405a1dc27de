import AsmCheck.Proofs.Addresses
import AsmCheck.Proofs.StatementText

/-! # Sizes

    What a statement takes of the address range depends on its kind alone,
    except for an alignment, which takes what it needs where it stands:

    * an instruction takes one unit (`size_place_of_isCode`), and so does a
      statement whose mnemonic is not known;
    * numbers take their width each, whether or not their tokens can be read
      (`size_place_of_number`);
    * an alignment takes the least padding that brings its address to a
      multiple (`isLeast_size_place`);
    * exports and section markers take nothing (`size_place_of_isTransparent`).

    Together with the addresses, which are sums of sizes, this describes the
    layout of every program (`addresses_and_sizes`). -/

namespace AsmCheck

open Source

/-! ## What reading leaves in a statement -/

namespace Opcode

variable {mnemonic : String} {op : Opcode}

/-- A directive for numbers takes values of a width. -/
theorem shape_of_number (h : ofMnemonic? mnemonic = some op) (hkind : op.kind = .number) :
    op.shape = .values ∧ op.width.isSome = true := by
  refine of_ofMnemonic
    (P := fun op => op.kind = .number → op.shape = .values ∧ op.width.isSome = true)
    h ?_ ?_ ?_ hkind
  · decide
  · intro test hnumber
    cases hnumber
  · intro op w hop hnumber
    exact ⟨(hop hnumber).1, rfl⟩

end Opcode

namespace Statement

/-- The operands of a statement, as an operation asks for them. -/
def readingAs (s : Statement) (op : Opcode) : Reading :=
  Reading.ofTokens op.shape (tokens s.text.toList).tail

/-- What a statement takes from its text: nothing but one unit of room if the mnemonic is not known,
    and otherwise what its operation makes of the operand tokens. -/
inductive IsRead (s : Statement) : Prop where
  | unknown (opcode : s.opcode = none) (size : s.size = 1)
  | known {op : Opcode} (opcode : s.opcode = some op)
      (mnemonic : Opcode.ofMnemonic? s.mnemonic = some op)
      (operands : s.operands = (s.readingAs op).operands)
      (strings : s.strings = (s.readingAs op).strings)
      (size : s.size = unitSize op s.mnemonic (s.readingAs op))
      (align : s.align = (s.readingAs op).align)

/-- What is parsed has been read. -/
theorem isRead_parse (text : List Char) (line : Nat) : IsRead (parse text line) := by
  rw [parse]
  dsimp only
  split
  · exact .unknown rfl rfl
  · next op hop =>
    refine .known rfl hop ?_ ?_ ?_ ?_ <;> dsimp only <;> rw [readingAs, String.toList_ofList]

/-- What a statement takes from its text does not include its faults. -/
theorem IsRead.withFaults {s : Statement} (h : s.IsRead) (faults : FlagSet) :
    IsRead { s with faults } := by
  cases h with
  | unknown hopcode hsize => exact .unknown hopcode hsize
  | known hopcode hmnemonic hoperands hstrings hsize halign =>
      exact .known hopcode hmnemonic hoperands hstrings hsize halign

end Statement

/-- The statement of a line has been read. -/
theorem ParsedLine.isRead_parse {text : List Char} {line : Nat} {s : Statement}
    (h : (ParsedLine.parse text line).statement = some s) : s.IsRead := by
  rw [ParsedLine.parse] at h
  dsimp only at h
  split at h
  · cases h
  · rw [← Option.some.inj h]
    exact (Statement.isRead_parse _ line).withFaults _

theorem Item.mem_of_mem_filterMap {items : List Item} {s : Statement}
    (h : s ∈ items.filterMap Item.statement?) : Item.statement s ∈ items := by
  obtain ⟨item, hitem, hstatement⟩ := List.mem_filterMap.mp h
  cases item with
  | label name line => cases hstatement
  | statement s' =>
      cases hstatement
      exact hitem

/-- Every statement of a source text has been read. -/
theorem Item.isRead_of_mem_ofSource {source : List Char} {s : Statement}
    (h : Item.statement s ∈ Item.ofSource source) : s.IsRead := by
  obtain ⟨l, -, hl⟩ := exists_of_mem_ofSource h
  exact ParsedLine.isRead_parse hl

/-! ## Sizes of statements in their places -/

namespace Statement

/-- Executable statements count as one unit, -/
theorem unitSize_of_isCode {op : Opcode} (h : op.kind.isCode = true) (mnemonic : String)
    (r : Reading) : unitSize op mnemonic r = 1 := by
  fun_cases unitSize op mnemonic r with
  | case1 hkind => rw [hkind] at h; cases h
  | case2 hkind => rw [hkind] at h; cases h
  | case3 => rfl
  | case4 _ _ hcode => exact absurd h hcode

/-- and what control passes over as none. -/
theorem unitSize_of_isTransparent {op : Opcode} (h : op.kind.isTransparent = true)
    (mnemonic : String) (r : Reading) : unitSize op mnemonic r = 0 := by
  fun_cases unitSize op mnemonic r with
  | case1 hkind => rw [hkind] at h; cases h
  | case2 hkind => rw [hkind] at h; cases h
  | case3 _ _ hcode =>
      rw [Program.isCode_of_isTransparent h] at hcode
      cases hcode
  | case4 => rfl

namespace Reading

/-- However many number tokens there are, each of them is kept. -/
theorem length_operands_values (args : List (List Char)) :
    (ofTokens .values args).operands.length = args.length := by
  rw [ofTokens]
  split
  · exact List.length_map _
  · next hcount =>
    -- only an empty list of numbers is refused
    have hempty : args.length = 0 := by simpa [Shape.accepts] using hcount
    rw [hempty]
    rfl

/-- An alignment is positive. -/
theorem pos_of_alignmentOf {o : Operand} {n : Nat} (h : alignmentOf o = some n) : 0 < n := by
  rw [alignmentOf] at h
  split at h
  · split at h
    · next hpos =>
      cases h
      omega
    · cases h
  · cases h

/-- Only positive alignments are accepted. -/
theorem pos_of_align {shape : Shape} {args : List (List Char)} {n : Nat}
    (h : (ofTokens shape args).align = some n) : 0 < n := by
  rw [ofTokens] at h
  split at h
  · cases shape with
    | alignment =>
        have h : (alignment args).align = some n := h
        rw [alignment] at h
        split at h
        · next halign =>
          cases h
          obtain ⟨o, -, ho⟩ := Option.bind_eq_some_iff.mp halign
          exact pos_of_alignmentOf ho
        · cases h
    | symbol =>
        have h : (symbol args).align = some n := h
        rw [symbol] at h
        split at h <;> cases h
    | _ => cases h
  · cases h

end Reading

end Statement

namespace Placed

variable {s : Statement}

/-- Padding reaches a multiple of the alignment, -/
theorem dvd_add_padding {n : Nat} (hn : 0 < n) (address : Nat) :
    n ∣ address + padding n address := by
  have hmod := Nat.mod_lt address hn
  refine Nat.dvd_of_mod_eq_zero ?_
  rw [padding, Nat.add_mod, Nat.mod_mod]
  by_cases hzero : address % n = 0
  · rw [hzero, Nat.sub_zero, Nat.mod_self, Nat.add_zero, Nat.zero_mod]
  · rw [Nat.mod_eq_of_lt (by omega : n - address % n < n),
      show address % n + (n - address % n) = n by omega, Nat.mod_self]

/-- and no less would do. -/
theorem padding_le {n address x : Nat} (hn : 0 < n) (h : n ∣ address + x) :
    padding n address ≤ x := by
  have hmod := Nat.mod_lt address hn
  have hx := Nat.mod_lt x hn
  -- two remainders that add up to a multiple add up to the alignment, or both vanish
  have hsum : (address % n + x % n) % n = 0 := by
    rw [← Nat.add_mod]
    exact Nat.mod_eq_zero_of_dvd h
  rw [padding]
  by_cases hzero : address % n = 0
  · rw [hzero, Nat.sub_zero, Nat.mod_self]
    exact Nat.zero_le x
  · have hfull : address % n + x % n = n := by
      by_contra hne
      rcases Nat.lt_or_gt_of_ne hne with hlt | hgt
      · rw [Nat.mod_eq_of_lt hlt] at hsum
        omega
      · rw [Nat.mod_eq_sub_mod (Nat.le_of_lt hgt), Nat.mod_eq_of_lt (by omega)] at hsum
        omega
    calc (n - address % n) % n = n - address % n := Nat.mod_eq_of_lt (by omega)
      _ = x % n := by omega
      _ ≤ x := Nat.mod_le x n

/-- So padding is the least that does. -/
theorem isLeast_padding {n : Nat} (hn : 0 < n) (address : Nat) :
    IsLeast { x | n ∣ address + x } (padding n address) :=
  ⟨dvd_add_padding hn address, fun _ => padding_le hn⟩

/-- Its place only matters for the size of an alignment. -/
theorem size_place_of_ne_align (h : s.kind ≠ .align) (address : Nat) :
    (place s address).size = s.size :=
  if_neg h

/-- Executable statements occupy one unit wherever they are placed. -/
theorem size_place_of_isCode (h : s.IsRead) (hcode : s.isCode = true) (address : Nat) :
    (place s address).size = 1 := by
  have hne : s.kind ≠ .align := by
    intro hkind
    rw [Statement.isCode, hkind] at hcode
    cases hcode
  rw [size_place_of_ne_align hne]
  cases h with
  | unknown _ hsize => exact hsize
  | @known op hopcode _ _ _ hsize _ =>
      rw [Statement.isCode, Statement.kind, hopcode] at hcode
      rw [hsize]
      exact Statement.unitSize_of_isCode hcode _ _

/-- Markers and exports occupy none. -/
theorem size_place_of_isTransparent (h : s.IsRead) (htransparent : s.kind.isTransparent = true)
    (hne : s.kind ≠ .align) (address : Nat) : (place s address).size = 0 := by
  rw [size_place_of_ne_align hne]
  cases h with
  | unknown hopcode _ =>
      rw [Statement.kind, hopcode] at htransparent
      cases htransparent
  | @known op hopcode _ _ _ hsize _ =>
      rw [Statement.kind, hopcode] at htransparent
      rw [hsize]
      exact Statement.unitSize_of_isTransparent htransparent _ _

/-- Numbers occupy as many bytes as their width says, each of them, up to the limit of addresses. -/
theorem size_place_of_number (h : s.IsRead) (hkind : s.kind = .number) (address : Nat) :
    ∃ w, s.opcode.bind Opcode.width = some w ∧
      (place s address).size =
        min ((tokens s.text.toList).tail.length * w.bytes) Statement.addressLimit := by
  rw [size_place_of_ne_align (by rw [hkind]; decide)]
  cases h with
  | unknown hopcode _ =>
      rw [Statement.kind, hopcode] at hkind
      cases hkind
  | @known op hopcode hmnemonic _ _ hsize _ =>
      rw [Statement.kind, hopcode] at hkind
      have hkind : op.kind = .number := hkind
      obtain ⟨hshape, hwidth⟩ := Opcode.shape_of_number hmnemonic hkind
      obtain ⟨w, hw⟩ := Option.isSome_iff_exists.mp hwidth
      refine ⟨w, by rw [hopcode]; exact hw, ?_⟩
      rw [hsize, Statement.unitSize, hkind, hw, Statement.readingAs, hshape]
      dsimp only
      rw [Statement.Reading.length_operands_values]
      rfl

/-- An alignment occupies the least that reaches a multiple of it. -/
theorem isLeast_size_place (h : s.IsRead) (hkind : s.kind = .align) {n : Nat}
    (halign : s.align = some n) (address : Nat) :
    IsLeast { x | n ∣ address + x } (place s address).size := by
  have hsize : (place s address).size = padding n address := by
    show sizeAt s address = _
    rw [sizeAt, if_pos hkind, halign]
    rfl
  rw [hsize]
  refine isLeast_padding ?_ address
  cases h with
  | unknown hopcode _ =>
      rw [Statement.kind, hopcode] at hkind
      cases hkind
  | known _ _ _ _ _ hread =>
      rw [hread] at halign
      exact Statement.Reading.pos_of_align halign

end Placed

/-! ## The layout of a program -/

namespace Program

variable {source : List Char} {config : Config} {p : Program} {i : Nat} {s : Placed}

/-- What a mark of a kind has to say: where the first statement of the kind stands, or that there is
    none. -/
def Marks (p : Program) (kind : Kind) : Option Mark → Prop
  | none => ∀ (i : Nat) (s : Placed), p.statements[i]? = some s → s.kind ≠ kind
  | some m => ∃ (i : Nat) (s : Placed), p.statements[i]? = some s ∧ s.kind = kind ∧
      (∀ (j : Nat) (t : Placed), j < i → p.statements[j]? = some t → t.kind ≠ kind) ∧
      m = { line := s.line, address := s.address }

/-- The marker of a section is the first one of its kind. -/
theorem marks_firstMark (p : Program) (kind : Kind) :
    p.Marks kind (firstMark kind p.statements.toList) := by
  have hget : ∀ {j t}, p.statements[j]? = some t →
      ∃ hj : j < p.statements.toList.length, p.statements.toList[j] = t := fun ht =>
    List.getElem?_eq_some_iff.mp ((Array.getElem?_toList ..).trans ht)
  rw [firstMark]
  cases hfind : p.statements.toList.find? fun s => s.kind == kind with
  | none =>
      intro i s hs hkind
      obtain ⟨hi, rfl⟩ := hget hs
      exact List.find?_eq_none.mp hfind _ (List.getElem_mem hi) (beq_iff_eq.mpr hkind)
  | some s =>
      obtain ⟨hkind, i, hi, hs, hbefore⟩ := List.find?_eq_some_iff_getElem.mp hfind
      refine ⟨i, s, ?_, beq_iff_eq.mp hkind, fun j t hj ht htkind => ?_, rfl⟩
      · rw [← Array.getElem?_toList, List.getElem?_eq_getElem hi, hs]
      · obtain ⟨_, rfl⟩ := hget ht
        have hno := hbefore j hj
        rw [beq_iff_eq.mpr htkind] at hno
        cases hno

/-- A placed statement is the statement of the same number in the source text. -/
theorem exists_isRead_of_getElem?
    (h : (assemble source config).statements[i]? = some s) :
    ∃ st, ((Item.ofSource source).filterMap Item.statement?)[i]? = some st ∧ st.IsRead ∧
      s = Placed.place st s.address := by
  rw [getElem?_statements] at h
  obtain ⟨st, hst, rfl⟩ := Option.map_eq_some_iff.mp h
  have hmem := Item.mem_of_mem_filterMap (List.mem_of_getElem? hst)
  exact ⟨st, hst, Item.isRead_of_mem_ofSource hmem, rfl⟩

theorem roomOf_of_isCode (h : (assemble source config).isCode i = true) :
    (assemble source config).roomOf i = 1 := by
  obtain ⟨s, hs, hcode⟩ := test_eq_true.mp h
  obtain ⟨st, -, hread, heq⟩ := exists_isRead_of_getElem? hs
  rw [heq] at hcode
  rw [roomOf, hs, heq]
  exact Placed.size_place_of_isCode hread hcode _

theorem roomOf_of_isTransparent
    (h : (assemble source config).test (·.kind.isTransparent) i = true)
    (hne : ¬ (assemble source config).test (·.kind == .align) i = true) :
    (assemble source config).roomOf i = 0 := by
  obtain ⟨s, hs, htransparent⟩ := test_eq_true.mp h
  have hkind : s.kind ≠ .align := fun hkind =>
    hne (test_eq_true.mpr ⟨s, hs, beq_iff_eq.mpr hkind⟩)
  obtain ⟨st, -, hread, heq⟩ := exists_isRead_of_getElem? hs
  rw [heq] at htransparent hkind
  rw [roomOf, hs, heq]
  exact Placed.size_place_of_isTransparent hread htransparent hkind _

/-- If every statement takes one unit, statements are numbered by their addresses. -/
theorem extent_of_units (h : ∀ i < p.statements.size, p.roomOf i = 1) {k : Nat}
    (hk : k ≤ p.statements.size) : p.extent k = k := by
  induction k with
  | zero => exact Placed.room_zero _
  | succ k ih => rw [extent_succ, ih (Nat.le_of_succ_le hk), h k hk]

/-- How a program is laid out. -/
structure LaidOut (p : Program) (source : List Char) : Prop where
  /-- The statements are those of the source text, in their order. -/
  order : (p.statements.toList.map fun s => (s.line, s.text)) =
    ((Item.ofSource source).filterMap Item.statement?).map fun s => (s.line, s.text)
  /-- A statement's address is the sum of the sizes before it, up to the greatest address. -/
  address : ∀ {k : Nat} {s : Placed}, p.statements[k]? = some s →
    s.address = min (p.extent k) Statement.addressLimit
  /-- A label has the address of the next statement, or the one that it would have. -/
  label : ∀ {k : Nat} {l : Label}, p.labels[k]? = some l → ∃ front back,
    Item.ofSource source = front ++ .label l.name l.line :: back ∧
      front.countP Item.isLabel = k ∧
      l.address = min (p.extent (Item.statementCount front)) Statement.addressLimit ∧
      ∀ s, p.statements[Item.statementCount front]? = some s → l.address = s.address
  /-- Every label of the source text is among the labels, in its turn. -/
  labelled : ∀ {front back : List Item} {name : String} {line : Nat},
    Item.ofSource source = front ++ .label name line :: back →
      ∃ l, p.labels[front.countP Item.isLabel]? = some l ∧ l.name = name ∧ l.line = line ∧
        l.address = min (p.extent (Item.statementCount front)) Statement.addressLimit
  /-- The marks of the sections tell where their first markers stand. -/
  data : p.Marks .dataMark p.data
  text : p.Marks .textMark p.text
  stop : p.Marks .endMark p.stop
  /-- An alignment takes the least padding. -/
  align : ∀ {k : Nat} {s : Placed} {n : Nat}, p.statements[k]? = some s → s.kind = .align →
    s.align = some n → IsLeast { x | n ∣ s.address + x } s.size
  /-- An instruction takes one unit. -/
  code : ∀ {k : Nat} {s : Placed}, p.statements[k]? = some s → s.isCode = true → s.size = 1
  /-- Numbers take their width each. -/
  number : ∀ {k : Nat} {s : Placed}, p.statements[k]? = some s → s.kind = .number →
    ∃ w, s.opcode.bind Opcode.width = some w ∧
      s.size = min ((tokens s.text.toList).tail.length * w.bytes) Statement.addressLimit
  /-- Where there are only instructions and labels, instructions are numbered by their addresses. -/
  plain : (∀ s, Item.statement s ∈ Item.ofSource source → s.isCode = true) →
    ∀ {k : Nat} {s : Placed}, p.statements[k]? = some s → k + 1 < 2 ^ 32 → s.address = k

/-- Every program is laid out so, whatever is wrong with its statements and however long it is. -/
theorem addresses_and_sizes (source : List Char) (config : Config) :
    (assemble source config).LaidOut source where
  order := statements_assemble
  address := address_assemble
  label := by
    intro k l hl
    obtain ⟨front, back, hsplit, hk, haddress, -⟩ := exists_split_of_labels hl
    exact ⟨front, back, hsplit, hk, haddress, fun s hs => haddress.trans (address_assemble hs).symm⟩
  labelled := by
    intro front back name line hsplit
    obtain ⟨l, hl, hname, hline, haddress, -⟩ := exists_label_of_split hsplit
    exact ⟨l, hl, hname, hline, haddress⟩
  data := marks_firstMark _ _
  text := marks_firstMark _ _
  stop := marks_firstMark _ _
  align := by
    intro k s n hs hkind halign
    obtain ⟨st, -, hread, heq⟩ := exists_isRead_of_getElem? hs
    rw [heq] at hkind halign ⊢
    exact Placed.isLeast_size_place hread hkind halign s.address
  code := by
    intro k s hs hcode
    obtain ⟨st, -, hread, heq⟩ := exists_isRead_of_getElem? hs
    rw [heq] at hcode ⊢
    exact Placed.size_place_of_isCode hread hcode s.address
  number := by
    intro k s hs hkind
    obtain ⟨st, -, hread, heq⟩ := exists_isRead_of_getElem? hs
    rw [heq] at hkind ⊢
    exact Placed.size_place_of_number hread hkind s.address
  plain := by
    intro hcode k s hs hk
    have hunits : ∀ i < (assemble source config).statements.size,
        (assemble source config).roomOf i = 1 := by
      intro i hi
      have ht := Array.getElem?_eq_getElem hi
      obtain ⟨st, hst, -, heq⟩ := exists_isRead_of_getElem? ht
      refine roomOf_of_isCode (test_eq_true.mpr ⟨_, ht, ?_⟩)
      rw [heq]
      exact hcode st (Item.mem_of_mem_filterMap (List.mem_of_getElem? hst))
    have hlt := (Array.getElem?_eq_some_iff.mp hs).1
    rw [address_assemble hs, extent_of_units hunits (Nat.le_of_lt hlt)]
    exact Nat.min_eq_left (by rw [Statement.addressLimit]; omega)

end Program

end AsmCheck
