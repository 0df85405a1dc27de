import AsmCheck.Proofs.BlankLines
import AsmCheck.Proofs.JumpTargets

/-! # Jumps to labels

    There are two ways to arrive at what stands after a label: to fall through
    to it, and to jump to the label.  Falling through goes by what statements
    are, and passes over exports, alignments and section markers
    (`follower_eq`); a label is linked by its address, and so to what takes
    room there (`labelNamed_assemble`).

    * The two ways meet, unless an alignment between the label and the code
      takes room: then the jump misses the code (`jumps_meet_fallthrough`).
    * That labels before the data section name nothing follows only from the
      room between them and the section: the statements before it cannot be
      named, but a label whose address is also that of the first one after it
      names that one (`early_labels_link`). -/

namespace AsmCheck

open Source

/-! ## Names and lines of the items of a source text -/

theorem ParsedLine.isName_parse {text : List Char} {line : Nat} {name : String}
    (h : (parse text line).label = some name) : Literal.isName name.toList = true := by
  have hsplit : (splitLabel (Text.trim text)).1 = some name := by
    rw [parse] at h
    generalize splitLabel (Text.trim text) = parts at h ⊢
    obtain ⟨label, rest⟩ := parts
    dsimp only at h
    split at h <;> exact h
  rw [splitLabel] at hsplit
  dsimp only at hsplit
  split at hsplit
  · cases hsplit
  · split at hsplit
    · next hname =>
      rw [← Option.some.inj hsplit, String.toList_ofList]
      exact hname
    · cases hsplit

/-- Lines are numbered in their order. -/
theorem pairwise_logicalFrom (start : Nat) (inBlock : Bool) (ls : List (List Char)) :
    (∀ l ∈ logicalFrom start inBlock ls, lineNumber start ≤ l.line) ∧
      (logicalFrom start inBlock ls).Pairwise fun l l' => l.line ≤ l'.line := by
  induction start, inBlock, ls using logicalFrom.induct with
  | case1 start inBlock =>
      rw [logicalFrom]
      exact ⟨fun l hl => absurd hl List.not_mem_nil, List.Pairwise.nil⟩
  | case2 start inBlock l ls stripped rest span ih =>
      obtain ⟨hfrom, hpairwise⟩ := ih
      have hlater : ∀ l' ∈ logicalFrom (start + span) stripped.2 rest,
          lineNumber start ≤ l'.line := by
        intro l' hl'
        refine Nat.le_trans ?_ (hfrom l' hl')
        rw [lineNumber, lineNumber]
        omega
      rw [logicalFrom, List.pairwise_cons]
      refine ⟨fun l' hl' => ?_, hlater, hpairwise⟩
      rcases List.mem_cons.mp hl' with rfl | hl'
      · exact Nat.le_refl _
      · exact hlater l' hl'

namespace Item

/-- The line of an item. -/
def line : Item → Nat
  | .label _ line => line
  | .statement s => s.line

theorem mem_ofLine {l : LogicalLine} {item : Item} (h : item ∈ ofLine l) :
    (∃ name, (ParsedLine.parse l.text l.line).label = some name ∧ item = .label name l.line) ∨
      ∃ s, (ParsedLine.parse l.text l.line).statement = some s ∧ item = .statement s := by
  rw [ofLine, List.mem_append, Option.mem_toList, Option.mem_toList] at h
  rcases h with hlabel | hstatement
  · obtain ⟨name, hname, heq⟩ := Option.map_eq_some_iff.mp hlabel
    exact Or.inl ⟨name, hname, heq.symm⟩
  · obtain ⟨s, hs, heq⟩ := Option.map_eq_some_iff.mp hstatement
    exact Or.inr ⟨s, hs, heq.symm⟩

theorem line_of_mem_ofLine {l : LogicalLine} {item : Item} (h : item ∈ ofLine l) :
    item.line = l.line := by
  rcases mem_ofLine h with ⟨name, -, rfl⟩ | ⟨s, hs, rfl⟩
  · rfl
  · exact ParsedLine.line_parse hs

/-- Items stand on lines in order. -/
theorem pairwise_ofSource (source : List Char) :
    (ofSource source).Pairwise fun item item' => item.line ≤ item'.line := by
  rw [ofSource, List.pairwise_flatMap]
  refine ⟨fun l _ => ?_, ?_⟩
  · refine List.pairwise_of_forall_mem_list fun item hitem item' hitem' => ?_
    rw [line_of_mem_ofLine hitem, line_of_mem_ofLine hitem']
  · refine (pairwise_logicalFrom 0 false (Text.lines source)).2.imp ?_
    intro l l' hle item hitem item' hitem'
    rw [line_of_mem_ofLine hitem, line_of_mem_ofLine hitem']
    exact hle

theorem isName_of_mem_ofSource {source : List Char} {name : String} {line : Nat}
    (h : label name line ∈ ofSource source) : Literal.isName name.toList = true := by
  obtain ⟨l, -, hl⟩ := List.mem_flatMap.mp h
  rcases mem_ofLine hl with ⟨name', hname, heq⟩ | ⟨s, -, heq⟩
  · cases heq
    exact ParsedLine.isName_parse hname
  · cases heq

end Item

/-! ## Where a label stands -/

/-- The first label of a name is placed behind the statements in front of it. -/
theorem Entry.find?_label_layout {name : String} (line : Nat) (front back : List Item)
    {cursor : Nat} (hcursor : cursor ≤ Statement.addressLimit)
    (hfirst : ∀ line', Item.label name line' ∉ front) :
    ((layout cursor (front ++ .label name line :: back)).filterMap label?).find?
        (fun l => l.name == name) =
      some
        { name, line
          address := min (cursor + Placed.room
            ((layout cursor (front ++ .label name line :: back)).filterMap statement?)
            (Item.statementCount front)) Statement.addressLimit } := by
  induction front generalizing cursor with
  | nil =>
      rw [Item.statementCount_nil, Placed.room_zero, Nat.add_zero, Nat.min_eq_left hcursor]
      exact List.find?_cons_of_pos (beq_self_eq_true name)
  | cons item front ih =>
      have hrest : ∀ line', Item.label name line' ∉ front := fun line' hmem =>
        hfirst line' (List.mem_cons_of_mem _ hmem)
      cases item with
      | label name' line' =>
          have hne : ¬ (name' == name) = true := by
            intro heq
            obtain rfl := beq_iff_eq.mp heq
            exact hfirst line' (List.mem_cons_self ..)
          exact (List.find?_cons_of_neg (p := fun l : Label => l.name == name) hne).trans
            (ih hcursor hrest)
      | statement st =>
          rw [List.cons_append, Item.statementCount_statement]
          refine (ih (Nat.min_le_right _ _) hrest).trans ?_
          show some _ = some
            ({ name, line, address := min (cursor + (_ + Placed.room _ _)) _ } : Label)
          congr 2
          omega

namespace Program

variable {source : List Char} {config : Config} {front back : List Item} {name : String}
  {line i j n : Nat}

/-- The first label of a name is linked to what the room in front of it names. -/
theorem labelNamed_assemble (config : Config)
    (hsplit : Item.ofSource source = front ++ .label name line :: back)
    (hfirst : ∀ line', Item.label name line' ∉ front) :
    ∃ l, labelNamed (assemble source config).labels name = some l ∧
      l.statement = (assemble source config).statementAt
        (min ((assemble source config).extent (Item.statementCount front))
          Statement.addressLimit) := by
  have hfind := Entry.find?_label_layout line front back (Nat.zero_le _) hfirst
  rw [← hsplit, Nat.zero_add] at hfind
  rw [labelNamed, assemble_eq, namedLabels, List.find?_map]
  exact ⟨_, congrArg (Option.map _) hfind, rfl⟩

/-! ## Falling through -/

/-- Control passes over what is transparent, and stops at code. -/
theorem followers_snd_eq {s : Placed} (hcode : s.isCode = true) :
    ∀ (ss : List Placed) (i k : Nat), ss[k]? = some s →
      (∀ m t, m < k → ss[m]? = some t → t.kind.isTransparent = true) →
        (followers i ss).2 = some (i + k) := by
  intro ss
  induction ss with
  | nil =>
      intro i k hs
      cases hs
  | cons first ss ih =>
      intro i k hs hpassed
      cases k with
      | zero =>
          obtain rfl : first = s := Option.some.inj hs
          have hend : first.kind ≠ .endMark := by
            intro hkind
            rw [Statement.isCode, hkind] at hcode
            cases hcode
          have hstop : ¬ first.kind.isTransparent = true := by
            intro htransparent
            rw [Statement.isCode, isCode_of_isTransparent htransparent] at hcode
            cases hcode
          rw [followers]
          dsimp only
          rw [if_neg hend, if_neg hstop, Nat.add_zero]
      | succ k =>
          have htransparent := hpassed 0 first (Nat.succ_pos k) rfl
          have hend : first.kind ≠ .endMark := by
            intro hkind
            rw [hkind] at htransparent
            cases htransparent
          have hrest := ih (i + 1) k hs fun m t hm ht =>
            hpassed (m + 1) t (Nat.succ_lt_succ hm) ht
          rw [followers]
          dsimp only
          rw [if_neg hend, if_pos htransparent, hrest, Nat.add_right_comm, Nat.add_assoc]

/-- Control goes on to code if there is nothing else in between than what it passes over. -/
theorem follower_eq (hij : i < j) (hcode : (assemble source config).isCode j = true)
    (hpassed : ∀ m, i < m → m < j →
      (assemble source config).test (·.kind.isTransparent) m = true) :
    (assemble source config).follower i = some j := by
  obtain ⟨s, hs, hs'⟩ := test_eq_true.mp hcode
  have hget : ∀ m, (assemble source config).statements[m]? = (placed source)[m]? := fun m =>
    List.getElem?_toArray ..
  rw [hget] at hs
  have hlt : i < (placed source).length :=
    Nat.lt_trans hij (List.getElem?_eq_some_iff.mp hs).1
  show ((followers 0 (placed source)).1.toArray)[i]?.join = some j
  rw [List.getElem?_toArray, getElem?_followers _ 0 i hlt, Nat.zero_add, Option.join_some]
  have hj : i + 1 + (j - (i + 1)) = j := by omega
  rw [followers_snd_eq hs' _ (i + 1) (j - (i + 1)) (by rw [List.getElem?_drop, hj, hs]), hj]
  intro m t hm ht
  rw [List.getElem?_drop, ← hget] at ht
  obtain ⟨t', ht', htransparent⟩ := test_eq_true.mp (hpassed (i + 1 + m) (by omega) (by omega))
  rw [Option.some.inj (ht.symm.trans ht')]
  exact htransparent

/-! ## Room between a label and the code after it -/

/-- Code is what comes next from an earlier place exactly if no alignment in between takes room. -/
theorem isFirstSized_iff (hni : n ≤ i) (hcode : (assemble source config).isCode i = true)
    (hpassed : ∀ j, n ≤ j → j < i →
      (assemble source config).test (·.kind.isTransparent) j = true) :
    (assemble source config).IsFirstSized n i ↔
      ∀ j, n ≤ j → j < i → (assemble source config).test (·.kind == .align) j = true →
        (assemble source config).roomOf j = 0 := by
  constructor
  · intro hfirst j hnj hji _
    exact hfirst.unsized j hnj hji
  · intro hunpadded
    refine ⟨hni, by rw [roomOf_of_isCode hcode]; decide, fun j hnj hji => ?_⟩
    by_cases halign : (assemble source config).test (·.kind == .align) j = true
    · exact hunpadded j hnj hji halign
    · exact roomOf_of_isTransparent (hpassed j hnj hji) halign

end Program

namespace Analysis

/-- Jumps to a label arrive where falling through to it arrives, up to padding: take the first label
    of its name in a source text that fits into the address range, and code after it, not before the
    data section, with nothing but labels and what control passes over in between.  In every state
    of the analysis, what falls through to the label goes on to that code, and a jump to the label
    leads there too if and only if it was not known to be never taken and no alignment in between
    takes room. -/
theorem jumps_meet_fallthrough (source : String) (config : Config) (a : Analysis)
    (ha : a.IsStateOf source config)
    (hfits : a.program.extent a.program.statements.size ≤ Statement.addressLimit)
    {front back : List Item} {name : String} {line : Nat}
    (hsplit : Item.ofSource source.toList = front ++ .label name line :: back)
    (hfirst : ∀ line', Item.label name line' ∉ front)
    {s : Nat} (hs : Item.statementCount front ≤ s) (hcode : a.program.isCode s = true)
    (hafter : ¬ a.program.BeforeData s)
    (hpassed : ∀ j, Item.statementCount front ≤ j → j < s →
      a.program.test (·.kind.isTransparent) j = true) :
    (∀ i, i < Item.statementCount front →
      (∀ j, i < j → j < Item.statementCount front →
        a.program.test (·.kind.isTransparent) j = true) →
          a.program.follower i = some s) ∧
      ∀ b t, a.program.statements[b]? = some t → t.isControl = true →
        (tokens t.text.toList).tail = [name.toList] →
          (a.last.flow.jumpOf b = some s ↔
            ¬ Flag.neverTaken ∈ a.flagsAtLink b ∧
              ∀ j, Item.statementCount front ≤ j → j < s →
                a.program.test (·.kind == .align) j = true → a.program.roomOf j = 0) := by
  have hjump := fun b => ha.jumpOf_last (i := b) (j := s)
  rw [ha.program_eq] at hfits hcode hafter hpassed hjump ⊢
  refine ⟨fun i hi hbefore => Program.follower_eq (Nat.lt_of_lt_of_le hi hs) hcode ?_, ?_⟩
  · intro j hij hjs
    by_cases hj : j < Item.statementCount front
    · exact hbefore j hij hj
    · exact hpassed j (Nat.not_lt.mp hj) hjs
  · intro b t ht hcontrol htoken
    have hmem : Item.label name line ∈ Item.ofSource source.toList := by
      rw [hsplit]
      exact List.mem_append_right _ (List.mem_cons_self ..)
    have hoperands := Program.operands_of_control ht hcontrol htoken
    have hsymbol : t.targetSymbol = some name := by
      rw [Statement.targetSymbol_of_name hcontrol (Item.isName_of_mem_ofSource hmem) hoperands,
        String.ofList_toList]
    obtain ⟨l, hl, hlink⟩ := Program.labelNamed_assemble config hsplit hfirst
    have hroom := Program.extent_le (Program.assemble source.toList config)
      (Item.statementCount front)
    rw [Nat.min_eq_left (Nat.le_trans hroom hfits)] at hlink
    rw [hjump, Program.targetOf_of_name ht hsymbol, hl, Option.bind_some, hlink,
      Program.statementAt_extent (Program.address_eq_extent hfits), and_iff_left hafter,
      Program.isFirstSized_iff hs hcode hpassed]

/-- An export and an alignment that takes no room between a label and its code. -/
def aligned : String :=
  "jmp f\nnop\nf: .globl f\n.align 2\nret\n"

theorem aligned_text {p : Program} {items : List Item}
    (hp : p = Program.assemble aligned.toList {}) (hitems : items = Item.ofSource aligned.toList) :
    (items = items.take 2 ++ .label "f" 2 :: items.drop 3 ∧
        (items.take 2).any Item.isLabel = false ∧ Item.statementCount (items.take 2) = 2) ∧
      (p.extent p.statements.size ≤ Statement.addressLimit ∧ p.isCode 4 = true ∧
        p.data.isNone = true ∧ (∀ j < 4, 2 ≤ j → p.test (·.kind.isTransparent) j = true) ∧
        ∀ j < 4, 2 ≤ j → p.roomOf j = 0) ∧
      (p.statements[0]?).map (fun s : Placed =>
        (s.isControl && s.branch == some .jump, (tokens s.text.toList).tail)) =
          some (true, ["f".toList]) := by
  subst hp hitems
  decide +kernel

theorem aligned_jump_meets_fallthrough :
    ∃ a : Analysis, a.IsStateOf aligned {} ∧ a.program.follower 1 = some 4 ∧
      a.last.flow.jumpOf 0 = some 4 := by
  have ha := isStateOf_rerun aligned {} rfl 1
  generalize (ofText aligned {}).rerun 1 = a at ha
  obtain ⟨⟨hsplit, hlabels, hcount⟩, ⟨hfits, hcode, hdata, hpassed, hroom⟩, h0⟩ :=
    aligned_text ha.program_eq rfl
  obtain ⟨s, hs, hx⟩ := Option.map_eq_some_iff.mp h0
  simp only [Prod.mk.injEq, Bool.and_eq_true, beq_iff_eq] at hx
  obtain ⟨⟨hcontrol, hjump⟩, htoken⟩ := hx
  have hfirst : ∀ line, Item.label "f" line ∉ (Item.ofSource aligned.toList).take 2 :=
    fun line hmem => List.any_eq_false.mp hlabels _ hmem rfl
  obtain ⟨hfall, hleads⟩ := jumps_meet_fallthrough aligned {} a ha hfits hsplit hfirst
    (hcount.trans_le (by decide)) hcode (Program.not_beforeData hdata)
    fun j hj hlt => hpassed j hlt (hcount.ge.trans hj)
  rw [hcount] at hfall hleads
  refine ⟨a, ha, hfall 1 (by decide) fun j hj hlt => absurd hlt (Nat.not_lt.mpr hj), ?_⟩
  exact (hleads 0 s hs hcontrol htoken).mpr
    ⟨ha.neverTaken_of_jump hs hjump, fun j hj hlt _ => hroom j hlt hj⟩

/-- An alignment that takes room between a label and its code. -/
def padded : String :=
  "jmp f\nf: .align 4\nret\n"

theorem padded_text {p : Program} {items : List Item}
    (hp : p = Program.assemble padded.toList {}) (hitems : items = Item.ofSource padded.toList) :
    (items = items.take 1 ++ .label "f" 1 :: items.drop 2 ∧
        (items.take 1).any Item.isLabel = false ∧ Item.statementCount (items.take 1) = 1) ∧
      (p.extent p.statements.size ≤ Statement.addressLimit ∧ p.isCode 2 = true ∧
        p.data.isNone = true ∧ p.test (·.kind.isTransparent) 1 = true ∧
        p.follower 0 = some 2 ∧ p.targetOf 0 = some 1) ∧
      (p.statements[0]?).map (fun s : Placed =>
        (s.isControl && s.branch == some .jump, (tokens s.text.toList).tail)) =
          some (true, ["f".toList]) := by
  subst hp hitems
  decide +kernel

/-- The jump leads to the padding, though there is nothing between the label and the code that
    control does not pass over. -/
theorem padded_jump_misses_code :
    ∃ a : Analysis, a.IsStateOf padded {} ∧
      a.program.extent a.program.statements.size ≤ Statement.addressLimit ∧
      (∃ front back, Item.ofSource padded.toList = front ++ .label "f" 1 :: back ∧
        (∀ line, Item.label "f" line ∉ front) ∧ Item.statementCount front = 1) ∧
      a.program.isCode 2 = true ∧ ¬ a.program.BeforeData 2 ∧
      a.program.test (·.kind.isTransparent) 1 = true ∧
      (∃ s, a.program.statements[0]? = some s ∧ s.isControl = true ∧
        (tokens s.text.toList).tail = ["f".toList]) ∧
      ¬ Flag.neverTaken ∈ a.flagsAtLink 0 ∧
      a.program.follower 0 = some 2 ∧ a.last.flow.jumpOf 0 = some 1 := by
  have ha := isStateOf_rerun padded {} rfl 1
  generalize (ofText padded {}).rerun 1 = a at ha
  obtain ⟨⟨hsplit, hlabels, hcount⟩, ⟨hfits, hcode, hdata, hpassed, hfollower, htarget⟩, h0⟩ :=
    padded_text ha.program_eq rfl
  obtain ⟨s, hs, hx⟩ := Option.map_eq_some_iff.mp h0
  simp only [Prod.mk.injEq, Bool.and_eq_true, beq_iff_eq] at hx
  obtain ⟨⟨hcontrol, hjump⟩, htoken⟩ := hx
  have hnever := ha.neverTaken_of_jump hs hjump
  have hfirst : ∀ line, Item.label "f" line ∉ (Item.ofSource padded.toList).take 1 :=
    fun line hmem => List.any_eq_false.mp hlabels _ hmem rfl
  exact ⟨a, ha, hfits, ⟨_, _, hsplit, hfirst, hcount⟩, hcode, Program.not_beforeData hdata, hpassed,
    ⟨s, hs, hcontrol, htoken⟩, hnever, hfollower, ha.jumpOf_last.mpr ⟨hnever, htarget⟩⟩

end Analysis

/-! ## Labels before the data section -/

namespace Program

variable {source : List Char} {config : Config} {front back : List Item} {name : String}
  {line i j n : Nat}

theorem lineOf_assemble (config : Config) (i : Nat) :
    (assemble source config).lineOf i =
      ((((Item.ofSource source).filterMap Item.statement?)[i]?).map fun st => st.line).getD 0 := by
  rw [lineOf, getElem?_statements, Option.map_map]
  rfl

/-- Statements further on stand on no earlier line. -/
theorem lineOf_mono (hij : i ≤ j) (hj : j < (assemble source config).statements.size) :
    (assemble source config).lineOf i ≤ (assemble source config).lineOf j := by
  have hpairwise : ((Item.ofSource source).filterMap Item.statement?).Pairwise
      fun st st' => st.line ≤ st'.line := by
    refine (Item.pairwise_ofSource source).filterMap _ ?_
    intro item item' hle st hst st' hst'
    cases item with
    | label => cases hst
    | statement =>
        cases item' with
        | label => cases hst'
        | statement =>
            cases hst
            cases hst'
            exact hle
  have hs := Array.getElem?_eq_getElem hj
  rw [getElem?_statements] at hs
  obtain ⟨st, hst, -⟩ := Option.map_eq_some_iff.mp hs
  obtain ⟨hlt, -⟩ := List.getElem?_eq_some_iff.mp hst
  rcases Nat.eq_or_lt_of_le hij with rfl | hij
  · exact Nat.le_refl _
  · rw [lineOf_assemble, lineOf_assemble, List.getElem?_eq_getElem hlt,
      List.getElem?_eq_getElem (Nat.lt_trans hij hlt)]
    exact List.pairwise_iff_getElem.mp hpairwise i j _ hlt hij

/-- What stands in front of a label does not stand on a later line. -/
theorem lineOf_le_of_split (config : Config)
    (hsplit : Item.ofSource source = front ++ .label name line :: back)
    (hi : i < Item.statementCount front) : (assemble source config).lineOf i ≤ line := by
  have hpairwise := Item.pairwise_ofSource source
  rw [hsplit, List.pairwise_append] at hpairwise
  have hget : ((Item.ofSource source).filterMap Item.statement?)[i]? =
      (front.filterMap Item.statement?)[i]? := by
    rw [hsplit, List.filterMap_append, List.getElem?_append_left hi]
  rw [lineOf_assemble, hget, List.getElem?_eq_getElem hi]
  have hmem := Item.mem_of_mem_filterMap (List.getElem_mem hi)
  exact hpairwise.2.2 _ hmem _ (List.mem_cons_self ..)

theorem BeforeData.of_le (h : (assemble source config).BeforeData j) (hij : i ≤ j)
    (hj : j < (assemble source config).statements.size) :
    (assemble source config).BeforeData i := by
  obtain ⟨d, hd, hline⟩ := h
  exact ⟨d, hd, Nat.lt_of_le_of_lt (lineOf_mono hij hj) hline⟩

/-- Statement `i` is the first one that an address can name. -/
structure IsFirstAddressable (p : Program) (i : Nat) : Prop where
  sized : p.roomOf i ≠ 0
  after : ¬ p.BeforeData i
  before : ∀ j, j < i → p.roomOf j ≠ 0 → p.BeforeData j

/-- The first statement that can be named has the address of a place before the data section exactly
    if there is no room in between, or no address left. -/
theorem IsFirstAddressable.addressOf_eq_iff (h : (assemble source config).IsFirstAddressable i)
    (hni : n ≤ i) :
    (assemble source config).addressOf i =
        min ((assemble source config).extent n) Statement.addressLimit ↔
      min ((assemble source config).extent n) Statement.addressLimit = Statement.addressLimit ∨
        ∀ j, n ≤ j → (assemble source config).BeforeData j →
          (assemble source config).roomOf j = 0 := by
  have hmono := (assemble source config).extent_mono hni
  rw [addressOf_assemble h.sized]
  constructor
  · intro hstart
    refine or_iff_not_imp_left.mpr fun hlimit j hnj hj => ?_
    have hsame : (assemble source config).extent i = (assemble source config).extent n := by
      omega
    by_contra hsized
    obtain ⟨s, hs⟩ := exists_of_sized hsized
    have hji : j < i := Nat.not_le.mp fun hij =>
      h.after (hj.of_le hij (Array.getElem?_eq_some_iff.mp hs).1)
    exact hsized (((extent_eq_iff h.sized).mp hsame).unsized j hnj hji)
  · rintro (hlimit | hroom)
    · omega
    · have hnext : (assemble source config).IsFirstSized n i := by
        refine ⟨hni, h.sized, fun j hnj hji => ?_⟩
        by_contra hsized
        exact hsized (hroom j hnj (h.before j hji hsized))
      rw [(extent_eq_iff h.sized).mpr hnext]

/-- From a place before the data section, an address names at most the first statement that can be
    named at all. -/
theorem statementAt_of_before (hbefore : ∀ j, j < n → (assemble source config).BeforeData j) :
    (assemble source config).statementAt
        (min ((assemble source config).extent n) Statement.addressLimit) = some i ↔
      (assemble source config).IsFirstAddressable i ∧
        (assemble source config).addressOf i =
          min ((assemble source config).extent n) Statement.addressLimit := by
  rw [statementAt_eq_some]
  constructor
  · rintro ⟨hholds, hfirst⟩
    have hstart := Int.ofNat.inj hholds.address_eq
    refine ⟨⟨hholds.sized, hholds.after, fun j hji hsized => ?_⟩, hstart⟩
    -- what could be named in between would have the same address
    by_contra hafter
    refine hfirst j hji ⟨hsized, ?_, hafter⟩
    have hnj : n ≤ j := Nat.not_lt.mp fun hlt => hafter (hbefore j hlt)
    have hleft := (assemble source config).extent_mono hnj
    have hright := (assemble source config).extent_mono (Nat.le_of_lt hji)
    rw [addressOf_assemble hholds.sized] at hstart
    rw [addressOf_assemble hsized]
    omega
  · rintro ⟨hfirst, hstart⟩
    refine ⟨⟨hfirst.sized, congrArg Nat.cast hstart, hfirst.after⟩, fun j hji hholds => ?_⟩
    exact hholds.after (hfirst.before j hji hholds.sized)

end Program

namespace Analysis

/-- Labels before the data section name at most the first statement after its start that an address
    can name: in every state of the analysis of a source text with a data section, a label on an
    earlier line names that statement if from the label on nothing before the section takes room, or
    no address is left, and otherwise none; and a jump to the label leads where the label does,
    unless it was known to be never taken. -/
theorem early_labels_link (source : String) (config : Config) (a : Analysis)
    (ha : a.IsStateOf source config) {d : Mark} (hdata : a.program.data = some d)
    {k : Nat} {l : Label} (hl : a.program.labels[k]? = some l) (hearly : l.line < d.line) :
    ∃ front back, Item.ofSource source.toList = front ++ .label l.name l.line :: back ∧
      front.countP Item.isLabel = k ∧
      (∀ i, l.statement = some i ↔
        a.program.IsFirstAddressable i ∧
          (l.address = Statement.addressLimit ∨
            ∀ j, Item.statementCount front ≤ j → a.program.BeforeData j →
              a.program.roomOf j = 0)) ∧
      ∀ b s, a.program.statements[b]? = some s → s.targetSymbol = some l.name →
        Program.labelNamed a.program.labels l.name = some l → ∀ i,
          a.last.flow.jumpOf b = some i ↔
            ¬ Flag.neverTaken ∈ a.flagsAtLink b ∧ l.statement = some i := by
  have hjump := fun b i => ha.jumpOf_last (i := b) (j := i)
  rw [ha.program_eq] at hdata hl hjump ⊢
  obtain ⟨front, back, hsplit, hk, haddress, hlink⟩ := Program.exists_split_of_labels hl
  refine ⟨front, back, hsplit, hk, fun i => ?_, fun b s hs hsymbol hnamed i => ?_⟩
  · have hbefore : ∀ j, j < Item.statementCount front →
        (Program.assemble source.toList config).BeforeData j := fun j hj =>
      ⟨d, hdata, Nat.lt_of_le_of_lt (Program.lineOf_le_of_split config hsplit hj) hearly⟩
    rw [hlink, haddress, Program.statementAt_of_before hbefore]
    refine and_congr_right fun hfirst => hfirst.addressOf_eq_iff ?_
    exact Nat.not_lt.mp fun hlt => hfirst.after (hbefore i hlt)
  · rw [hjump, Program.targetOf_of_name hs hsymbol, hnamed, Option.bind_some]

/-- A label in front of a statement before the data section. -/
def beforeData : String :=
  "e: nop\n.data\nx: .byte 1\njmp e\n"

theorem beforeData_text {p : Program} {items : List Item}
    (hp : p = Program.assemble beforeData.toList {})
    (hitems : items = Item.ofSource beforeData.toList) :
    (items.head?.map Item.isLabel = some true ∧ p.data.map Mark.line = some 1 ∧
        p.lineOf 0 = 0 ∧ p.roomOf 0 = 1) ∧
      (p.labels[0]?).map (fun l : Label => (l.name, l.line, l.address)) = some ("e", 0, 0) ∧
      Program.labelNamed p.labels "e" = p.labels[0]? ∧
      (p.statements[3]?).map (fun s : Placed => s.targetSymbol) = some (some "e") := by
  subst hp hitems
  decide +kernel

/-- The label names nothing, and the jump to it leads nowhere. -/
theorem beforeData_unlinked :
    ∃ a : Analysis, a.IsStateOf beforeData {} ∧ a.program.data.map Mark.line = some 1 ∧
      (a.program.labels[0]?).map (fun l : Label => (l.name, l.line, l.statement)) =
        some ("e", 0, none) ∧
      a.last.flow.jumpOf 3 = none := by
  have ha := isStateOf_rerun beforeData {} rfl 1
  generalize (ofText beforeData {}).rerun 1 = a at ha
  obtain ⟨⟨hhead, hmark, hline, hroom⟩, hlabel, hnamed, hjump⟩ := beforeData_text ha.program_eq rfl
  obtain ⟨d, hd, hdline⟩ := Option.map_eq_some_iff.mp hmark
  obtain ⟨l, hl, hx⟩ := Option.map_eq_some_iff.mp hlabel
  simp only [Prod.mk.injEq] at hx
  obtain ⟨hname, hlline, haddress⟩ := hx
  obtain ⟨s, hs, hsymbol⟩ := Option.map_eq_some_iff.mp hjump
  obtain ⟨front, back, hsplit, hk, hlink, hleads⟩ := early_labels_link beforeData {} a ha hd hl
    (by rw [hlline, hdline]; decide)
  have hfront : front = [] := by
    cases front with
    | nil => rfl
    | cons item front =>
        rw [hsplit] at hhead
        rw [List.countP_cons, if_pos (Option.some.inj hhead)] at hk
        cases hk
  have hunlinked : l.statement = none := by
    rw [Option.eq_none_iff_forall_ne_some]
    intro i hi
    obtain ⟨-, hlimit | hunsized⟩ := (hlink i).mp hi
    · rw [haddress] at hlimit
      cases hlimit
    · have h0 := hunsized 0 (by rw [hfront]; exact Nat.le_refl 0)
        ⟨d, hd, by rw [hline, hdline]; decide⟩
      rw [hroom] at h0
      cases h0
  refine ⟨a, ha, hmark, by rw [hl, Option.map_some, hname, hlline, hunlinked], ?_⟩
  rw [Option.eq_none_iff_forall_ne_some]
  intro i hi
  rw [hleads 3 s hs (by rw [hsymbol, hname]) (by rw [hname, hnamed, hl])] at hi
  rw [hunlinked] at hi
  cases hi.2

/-- A label right in front of the data section. -/
def atData : String :=
  "jmp e\ne:\n.data\nret\n"

theorem atData_text {p : Program} (hp : p = Program.assemble atData.toList {}) :
    p.data.map Mark.line = some 2 ∧
      (p.labels[0]?).map (fun l : Label => (l.name, l.line, l.statement)) = some ("e", 1, some 2) ∧
      p.targetOf 0 = some 2 ∧
      (p.statements[0]?).map (fun s : Placed => s.branch) = some (some .jump) := by
  subst hp
  decide +kernel

/-- The label is linked, and the jump to it leads into the data section. -/
theorem atData_linked :
    ∃ a : Analysis, a.IsStateOf atData {} ∧ a.program.data.map Mark.line = some 2 ∧
      (a.program.labels[0]?).map (fun l : Label => (l.name, l.line, l.statement)) =
        some ("e", 1, some 2) ∧
      a.last.flow.jumpOf 0 = some 2 := by
  have ha := isStateOf_rerun atData {} rfl 1
  generalize (ofText atData {}).rerun 1 = a at ha
  obtain ⟨hmark, hlabel, htarget, hbranch⟩ := atData_text ha.program_eq
  obtain ⟨s, hs, hjump⟩ := Option.map_eq_some_iff.mp hbranch
  exact ⟨a, ha, hmark, hlabel, ha.jumpOf_last.mpr ⟨ha.neverTaken_of_jump hs hjump, htarget⟩⟩

end Analysis

end AsmCheck
