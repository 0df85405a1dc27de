import AsmCheck.Proofs.Assembly
import AsmCheck.Proofs.LineNumbers

/-! # Addresses and order

    A statement's address is the room that the statements before it take, up to
    the greatest address (`getElem?_layout`), and a label's address is the room
    that the statements in front of the label take (`exists_split_of_label`).
    As long as a program fits into the address range, addresses therefore tell
    the order of whatever takes room: of the statements at one address at most
    one has a size (`extent_eq_iff`), and it is the first such statement from
    there on.

    So a label, which is linked by its address, is linked to what comes next in
    the source text (`labels_by_position`). -/

namespace AsmCheck

/-! ## Places in the source text -/

namespace Item

/-- The statement of an item. -/
def statement? : Item → Option Statement
  | .label _ _ => none
  | .statement s => some s

/-- Whether an item is a label. -/
def isLabel (item : Item) : Bool :=
  item.statement?.isNone

/-- How many statements there are. -/
def statementCount (items : List Item) : Nat :=
  (items.filterMap statement?).length

@[simp] theorem statementCount_nil : statementCount [] = 0 := rfl

@[simp] theorem statementCount_label (name : String) (line : Nat) (items : List Item) :
    statementCount (.label name line :: items) = statementCount items := rfl

@[simp] theorem statementCount_statement (s : Statement) (items : List Item) :
    statementCount (.statement s :: items) = statementCount items + 1 := rfl

end Item

/-- How many address units the first `n` of some statements take. -/
def Placed.room : List Placed → Nat → Nat
  | _, 0 => 0
  | [], _ + 1 => 0
  | s :: ss, n + 1 => s.size + room ss n

namespace Program

/-- How many address units a statement takes. -/
def roomOf (p : Program) (i : Nat) : Nat :=
  ((p.statements[i]?).map fun s => s.size).getD 0

/-- How many address units the first `n` statements take. -/
def extent (p : Program) (n : Nat) : Nat :=
  Placed.room p.statements.toList n

/-- Statement `i` is the first one from number `n` on that takes room. -/
structure IsFirstSized (p : Program) (n i : Nat) : Prop where
  from_n : n ≤ i
  sized : p.roomOf i ≠ 0
  unsized : ∀ j, n ≤ j → j < i → p.roomOf j = 0

/-- Statement `i` stands on a line before the data section. -/
def BeforeData (p : Program) (i : Nat) : Prop :=
  ∃ d, p.data = some d ∧ p.lineOf i < d.line

/-- Statement `i` takes room from an address on, and does not stand before the data section. -/
structure HoldsAt (p : Program) (i : Nat) (address : Int) : Prop where
  sized : p.roomOf i ≠ 0
  address_eq : (p.addressOf i : Int) = address
  after : ¬ p.BeforeData i

end Program

/-! ## Layout -/

namespace Placed

@[simp] theorem room_zero (ss : List Placed) : room ss 0 = 0 := by
  cases ss <;> rfl

/-- Each statement adds its size to the room. -/
theorem room_succ (ss : List Placed) (n : Nat) :
    room ss (n + 1) = room ss n + ((ss[n]?).map fun s => s.size).getD 0 := by
  induction ss generalizing n with
  | nil => cases n <;> rfl
  | cons s ss ih =>
      cases n with
      | zero =>
          show s.size + room ss 0 = 0 + s.size
          rw [room_zero, Nat.add_zero, Nat.zero_add]
      | succ n =>
          show s.size + room ss (n + 1) = s.size + room ss n + _
          rw [ih n, Nat.add_assoc, List.getElem?_cons_succ]

/-- No more room is taken than by all of them. -/
theorem room_le (ss : List Placed) (n : Nat) : room ss n ≤ room ss ss.length := by
  induction ss generalizing n with
  | nil => cases n <;> exact Nat.le_refl 0
  | cons s ss ih =>
      cases n with
      | zero => exact Nat.zero_le _
      | succ n => exact Nat.add_le_add_left (ih n) _

end Placed

namespace Entry

/-- The statements of the items are placed in their order, each where those before it end. -/
theorem getElem?_layout (items : List Item) {cursor : Nat}
    (hcursor : cursor ≤ Statement.addressLimit) (i : Nat) :
    ((layout cursor items).filterMap statement?)[i]? =
      ((items.filterMap Item.statement?)[i]?).map fun s =>
        Placed.place s (min (cursor + Placed.room ((layout cursor items).filterMap statement?) i)
          Statement.addressLimit) := by
  induction items generalizing cursor i with
  | nil => rfl
  | cons item items ih =>
      cases item with
      | label name line => exact ih hcursor i
      | statement s =>
          cases i with
          | zero =>
              rw [Placed.room_zero, Nat.add_zero, Nat.min_eq_left hcursor]
              rfl
          | succ i =>
              have hnext := ih (Nat.min_le_right (cursor + (Placed.place s cursor).size)
                Statement.addressLimit) i
              rw [show ∀ r, min (min (cursor + (Placed.place s cursor).size)
                  Statement.addressLimit + r) Statement.addressLimit =
                min (cursor + ((Placed.place s cursor).size + r)) Statement.addressLimit by
                  intro r; omega] at hnext
              exact hnext

/-- A label's address is the room that the statements in front of it take. -/
theorem exists_split_of_label {items : List Item} {cursor k : Nat} {l : Label}
    (hcursor : cursor ≤ Statement.addressLimit)
    (h : ((layout cursor items).filterMap label?)[k]? = some l) :
    ∃ front back, items = front ++ .label l.name l.line :: back ∧
      front.countP Item.isLabel = k ∧
      l.address = min (cursor + Placed.room ((layout cursor items).filterMap statement?)
        (Item.statementCount front)) Statement.addressLimit := by
  induction items generalizing cursor k with
  | nil => cases h
  | cons item items ih =>
      cases item with
      | label name line =>
          cases k with
          | zero =>
              obtain rfl : { name, line, address := cursor } = l := Option.some.inj h
              refine ⟨[], items, rfl, rfl, ?_⟩
              rw [Item.statementCount_nil, Placed.room_zero]
              exact (Nat.min_eq_left hcursor).symm
          | succ k =>
              obtain ⟨front, back, hitems, hk, haddress⟩ := ih hcursor h
              refine ⟨.label name line :: front, back, by rw [hitems]; rfl, ?_, haddress⟩
              rw [List.countP_cons, hk]
              rfl
      | statement st =>
          obtain ⟨front, back, hitems, hk, haddress⟩ := ih (Nat.min_le_right _ _) h
          refine ⟨.statement st :: front, back, by rw [hitems]; rfl, ?_, ?_⟩
          · rw [List.countP_cons, hk]
            rfl
          · rw [haddress, Item.statementCount_statement]
            show _ = min (cursor + ((Placed.place st cursor).size + Placed.room _ _)) _
            omega

/-- Every label of the items is placed, in its turn and behind the statements in front of it. -/
theorem getElem?_label (front back : List Item) (name : String) (line : Nat) {cursor : Nat}
    (hcursor : cursor ≤ Statement.addressLimit) :
    ((layout cursor (front ++ .label name line :: back)).filterMap label?)[
        front.countP Item.isLabel]? =
      some { name, line
             address := min (cursor + Placed.room ((layout cursor
               (front ++ .label name line :: back)).filterMap statement?)
                 (Item.statementCount front)) Statement.addressLimit } := by
  induction front generalizing cursor with
  | nil =>
      rw [Item.statementCount_nil, Placed.room_zero, Nat.add_zero, Nat.min_eq_left hcursor]
      rfl
  | cons item front ih =>
      cases item with
      | label name' line' =>
          rw [List.countP_cons]
          exact ih hcursor
      | statement st =>
          have hnext := ih (Nat.min_le_right (cursor + (Placed.place st cursor).size)
            Statement.addressLimit)
          rw [List.cons_append, List.countP_cons, Item.statementCount_statement]
          refine hnext.trans (congrArg some ?_)
          rw [Label.mk.injEq]
          refine ⟨rfl, rfl, ?_, rfl⟩
          show _ = min (cursor + ((Placed.place st cursor).size + Placed.room _ _)) _
          omega

end Entry

/-! ## Addresses of a program -/

namespace Program

variable {p : Program} {i j n : Nat}

/-- Each statement adds its room to the extent. -/
theorem extent_succ (p : Program) (i : Nat) : p.extent (i + 1) = p.extent i + p.roomOf i := by
  rw [extent, extent, roomOf, ← Array.getElem?_toList]
  exact Placed.room_succ _ i

/-- The extent grows from statement to statement. -/
theorem extent_mono (p : Program) : Monotone p.extent := by
  refine monotone_nat_of_le_succ fun n => ?_
  rw [extent_succ]
  exact Nat.le_add_right _ _

theorem extent_le (p : Program) (n : Nat) : p.extent n ≤ p.extent p.statements.size :=
  Placed.room_le _ n

/-- There is one first statement of some size at most. -/
theorem IsFirstSized.unique (h : p.IsFirstSized n i) (h' : p.IsFirstSized n j) : i = j := by
  rcases Nat.lt_trichotomy i j with hlt | heq | hlt
  · exact absurd (h'.unsized i h.from_n hlt) h.sized
  · exact heq
  · exact absurd (h.unsized j h'.from_n hlt) h'.sized

/-- A statement that takes room starts where number `n` does exactly if it is the first such
    statement from there on. -/
theorem extent_eq_iff (hsize : p.roomOf i ≠ 0) :
    p.extent i = p.extent n ↔ p.IsFirstSized n i := by
  constructor
  · intro heq
    have hni : n ≤ i := by
      by_contra hlt
      have hmono : p.extent (i + 1) ≤ p.extent n := p.extent_mono (Nat.lt_of_not_le hlt)
      rw [extent_succ] at hmono
      omega
    refine ⟨hni, hsize, fun j hnj hji => ?_⟩
    have hleft : p.extent n ≤ p.extent j := p.extent_mono hnj
    have hright : p.extent (j + 1) ≤ p.extent i := p.extent_mono hji
    rw [extent_succ] at hright
    omega
  · intro hfirst
    have hsame : ∀ j, n ≤ j → j ≤ i → p.extent j = p.extent n := by
      intro j hnj
      induction hnj with
      | refl => exact fun _ => rfl
      | @step j hnj ih =>
          intro hji
          rw [extent_succ, hfirst.unsized j hnj hji, ih (Nat.le_of_succ_le hji), Nat.add_zero]
    exact hsame i hfirst.from_n (Nat.le_refl i)

theorem not_beforeData (h : p.data.isNone = true) : ¬ p.BeforeData i := by
  rintro ⟨d, hd, -⟩
  rw [hd] at h
  cases h

theorem exists_of_sized (h : p.roomOf i ≠ 0) : ∃ s, p.statements[i]? = some s := by
  rw [← Option.isSome_iff_exists, Option.isSome_iff_ne_none]
  intro hnone
  rw [roomOf, hnone] at h
  exact h rfl

/-- Being looked for at an address and holding it are the same. -/
theorem isHolder_iff {s : Placed} (hs : p.statements[i]? = some s) {address : Nat} :
    (isAddressable p.data s && s.address == address) = true ↔ p.HoldsAt i address := by
  have hsize : p.roomOf i = s.size := by rw [roomOf, hs]; rfl
  have hplace : p.addressOf i = s.address := by rw [addressOf, hs]; rfl
  have hline : p.lineOf i = s.line := by rw [lineOf, hs]; rfl
  have hbefore : p.BeforeData i ↔ (p.data.any fun d => s.line < d.line) = true := by
    rw [BeforeData, hline, Option.any_eq_true]
    simp only [decide_eq_true_eq]
  rw [isAddressable, Bool.and_eq_true, Bool.and_eq_true, beq_iff_eq, bne_iff_ne, ← hsize, ← hplace,
    Bool.not_eq_true', ← Bool.not_eq_true, ← hbefore]
  constructor
  · rintro ⟨⟨hsized, hafter⟩, heq⟩
    exact ⟨hsized, congrArg Nat.cast heq, hafter⟩
  · rintro ⟨hsized, heq, hafter⟩
    exact ⟨⟨hsized, hafter⟩, Int.ofNat.inj heq⟩

/-- An address names the first statement that takes room from there on and does not stand before the
    data section. -/
theorem statementAt_eq_some {address : Nat} :
    p.statementAt address = some i ↔
      p.HoldsAt i address ∧ ∀ j, j < i → ¬ p.HoldsAt j address := by
  have hget : ∀ {j} (hj : j < p.statements.toList.length),
      p.statements[j]? = some p.statements.toList[j] := fun hj =>
    (Array.getElem?_toList ..).symm.trans (List.getElem?_eq_getElem hj)
  rw [statementAt, holder, List.findIdx?_eq_some_iff_getElem]
  constructor
  · rintro ⟨hlt, hholds, hfirst⟩
    refine ⟨(isHolder_iff (hget hlt)).mp hholds, fun j hj h => hfirst j hj ?_⟩
    exact (isHolder_iff (hget (Nat.lt_trans hj hlt))).mpr h
  · rintro ⟨hholds, hfirst⟩
    obtain ⟨s, hs⟩ := exists_of_sized hholds.sized
    have hlt : i < p.statements.toList.length := (Array.getElem?_eq_some_iff.mp hs).1
    refine ⟨hlt, (isHolder_iff (hget hlt)).mpr hholds, fun j hj h => hfirst j hj ?_⟩
    exact (isHolder_iff (hget (Nat.lt_trans hj hlt))).mp h

section Linking

variable (haddress : ∀ {i s}, p.statements[i]? = some s → s.address = p.extent i)
include haddress

/-- What occupies storage stands where all before it ends. -/
theorem addressOf_of_sized (h : p.roomOf i ≠ 0) : p.addressOf i = p.extent i := by
  obtain ⟨s, hs⟩ := exists_of_sized h
  rw [addressOf, hs]
  exact haddress hs

/-- If addresses tell how much room there is in front, a statement can be named by the address of
    number `n` exactly if it is the first one from there on that takes room, and does not stand
    before the data section. -/
theorem holdsAt_extent : p.HoldsAt i (p.extent n) ↔ p.IsFirstSized n i ∧ ¬ p.BeforeData i := by
  constructor
  · rintro ⟨hsized, heq, hafter⟩
    rw [addressOf_of_sized haddress hsized] at heq
    exact ⟨(extent_eq_iff hsized).mp (Int.ofNat.inj heq), hafter⟩
  · rintro ⟨hfirst, hafter⟩
    refine ⟨hfirst.sized, ?_, hafter⟩
    rw [addressOf_of_sized haddress hfirst.sized, (extent_eq_iff hfirst.sized).mpr hfirst]

/-- Two statements cannot take room from one address on. -/
theorem HoldsAt.unique {address : Int} (h : p.HoldsAt i address) (h' : p.HoldsAt j address) :
    i = j := by
  have hstart : ∀ {k}, p.HoldsAt k address → (p.extent k : Int) = address := fun hk =>
    (congrArg Nat.cast (addressOf_of_sized haddress hk.sized)).symm.trans hk.address_eq
  have heq : p.extent i = p.extent j := Int.ofNat.inj ((hstart h).trans (hstart h').symm)
  have hfirst : p.IsFirstSized j j := (extent_eq_iff h'.sized).mp rfl
  exact ((extent_eq_iff h.sized).mp heq).unique hfirst

/-- A look-up by address finds the statement that holds it. -/
theorem statementAt_iff_holdsAt {address : Nat} :
    p.statementAt address = some i ↔ p.HoldsAt i address := by
  rw [statementAt_eq_some]
  refine ⟨And.left, fun h => ⟨h, fun j hji h' => ?_⟩⟩
  exact Nat.ne_of_lt hji (HoldsAt.unique haddress h' h)

/-- The end of a stretch of statements is held by the first one of some size behind it, unless that
    comes before the data. -/
theorem statementAt_extent :
    p.statementAt (p.extent n) = some i ↔ p.IsFirstSized n i ∧ ¬ p.BeforeData i :=
  (statementAt_iff_holdsAt haddress).trans (holdsAt_extent haddress)

end Linking

/-! ## Labels -/

section Assemble

variable {source : List Char} {config : Config}

/-- The statements of a program are those of the source text, in their order and placed. -/
theorem getElem?_statements (i : Nat) :
    (assemble source config).statements[i]? =
      (((Item.ofSource source).filterMap Item.statement?)[i]?).map fun s =>
        Placed.place s (min ((assemble source config).extent i) Statement.addressLimit) := by
  have hlayout := Entry.getElem?_layout (Item.ofSource source) (Nat.zero_le _) i
  rw [Nat.zero_add, ← List.getElem?_toArray] at hlayout
  exact hlayout

/-- A statement's address is the room that those before it take, up to the greatest address. -/
theorem address_assemble {i : Nat} {s : Placed}
    (h : (assemble source config).statements[i]? = some s) :
    s.address = min ((assemble source config).extent i) Statement.addressLimit := by
  rw [getElem?_statements] at h
  obtain ⟨st, -, rfl⟩ := Option.map_eq_some_iff.mp h
  rfl

/-- In an assembled program this holds up to the limit of addresses. -/
theorem addressOf_assemble {i : Nat} (h : (assemble source config).roomOf i ≠ 0) :
    (assemble source config).addressOf i =
      min ((assemble source config).extent i) Statement.addressLimit := by
  obtain ⟨s, hs⟩ := exists_of_sized h
  rw [addressOf, hs]
  exact address_assemble hs

/-- If the statements fit into the address range, addresses tell how much room there is in front. -/
theorem address_eq_extent
    (hfits : (assemble source config).extent (assemble source config).statements.size ≤
      Statement.addressLimit)
    {i : Nat} {s : Placed} (hs : (assemble source config).statements[i]? = some s) :
    s.address = (assemble source config).extent i :=
  (address_assemble hs).trans
    (Nat.min_eq_left (Nat.le_trans ((assemble source config).extent_le i) hfits))

/-- A label stands somewhere in the source text, and names what its address names, which is the room
    that the statements in front of it take. -/
theorem exists_split_of_labels {k : Nat} {l : Label}
    (h : (assemble source config).labels[k]? = some l) :
    ∃ front back, Item.ofSource source = front ++ .label l.name l.line :: back ∧
      front.countP Item.isLabel = k ∧
      l.address = min ((assemble source config).extent (Item.statementCount front))
        Statement.addressLimit ∧
      l.statement = (assemble source config).statementAt l.address := by
  rw [assemble_eq, namedLabels, List.getElem?_map, Option.map_eq_some_iff] at h
  obtain ⟨l, hl, rfl⟩ := h
  obtain ⟨front, back, hsplit, hk, haddress⟩ := Entry.exists_split_of_label (Nat.zero_le _) hl
  rw [Nat.zero_add] at haddress
  exact ⟨front, back, hsplit, hk, haddress, rfl⟩

/-- Every label of the source text is among the labels, in its turn. -/
theorem exists_label_of_split {front back : List Item} {name : String} {line : Nat}
    (h : Item.ofSource source = front ++ .label name line :: back) :
    ∃ l, (assemble source config).labels[front.countP Item.isLabel]? = some l ∧ l.name = name ∧
      l.line = line ∧
      l.address = min ((assemble source config).extent (Item.statementCount front))
        Statement.addressLimit ∧
      l.statement = (assemble source config).statementAt l.address := by
  have hl := Entry.getElem?_label front back name line (Nat.zero_le Statement.addressLimit)
  rw [← h, Nat.zero_add] at hl
  rw [assemble_eq, namedLabels, List.getElem?_map, hl]
  exact ⟨_, rfl, rfl, rfl, rfl, rfl⟩

/-- The statements of a program are those of the source text, in their order. -/
theorem statements_assemble :
    ((assemble source config).statements.toList.map fun s => (s.line, s.text)) =
      ((Item.ofSource source).filterMap Item.statement?).map fun s => (s.line, s.text) := by
  refine List.ext_getElem? fun i => ?_
  rw [List.getElem?_map, Array.getElem?_toList, getElem?_statements, List.getElem?_map,
    Option.map_map]
  rfl

end Assemble

/-- What a label is linked to, if it stands behind the first `n` statements of the source text: the
    first statement from there on that takes room, unless that stands before the data section. -/
def LinksTo (p : Program) (l : Label) (n : Nat) : Prop :=
  ∀ i, l.statement = some i ↔ p.IsFirstSized n i ∧ ¬ p.BeforeData i

/-- If the statements fit into the address range, linking by address is linking by position. -/
theorem linksTo_of_address {source : List Char} {config : Config} {l : Label} {n : Nat}
    (hfits : (assemble source config).extent (assemble source config).statements.size ≤
      Statement.addressLimit)
    (haddress : l.address = min ((assemble source config).extent n) Statement.addressLimit)
    (hlink : l.statement = (assemble source config).statementAt l.address) :
    (assemble source config).LinksTo l n := by
  have hmin : ∀ n, min ((assemble source config).extent n) Statement.addressLimit =
      (assemble source config).extent n :=
    fun n => Nat.min_eq_left (Nat.le_trans ((assemble source config).extent_le n) hfits)
  intro i
  rw [hlink, haddress, hmin]
  exact statementAt_extent fun hs => (address_assemble hs).trans (hmin _)

/-- Labels are linked to what comes next: the statements of a program are those of the source text,
    in their order, and if together they fit into the address range, every label stands somewhere in
    the source text and names the first statement from there on that takes room, if there is one and
    it does not stand before the data section, and otherwise none; and every label of the source text
    is there, in its turn, and linked so. -/
theorem labels_by_position (source : List Char) (config : Config)
    (hfits : (assemble source config).extent (assemble source config).statements.size ≤
      Statement.addressLimit) :
    ((assemble source config).statements.toList.map fun s => (s.line, s.text)) =
        ((Item.ofSource source).filterMap Item.statement?).map (fun s => (s.line, s.text)) ∧
      (∀ k l, (assemble source config).labels[k]? = some l →
        ∃ front back, Item.ofSource source = front ++ .label l.name l.line :: back ∧
          front.countP Item.isLabel = k ∧
          (assemble source config).LinksTo l (Item.statementCount front)) ∧
      ∀ front name line back, Item.ofSource source = front ++ .label name line :: back →
        ∃ l, (assemble source config).labels[front.countP Item.isLabel]? = some l ∧
          l.name = name ∧ l.line = line ∧
          (assemble source config).LinksTo l (Item.statementCount front) := by
  refine ⟨statements_assemble, ?_, ?_⟩
  · intro k l hl
    obtain ⟨front, back, hsplit, hk, haddress, hlink⟩ := exists_split_of_labels hl
    exact ⟨front, back, hsplit, hk, linksTo_of_address hfits haddress hlink⟩
  · intro front name line back hsplit
    obtain ⟨l, hl, hname, hline, haddress, hlink⟩ := exists_label_of_split hsplit
    exact ⟨l, hl, hname, hline, linksTo_of_address hfits haddress hlink⟩

/-- A label before the data section, one in front of a statement without size, one at the end. -/
def labelsAround : String :=
  "e: nop\n.data\na: .globl m\nm: .align 2\nb: nop\nc:\n"

theorem labelsAround_text {p : Program} (hp : p = assemble labelsAround.toList {}) :
    p.extent p.statements.size ≤ Statement.addressLimit ∧
      p.labels.map (fun l : Label => (l.name, l.line, l.statement)) =
        [("e", 0, none), ("a", 2, some 3), ("m", 3, some 3), ("b", 4, some 4), ("c", 5, none)] := by
  subst hp
  decide +kernel

/-- The label in front of the statement without size names the one after that, and nothing comes
    after the last label. -/
theorem labelsAround_by_position :
    (assemble labelsAround.toList {}).extent (assemble labelsAround.toList {}).statements.size ≤
        Statement.addressLimit ∧
      (∃ l front back, (assemble labelsAround.toList {}).labels[1]? = some l ∧
        l.statement = some 3 ∧ Item.ofSource labelsAround.toList = front ++ .label "a" 2 :: back ∧
        (assemble labelsAround.toList {}).IsFirstSized (Item.statementCount front) 3) ∧
      ∃ l front back, (assemble labelsAround.toList {}).labels[4]? = some l ∧
        l.statement = none ∧ Item.ofSource labelsAround.toList = front ++ .label "c" 5 :: back ∧
        ∀ i, (assemble labelsAround.toList {}).IsFirstSized (Item.statementCount front) i →
          (assemble labelsAround.toList {}).BeforeData i := by
  obtain ⟨hfits, htable⟩ := labelsAround_text rfl
  obtain ⟨-, hlinks, -⟩ := labels_by_position labelsAround.toList {} hfits
  have hlabel : ∀ {k : Nat} {name line statement},
      ((assemble labelsAround.toList {}).labels.map fun l : Label =>
        (l.name, l.line, l.statement))[k]? = some (name, line, statement) →
      ∃ l front back, (assemble labelsAround.toList {}).labels[k]? = some l ∧
        l.statement = statement ∧
        Item.ofSource labelsAround.toList = front ++ .label name line :: back ∧
        (assemble labelsAround.toList {}).LinksTo l (Item.statementCount front) := by
    intro k name line statement h
    rw [List.getElem?_map] at h
    obtain ⟨l, hl, hx⟩ := Option.map_eq_some_iff.mp h
    simp only [Prod.mk.injEq] at hx
    obtain ⟨rfl, rfl, hstatement⟩ := hx
    obtain ⟨front, back, hsplit, -, hlink⟩ := hlinks k l hl
    exact ⟨l, front, back, hl, hstatement, hsplit, hlink⟩
  rw [htable] at hlabel
  refine ⟨hfits, ?_, ?_⟩
  · obtain ⟨l, front, back, hl, hstatement, hsplit, hlink⟩ := hlabel (k := 1) rfl
    exact ⟨l, front, back, hl, hstatement, hsplit, ((hlink 3).mp hstatement).1⟩
  · obtain ⟨l, front, back, hl, hstatement, hsplit, hlink⟩ := hlabel (k := 4) rfl
    refine ⟨l, front, back, hl, hstatement, hsplit, fun i hfirst => ?_⟩
    by_contra hafter
    rw [(hlink i).mpr ⟨hfirst, hafter⟩] at hstatement
    cases hstatement

end Program

end AsmCheck
