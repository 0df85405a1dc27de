/-! # Sets and tables over a small numbered type

    Condition codes, statement flags, registers and the marks of the block
    passes are all small closed types.  One representation serves every one
    of them: a set is a bit vector with one bit per element, a table is a
    vector with one entry per element.  Membership is the view of a set and
    `get` the view of a table; every operation is characterised through its
    view, so that nothing later looks at a bit. -/

namespace AsmCheck

/-- A type whose elements are numbered `0, …, card - 1`. -/
class Enumerated (α : Type) where
  /-- How many elements there are. -/
  card : Nat
  /-- The number of an element. -/
  index : α → Fin card
  /-- The element of a number. -/
  element : Fin card → α
  element_index : ∀ a, element (index a) = a
  index_element : ∀ i, index (element i) = i

namespace Enumerated

variable {α : Type} [Enumerated α]

/-- Every element, in the order of the numbering. -/
def all (α : Type) [Enumerated α] : List α :=
  (List.finRange (card α)).map element

/-- The numbering tells elements apart. -/
theorem index_inj {a b : α} : index a = index b ↔ a = b :=
  ⟨fun h => by rw [← element_index a, h, element_index b], fun h => by rw [h]⟩

/-- The enumeration leaves nothing out. -/
theorem mem_all (a : α) : a ∈ all α :=
  List.mem_map.mpr ⟨index a, List.mem_finRange _, element_index a⟩

end Enumerated

open Enumerated

/-- A test that passes all that another passes, and one element more, passes more of a list. -/
theorem countP_lt_countP {α : Type} {p q : α → Bool} (hpq : ∀ a, p a = true → q a = true)
    {a : α} (hp : p a = false) (hq : q a = true) :
    ∀ {as : List α}, a ∈ as → as.countP p < as.countP q
  | b :: as, h => by
    have hle : as.countP p ≤ as.countP q := List.countP_mono_left fun c _ => hpq c
    rw [List.countP_cons, List.countP_cons]
    rcases List.mem_cons.mp h with rfl | hmem
    · simp only [hp, hq, Bool.false_eq_true, if_false, if_true]
      omega
    · have ih := countP_lt_countP hpq hp hq hmem
      cases hb : p b with
      | true =>
        rw [hpq b hb]
        omega
      | false =>
        simp only [Bool.false_eq_true, if_false]
        omega

/-- A set of elements of a numbered type: bit `index a` says whether `a` is in it. -/
structure EnumSet (α : Type) [Enumerated α] where
  /-- The membership bits. -/
  bits : BitVec (card α)

namespace EnumSet

variable {α : Type} [Enumerated α]

instance : DecidableEq (EnumSet α)
  | ⟨x⟩, ⟨y⟩ => decidable_of_iff (x = y) (by rw [EnumSet.mk.injEq])

/-- Whether `a` is in the set. -/
def contains (s : EnumSet α) (a : α) : Bool :=
  s.bits.getLsbD (index a).val

instance : Membership α (EnumSet α) where
  mem s a := s.contains a = true

instance (a : α) (s : EnumSet α) : Decidable (a ∈ s) :=
  inferInstanceAs (Decidable (s.contains a = true))

/-- Membership is the bit test. -/
theorem mem_iff {a : α} {s : EnumSet α} : a ∈ s ↔ s.bits.getLsbD (index a).val = true :=
  Iff.rfl

/-- Sets with the same members are equal. -/
@[ext] theorem ext {s t : EnumSet α} (h : ∀ a, a ∈ s ↔ a ∈ t) : s = t := by
  cases s with
  | mk x =>
    cases t with
    | mk y =>
      congr 1
      apply BitVec.eq_of_getLsbD_eq
      intro i hi
      have hx := h (element ⟨i, hi⟩)
      simp only [mem_iff, index_element] at hx
      exact Bool.eq_iff_iff.mpr hx

/-! ## Operations -/

/-- The set without members. -/
instance : EmptyCollection (EnumSet α) where
  emptyCollection := ⟨0⟩

instance : Inhabited (EnumSet α) where
  default := ∅

/-- The set of one member. -/
instance : Singleton α (EnumSet α) where
  singleton a := ⟨BitVec.twoPow _ (index a).val⟩

/-- Members of either set. -/
instance : Union (EnumSet α) where
  union s t := ⟨s.bits ||| t.bits⟩

/-- Members of both sets. -/
instance : Inter (EnumSet α) where
  inter s t := ⟨s.bits &&& t.bits⟩

/-- Members of the first set that the second lacks. -/
instance : SDiff (EnumSet α) where
  sdiff s t := ⟨s.bits &&& ~~~t.bits⟩

/-- A set with one member added. -/
instance : Insert α (EnumSet α) where
  insert a s := {a} ∪ s

/-- Every element. -/
def full : EnumSet α :=
  ⟨BitVec.allOnes _⟩

/-- The elements outside the set. -/
def compl (s : EnumSet α) : EnumSet α :=
  full \ s

/-- The set without one element. -/
def erase (s : EnumSet α) (a : α) : EnumSet α :=
  s \ {a}

/-- The set when the condition holds, nothing otherwise. -/
def when (s : EnumSet α) (b : Bool) : EnumSet α :=
  if b then s else ∅

/-- The elements of a list. -/
def ofList (as : List α) : EnumSet α :=
  as.foldr (fun a s => {a} ∪ s) ∅

/-- Whether there is no member. -/
def isEmpty (s : EnumSet α) : Bool :=
  decide (s = ∅)

/-- Whether every member of the second set is in the first. -/
def includes (s t : EnumSet α) : Bool :=
  decide (s ∩ t = t)

/-- The members, in the order of the numbering. -/
def toList (s : EnumSet α) : List α :=
  (all α).filter s.contains

/-- How many members there are. -/
def size (s : EnumSet α) : Nat :=
  (all α).countP s.contains

/-- The membership bits read as a number, bit 0 first. -/
def toNat (s : EnumSet α) : Nat :=
  s.bits.toNat

/-! ## Each operation through membership -/

@[simp] theorem contains_iff {s : EnumSet α} {a : α} : s.contains a = true ↔ a ∈ s :=
  Iff.rfl

@[simp] theorem not_mem_empty (a : α) : ¬ a ∈ (∅ : EnumSet α) := by
  show ¬ (0#(card α)).getLsbD (index a).val = true
  simp

@[simp] theorem mem_singleton {a b : α} : a ∈ ({b} : EnumSet α) ↔ a = b := by
  show (BitVec.twoPow (card α) (index b).val).getLsbD (index a).val = true ↔ a = b
  rw [BitVec.getLsbD_twoPow]
  simp only [Fin.is_lt, decide_true, Bool.true_and, decide_eq_true_eq]
  constructor
  · intro h
    exact index_inj.mp (Fin.ext h.symm)
  · intro h
    rw [h]

@[simp] theorem mem_union {a : α} {s t : EnumSet α} : a ∈ s ∪ t ↔ a ∈ s ∨ a ∈ t := by
  show (s.bits ||| t.bits).getLsbD (index a).val = true ↔ _
  simp [mem_iff]

@[simp] theorem mem_inter {a : α} {s t : EnumSet α} : a ∈ s ∩ t ↔ a ∈ s ∧ a ∈ t := by
  show (s.bits &&& t.bits).getLsbD (index a).val = true ↔ _
  simp [mem_iff]

@[simp] theorem mem_sdiff {a : α} {s t : EnumSet α} : a ∈ s \ t ↔ a ∈ s ∧ ¬ a ∈ t := by
  show (s.bits &&& ~~~t.bits).getLsbD (index a).val = true ↔ _
  simp [mem_iff]

@[simp] theorem mem_insert {a b : α} {s : EnumSet α} : a ∈ insert b s ↔ a = b ∨ a ∈ s := by
  show a ∈ ({b} : EnumSet α) ∪ s ↔ _
  rw [mem_union, mem_singleton]

@[simp] theorem mem_full (a : α) : a ∈ (full : EnumSet α) := by
  show (BitVec.allOnes (card α)).getLsbD (index a).val = true
  simp

@[simp] theorem mem_compl {a : α} {s : EnumSet α} : a ∈ s.compl ↔ ¬ a ∈ s := by
  simp [compl]

@[simp] theorem mem_erase {a b : α} {s : EnumSet α} : a ∈ s.erase b ↔ a ∈ s ∧ a ≠ b := by
  simp [erase]

@[simp] theorem mem_when {a : α} {s : EnumSet α} {b : Bool} :
    a ∈ s.when b ↔ b = true ∧ a ∈ s := by
  cases b <;> simp [when]

@[simp] theorem mem_ofList {a : α} {as : List α} : a ∈ ofList as ↔ a ∈ as := by
  induction as with
  | nil => simp [ofList]
  | cons b as ih =>
    have h : ofList (b :: as) = {b} ∪ ofList as := rfl
    rw [h, mem_union, mem_singleton, ih, List.mem_cons]

@[simp] theorem isEmpty_iff {s : EnumSet α} : s.isEmpty = true ↔ s = ∅ :=
  decide_eq_true_iff

/-- A set is empty exactly when nothing is in it. -/
theorem eq_empty_iff {s : EnumSet α} : s = ∅ ↔ ∀ a, ¬ a ∈ s := by
  constructor
  · intro h a
    rw [h]
    exact not_mem_empty a
  · intro h
    ext a
    simp [h a]

@[simp] theorem includes_iff {s t : EnumSet α} :
    s.includes t = true ↔ ∀ a, a ∈ t → a ∈ s := by
  rw [includes, decide_eq_true_iff]
  constructor
  · intro h a ha
    rw [← h] at ha
    exact (mem_inter.mp ha).1
  · intro h
    ext a
    rw [mem_inter]
    exact ⟨fun ha => ha.2, fun ha => ⟨h a ha, ha⟩⟩

@[simp] theorem mem_toList {a : α} {s : EnumSet α} : a ∈ s.toList ↔ a ∈ s := by
  simp [toList, mem_all]

/-! ## Sizes -/

/-- A set has no more members than there are elements. -/
theorem size_le (s : EnumSet α) : s.size ≤ card α := by
  have h : (all α).length = card α := by simp [all]
  exact h ▸ List.countP_le_length

/-- Adding members that were missing makes a set larger. -/
theorem size_lt_size_union {s t : EnumSet α} (h : s ≠ s ∪ t) : s.size < (s ∪ t).size := by
  have hex : ∃ a, a ∈ t ∧ ¬ a ∈ s := by
    apply Classical.byContradiction
    intro hno
    apply h
    ext a
    rw [mem_union]
    constructor
    · exact Or.inl
    · rintro (hs | ht)
      · exact hs
      · exact Classical.byContradiction fun hs => hno ⟨a, ht, hs⟩
  obtain ⟨a, ht, hs⟩ := hex
  have hsub : ∀ b, s.contains b = true → (s ∪ t).contains b = true :=
    fun b hb => mem_union.mpr (Or.inl hb)
  exact countP_lt_countP hsub (Bool.eq_false_iff.mpr hs) (mem_union.mpr (Or.inr ht)) (mem_all a)

end EnumSet

/-- A table with one entry per element of a numbered type. -/
structure EnumMap (α : Type) [Enumerated α] (β : Type) where
  /-- The entries, in the order of the numbering. -/
  entries : Vector β (card α)

namespace EnumMap

variable {α β : Type} [Enumerated α]

instance [DecidableEq β] : DecidableEq (EnumMap α β)
  | ⟨x⟩, ⟨y⟩ => decidable_of_iff (x = y) (by rw [EnumMap.mk.injEq])

/-- The entry of an element. -/
def get (m : EnumMap α β) (a : α) : β :=
  m.entries[(index a).val]

/-- The table of a function. -/
def ofFn (f : α → β) : EnumMap α β :=
  ⟨Vector.ofFn fun i => f (element i)⟩

@[simp] theorem get_ofFn (f : α → β) (a : α) : (ofFn f).get a = f a := by
  simp [ofFn, get, element_index]

/-- Tables with the same entries are equal. -/
@[ext] theorem ext {m n : EnumMap α β} (h : ∀ a, m.get a = n.get a) : m = n := by
  cases m with
  | mk x =>
    cases n with
    | mk y =>
      congr 1
      apply Vector.ext
      intro i hi
      have hx := h (element ⟨i, hi⟩)
      simp only [get, index_element] at hx
      exact hx

instance [Inhabited β] : Inhabited (EnumMap α β) where
  default := ofFn fun _ => default

end EnumMap

end AsmCheck
