import AsmCheck.Literal
import Mathlib.Data.Nat.Digits.Defs

/-! # Numbers and their spellings

    `Spells` is the grammar of numbers without a sign in front, and
    `readNumber_eq_some` says that reading follows it: what is read is a sign
    and a spelling, and its value is what the digits denote, moved into the
    range of 64-bit integers.  Digits are added up in 128 bits, and a number
    that does not fit there is replaced by the greatest one that does; since
    this one is far beyond 64 bits, the replacement makes no difference to the
    end of the range that the sign leads to (`signed64_magnitude128`).

    Writing a number and reading it again gives the number and its spelling
    back, if the number is in the range and can be spelled that way at all:
    zero has no decimal spelling, because a leading zero announces octal
    digits.  Whatever has been read from a text is such a number
    (`isWritable_of_readNumber`). -/

namespace AsmCheck.Literal

/-! ## Digits -/

/-- The number that digits denote in a base. -/
def magnitude (base : Nat) (ds : List Char) : Nat :=
  ds.foldl (fun n c => base * n + digitValue c) 0

/-- The integer of a magnitude and a sign. -/
def signed (negative : Bool) (n : Nat) : Int :=
  if negative then -(n : Int) else n

theorem digitValue_digitChar : ∀ d < 16, digitValue d.digitChar = d := by decide

theorem isHexDigit_digitChar : ∀ d < 16, isHexDigit d.digitChar = true := by decide

theorem isDigit_digitChar : ∀ d < 10, d.digitChar.isDigit = true := by decide

theorem isOctalDigit_digitChar : ∀ d < 8, isOctalDigit d.digitChar = true := by decide

theorem digitChar_ne_zero : ∀ d < 16, d ≠ 0 → d.digitChar ≠ '0' := by decide

/-- The digits of all bases, by their codes. -/
theorem codes_of_isHexDigit {c : Char} (h : isHexDigit c = true) :
    48 ≤ c.toNat ∧ c.toNat ≤ 57 ∨ 97 ≤ c.toNat ∧ c.toNat ≤ 102 ∨ 65 ≤ c.toNat ∧ c.toNat ≤ 70 := by
  simp only [isHexDigit, Char.isDigit, Bool.or_eq_true, Bool.and_eq_true, decide_eq_true_eq,
    ge_iff_le, Char.le_def, UInt32.le_iff_toNat_le] at h
  exact or_assoc.mp h

theorem isHexDigit_of_isDigit {c : Char} (h : c.isDigit = true) : isHexDigit c = true := by
  rw [isHexDigit, h]
  rfl

/-- An octal digit is a hexadecimal one. -/
theorem isHexDigit_of_isOctalDigit {c : Char} (h : isOctalDigit c = true) :
    isHexDigit c = true := by
  refine isHexDigit_of_isDigit ?_
  simp only [isOctalDigit, Bool.and_eq_true, decide_eq_true_eq, Char.le_def] at h
  simp only [Char.isDigit, Bool.and_eq_true, decide_eq_true_eq, ge_iff_le]
  exact ⟨h.1, UInt32.le_trans h.2 (by decide)⟩

section Digits

variable {b : Nat}

/-- The digits of a number are built up by appending the last one. -/
theorem toDigits_induction {motive : Nat → List Char → Prop} (hb : 1 < b)
    (one : ∀ d < b, motive d [d.digitChar])
    (more : ∀ n d ds, n ≠ 0 → d < b → motive n ds → motive (b * n + d) (ds ++ [d.digitChar]))
    (n : Nat) : motive n (Nat.toDigits b n) := by
  induction n using Nat.strongRecOn with
  | ind n ih =>
      rw [Nat.toDigits_eq_if hb]
      split
      · next hlt => exact one n hlt
      · next hge =>
        have hdiv : 0 < n / b := Nat.div_pos (by omega) (by omega)
        have hmore := more (n / b) (n % b) _ (by omega) (Nat.mod_lt n (by omega))
          (ih _ (Nat.div_lt_self (by omega) hb))
        rwa [Nat.div_add_mod] at hmore

/-- One more digit at the end: the number so far counts once more by the base. -/
theorem magnitude_snoc (ds : List Char) (c : Char) :
    magnitude b (ds ++ [c]) = b * magnitude b ds + digitValue c := by
  simp [magnitude]

/-- The digits of a number denote that number. -/
theorem magnitude_toDigits (hb : 1 < b) (hle : b ≤ 16) (n : Nat) :
    magnitude b (Nat.toDigits b n) = n := by
  refine toDigits_induction (motive := fun n ds => magnitude b ds = n) hb ?_ ?_ n
  · intro d hd
    show b * 0 + digitValue d.digitChar = d
    rw [digitValue_digitChar d (by omega)]
    omega
  · intro n d ds _ hd ih
    rw [magnitude_snoc, ih, digitValue_digitChar d (by omega)]

/-- The digits of a number are digits of its base. -/
theorem all_toDigits {P : Char → Bool} (hb : 1 < b) (hP : ∀ d < b, P d.digitChar = true)
    (n : Nat) : (Nat.toDigits b n).all P = true := by
  refine toDigits_induction (motive := fun _ ds => ds.all P = true) hb ?_ ?_ n
  · intro d hd
    simp [hP d hd]
  · intro n d ds _ hd ih
    simp [ih, hP d hd]

/-- There are digits, and the first is no zero, unless the number is zero. -/
theorem exists_toDigits_eq_cons (hb : 1 < b) (hle : b ≤ 16) (n : Nat) :
    ∃ c cs, Nat.toDigits b n = c :: cs ∧ (n ≠ 0 → c ≠ '0') := by
  refine toDigits_induction (motive := fun n ds => ∃ c cs, ds = c :: cs ∧ (n ≠ 0 → c ≠ '0'))
    hb ?_ ?_ n
  · intro d hd
    exact ⟨_, _, rfl, digitChar_ne_zero d (by omega)⟩
  · rintro n d ds hn - ⟨c, cs, rfl, hc⟩
    exact ⟨c, cs ++ [d.digitChar], rfl, fun _ => hc hn⟩

/-- Reading on never makes a number smaller. -/
theorem le_foldl_digits (hb : 0 < b) (ds : List Char) (n : Nat) :
    n ≤ ds.foldl (fun n c => b * n + digitValue c) n := by
  induction ds generalizing n with
  | nil => exact Nat.le_refl n
  | cons c ds ih =>
      have hle : n ≤ b * n := Nat.le_mul_of_pos_left n hb
      exact Nat.le_trans (by omega) (ih (b * n + digitValue c))

/-- A number that does not start with a zero is positive. -/
theorem magnitude_pos (hb : 0 < b) {c : Char} (ds : List Char) (hc : c.isDigit = true)
    (hne : c ≠ '0') : 0 < magnitude b (c :: ds) := by
  have hvalue : 0 < digitValue c := by
    rw [digitValue, if_pos hc]
    have hge : '0'.toNat ≤ c.toNat := by
      simp only [Char.isDigit, Bool.and_eq_true, decide_eq_true_eq, ge_iff_le,
        UInt32.le_iff_toNat_le] at hc
      exact hc.1
    have hne' : c.toNat ≠ '0'.toNat := fun heq => hne (Char.toNat_inj.mp heq)
    omega
  have := le_foldl_digits hb ds (b * 0 + digitValue c)
  exact Nat.lt_of_lt_of_le (by omega) this

/-- A zero in front of digits adds nothing. -/
theorem magnitude_zero_cons (ds : List Char) : magnitude b ('0' :: ds) = magnitude b ds := by
  have hzero : digitValue '0' = 0 := rfl
  rw [magnitude, List.foldl_cons, hzero, Nat.mul_zero, Nat.add_zero, magnitude]

end Digits

/-! ## Numbers in 128 and in 64 bits -/

namespace Bounds

/-- A natural number that is not too large for 128 bits fits. -/
theorem narrow?_of_le {n : Nat} (h : (n : Int) ≤ int128.greatest) : int128.narrow? n = some ↑n := by
  have hleast : int128.least ≤ (n : Int) := Int.le_trans (by decide) (Int.natCast_nonneg n)
  rw [narrow?, if_pos ⟨hleast, h⟩]

/-- What is beyond the greatest integer of a range does not fit. -/
theorem narrow?_of_gt {r : Bounds} {n : Int} (h : r.greatest < n) : r.narrow? n = none :=
  if_neg fun hfits => absurd hfits.2 (Int.not_le.mpr h)

end Bounds

/-- Adding up digits in 128 bits fails exactly if the number itself does not fit: on the way to it
    the numbers only grow. -/
theorem accumulate?_eq {b : Nat} (hb : 0 < b) (ds : List Char) : ∀ {n : Nat},
    (n : Int) ≤ Bounds.int128.greatest →
      accumulate? b n ds =
        Bounds.int128.narrow? (ds.foldl (fun n c => b * n + digitValue c) n : Nat) := by
  induction ds with
  | nil =>
      intro n hn
      exact (Bounds.narrow?_of_le hn).symm
  | cons c ds ih =>
      intro n _
      have hgrows := le_foldl_digits hb ds (b * n + digitValue c)
      have hshift : (n : Int) * b = (b * n : Nat) := by
        rw [Int.natCast_mul, Int.mul_comm]
      rw [accumulate?, List.foldl_cons, hshift]
      by_cases hfits : ((b * n + digitValue c : Nat) : Int) ≤ Bounds.int128.greatest
      · rw [Bounds.narrow?_of_le (by omega), Option.bind_some, ← Int.natCast_add,
          Bounds.narrow?_of_le hfits, Option.bind_some]
        exact ih hfits
      · -- one of the two steps fails, and the number in the end is no smaller
        rw [Bounds.narrow?_of_gt (n := (List.foldl _ _ ds : Nat)) (by omega)]
        by_cases hshifted : ((b * n : Nat) : Int) ≤ Bounds.int128.greatest
        · rw [Bounds.narrow?_of_le hshifted, Option.bind_some, ← Int.natCast_add,
            Bounds.narrow?_of_gt (by omega)]
          rfl
        · rw [Bounds.narrow?_of_gt (by omega)]
          rfl

/-- What the digits denote, up to the greatest integer of 128 bits. -/
theorem magnitude128_eq {b : Nat} (hb : 0 < b) (ds : List Char) :
    magnitude128 b ds = min (magnitude b ds : Int) Bounds.int128.greatest := by
  have hread : accumulate? b 0 ds = Bounds.int128.narrow? (magnitude b ds) :=
    accumulate?_eq hb ds (n := 0) (by decide)
  rw [magnitude128, hread]
  by_cases hfits : (magnitude b ds : Int) ≤ Bounds.int128.greatest
  · rw [Bounds.narrow?_of_le hfits, Option.getD_some, Int.min_eq_left hfits]
  · have hgt := Int.not_le.mp hfits
    rw [Bounds.narrow?_of_gt hgt, Option.getD_none, Int.min_eq_right (Int.le_of_lt hgt)]

/-- An integer that does not fit in 64 bits may be replaced by the end of the range that it has
    left. -/
theorem getD_narrow?_int64 {n e : Int}
    (hlow : n < Bounds.int64.least → e = Bounds.int64.least)
    (hhigh : Bounds.int64.greatest < n → e = Bounds.int64.greatest) :
    (Bounds.int64.narrow? n).getD e = clamp n := by
  have hleast : Bounds.int64.least = -0x8000000000000000 := rfl
  have hgreatest : Bounds.int64.greatest = 0x7fffffffffffffff := rfl
  rw [hleast] at hlow
  rw [hgreatest] at hhigh
  rw [Bounds.narrow?, hleast, hgreatest, clamp]
  split
  · rw [Option.getD_some]
    omega
  · rw [Option.getD_none]
    omega

/-- A number that is not negative itself leaves the range on the side that the sign points to, so
    that the nearest 64-bit integer takes its place. -/
theorem signed64_eq_clamp (negative : Bool) {n : Int} (hn : 0 ≤ n) :
    signed64 negative n = clamp (if negative then -n else n) := by
  have hleast : Bounds.int64.least < 0 := by decide
  have hgreatest : 0 < Bounds.int64.greatest := by decide
  cases negative with
  | false =>
      show (Bounds.int64.narrow? n).getD Bounds.int64.greatest = clamp n
      exact getD_narrow?_int64 (by omega) fun _ => rfl
  | true =>
      show (Bounds.int64.narrow? (-n)).getD Bounds.int64.least = clamp (-n)
      exact getD_narrow?_int64 (fun _ => rfl) (by omega)

/-- What is read in 128 bits and then moved into 64 bits is the nearest 64-bit integer to what the
    digits and the sign denote. -/
theorem signed64_magnitude128 {b : Nat} (hb : 0 < b) (negative : Bool) (ds : List Char) :
    signed64 negative (magnitude128 b ds) = clamp (signed negative (magnitude b ds)) := by
  have hgreatest : Bounds.int128.greatest = 0x7fffffffffffffffffffffffffffffff := rfl
  rw [magnitude128_eq hb, signed64_eq_clamp negative (by omega), signed, clamp, clamp, hgreatest]
  -- the greatest integer of 128 bits is itself beyond 64 bits, on either side
  cases negative <;> simp only [Bool.false_eq_true, if_true, if_false] <;> omega

/-! ## The grammar of numbers -/

/-- A minus sign, or none. -/
def sign (minus : Bool) : List Char :=
  if minus then ['-'] else []

/-- Spellings of numbers without a sign in front: the text, whether it has a minus sign within, its
    digits and what they are. -/
inductive Spells : List Char → Bool → List Char → Radix → Prop where
  | decimal {c : Char} {ds : List Char} (first : c ≠ '0') (all : (c :: ds).all Char.isDigit = true) :
      Spells (c :: ds) false (c :: ds) .decimal
  | hex {x : Char} {ds : List Char} (minus : Bool) (mark : x = 'x' ∨ x = 'X') (some : ds ≠ [])
      (all : ds.all isHexDigit = true) : Spells ('0' :: x :: (sign minus ++ ds)) minus ds .hex
  | octal {ds : List Char} (all : ds.all isOctalDigit = true) :
      Spells ('0' :: ds) false ('0' :: ds) .octal

/-- A sign is split off from whatever does not start with one. -/
theorem splitMinus_sign {cs : List Char} (h : cs.head? ≠ some '-') (minus : Bool) :
    splitMinus (sign minus ++ cs) = (minus, cs) := by
  cases minus with
  | true => rfl
  | false =>
      show splitMinus cs = _
      rw [splitMinus.eq_def]
      split
      · simp at h
      · rfl

/-- Nothing gets lost when a sign is split off. -/
theorem sign_splitMinus (cs : List Char) : sign (splitMinus cs).1 ++ (splitMinus cs).2 = cs := by
  rw [splitMinus.eq_def]
  split <;> rfl

/-- Digits do not start with a sign. -/
theorem head?_ne_minus {P : Char → Bool} {cs : List Char} (hP : P '-' = false)
    (h : cs.all P = true) : cs.head? ≠ some '-' := by
  intro hhead
  rw [List.all_eq_true] at h
  rw [h '-' (List.mem_of_head? hhead)] at hP
  cases hP

/-- A spelling without its sign starts with a digit. -/
theorem Spells.head? {cs ds : List Char} {minus : Bool} {radix : Radix}
    (h : Spells cs minus ds radix) : cs.head? ≠ some '-' := by
  cases h with
  | decimal _ all => exact head?_ne_minus (by decide) all
  | hex => simp
  | octal => simp

/-- What starts with another digit than zero is decimal. -/
theorem readDigits_cons {c : Char} {ds : List Char} (hc : c ≠ '0') :
    readDigits (c :: ds) =
      if (c :: ds).all Char.isDigit then some (false, c :: ds, .decimal) else none := by
  rw [readDigits.eq_def]
  split
  · next heq =>
    cases heq
    exact absurd rfl hc
  · next heq =>
    cases heq
    exact absurd rfl hc
  · rfl

/-- After a zero, the letter x announces hexadecimal digits, with a sign of their own. -/
theorem readDigits_zero_hex {x : Char} (mark : x = 'x' ∨ x = 'X') (rest : List Char) :
    readDigits ('0' :: x :: rest) =
      if !(splitMinus rest).2.isEmpty && (splitMinus rest).2.all isHexDigit then
        some ((splitMinus rest).1, (splitMinus rest).2, .hex)
      else none := by
  rw [readDigits, if_pos mark]

/-- After a zero, anything else has to be octal. -/
theorem readDigits_zero_octal {x : Char} (mark : ¬ (x = 'x' ∨ x = 'X')) (rest : List Char) :
    readDigits ('0' :: x :: rest) =
      if (x :: rest).all isOctalDigit then some (false, '0' :: x :: rest, .octal) else none := by
  rw [readDigits, if_neg mark]

/-- Every spelling is read as what it spells, -/
theorem Spells.readDigits {cs ds : List Char} {minus : Bool} {radix : Radix}
    (h : Spells cs minus ds radix) : readDigits cs = some (minus, ds, radix) := by
  cases h with
  | decimal first all => rw [readDigits_cons first, if_pos all]
  | hex minus mark some all =>
      rw [readDigits_zero_hex mark, splitMinus_sign (head?_ne_minus (by decide) all)]
      simp only [all, List.isEmpty_eq_false_iff.mpr some]
      rfl
  | @octal ds all =>
      cases ds with
      | nil => rfl
      | cons c ds =>
          have hc : ¬ (c = 'x' ∨ c = 'X') := by
            rintro (rfl | rfl) <;> simp [isOctalDigit] at all
          rw [readDigits_zero_octal hc, if_pos all]

/-- and whatever is read is a spelling of it. -/
theorem spells_of_readDigits {cs ds : List Char} {minus : Bool} {radix : Radix}
    (h : readDigits cs = some (minus, ds, radix)) : Spells cs minus ds radix := by
  cases cs with
  | nil => cases h
  | cons c cs =>
      by_cases hc : c = '0'
      · subst hc
        cases cs with
        | nil =>
            cases h
            exact .octal rfl
        | cons x rest =>
            by_cases mark : x = 'x' ∨ x = 'X'
            · rw [readDigits_zero_hex mark] at h
              split at h
              · next hdigits =>
                rw [Bool.and_eq_true] at hdigits
                have hhex := Spells.hex (splitMinus rest).1 mark (by simpa using hdigits.1)
                  hdigits.2
                rw [sign_splitMinus] at hhex
                cases h
                exact hhex
              · cases h
            · rw [readDigits_zero_octal mark] at h
              split at h
              · next all =>
                cases h
                exact .octal all
              · cases h
      · rw [readDigits_cons hc] at h
        split at h
        · next all =>
          cases h
          exact .decimal hc all
        · cases h

/-- Every base has digits. -/
theorem base_pos (radix : Radix) : 0 < radix.base := by
  cases radix <;> decide

/-- A text is read as a number exactly when it is a sign and a spelling, and the value is what the
    digits denote, the nearest to it in the range. -/
theorem readNumber_eq_some {cs : List Char} {n : Int} {radix : Radix} :
    readNumber cs = some (n, radix) ↔
      ∃ front minus rest ds, cs = sign front ++ rest ∧ Spells rest minus ds radix ∧
        n = clamp (signed (front ^^ minus) (magnitude radix.base ds)) := by
  constructor
  · intro h
    obtain ⟨⟨minus, ds, radix'⟩, hread, heq⟩ := Option.map_eq_some_iff.mp h
    simp only [Prod.mk.injEq] at heq
    obtain ⟨rfl, rfl⟩ := heq
    exact ⟨_, minus, _, ds, (sign_splitMinus cs).symm, spells_of_readDigits hread,
      signed64_magnitude128 (base_pos radix') _ ds⟩
  · rintro ⟨front, minus, rest, ds, rfl, hspells, rfl⟩
    rw [readNumber, splitMinus_sign hspells.head?]
    show (readDigits rest).map _ = _
    rw [hspells.readDigits, ← signed64_magnitude128 (base_pos radix)]
    rfl

/-- A number starts with a minus sign or a digit. -/
theorem exists_head_of_readNumber {cs : List Char} {n : Int} {radix : Radix}
    (h : readNumber cs = some (n, radix)) :
    ∃ c rest, cs = c :: rest ∧ (c = '-' ∨ c.isDigit = true) := by
  obtain ⟨front, minus, rest, ds, rfl, hspells, -⟩ := readNumber_eq_some.mp h
  cases front with
  | true => exact ⟨'-', rest, rfl, Or.inl rfl⟩
  | false =>
      cases hspells with
      | decimal _ all =>
          rw [List.all_cons, Bool.and_eq_true] at all
          exact ⟨_, _, rfl, Or.inr all.1⟩
      | hex => exact ⟨_, _, rfl, Or.inr (by decide)⟩
      | octal => exact ⟨_, _, rfl, Or.inr (by decide)⟩

/-- What starts with neither a sign nor a digit is no number. -/
theorem readNumber_eq_none {c : Char} (hminus : c ≠ '-') (hdigit : c.isDigit = false)
    (cs : List Char) : readNumber (c :: cs) = none := by
  rw [Option.eq_none_iff_forall_ne_some]
  rintro ⟨n, radix⟩ hread
  obtain ⟨c', cs', heq, hc⟩ := exists_head_of_readNumber hread
  cases heq
  rcases hc with rfl | hc
  · exact hminus rfl
  · rw [hdigit] at hc
    cases hc

/-! ## Writing and reading again -/

/-- Numbers that a spelling can be written for. -/
structure IsWritable (n : Int) (radix : Radix) : Prop where
  inRange : clamp n = n
  nonzero : radix = .decimal → n ≠ 0

/-- What has been read can be written. -/
theorem isWritable_of_readNumber {cs : List Char} {n : Int} {radix : Radix}
    (h : readNumber cs = some (n, radix)) : IsWritable n radix := by
  obtain ⟨front, minus, rest, ds, -, hspells, rfl⟩ := readNumber_eq_some.mp h
  refine ⟨?_, ?_⟩
  · simp only [clamp]
    omega
  · rintro rfl
    cases hspells with
    | @decimal c cs first all =>
        rw [List.all_cons, Bool.and_eq_true] at all
        have hpos := magnitude_pos (b := 10) (by decide) cs all.1 first
        simp only [clamp, signed, Radix.base]
        split <;> omega

/-- A number is written with digits that denote it.  Only a decimal zero is left out: it is spelled
    like an octal one. -/
theorem spells_writeNat (radix : Radix) (n : Nat) (h : radix = .decimal → n ≠ 0) :
    ∃ ds, Spells (writeNat radix n) false ds radix ∧ magnitude radix.base ds = n := by
  cases radix with
  | decimal =>
      obtain ⟨c, cs, hcons, hc⟩ := exists_toDigits_eq_cons (b := 10) (by decide) (by decide) n
      refine ⟨Nat.toDigits 10 n, ?_, magnitude_toDigits (by decide) (by decide) n⟩
      have hall := all_toDigits (b := 10) (by decide) isDigit_digitChar n
      show Spells (Nat.toDigits 10 n) false (Nat.toDigits 10 n) .decimal
      rw [hcons] at hall ⊢
      exact .decimal (hc (h rfl)) hall
  | hex =>
      obtain ⟨c, cs, hcons, -⟩ := exists_toDigits_eq_cons (b := 16) (by decide) (by decide) n
      have hne : Nat.toDigits 16 n ≠ [] := by simp [hcons]
      exact ⟨Nat.toDigits 16 n,
        .hex false (Or.inl rfl) hne (all_toDigits (by decide) isHexDigit_digitChar n),
        magnitude_toDigits (by decide) (by decide) n⟩
  | octal =>
      cases n with
      | zero => exact ⟨['0'], .octal rfl, rfl⟩
      | succ n =>
          refine ⟨'0' :: Nat.toDigits 8 (n + 1),
            .octal (all_toDigits (by decide) isOctalDigit_digitChar (n + 1)), ?_⟩
          rw [magnitude_zero_cons]
          exact magnitude_toDigits (by decide) (by decide) (n + 1)

/-- A number is written as its sign and its absolute value. -/
theorem writeNumber_eq (radix : Radix) (n : Int) :
    writeNumber radix n = sign (decide (n < 0)) ++ writeNat radix n.natAbs := by
  rw [writeNumber]
  by_cases hn : n < 0
  · simp [hn, sign]
  · simp [hn, sign]

theorem signed_natAbs (n : Int) : signed (decide (n < 0)) n.natAbs = n := by
  rw [signed]
  by_cases hn : n < 0
  · rw [if_pos (decide_eq_true hn)]
    omega
  · rw [if_neg (by simpa using hn)]
    omega

/-- A number that can be written is read again with its spelling. -/
theorem IsWritable.readNumber {n : Int} {radix : Radix} (h : IsWritable n radix) :
    readNumber (writeNumber radix n) = some (n, radix) := by
  have hnonzero : radix = .decimal → n.natAbs ≠ 0 := fun hradix =>
    Int.natAbs_ne_zero.mpr (h.nonzero hradix)
  obtain ⟨ds, hspells, hds⟩ := spells_writeNat radix n.natAbs hnonzero
  refine readNumber_eq_some.mpr
    ⟨_, false, _, ds, writeNumber_eq radix n, hspells, ?_⟩
  rw [hds, Bool.xor_false, signed_natAbs, h.inRange]

end AsmCheck.Literal
