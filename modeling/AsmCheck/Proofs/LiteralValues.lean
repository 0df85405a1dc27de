import AsmCheck.Proofs.OperandText

/-! # What literals denote

    A number of any length denotes an integer: its digits count with the
    powers of the base, and every minus sign negates once.  `Denotes` says so
    of the text alone, without a limit.  What is read is the nearest 64-bit
    integer (`readNumber_eq_some_iff`), and a text that denotes nothing is not
    read as a number.

    `Means` adds the characters, which stand for their codes.  Immediates that
    mean no number are the names of labels (`exists_value_read`). -/

namespace AsmCheck

namespace Literal

/-! ## Digits -/

/-- The digits in the order of their values, with small letters. -/
def smallDigits : List Char :=
  "0123456789abcdef".toList

/-- The digits in the order of their values, with capital letters. -/
def capitalDigits : List Char :=
  "0123456789ABCDEF".toList

/-- The value of a digit is its place in the order of digits. -/
def HasValue (c : Char) (v : Nat) : Prop :=
  smallDigits[v]? = some c ∨ capitalDigits[v]? = some c

instance (c : Char) (v : Nat) : Decidable (HasValue c v) :=
  inferInstanceAs (Decidable (_ ∨ _))

/-- Digits in a base, with the number that they denote: the last digit counts by itself, the one
    before it with the base, and so on through the powers of the base. -/
def DigitsDenote (b : Nat) (ds : List Char) (n : Nat) : Prop :=
  ∃ vs : List Nat, List.Forall₂ (fun c v => v < b ∧ HasValue c v) ds vs ∧
    n = Nat.ofDigits b vs.reverse

/-- What the reader makes of a digit: its place, and the bases that it is a digit in. -/
theorem classes_of_isHexDigit {c : Char} (h : isHexDigit c = true) :
    HasValue c (digitValue c) ∧ digitValue c < 16 ∧ (c.isDigit = true ↔ digitValue c < 10) ∧
      (isOctalDigit c = true ↔ digitValue c < 8) := by
  have hascii : ∀ n < 128, isHexDigit (Char.ofNat n) = true →
      HasValue (Char.ofNat n) (digitValue (Char.ofNat n)) ∧ digitValue (Char.ofNat n) < 16 ∧
        ((Char.ofNat n).isDigit = true ↔ digitValue (Char.ofNat n) < 10) ∧
        (isOctalDigit (Char.ofNat n) = true ↔ digitValue (Char.ofNat n) < 8) := by
    decide +kernel
  have hcodes := codes_of_isHexDigit h
  have hc := hascii c.toNat (by omega)
  rw [Char.ofNat_toNat] at hc
  exact hc h

theorem hasValue_iff {c : Char} {v : Nat} :
    HasValue c v ↔ isHexDigit c = true ∧ digitValue c = v := by
  have hplaces : ∀ ds ∈ [smallDigits, capitalDigits], ds.length = 16 ∧
      ∀ v < 16, (ds[v]?.all fun c => isHexDigit c && digitValue c == v) = true := by
    decide +kernel
  have hplace : ∀ ds ∈ [smallDigits, capitalDigits], ds[v]? = some c →
      isHexDigit c = true ∧ digitValue c = v := by
    intro ds hds hv
    obtain ⟨hlength, hall⟩ := hplaces ds hds
    have hlt := (List.getElem?_eq_some_iff.mp hv).1
    have hc := hall v (hlength ▸ hlt)
    rw [hv, Option.all_some, Bool.and_eq_true, beq_iff_eq] at hc
    exact hc
  constructor
  · rintro (hsmall | hcapital)
    · exact hplace smallDigits (by simp) hsmall
    · exact hplace capitalDigits (by simp) hcapital
  · rintro ⟨hhex, rfl⟩
    exact (classes_of_isHexDigit hhex).1

/-- A test that is passed by the digits of a base and by nothing else. -/
def TestsDigits (P : Char → Bool) (b : Nat) : Prop :=
  ∀ c v, v < b ∧ HasValue c v ↔ P c = true ∧ digitValue c = v

theorem testsDigits_of_lt {P : Char → Bool} {b : Nat}
    (hhex : ∀ {c}, P c = true → isHexDigit c = true)
    (hlt : ∀ {c}, isHexDigit c = true → (P c = true ↔ digitValue c < b)) : TestsDigits P b := by
  intro c v
  rw [hasValue_iff]
  constructor
  · rintro ⟨hv, hc, rfl⟩
    exact ⟨(hlt hc).mpr hv, rfl⟩
  · rintro ⟨hP, rfl⟩
    exact ⟨(hlt (hhex hP)).mp hP, hhex hP, rfl⟩

theorem testsDigits_decimal : TestsDigits Char.isDigit 10 :=
  testsDigits_of_lt isHexDigit_of_isDigit fun hc => (classes_of_isHexDigit hc).2.2.1

theorem testsDigits_octal : TestsDigits isOctalDigit 8 :=
  testsDigits_of_lt isHexDigit_of_isOctalDigit fun hc => (classes_of_isHexDigit hc).2.2.2

theorem testsDigits_hex : TestsDigits isHexDigit 16 :=
  testsDigits_of_lt id fun hc => iff_of_true hc (classes_of_isHexDigit hc).2.1

theorem forall₂_hasValue {P : Char → Bool} {b : Nat} (h : TestsDigits P b) {ds : List Char} :
    ∀ {vs : List Nat}, List.Forall₂ (fun c v => v < b ∧ HasValue c v) ds vs ↔
      ds.all P = true ∧ vs = ds.map digitValue := by
  induction ds with
  | nil =>
      intro vs
      constructor
      · intro hvs
        cases hvs
        exact ⟨rfl, rfl⟩
      · rintro ⟨-, rfl⟩
        exact .nil
  | cons c ds ih =>
      intro vs
      rw [List.all_cons, Bool.and_eq_true]
      constructor
      · intro hvs
        cases hvs with
        | cons hc hds =>
            obtain ⟨hP, rfl⟩ := (h _ _).mp hc
            obtain ⟨hall, rfl⟩ := ih.mp hds
            exact ⟨⟨hP, hall⟩, rfl⟩
      · rintro ⟨⟨hP, hall⟩, rfl⟩
        exact .cons ((h _ _).mpr ⟨hP, rfl⟩) (ih.mpr ⟨hall, rfl⟩)

/-- Adding up digit by digit from the front gives what the powers of the base do. -/
theorem ofDigits_digitValue (b : Nat) (ds : List Char) :
    Nat.ofDigits b (ds.map digitValue).reverse = magnitude b ds := by
  rw [Nat.ofDigits_eq_foldr, List.foldr_reverse, List.foldl_map, magnitude]
  congr
  funext n c
  exact Nat.add_comm ..

/-- Digits denote a number in a base exactly if all of them are digits of the base and the number is
    theirs. -/
theorem digitsDenote_iff {P : Char → Bool} {b : Nat} (h : TestsDigits P b) {ds : List Char}
    {n : Nat} : DigitsDenote b ds n ↔ ds.all P = true ∧ n = magnitude b ds := by
  constructor
  · rintro ⟨vs, hvs, rfl⟩
    obtain ⟨hall, rfl⟩ := (forall₂_hasValue h).mp hvs
    exact ⟨hall, ofDigits_digitValue b ds⟩
  · rintro ⟨hall, rfl⟩
    exact ⟨_, (forall₂_hasValue h).mpr ⟨hall, rfl⟩, (ofDigits_digitValue b ds).symm⟩

/-! ## Numbers -/

/-- What a minus sign, or none, makes of an integer. -/
def negate (minus : Bool) (m : Int) : Int :=
  if minus then -m else m

/-- The texts that denote integers, with how they are spelled: an optional minus sign and then
    hexadecimal digits after their mark, which another minus sign may follow, or octal digits after a
    zero, or decimal digits of which the first is no zero. -/
inductive Denotes : List Char → Int → Radix → Prop where
  | hex (front minus : Bool) {x : Char} {ds : List Char} {n : Nat} (mark : x = 'x' ∨ x = 'X')
      (some : ds ≠ []) (digits : DigitsDenote 16 ds n) :
      Denotes (sign front ++ '0' :: x :: (sign minus ++ ds)) (negate front (negate minus n)) .hex
  | octal (front : Bool) {ds : List Char} {n : Nat} (digits : DigitsDenote 8 ds n) :
      Denotes (sign front ++ '0' :: ds) (negate front n) .octal
  | decimal (front : Bool) {c : Char} {ds : List Char} {n : Nat} (first : c ≠ '0')
      (digits : DigitsDenote 10 (c :: ds) n) :
      Denotes (sign front ++ c :: ds) (negate front n) .decimal

theorem signed_xor (front minus : Bool) (n : Nat) :
    signed (front ^^ minus) n = negate front (negate minus n) := by
  cases front <;> cases minus <;> simp [signed, negate]

/-- The texts that denote integers are those that the reader takes for a sign and a spelling. -/
theorem denotes_iff {cs : List Char} {m : Int} {radix : Radix} :
    Denotes cs m radix ↔ ∃ front minus rest ds, cs = sign front ++ rest ∧
      Spells rest minus ds radix ∧ m = signed (front ^^ minus) (magnitude radix.base ds) := by
  constructor
  · intro h
    cases h with
    | hex front minus mark some digits =>
        obtain ⟨hall, rfl⟩ := (digitsDenote_iff testsDigits_hex).mp digits
        exact ⟨front, minus, _, _, rfl, .hex minus mark some hall, (signed_xor ..).symm⟩
    | octal front digits =>
        obtain ⟨hall, rfl⟩ := (digitsDenote_iff testsDigits_octal).mp digits
        exact ⟨front, false, _, _, rfl, .octal hall, (signed_xor front false _).symm⟩
    | decimal front first digits =>
        obtain ⟨hall, rfl⟩ := (digitsDenote_iff testsDigits_decimal).mp digits
        exact ⟨front, false, _, _, rfl, .decimal first hall, (signed_xor front false _).symm⟩
  · rintro ⟨front, minus, rest, ds, rfl, hspells, rfl⟩
    rw [signed_xor]
    cases hspells with
    | decimal first all =>
        exact .decimal front first ((digitsDenote_iff testsDigits_decimal).mpr ⟨all, rfl⟩)
    | hex _ mark some all =>
        exact .hex front minus mark some ((digitsDenote_iff testsDigits_hex).mpr ⟨all, rfl⟩)
    | octal all => exact .octal front ((digitsDenote_iff testsDigits_octal).mpr ⟨all, rfl⟩)

/-- A text denotes no more than one integer, in no more than one spelling. -/
theorem Denotes.unique {cs : List Char} {m m' : Int} {radix radix' : Radix}
    (h : Denotes cs m radix) (h' : Denotes cs m' radix') : m' = m ∧ radix' = radix := by
  obtain ⟨front, minus, rest, ds, rfl, hspells, rfl⟩ := denotes_iff.mp h
  obtain ⟨front', minus', rest', ds', htext, hspells', rfl⟩ := denotes_iff.mp h'
  have hsplit : (front, rest) = (front', rest') := by
    rw [← splitMinus_sign hspells.head?, htext, splitMinus_sign hspells'.head?]
  cases hsplit
  have hread := hspells.readDigits.symm.trans hspells'.readDigits
  cases hread
  exact ⟨rfl, rfl⟩

/-- What is read of a number is the nearest 64-bit integer to what it denotes. -/
theorem readNumber_eq_some_iff {cs : List Char} {n : Int} {radix : Radix} :
    readNumber cs = some (n, radix) ↔ ∃ m, Denotes cs m radix ∧ n = clamp m := by
  rw [readNumber_eq_some]
  constructor
  · rintro ⟨front, minus, rest, ds, hcs, hspells, rfl⟩
    exact ⟨_, denotes_iff.mpr ⟨front, minus, rest, ds, hcs, hspells, rfl⟩, rfl⟩
  · rintro ⟨m, hm, rfl⟩
    obtain ⟨front, minus, rest, ds, hcs, hspells, rfl⟩ := denotes_iff.mp hm
    exact ⟨front, minus, rest, ds, hcs, hspells, rfl⟩

/-- Numbers are read exactly.  A text is read as a number if and only if it denotes an integer, which
    is then the only one, whatever its length; what is read is its spelling, and the integer itself
    moved into the range of 64-bit integers. -/
theorem readNumber_exact (cs : List Char) :
    ((readNumber cs).isSome = true ↔ ∃ m radix, Denotes cs m radix) ∧
      ∀ m radix, Denotes cs m radix →
        readNumber cs = some (max (-2 ^ 63) (min m (2 ^ 63 - 1)), radix) ∧
          ∀ m' radix', Denotes cs m' radix' → m' = m ∧ radix' = radix := by
  refine ⟨⟨fun h => ?_, ?_⟩, fun m radix h => ⟨?_, fun m' radix' h' => h.unique h'⟩⟩
  · obtain ⟨⟨n, radix⟩, hread⟩ := Option.isSome_iff_exists.mp h
    obtain ⟨m, hm, -⟩ := readNumber_eq_some_iff.mp hread
    exact ⟨m, radix, hm⟩
  · rintro ⟨m, radix, h⟩
    rw [readNumber_eq_some_iff.mpr ⟨m, h, rfl⟩]
    rfl
  · exact readNumber_eq_some_iff.mpr ⟨m, h, rfl⟩

/-- Thirty-four hexadecimal digits between two minus signs and the end of the text. -/
def longHex : List Char :=
  '-' :: '0' :: 'X' :: '-' :: List.replicate 34 'f'

/-- They denote more than 128 bits hold, and the greatest 64-bit integer is read. -/
theorem longHex_exact :
    Denotes longHex (2 ^ 136 - 1) .hex ∧ readNumber longHex = some (2 ^ 63 - 1, .hex) := by
  have hdigits : DigitsDenote 16 (List.replicate 34 'f') (2 ^ 136 - 1) :=
    (digitsDenote_iff testsDigits_hex).mpr ⟨by decide, by decide +kernel⟩
  have hvalue : negate true (negate true ((2 ^ 136 - 1 : Nat) : Int)) = 2 ^ 136 - 1 := by
    decide +kernel
  have hdenotes : Denotes longHex (2 ^ 136 - 1) .hex :=
    hvalue ▸ Denotes.hex true true (Or.inr rfl) (by decide) hdigits
  exact ⟨hdenotes, ((readNumber_exact longHex).2 _ _ hdenotes).1⟩

/-! ## Numbers and characters -/

/-- The texts that mean a number: those that denote an integer, and characters between apostrophes,
    with or without a backslash in front, which mean their codes. -/
inductive Means : List Char → Int → Prop where
  | number {cs : List Char} {m : Int} {radix : Radix} (denotes : Denotes cs m radix) : Means cs m
  | character {c : Char} (plain : c ≠ '\\') : Means ['\x27', c, '\x27'] c.toNat
  | escaped (e : Char) : Means ['\x27', '\\', e, '\x27'] (unescape e).toNat

theorem means_of_readChar {cs : List Char} {c : Char} (h : readChar cs = some c) :
    Means cs c.toNat := by
  obtain ⟨body, rfl, hbody⟩ := readChar_eq_some.mp h
  rcases readQuoted_eq_some.mp hbody with ⟨rfl, hc⟩ | ⟨e, rfl, rfl⟩
  · exact .character hc
  · exact .escaped e

/-- Codes of characters are far from the limits. -/
theorem clamp_toNat (c : Char) : clamp c.toNat = c.toNat := by
  have hlt : c.toNat < 2 ^ 32 := c.val.toNat_lt
  rw [clamp]
  omega

end Literal

namespace Immediate

open Literal

theorem read_character {cs : List Char} {c : Char} (h : readChar ('\x27' :: cs) = some c) :
    read ('\x27' :: cs) = some (.character c) := by
  rw [read, readNumber_eq_none (by decide) (by decide), h]

/-- The immediates that stand for an integer are the texts that mean a number, and they stand for the
    nearest 64-bit integer. -/
theorem exists_value_read {cs : List Char} {n : Int} :
    (∃ v, read cs = some v ∧ v.value? = some n) ↔ ∃ m, Means cs m ∧ n = clamp m := by
  constructor
  · rintro ⟨v, hread, hvalue⟩
    rcases read_cases hread with ⟨n', radix, rfl, hnumber⟩ | ⟨c, rfl, hchar⟩ | rfl
    · obtain rfl : n' = n := Option.some.inj hvalue
      obtain ⟨m, hm, hclamp⟩ := readNumber_eq_some_iff.mp hnumber
      exact ⟨m, .number hm, hclamp⟩
    · obtain rfl : (c.toNat : Int) = n := Option.some.inj hvalue
      exact ⟨c.toNat, means_of_readChar hchar, (clamp_toNat c).symm⟩
    · cases hvalue
  · rintro ⟨m, hm, rfl⟩
    cases hm with
    | number hdenotes =>
        exact ⟨_, read_number (readNumber_eq_some_iff.mpr ⟨m, hdenotes, rfl⟩), rfl⟩
    | @character c hc =>
        refine ⟨.character c, read_character ?_, (congrArg some (clamp_toNat c)).symm⟩
        exact readChar_eq_some.mpr ⟨[c], rfl, readQuoted_eq_some.mpr (Or.inl ⟨rfl, hc⟩)⟩
    | escaped e =>
        refine ⟨.character (unescape e), read_character ?_, (congrArg some (clamp_toNat _)).symm⟩
        exact readChar_eq_some.mpr ⟨['\\', e], rfl, rfl⟩

end Immediate

end AsmCheck
