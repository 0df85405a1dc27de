import AsmCheck.Proofs.StringSizes
import AsmCheck.Proofs.Tokens
import Mathlib.Algebra.Group.Nat.Defs

/-! # Sizes of strings stay within the text

    No character of a string stores more bytes than it takes in the text, and an
    escape stores fewer, so a string stores no more bytes than it is long
    (`stringSize_le`).  Its terminator is made up for by what keeps it apart
    from the token before it, which is at least one byte (`Joined.padded_le`).
    Hence a string directive is no larger than its text, and in 32 bits none of
    the additions that make up its size overflows unless the text has 2^32
    bytes (`string_sizes_fit`). -/

namespace AsmCheck

open Source

/-! ## Bytes of text -/

namespace Text

/-- How many bytes characters take in UTF-8. -/
def utf8Length : List Char → Nat
  | [] => 0
  | c :: cs => c.utf8Size + utf8Length cs

theorem utf8ByteSize_ofList (cs : List Char) :
    (String.ofList cs).utf8ByteSize = utf8Length cs := by
  induction cs with
  | nil => rfl
  | cons c cs ih =>
      rw [String.ofList_cons, String.utf8ByteSize_append, String.utf8ByteSize_singleton, ih,
        utf8Length]

/-- Byte lengths add up. -/
theorem utf8Length_append (cs ds : List Char) :
    utf8Length (cs ++ ds) = utf8Length cs + utf8Length ds := by
  induction cs with
  | nil => exact (Nat.zero_add _).symm
  | cons c cs ih => rw [List.cons_append, utf8Length, ih, utf8Length, Nat.add_assoc]

/-- What is left of a text is no longer than the text. -/
theorem utf8Length_le {cs ds : List Char} (h : cs.Sublist ds) : utf8Length cs ≤ utf8Length ds := by
  induction h with
  | slnil => exact Nat.le_refl 0
  | cons c _ ih => exact Nat.le_trans ih (Nat.le_add_left ..)
  | cons_cons c _ ih => exact Nat.add_le_add_left ih _

theorem utf8Length_pos {cs : List Char} (h : cs ≠ []) : 0 < utf8Length cs := by
  cases cs with
  | nil => exact absurd rfl h
  | cons c cs => exact Nat.lt_of_lt_of_le c.utf8Size_pos (Nat.le_add_right ..)

/-- How many bytes words take if each has one byte in front of it. -/
def padded (ws : List (List Char)) : Nat :=
  ws.foldr (fun w n => utf8Length w + 1 + n) 0

end Text

open Text

/-- Between two words stands at least one byte. -/
theorem Source.Joined.padded_le {ws : List (List Char)} {text : List Char} (h : Joined ws text) :
    padded ws.tail + utf8Length (ws.head?.getD []) ≤ utf8Length text := by
  induction h with
  | nil => exact Nat.le_refl 0
  | single w => exact Nat.le_of_eq (Nat.zero_add _)
  | @cons w w' gap rest ws some _ _ ih =>
      have hgap := utf8Length_pos some
      rw [utf8Length_append, utf8Length_append]
      dsimp only [List.tail_cons, List.head?_cons, Option.getD_some, padded, List.foldr_cons] at ih ⊢
      omega

/-- The tokens of a text, one more byte for each of them, fit into the text. -/
theorem padded_tokens_le (text : List Char) : padded (tokens text).tail ≤ utf8Length text := by
  obtain ⟨front, body, back, htext, -, -, hjoined⟩ := exists_joined_tokensFrom text {} []
  have htext : text = front ++ (body ++ back) := htext
  have hbody := hjoined.padded_le
  rw [htext, utf8Length_append, utf8Length_append, ← htext]
  show padded (tokensFrom {} [] text).tail ≤ _
  omega

/-! ## Bytes of strings -/

namespace Statement

/-- An octal escape uses up characters of the text, -/
theorem dropOctal_sublist (n : Nat) (cs : List Char) : (dropOctal n cs).Sublist cs := by
  fun_induction dropOctal n cs with
  | case1 cs => exact .refl cs
  | case2 => exact .refl []
  | case3 n c cs _ ih => exact ih.cons c
  | case4 n c cs => exact .refl _

/-- and so does any other escape. -/
theorem afterEscape_sublist (cs : List Char) : (afterEscape cs).Sublist cs := by
  fun_cases afterEscape cs with
  | case1 => exact .refl []
  | case2 c cs => exact (dropOctal_sublist 2 cs).cons c
  | case3 c cs => exact List.sublist_cons_self c cs

theorem dropQuotes_sublist (cs : List Char) : (dropQuotes cs).Sublist cs := by
  have hend : ∀ body : List Char, body.Sublist cs →
      (if body.getLast? = some '"' then body.dropLast else body).Sublist cs := by
    intro body hbody
    split
    · exact (List.dropLast_sublist body).trans hbody
    · exact hbody
  unfold dropQuotes
  refine hend _ ?_
  split
  · exact List.sublist_cons_self ..
  · exact .refl _

/-- A string stores no more bytes than its text has. -/
theorem bytesOf_le (cs : List Char) : bytesOf cs ≤ utf8Length cs := by
  fun_induction bytesOf cs with
  | case1 => exact Nat.le_refl 0
  | case2 cs ih =>
      have hrest := utf8Length_le (afterEscape_sublist cs)
      have hbackslash : utf8Length ('\\' :: cs) = 1 + utf8Length cs := rfl
      omega
  | case3 c cs _ ih =>
      rw [utf8Length]
      omega

/-- A string stores no more bytes than it is long. -/
theorem stringSize_le (literal : List Char) : stringSize literal ≤ utf8Length literal :=
  Nat.le_trans (bytesOf_le _) (utf8Length_le (dropQuotes_sublist literal))

/-! ## String directives -/

/-- With their terminators, strings store no more bytes than their tokens have with one more for
    each. -/
theorem totalSize_le {terminator : Nat} (hterminator : terminator ≤ 1) (ws : List (List Char)) :
    totalSize terminator (ws.map String.ofList) ≤ padded ws := by
  induction ws with
  | nil => exact Nat.le_refl 0
  | cons w ws ih =>
      have hw := stringSize_le w
      rw [List.map_cons]
      show stringSize (String.ofList w).toList + terminator + totalSize terminator _ ≤
        utf8Length w + 1 + padded ws
      rw [String.toList_ofList]
      omega

/-- The sizes of strings do not overflow.  A string stores no more bytes than its text has.  The
    strings of a string directive, with their terminators, take no more bytes than the text of the
    directive has, and this is the directive's size.  So if the text has fewer than 2^32 bytes, none
    of the additions that lead to these sizes overflows in 32 bits. -/
theorem string_sizes_fit :
    (∀ literal : List Char, stringSize literal ≤ (String.ofList literal).utf8ByteSize ∧
        ((String.ofList literal).utf8ByteSize < 2 ^ 32 →
          stringSize32? literal = some (stringSize literal))) ∧
      ∀ (text : List Char) (line : Nat), (parse text line).kind = .string →
        (parse text line).strings = (tokens text).tail.map String.ofList ∧
        totalSize (parse text line).terminatorOf (parse text line).strings ≤
          (String.ofList text).utf8ByteSize ∧
        (parse text line).size =
          totalSize (parse text line).terminatorOf (parse text line).strings ∧
        ((String.ofList text).utf8ByteSize < 2 ^ 32 →
          totalSize32? (parse text line).terminatorOf 0 (parse text line).strings =
            some (parse text line).size) := by
  refine ⟨?_, ?_⟩
  · intro literal
    rw [utf8ByteSize_ofList]
    have hle := stringSize_le literal
    refine ⟨hle, fun hlt => ?_⟩
    rw [stringSize32?_eq, add32?_of_lt (by omega), Nat.zero_add]
  · intro text line hkind
    obtain ⟨hstrings, hsize⟩ := (isRead_parse text line).size_eq hkind
    rw [toList_text_parse] at hstrings
    have hterminator : (parse text line).terminatorOf ≤ 1 := by
      rw [terminatorOf]
      split <;> decide
    have hle : totalSize (parse text line).terminatorOf (parse text line).strings ≤
        utf8Length text := by
      rw [hstrings]
      exact Nat.le_trans (totalSize_le hterminator _) (padded_tokens_le text)
    rw [utf8ByteSize_ofList]
    refine ⟨hstrings, hle, hsize, fun hlt => ?_⟩
    rw [totalSize32?_eq _ _ (by decide), add32?_of_lt (by omega), Nat.zero_add, hsize]

/-- An empty string, one that is made up of two, one of escapes, and one that is not closed. -/
def mixedStrings : List Char :=
  ".string \"\" \"a\"\"b\" \"\\101\\\\\" \"é".toList

/-- Without the quotes at their ends they take none, four, two and two bytes. -/
theorem mixedStrings_fit :
    (parse mixedStrings 0).kind = .string ∧ (String.ofList mixedStrings).utf8ByteSize = 30 ∧
      (parse mixedStrings 0).strings.map (fun s => stringSize s.toList) = [0, 4, 2, 2] ∧
      totalSize 1 (parse mixedStrings 0).strings ≤ (String.ofList mixedStrings).utf8ByteSize ∧
      totalSize32? 1 0 (parse mixedStrings 0).strings = some 12 := by
  obtain ⟨hkind, hterminator, hsizes, htotal, hlength⟩ :
      (parse mixedStrings 0).kind = .string ∧ (parse mixedStrings 0).terminatorOf = 1 ∧
        (parse mixedStrings 0).strings.map (fun s => stringSize s.toList) = [0, 4, 2, 2] ∧
        (parse mixedStrings 0).size = 12 ∧ utf8Length mixedStrings = 30 := by
    decide +kernel
  have hbytes := (utf8ByteSize_ofList mixedStrings).trans hlength
  obtain ⟨-, hle, -, hchecked⟩ := string_sizes_fit.2 mixedStrings 0 hkind
  rw [hterminator] at hle hchecked
  refine ⟨hkind, hbytes, hsizes, hle, (hchecked ?_).trans (congrArg some htotal)⟩
  rw [hbytes]
  decide

end Statement

end AsmCheck
