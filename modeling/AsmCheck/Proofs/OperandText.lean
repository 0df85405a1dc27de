import AsmCheck.Operand.Classify
import AsmCheck.Proofs.Numerals

/-! # Operands and their written form

    The written form of an operand is the text it was read from, except for
    numbers, characters and registers, which have one written form for several
    spellings.  Numbers and registers are read back from it.  So are characters,
    with a single exception: the backslash is written as it is, and between
    apostrophes it announces another character. -/

namespace AsmCheck

namespace Literal

/-! ## Characters -/

/-- A quoted character stands for itself, or a backslash and a letter for what it escapes. -/
theorem readQuoted_eq_some {body : List Char} {c : Char} :
    readQuoted body = some c ↔ body = [c] ∧ c ≠ '\\' ∨ ∃ e, body = ['\\', e] ∧ unescape e = c := by
  constructor
  · intro h
    rw [readQuoted.eq_def] at h
    split at h
    · split at h
      · cases h
      · next hc =>
        cases h
        exact Or.inl ⟨rfl, hc⟩
    · next b e =>
      split at h
      · next hb => exact Or.inr ⟨e, by rw [hb], Option.some.inj h⟩
      · cases h
    · cases h
  · rintro (⟨rfl, hc⟩ | ⟨e, rfl, rfl⟩)
    · exact if_neg hc
    · rfl

theorem readChar_eq_some {cs : List Char} {c : Char} :
    readChar cs = some c ↔ ∃ body, cs = '\x27' :: (body ++ ['\x27']) ∧ readQuoted body = some c := by
  constructor
  · intro h
    rw [readChar.eq_def] at h
    split at h
    · next cs =>
      split at h
      · next hlast =>
        obtain ⟨body, rfl⟩ := List.getLast?_eq_some_iff.mp hlast
        rw [List.dropLast_concat] at h
        exact ⟨body, rfl, h⟩
      · cases h
    · cases h
  · rintro ⟨body, rfl, h⟩
    rw [readChar, if_pos List.getLast?_concat, List.dropLast_concat]
    exact h

theorem readChar_writeChar (c : Char) : readChar (writeChar c) = readQuoted (writeQuoted c) := by
  rw [writeChar, List.cons_append, readChar]
  simp

/-- Every character but the backslash is read back as it was written. -/
theorem readQuoted_writeQuoted {c : Char} (h : c ≠ '\\') :
    readQuoted (writeQuoted c) = some c := by
  rw [writeQuoted.eq_def]
  split
  · rfl
  · rfl
  · rfl
  · rfl
  · exact if_neg h

end Literal

namespace Immediate

open Literal

/-! ## Immediate values -/

theorem read_number {cs : List Char} {n : Int} {radix : Radix}
    (h : readNumber cs = some (n, radix)) : read cs = some (.number n radix) := by
  rw [read, h]

theorem read_writeChar (c : Char) :
    read (writeChar c) = if c = '\\' then none else some (.character c) := by
  by_cases hc : c = '\\'
  · subst hc
    rfl
  · have hnumber : readNumber (writeChar c) = none := readNumber_eq_none (by decide) (by decide) _
    rw [if_neg hc, read, hnumber, readChar_writeChar, readQuoted_writeQuoted hc]

/-- A dollar sign is no part of an immediate. -/
theorem read_dollar (cs : List Char) : read ('$' :: cs) = none := by
  rw [read, readNumber_eq_none (by decide) (by decide)]
  rfl

/-- What is read is a number, a character or the name that the text is. -/
theorem read_cases {cs : List Char} {v : Immediate} (h : read cs = some v) :
    (∃ n radix, v = .number n radix ∧ readNumber cs = some (n, radix)) ∨
      (∃ c, v = .character c ∧ readChar cs = some c) ∨ v = .symbol (String.ofList cs) := by
  rw [read] at h
  split at h
  · next n radix hnumber =>
    cases h
    exact Or.inl ⟨n, radix, rfl, hnumber⟩
  · split at h
    · next c hchar =>
      cases h
      exact Or.inr (Or.inl ⟨c, rfl, hchar⟩)
    · split at h
      · cases h
        exact Or.inr (Or.inr rfl)
      · cases h

/-- An immediate that has been read is read again from its written form, unless it is the
    backslash. -/
theorem read_render {cs : List Char} {v : Immediate} (h : read cs = some v) :
    read v.render.toList = if v = .character '\\' then none else some v := by
  rcases read_cases h with ⟨n, radix, rfl, hnumber⟩ | ⟨c, rfl, -⟩ | rfl
  · rw [if_neg (by simp), render, String.toList_ofList]
    exact read_number (isWritable_of_readNumber hnumber).readNumber
  · rw [render, String.toList_ofList, read_writeChar]
    simp
  · rw [render, String.toList_ofList, h, if_neg (by simp)]

end Immediate

theorem Register.ofName?_name (r : Register) : Register.ofName? r.name.toList = some r := by
  cases r <;> decide

namespace MemoryRef

/-- A place keeps its text, and whether it is indirect. -/
theorem text_read (indirect : Bool) (cs : List Char) :
    (read indirect cs).1.text = String.ofList cs ∧ (read indirect cs).1.indirect = indirect := by
  rw [read]
  generalize readDisplacement (cs.takeWhile (· != '(')) = front
  obtain ⟨displacement, symbol, flags⟩ := front
  dsimp only
  split
  · exact ⟨rfl, rfl⟩
  · split <;> exact ⟨rfl, rfl⟩

/-- A reference to memory is written as it was read. -/
theorem render_read (indirect : Bool) (cs : List Char) :
    (read indirect cs).1.render.toList = if indirect then '*' :: cs else cs := by
  obtain ⟨htext, hindirect⟩ := text_read indirect cs
  rw [render, htext, hindirect]
  cases indirect <;> simp

end MemoryRef

namespace Operand

/-! ## Operands -/

/-- An operand without a dollar sign is a register, or it is written as it was read. -/
theorem readBody_cases (indirect : Bool) (body : List Char) {token : List Char}
    (htoken : token = if indirect then '*' :: body else body) :
    (∃ r, readBody indirect token body = (.register r, ∅)) ∨
      (readBody indirect token body).1.render.toList = token ∧
        ∀ v, (readBody indirect token body).1 ≠ .immediate v := by
  rw [readBody.eq_def]
  split
  · exact Or.inr ⟨String.toList_ofList, by simp⟩
  · split
    · exact Or.inr ⟨String.toList_ofList, by simp⟩
    · next name _ r _ =>
      cases indirect with
      | true => exact Or.inr ⟨by simp [render, MemoryRef.render, htoken], by simp⟩
      | false => exact Or.inl ⟨r, rfl⟩
  · refine Or.inr ⟨?_, by simp⟩
    rw [htoken]
    exact MemoryRef.render_read indirect body

theorem classify_dollar_some {cs : List Char} {v : Immediate} (h : Immediate.read cs = some v) :
    classify ('$' :: cs) = (.immediate v, ∅) := by
  rw [classify, h]

theorem classify_dollar_none {cs : List Char} (h : Immediate.read cs = none) :
    classify ('$' :: cs) = (.invalid (String.ofList ('$' :: cs)), {.incomplete}) := by
  rw [classify, h]

theorem classify_register (r : Register) : classify r.render.toList = (.register r, ∅) := by
  have htext : r.render.toList = '%' :: r.name.toList := by simp [Register.render]
  have hbody : classify ('%' :: r.name.toList) =
      readBody false ('%' :: r.name.toList) ('%' :: r.name.toList) := rfl
  rw [htext, hbody, readBody, Register.ofName?_name]
  rfl

/-- Without a dollar sign in front, an operand is read after an asterisk, or as it is. -/
theorem classify_eq_readBody {token : List Char} (h : token.head? ≠ some '$') :
    ∃ indirect body, classify token = readBody indirect token body ∧
      token = if indirect then '*' :: body else body := by
  rw [classify.eq_def]
  split
  · simp at h
  · next cs => exact ⟨true, cs, rfl, rfl⟩
  · exact ⟨false, token, rfl, rfl⟩

/-- Without any of the three signs in front, an operand is a place. -/
theorem classify_place {c : Char} (cs : List Char) (hdollar : c ≠ '$') (hstar : c ≠ '*')
    (hpercent : c ≠ '%') :
    classify (c :: cs) =
      (.memory (MemoryRef.read false (c :: cs)).1, (MemoryRef.read false (c :: cs)).2) := by
  rw [classify.eq_def]
  split
  · next heq =>
    cases heq
    exact absurd rfl hdollar
  · next heq =>
    cases heq
    exact absurd rfl hstar
  · rw [readBody.eq_def]
    split
    · next heq => cases heq
    · next heq =>
      cases heq
      exact absurd rfl hpercent
    · rfl

theorem toList_render_immediate (v : Immediate) :
    (Operand.immediate v).render.toList = '$' :: v.render.toList := by
  simp [render]

/-- An immediate that has been read is classified again from its written form, exactly if it is not
    the backslash. -/
theorem classify_render_immediate {cs : List Char} {v : Immediate}
    (h : Immediate.read cs = some v) :
    classify (Operand.immediate v).render.toList = (.immediate v, ∅) ↔ v ≠ .character '\\' := by
  have hagain := Immediate.read_render h
  rw [toList_render_immediate]
  by_cases hv : v = .character '\\'
  · rw [if_pos hv] at hagain
    rw [classify_dollar_none hagain]
    simp [hv]
  · rw [if_neg hv] at hagain
    rw [classify_dollar_some hagain]
    simp [hv]

/-- Without a dollar sign in front there is no immediate, and the written form is always classified
    the same. -/
theorem classify_render_of_head {token : List Char} (h : token.head? ≠ some '$') :
    classify (classify token).1.render.toList = classify token ∧
      ∀ v, (classify token).1 ≠ .immediate v := by
  obtain ⟨indirect, body, hbody, htoken⟩ := classify_eq_readBody h
  rcases readBody_cases indirect body htoken with ⟨r, hr⟩ | ⟨htext, hv⟩
  · rw [hbody, hr]
    exact ⟨classify_register r, by simp⟩
  · rw [← hbody] at htext hv
    exact ⟨by rw [htext], hv⟩

/-- Reading the written form of an operand again gives the same operand and the same flags, exactly
    if the operand is not the backslash. -/
theorem classify_render_iff (token : List Char) :
    classify (classify token).1.render.toList = classify token ↔
      (classify token).1 ≠ .immediate (.character '\\') := by
  by_cases hdollar : token.head? = some '$'
  · obtain ⟨cs, rfl⟩ := List.head?_eq_some_iff.mp hdollar
    cases hread : Immediate.read cs with
    | none =>
        rw [classify_dollar_none hread, render, String.toList_ofList, classify_dollar_none hread]
        simp
    | some v =>
        rw [classify_dollar_some hread, classify_render_immediate hread]
        simp
  · obtain ⟨hagain, hv⟩ := classify_render_of_head hdollar
    exact ⟨fun _ => hv _, fun _ => hagain⟩

/-- The exception does occur: an escaped backslash is read as one. -/
example : classify "$'\\\\'".toList = (.immediate (.character '\\'), ∅) := by
  decide

end Operand

end AsmCheck
