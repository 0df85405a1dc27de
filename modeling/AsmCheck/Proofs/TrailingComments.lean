import AsmCheck.Proofs.LogicalLines

/-! # Comments at the end of a line

    A hash sign after a blank starts a comment, wherever it stands outside
    strings and block comments, and nothing in the comment is looked at.  So a
    comment that is put at the end of a line leaves no trace in what is read
    from the line (`trailing_comment_invisible`): it adds at most the blank in
    front of it (`stripFrom_append_comment`).  For this the removal of comments
    has to know where strings end; it follows the same automaton as the test
    for open strings, applied to the text that it keeps. -/

namespace AsmCheck

open AsmCheck.Text AsmCheck.Source

namespace Source

/-- Where the removal of comments stands with respect to strings. -/
def CommentState.quote : CommentState → Quote
  | .block => .outside
  | .code quote _ => quote

/-! ## One character at a time -/

theorem stripFrom_block_cons {d : Char} {cs : List Char}
    (h : ∀ rest, d = '*' → cs = '/' :: rest → False) :
    stripFrom .block (d :: cs) = stripFrom .block cs := by
  rw [stripFrom]
  exact h

/-- Outside comments a character is kept, unless it starts a comment. -/
theorem stripFrom_code_cons {q : Quote} {fresh : Bool} {d : Char} {cs : List Char}
    (hopen : ∀ rest, q = .outside → d = '/' → cs = '*' :: rest → False)
    (hhash : q = .outside → fresh = true → d = '#' → False) :
    stripFrom (.code q fresh) (d :: cs) =
      (d :: (stripFrom (.code (q.step d) (q == .outside && isBlank d)) cs).1,
        (stripFrom (.code (q.step d) (q == .outside && isBlank d)) cs).2) := by
  rw [stripFrom]
  · exact hopen
  · exact hhash

/-- A blank behind a text does not complete what could start at its end. -/
theorem append_blank_ne {x : Char} (hx : ' ' ≠ x) {cs rest more : List Char}
    (h : ∀ rest, cs = x :: rest → False) (heq : cs ++ ' ' :: more = x :: rest) : False := by
  cases cs with
  | nil => exact hx (List.cons.inj heq).1
  | cons c cs => exact h cs (by rw [(List.cons.inj heq).1])

/-- Nothing is left of a comment behind a blank. -/
theorem stripFrom_comment (fresh : Bool) (c : List Char) :
    stripFrom (.code .outside fresh) (' ' :: '#' :: c) = ([' '], false) := by
  cases fresh <;> rfl

/-- A comment at the end of a line that ends outside strings and block comments adds a blank, or
    nothing if the line ends in a comment already. -/
theorem stripFrom_append_comment (c : List Char) (st : CommentState) (l : List Char) :
    (stripFrom st l).2 = false → st.quote.run (stripFrom st l).1 = .outside →
      ∃ gap, (gap = [] ∨ gap = [' ']) ∧
        stripFrom st (l ++ ' ' :: '#' :: c) = ((stripFrom st l).1 ++ gap, false) := by
  induction st, l using stripFrom.induct with
  | case1 =>
      intro hblock
      cases hblock
  | case2 cs ih =>
      intro hblock hquote
      obtain ⟨gap, hgap, heq⟩ := ih hblock hquote
      refine ⟨gap, hgap, ?_⟩
      rw [List.cons_append, List.cons_append, stripFrom, heq, stripFrom]
      rfl
  | case3 d cs hclose ih =>
      have hclose' : ∀ rest, d = '*' → cs ++ ' ' :: '#' :: c = '/' :: rest → False :=
        fun _ hd => append_blank_ne (by decide) fun rest => hclose rest hd
      rw [List.cons_append, stripFrom_block_cons hclose, stripFrom_block_cons hclose']
      exact ih
  | case4 q fresh =>
      intro _ hquote
      obtain rfl : q = .outside := hquote
      exact ⟨[' '], Or.inr rfl, stripFrom_comment fresh c⟩
  | case5 fresh cs ih =>
      rw [List.cons_append, List.cons_append, stripFrom, stripFrom]
      exact ih
  | case6 tail =>
      intro _ _
      exact ⟨[], Or.inl rfl, rfl⟩
  | case7 q fresh d cs hopen hhash ih =>
      have hopen' : ∀ rest, q = .outside → d = '/' → cs ++ ' ' :: '#' :: c = '*' :: rest → False :=
        fun _ hq hd => append_blank_ne (by decide) fun rest => hopen rest hq hd
      rw [List.cons_append, stripFrom_code_cons hopen hhash, stripFrom_code_cons hopen' hhash]
      intro hblock hquote
      obtain ⟨gap, hgap, heq⟩ := ih hblock hquote
      refine ⟨gap, hgap, ?_⟩
      rw [heq]
      rfl

/-! ## Whole lines -/

theorem isCommentLine_iff {cs : List Char} :
    isCommentLine cs = true ↔
      (∃ rest, trimLeft cs = '/' :: '/' :: rest) ∨ ∃ rest, trimLeft cs = ';' :: rest := by
  fun_cases isCommentLine cs with
  | case1 rest h => exact iff_of_true rfl (Or.inl ⟨rest, h⟩)
  | case2 rest h => exact iff_of_true rfl (Or.inr ⟨rest, h⟩)
  | case3 hslashes hsemicolon =>
      refine iff_of_false Bool.false_ne_true ?_
      rintro (⟨rest, h⟩ | ⟨rest, h⟩)
      · exact hslashes rest h
      · exact hsemicolon rest h

/-- Whether a line is a comment as a whole does not depend on a comment at its end. -/
theorem isCommentLine_append_comment (l c : List Char) :
    isCommentLine (l ++ ' ' :: '#' :: c) = isCommentLine l := by
  rw [Bool.eq_iff_iff, isCommentLine_iff, isCommentLine_iff, trimLeft, List.dropWhile_append,
    ← trimLeft]
  -- a line of blanks becomes a comment that starts with the hash sign
  cases trimLeft l with
  | nil =>
      show (∃ rest, '#' :: c = '/' :: '/' :: rest) ∨ (∃ rest, '#' :: c = ';' :: rest) ↔ _
      simp
  | cons d cs => cases cs <;> simp

/-- What is left of a line with a comment at its end. -/
theorem stripLine_append_comment {inBlock : Bool} {l : List Char} (c : List Char)
    (hblock : (stripLine inBlock l).2 = false)
    (hquote : hasOpenQuote (stripLine inBlock l).1 = false) :
    ∃ gap, (gap = [] ∨ gap = [' ']) ∧
      stripLine inBlock (l ++ ' ' :: '#' :: c) = ((stripLine inBlock l).1 ++ gap, false) := by
  rw [hasOpenQuote_eq_false] at hquote
  cases inBlock with
  | true => exact stripFrom_append_comment c .block l hblock hquote
  | false =>
      simp only [stripLine, isCommentLine_append_comment] at hblock hquote ⊢
      cases hcomment : isCommentLine l with
      | true => exact ⟨[], Or.inl rfl, rfl⟩
      | false =>
          rw [hcomment] at hblock hquote
          exact stripFrom_append_comment c (.code .outside true) l hblock hquote

/-- A comment at the end of a line is invisible.  If a line ends outside block comments and strings,
    whether or not it starts inside a block comment, then with a comment behind it, whatever that
    says, it still does, and the same label and the same statement are read from it. -/
theorem trailing_comment_invisible (inBlock : Bool) (l : List Char)
    (hblock : (stripLine inBlock l).2 = false)
    (hquote : hasOpenQuote (stripLine inBlock l).1 = false) (c : List Char) :
    (stripLine inBlock (l ++ " #".toList ++ c)).2 = (stripLine inBlock l).2 ∧
      hasOpenQuote (stripLine inBlock (l ++ " #".toList ++ c)).1 = false ∧
      ∀ line, ParsedLine.parse (stripLine inBlock (l ++ " #".toList ++ c)).1 line =
        ParsedLine.parse (stripLine inBlock l).1 line := by
  have hline : l ++ " #".toList ++ c = l ++ ' ' :: '#' :: c := List.append_assoc ..
  obtain ⟨gap, hgap, heq⟩ := stripLine_append_comment c hblock hquote
  rw [hline, heq, hblock]
  refine ⟨rfl, ?_, fun line => ?_⟩
  · rw [hasOpenQuote_eq_false] at hquote ⊢
    rw [Quote.run_append, hquote]
    rcases hgap with rfl | rfl <;> rfl
  · rcases hgap with rfl | rfl
    · rw [List.append_nil]
    · exact ParsedLine.parse_append_blank _ (by decide) line

/-- A line that closes a block comment and stores a string with a hash sign in it. -/
def stored : List Char :=
  "x */ s: .ascii \"a # b\"/**/".toList

/-- A comment full of quotes and comment signs does not change it. -/
theorem stored_comment_invisible :
    (stripLine true stored).2 = false ∧ hasOpenQuote (stripLine true stored).1 = false ∧
      stripLine true (stored ++ " #".toList ++ "\" /* \\ ; // */".toList) =
        ("  s: .ascii \"a # b\"  ".toList, false) ∧
      ParsedLine.parse (stripLine true (stored ++ " #".toList ++ "\" /* \\ ; // */".toList)).1 7 =
        ParsedLine.parse (stripLine true stored).1 7 := by
  obtain ⟨hblock, hquote, htext⟩ :
      (stripLine true stored).2 = false ∧ hasOpenQuote (stripLine true stored).1 = false ∧
        stripLine true (stored ++ " #".toList ++ "\" /* \\ ; // */".toList) =
          ("  s: .ascii \"a # b\"  ".toList, false) := by
    decide +kernel
  exact ⟨hblock, hquote, htext, (trailing_comment_invisible true stored hblock hquote _).2.2 7⟩

end Source

end AsmCheck
