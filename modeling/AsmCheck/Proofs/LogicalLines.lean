import AsmCheck.Proofs.BlankLines
import Mathlib.Algebra.Group.Nat.Defs

/-! # Logical lines cover the source text

    A logical line takes in one physical line, or, if a string directive leaves
    its string open there, the lines up to the one that closes it.  Whether a
    string is open is found out in three places: by the removal of comments,
    which must not look into strings, by the test of the first line, and line
    by line behind it.  They agree (`run_closeString`), so that logical lines
    are made of physical lines in a simple way (`madeOf_logicalFrom`): they
    stand one after the other and take up every physical line once, one that
    takes up several starts with an open string of a string directive, and only
    at the end of the text can such a string stay open
    (`lines_covered_once`). -/

namespace AsmCheck

open AsmCheck.Text AsmCheck.Source

/-! ## Strings over several lines -/

namespace Text

theorem Quote.run_append (q : Quote) (cs ds : List Char) : q.run (cs ++ ds) = (q.run cs).run ds :=
  List.foldl_append

/-- A line feed does not close a string, escaped or not. -/
theorem Quote.step_newline {q : Quote} (h : q ≠ .outside) : q.step '\n' = .inside := by
  cases q with
  | outside => exact absurd rfl h
  | inside => rfl
  | escaped => rfl

theorem hasOpenQuote_eq_false {cs : List Char} :
    hasOpenQuote cs = false ↔ Quote.outside.run cs = .outside :=
  bne_eq_false_iff_eq

end Text

namespace Source

/-- What a physical line adds to a logical line that it does not start. -/
def continuation (l : List Char) : List Char :=
  '\n' :: cutOutside ';' .inside l

/-- Closing a string takes in lines one after the other from the first on. -/
theorem exists_closeString_eq (ls : List (List Char)) :
    ∃ more rest, ls = more ++ rest ∧ closeString ls = (more.flatMap continuation, rest) := by
  induction ls with
  | nil => exact ⟨[], [], rfl, rfl⟩
  | cons l ls ih =>
      rw [closeString]
      dsimp only
      split
      · exact ⟨[l], ls, rfl, by rw [List.flatMap_singleton, continuation]⟩
      · obtain ⟨more, rest, rfl, heq⟩ := ih
        refine ⟨l :: more, rest, rfl, ?_⟩
        rw [heq, List.flatMap_cons, continuation]

/-- A string that is open is closed by the lines taken in, unless they are the last. -/
theorem run_closeString {q : Quote} (hq : q ≠ .outside) (ls : List (List Char)) :
    q.run (closeString ls).1 = .outside ∨ (closeString ls).2 = [] := by
  induction ls generalizing q with
  | nil => exact Or.inr rfl
  | cons l ls ih =>
      have hline : q.run ('\n' :: cutOutside ';' .inside l) =
          Quote.inside.run (cutOutside ';' .inside l) :=
        congrArg (Quote.run · _) (Quote.step_newline hq)
      rw [closeString]
      dsimp only
      split
      · next hclosed => exact Or.inl (hline.trans hclosed)
      · next hopen =>
        -- the next line starts where this one ends, inside the string
        rw [← hline] at hopen
        rw [Quote.run_append]
        exact ih hopen

/-- Lines that follow a string directive do not hide it. -/
theorem hasStringDirective_joined {text : List Char} {more : List (List Char)}
    (h : more ≠ [] → hasStringDirective text = true) :
    hasStringDirective (text ++ more.flatMap continuation) = hasStringDirective text := by
  cases more with
  | nil => rw [List.flatMap_nil, List.append_nil]
  | cons l more =>
      have hwords : ∀ ds, words (text ++ '\n' :: ds) = words text ++ words ds := by
        intro ds
        rw [words, List.splitOnP_append_cons text ds (by decide), List.filter_append]
        rfl
      have htext := h (List.cons_ne_nil l more)
      rw [htext, List.flatMap_cons, continuation, List.cons_append, hasStringDirective, hwords,
        List.any_append, Bool.or_eq_true]
      exact Or.inl htext

/-- What a logical line takes in behind its first line `text`: nothing unless a string directive
    leaves its string open there, and then enough to close it, if there is enough. -/
theorem exists_completeLine_eq (text : List Char) (ls : List (List Char)) :
    ∃ more rest, ls = more ++ rest ∧
      completeLine text ls = (text ++ more.flatMap continuation, rest) ∧
      (more ≠ [] → hasStringDirective text = true ∧ hasOpenQuote text = true) ∧
      (hasStringDirective text = true →
        hasOpenQuote (text ++ more.flatMap continuation) = true → rest = []) := by
  by_cases h : hasStringDirective text = true ∧ hasOpenQuote text = true
  · obtain ⟨more, rest, hls, heq⟩ := exists_closeString_eq ls
    refine ⟨more, rest, hls, ?_, fun _ => h, fun _ hopen => ?_⟩
    · rw [completeLine, if_pos (Bool.and_eq_true_iff.mpr h), heq]
    · rcases run_closeString (bne_iff_ne.mp h.2) ls with hclosed | hlast
      · rw [heq, ← Quote.run_append] at hclosed
        rw [hasOpenQuote_eq_false.mpr hclosed] at hopen
        cases hopen
      · rw [heq] at hlast
        exact hlast
  · refine ⟨[], ls, rfl, ?_, fun hne => absurd rfl hne, ?_⟩
    · rw [completeLine, if_neg (mt Bool.and_eq_true_iff.mp h), List.flatMap_nil, List.append_nil]
    · rw [List.flatMap_nil, List.append_nil]
      exact fun hdirective hopen => absurd ⟨hdirective, hopen⟩ h

/-! ## One line after the other -/

/-- How physical lines make up logical ones, from line `start` on.  The lines `more` that a logical
    line takes in behind its first belong to an open string, and the string is closed before any
    line is left over. -/
inductive MadeOf : Nat → Bool → List (List Char) → List LogicalLine → Prop where
  | nil (start : Nat) (inBlock : Bool) : MadeOf start inBlock [] []
  | cons {start : Nat} {inBlock : Bool} {first text : List Char} {more rest : List (List Char)}
      {ls : List LogicalLine} (stripped : (stripLine inBlock first).1 = text)
      (joined : more ≠ [] → hasStringDirective text = true ∧ hasOpenQuote text = true)
      (closed : hasStringDirective text = true →
        hasOpenQuote (text ++ more.flatMap continuation) = true → rest = [])
      (behind : MadeOf (start + (more.length + 1)) (stripLine inBlock first).2 rest ls) :
      MadeOf start inBlock (first :: (more ++ rest))
        ({ line := start, span := more.length + 1
           text := text ++ more.flatMap continuation } :: ls)

theorem lineNumber_of_le {index : Nat} (h : index ≤ lineLimit) : lineNumber index = index :=
  Nat.min_eq_left h

/-- The first logical line, if it is known which lines it takes in. -/
theorem logicalFrom_of_completeLine {start : Nat} {inBlock : Bool} {first text : List Char}
    {more rest : List (List Char)}
    (h : completeLine (stripLine inBlock first).1 (more ++ rest) = (text, rest)) :
    logicalFrom start inBlock (first :: (more ++ rest)) =
      { line := lineNumber start, span := lineNumber (more.length + 1), text } ::
        logicalFrom (start + (more.length + 1)) (stripLine inBlock first).2 rest := by
  have hspan : (more ++ rest).length + 1 - rest.length = more.length + 1 := by
    rw [List.length_append, Nat.add_right_comm, Nat.add_sub_cancel]
  rw [logicalFrom, h]
  dsimp only
  rw [hspan]

/-- Logical lines are made of their physical lines, as long as these can be numbered. -/
theorem madeOf_logicalFrom (start : Nat) (inBlock : Bool) (ls : List (List Char)) :
    start + ls.length ≤ lineLimit → MadeOf start inBlock ls (logicalFrom start inBlock ls) := by
  induction start, inBlock, ls using logicalFrom.induct with
  | case1 start inBlock =>
      intro _
      rw [logicalFrom]
      exact .nil start inBlock
  | case2 start inBlock first ls stripped rest span ih =>
      intro hlimit
      obtain ⟨more, left, rfl, hcomplete, hjoined, hclosed⟩ := exists_completeLine_eq stripped.1 ls
      have hrest : rest = left := congrArg Prod.snd hcomplete
      have hspan : span = more.length + 1 := by
        show (more ++ left).length + 1 - rest.length = more.length + 1
        rw [hrest, List.length_append, Nat.add_right_comm, Nat.add_sub_cancel]
      rw [List.length_cons, List.length_append] at hlimit
      rw [hspan, hrest] at ih
      have hline : lineNumber start = start := lineNumber_of_le (by omega)
      rw [logicalFrom_of_completeLine hcomplete, hline, lineNumber_of_le (by omega)]
      exact .cons rfl hjoined hclosed (ih (by omega))

/-! ## What follows for the lines -/

/-- How many physical lines there are in logical lines. -/
def totalSpan (ls : List LogicalLine) : Nat :=
  ls.foldr (fun l n => l.span + n) 0

/-- Whether a block comment is open behind some logical lines.  Comments are taken out of the first
    physical line of each; the lines that a string takes in are left alone. -/
def blockAfter (physical : List (List Char)) (ls : List LogicalLine) : Bool :=
  ls.foldl (fun inBlock l => (stripLine inBlock (physical[l.line]?.getD [])).2) false

/-- The first physical line of a logical line, without its comments. -/
def opening (physical : List (List Char)) (before : List LogicalLine) (l : LogicalLine) :
    List Char :=
  (stripLine (blockAfter physical before) (physical[l.line]?.getD [])).1

/-- What there is to say about a logical line between others. -/
structure IsLogical (physical : List (List Char)) (before : List LogicalLine) (l : LogicalLine)
    (after : List LogicalLine) : Prop where
  /-- Its text is its first line without comments and the lines that it takes in. -/
  text : l.text = opening physical before l ++
    ((physical.drop (l.line + 1)).take (l.span - 1)).flatMap continuation
  /-- It carries a string directive if its first line does. -/
  directive : hasStringDirective l.text = hasStringDirective (opening physical before l)
  /-- It takes in lines only if a string directive leaves its string open. -/
  joined : 1 < l.span → hasStringDirective (opening physical before l) = true ∧
    hasOpenQuote (opening physical before l) = true
  /-- A string directive leaves no string open, unless there are no lines left. -/
  closed : after ≠ [] → hasStringDirective l.text = true → hasOpenQuote l.text = false

namespace MadeOf

variable {start : Nat} {inBlock : Bool} {physical : List (List Char)} {ls : List LogicalLine}

theorem head (h : MadeOf start inBlock physical ls) : ∀ l ∈ ls.head?, l.line = start := by
  cases h with
  | nil =>
      intro l hl
      cases hl
  | cons =>
      intro l hl
      cases hl
      rfl

theorem isChain (h : MadeOf start inBlock physical ls) :
    ls.IsChain fun l l' => l'.line = l.line + l.span := by
  induction h with
  | nil => exact .nil
  | cons _ _ _ behind ih => exact ih.cons behind.head

theorem one_le_span (h : MadeOf start inBlock physical ls) : ∀ l ∈ ls, 1 ≤ l.span := by
  induction h with
  | nil =>
      intro l hl
      exact absurd hl List.not_mem_nil
  | cons _ _ _ _ ih =>
      intro l hl
      rcases List.mem_cons.mp hl with rfl | hl
      · exact Nat.le_add_left 1 _
      · exact ih l hl

theorem totalSpan_eq (h : MadeOf start inBlock physical ls) :
    totalSpan ls = physical.length := by
  induction h with
  | nil => rfl
  | @cons _ _ _ _ more rest ls _ _ _ _ ih =>
      show more.length + 1 + totalSpan ls = _
      rw [ih, List.length_cons, List.length_append, Nat.add_right_comm]

/-- Later lines have greater numbers. -/
theorem pairwise_lt (h : MadeOf start inBlock physical ls) :
    (∀ l ∈ ls, start ≤ l.line) ∧ ls.Pairwise fun l l' => l.line < l'.line := by
  induction h with
  | nil => exact ⟨fun l hl => absurd hl List.not_mem_nil, .nil⟩
  | cons _ _ _ _ ih =>
      obtain ⟨hfrom, hpairwise⟩ := ih
      rw [List.pairwise_cons]
      refine ⟨fun l' hl' => ?_, fun l' hl' => ?_, hpairwise⟩
      · rcases List.mem_cons.mp hl' with rfl | hl'
        · exact Nat.le_refl _
        · exact Nat.le_trans (Nat.le_add_right ..) (hfrom l' hl')
      · exact Nat.lt_of_lt_of_le (Nat.lt_add_of_pos_right (Nat.succ_pos _)) (hfrom l' hl')

theorem eq_nil (h : MadeOf start inBlock [] ls) : ls = [] := by
  cases h
  rfl

/-- What lies behind matters for a logical line only in so far as a block comment may be open. -/
theorem isLogical (h : MadeOf start inBlock physical ls) {whole : List (List Char)}
    {l : LogicalLine} {after : List LogicalLine} :
    ∀ (done : List LogicalLine) {before : List LogicalLine}, whole.drop start = physical →
      blockAfter whole done = inBlock → ls = before ++ l :: after →
        IsLogical whole (done ++ before) l after := by
  induction h with
  | nil =>
      intro done before _ _ hsplit
      cases before <;> cases hsplit
  | @cons start inBlock first text more rest ls stripped joined closed behind ih =>
      intro done before hdrop hblock hsplit
      have hget : whole[start]? = some first := by
        rw [← List.head?_drop, hdrop]
        rfl
      cases before with
      | cons l' before =>
          obtain ⟨rfl, htail⟩ := List.cons.inj hsplit
          rw [List.append_cons]
          refine ih _ ?_ ?_ htail
          · rw [← List.drop_drop, hdrop, List.drop_succ_cons, List.drop_left]
          · rw [blockAfter, List.foldl_append, ← hblock, List.foldl_cons, hget]
            rfl
      | nil =>
          obtain ⟨rfl, rfl⟩ := List.cons.inj hsplit
          have hopening : ∀ span text', opening whole (done ++ []) ⟨start, span, text'⟩ = text := by
            intro span text'
            rw [opening, List.append_nil, hblock, hget]
            exact stripped
          have hbehind : (whole.drop (start + 1)).take more.length = more := by
            rw [← List.drop_drop, hdrop]
            exact List.take_left
          have hdirective : hasStringDirective (text ++ more.flatMap continuation) =
              hasStringDirective text := hasStringDirective_joined fun hne => (joined hne).1
          refine ⟨?_, ?_, ?_, ?_⟩
          · rw [hopening]
            show _ = text ++ List.flatMap _ ((whole.drop (start + 1)).take more.length)
            rw [hbehind]
          · rw [hopening]
            exact hdirective
          · rw [hopening]
            intro hspan
            refine joined fun hnil => ?_
            rw [hnil] at hspan
            exact absurd hspan (Nat.lt_irrefl 1)
          · intro hafter htext
            by_contra hopen
            obtain rfl := closed (hdirective.symm.trans htext) (Bool.not_eq_false _ ▸ hopen)
            exact hafter behind.eq_nil

end MadeOf

/-- Logical lines that cover physical lines exactly once, in their order. -/
structure CoverOnce (physical : List (List Char)) (ls : List LogicalLine) : Prop where
  first : ∀ l ∈ ls.head?, l.line = 0
  next : ls.IsChain fun l l' => l'.line = l.line + l.span
  span : ∀ l ∈ ls, 1 ≤ l.span
  total : totalSpan ls = physical.length
  each : ∀ {before l after}, ls = before ++ l :: after → IsLogical physical before l after

/-- The logical lines of a source text cover its physical lines exactly once, if these can be
    numbered: they stand one after the other from the first line on, each takes up at least one
    line, and together they take up all of them.  A logical line takes up more than one only if its
    first line carries a string directive with an open string, and only the last of the text can
    carry a string directive whose string stays open. -/
theorem lines_covered_once (source : List Char) (h : (lines source).length < 2 ^ 32) :
    CoverOnce (lines source) (logicalLines source) := by
  have hmade : MadeOf 0 false (lines source) (logicalLines source) := by
    refine madeOf_logicalFrom 0 false (lines source) ?_
    rw [lineLimit]
    omega
  exact
    { first := hmade.head
      next := hmade.isChain
      span := hmade.one_le_span
      total := hmade.totalSpan_eq
      each := fun hsplit => hmade.isLogical [] rfl rfl hsplit }

/-- A string whose line ends in a backslash and whose next line starts like a comment, and one that
    is never closed. -/
def wrapped : List Char :=
  ".ascii \"a\\\n;b\" ; c\nret\n.string \"d".toList

theorem lines_wrapped :
    (lines wrapped).length = 4 ∧
      logicalLines wrapped =
        [⟨0, 2, ".ascii \"a\\\n;b\" ".toList⟩, ⟨2, 1, "ret".toList⟩, ⟨3, 1, ".string \"d".toList⟩] ∧
      hasStringDirective ".ascii \"a\\\n;b\" ".toList = true := by
  decide +kernel

/-- The first logical line takes up two lines, and closes its string. -/
theorem wrapped_covered :
    (lines wrapped).length < 2 ^ 32 ∧
      ∃ l after, logicalLines wrapped = l :: after ∧ l.span = 2 ∧ after ≠ [] ∧
        hasStringDirective (opening (lines wrapped) [] l) = true ∧
        hasOpenQuote (opening (lines wrapped) [] l) = true ∧ hasOpenQuote l.text = false := by
  obtain ⟨hlength, hlines, hdirective⟩ := lines_wrapped
  have hlimit : (lines wrapped).length < 2 ^ 32 := by
    rw [hlength]
    decide
  have hfirst : IsLogical (lines wrapped) [] _ _ := (lines_covered_once wrapped hlimit).each hlines
  obtain ⟨hcarries, hopen⟩ := hfirst.joined (by decide)
  exact ⟨hlimit, _, _, hlines, rfl, List.cons_ne_nil _ _, hcarries, hopen,
    hfirst.closed (List.cons_ne_nil _ _) hdirective⟩

end Source

end AsmCheck
