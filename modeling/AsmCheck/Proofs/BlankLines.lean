import AsmCheck.Proofs.LineNumbers

/-! # Blank lines

    A blank line that is put into a source text between two logical lines
    changes nothing but the numbers of the lines after it.  The physical lines
    are the old ones with an empty line among them (`lines_append_newline`).
    The logical lines hold the same items, those from the blank line on one
    line further down (`ofLines_insert`): a string that is open at the blank
    line could take it in, but that only happens at the end of the text, where
    the line feed it adds is trimmed off.  Everything else follows from what
    holds of line numbers in general. -/

namespace AsmCheck

open AsmCheck.Text AsmCheck.Source

/-! ## Physical lines -/

namespace Text

/-- A line feed ends the lines before it. -/
theorem lines_append_newline (front back : List Char) :
    lines (front ++ '\n' :: back) = (front.splitOn '\n').map dropReturn ++ lines back := by
  have hsplit : (front ++ '\n' :: back).splitOn '\n' = front.splitOn '\n' ++ back.splitOn '\n' :=
    List.splitOnP_append_cons front back (beq_self_eq_true '\n')
  have hne : back.splitOn '\n' ≠ [] := List.splitOnP_ne_nil _ back
  rw [lines, hsplit, List.dropLast_append_of_ne_nil hne, List.getLast?_append_of_ne_nil _ hne,
    List.map_append, List.append_assoc]
  rfl

/-- A line break at the start is an empty line. -/
theorem lines_newline (back : List Char) : lines ('\n' :: back) = [] :: lines back :=
  lines_append_newline [] back

/-- Text that holds whole lines only. -/
def EndsLine (cs : List Char) : Prop :=
  cs = [] ∨ cs.getLast? = some '\n'

/-- A text that ends with a line break has its lines to itself. -/
theorem EndsLine.lines_append {front : List Char} (h : EndsLine front) (back : List Char) :
    lines (front ++ back) = lines front ++ lines back := by
  rcases h with rfl | h
  · rfl
  · obtain ⟨init, rfl⟩ : ∃ init, front = init ++ ['\n'] := List.getLast?_eq_some_iff.mp h
    rw [List.append_assoc]
    show lines (init ++ '\n' :: back) = _
    rw [lines_append_newline, lines_append_newline]
    show _ = (_ ++ []) ++ lines back
    rw [List.append_nil]

/-- No marker is part of an empty line. -/
theorem hasPart_nil {part : List Char} (h : part ≠ []) : hasPart part [] = false :=
  List.isEmpty_eq_false_iff.mpr h

/-- A blank at the end of a text is trimmed off. -/
theorem trim_append_blank (cs : List Char) {c : Char} (hc : isBlank c = true) :
    trim (cs ++ [c]) = trim cs := by
  have hright : ∀ xs, trimRight (xs ++ [c]) = trimRight xs := by
    intro xs
    rw [trimRight, List.reverse_append, List.reverse_singleton, List.singleton_append,
      List.dropWhile_cons_of_pos hc, trimRight]
  rw [trim, trimLeft, List.dropWhile_append, trim, trimLeft]
  split
  · next hblank => rw [List.isEmpty_iff.mp hblank, List.dropWhile_cons_of_pos hc, List.dropWhile_nil]
  · exact hright _

end Text

/-! ## Logical lines -/

namespace Source

/-- Closing a string uses up at least one line. -/
theorem closeString_length_lt {ls : List (List Char)} (h : ls ≠ []) :
    (closeString ls).2.length < ls.length := by
  cases ls with
  | nil => exact absurd rfl h
  | cons l ls =>
      rw [closeString]
      dsimp only
      split
      · exact Nat.lt_succ_self _
      · exact Nat.lt_succ_of_le (closeString_length_le ls)

/-- A string that is open before some lines closes within them, whatever follows, or goes on behind
    them. -/
theorem closeString_append (ls : List (List Char)) :
    (∀ more, closeString (ls ++ more) = ((closeString ls).1, (closeString ls).2 ++ more)) ∨
      ∀ more, closeString (ls ++ more) =
        ((closeString ls).1 ++ (closeString more).1, (closeString more).2) := by
  induction ls with
  | nil => exact Or.inr fun more => rfl
  | cons l ls ih =>
      by_cases hclosed : Quote.inside.run (cutOutside ';' .inside l) = .outside
      · refine Or.inl fun more => ?_
        simp only [List.cons_append, closeString, if_pos hclosed]
      · rcases ih with ih | ih
        · refine Or.inl fun more => ?_
          simp only [List.cons_append, closeString, if_neg hclosed, ih]
        · refine Or.inr fun more => ?_
          simp only [List.cons_append, closeString, if_neg hclosed, ih, List.append_assoc]

/-- A logical line that starts with `text` and ends within the lines `ls`, whatever follows them. -/
def EndsWithin (text : List Char) (ls : List (List Char)) : Prop :=
  ∀ more, completeLine text (ls ++ more) =
    ((completeLine text ls).1, (completeLine text ls).2 ++ more)

/-- A logical line that starts with `text` and holds a string that is still open after the lines
    `ls`. -/
def RunsOver (text : List Char) (ls : List (List Char)) : Prop :=
  ∀ more, completeLine text (ls ++ more) =
    ((completeLine text ls).1 ++ (closeString more).1, (closeString more).2)

/-- A logical line ends within given lines, or they leave one of its strings open. -/
theorem endsWithin_or_runsOver (text : List Char) (ls : List (List Char)) :
    EndsWithin text ls ∨ RunsOver text ls := by
  by_cases hopen : (hasStringDirective text && hasOpenQuote text) = true
  · rcases closeString_append ls with h | h
    · left
      intro more
      simp only [completeLine, if_pos hopen, h]
    · right
      intro more
      simp only [completeLine, if_pos hopen, h, List.append_assoc]
  · left
    intro more
    simp only [completeLine, if_neg hopen]

theorem lineNumber_of_lt {index : Nat} (h : index < lineLimit) : lineNumber index = index :=
  Nat.min_eq_left (Nat.le_of_lt h)

/-- A logical line and the lines after it take up the physical lines between them. -/
theorem span_add_length (text : List Char) (ls : List (List Char)) :
    ls.length + 1 - (completeLine text ls).2.length + (completeLine text ls).2.length =
      ls.length + 1 :=
  Nat.sub_add_cancel (Nat.le_succ_of_le (completeLine_length_le text ls))

/-- Logical lines are numbered from the first line on. -/
theorem line_mem_logicalFrom (start : Nat) (inBlock : Bool) (ls : List (List Char)) :
    start + ls.length ≤ lineLimit → ∀ l ∈ logicalFrom start inBlock ls,
      start ≤ l.line ∧ l.line < start + ls.length := by
  induction start, inBlock, ls using logicalFrom.induct with
  | case1 start inBlock =>
      intro _ l hl
      rw [logicalFrom] at hl
      exact absurd hl List.not_mem_nil
  | case2 start inBlock l ls stripped rest span ih =>
      intro hlimit x hx
      have hspan : span + rest.length = ls.length + 1 := span_add_length stripped.1 ls
      have hrest : rest.length ≤ ls.length := completeLine_length_le stripped.1 ls
      rw [List.length_cons] at hlimit ⊢
      rw [logicalFrom, List.mem_cons] at hx
      rcases hx with rfl | hx
      · show start ≤ lineNumber start ∧ lineNumber start < _
        rw [lineNumber_of_lt (by omega)]
        omega
      · have := ih (by omega) x hx
        omega

/-- The logical lines of the same lines, one line further down. -/
theorem logicalFrom_succ (start : Nat) (inBlock : Bool) (ls : List (List Char)) :
    start + ls.length < lineLimit → logicalFrom (start + 1) inBlock ls =
      (logicalFrom start inBlock ls).map fun l => { l with line := l.line + 1 } := by
  induction start, inBlock, ls using logicalFrom.induct with
  | case1 start inBlock =>
      intro _
      rw [logicalFrom, logicalFrom]
      rfl
  | case2 start inBlock l ls stripped rest span ih =>
      intro hlimit
      have hspan : span + rest.length = ls.length + 1 := span_add_length stripped.1 ls
      have hrest : rest.length ≤ ls.length := completeLine_length_le stripped.1 ls
      rw [List.length_cons] at hlimit
      have hnumber : lineNumber (start + 1) = lineNumber start + 1 := by
        rw [lineNumber_of_lt (by omega), lineNumber_of_lt (by omega)]
      rw [logicalFrom, logicalFrom, List.map_cons, ← ih (by omega), hnumber, Nat.add_right_comm]

/-- Lines that follow a logical line do not change it, if it ends before them. -/
theorem EndsWithin.logicalFrom_append {start : Nat} {inBlock : Bool} {l : List Char}
    {ls : List (List Char)} (h : EndsWithin (stripLine inBlock l).1 ls) (more : List (List Char)) :
    let rest := (completeLine (stripLine inBlock l).1 ls).2
    let span := ls.length + 1 - rest.length
    logicalFrom start inBlock (l :: ls ++ more) =
      { line := lineNumber start, span := lineNumber span
        text := (completeLine (stripLine inBlock l).1 ls).1 } ::
        logicalFrom (start + span) (stripLine inBlock l).2 (rest ++ more) := by
  intro rest span
  have hspan : (ls ++ more).length + 1 - (rest ++ more).length = span := by
    rw [List.length_append, List.length_append, Nat.add_right_comm, Nat.add_sub_add_right]
  rw [List.cons_append, logicalFrom, h more]
  dsimp only
  rw [hspan]

/-- If it does not end before them, it takes them in up to the end of the string. -/
theorem RunsOver.logicalFrom_append {start : Nat} {inBlock : Bool} {l : List Char}
    {ls : List (List Char)} (h : RunsOver (stripLine inBlock l).1 ls) (more : List (List Char)) :
    let span := (ls ++ more).length + 1 - (closeString more).2.length
    logicalFrom start inBlock (l :: ls ++ more) =
      { line := lineNumber start, span := lineNumber span
        text := (completeLine (stripLine inBlock l).1 ls).1 ++ (closeString more).1 } ::
        logicalFrom (start + span) (stripLine inBlock l).2 (closeString more).2 := by
  intro span
  rw [List.cons_append, logicalFrom, h more]

/-- A blank line is a logical line of its own, and leaves comments as they are. -/
theorem logicalFrom_blank (start : Nat) (inBlock : Bool) (ls : List (List Char)) :
    logicalFrom start inBlock ([] :: ls) =
      { line := lineNumber start, span := 1, text := [] } :: logicalFrom (start + 1) inBlock ls := by
  have hstrip : stripLine inBlock [] = ([], inBlock) := by
    cases inBlock <;> rfl
  have hcomplete : completeLine [] ls = ([], ls) := rfl
  rw [logicalFrom, hstrip]
  dsimp only
  rw [hcomplete, Nat.add_sub_cancel_left]
  rfl

end Source

/-! ## Items -/

/-- What is parsed does not depend on the line that it stands on. -/
theorem Statement.parse_mapLine (g : Nat → Nat) (text : List Char) (line : Nat) :
    parse text (g line) = (parse text line).mapLine g := by
  rw [parse, parse]
  dsimp only
  split <;> rfl

namespace ParsedLine

/-- What is read from a line does not depend on its number. -/
theorem parse_mapLine (g : Nat → Nat) (text : List Char) (line : Nat) :
    parse text (g line) =
      { label := (parse text line).label
        statement := (parse text line).statement.map (Statement.mapLine g) } := by
  rw [parse, parse]
  rcases splitLabel (trim text) with ⟨label, rest⟩
  dsimp only
  rw [Statement.parse_mapLine]
  generalize Statement.parse rest line = s
  split <;> rfl

/-- A statement stands on the line that it was parsed from. -/
theorem line_parse {text : List Char} {line : Nat} {s : Statement}
    (h : (parse text line).statement = some s) : s.line = line := by
  -- every line is the first one, renumbered
  have hfirst := congrArg ParsedLine.statement (parse_mapLine (fun _ => line) text 0)
  obtain ⟨s', -, rfl⟩ := Option.map_eq_some_iff.mp (hfirst.symm.trans h)
  rfl

/-- A blank at the end of a line adds nothing to it. -/
theorem parse_append_blank (text : List Char) {c : Char} (hc : isBlank c = true) (line : Nat) :
    parse (text ++ [c]) line = parse text line := by
  rw [parse, trim_append_blank text hc, parse]

end ParsedLine

namespace Source

/-- Line `cut` is not in the middle of a logical line. -/
def IsCut (cut : Nat) (ls : List LogicalLine) : Prop :=
  ∀ l ∈ ls, ¬ (l.line < cut ∧ cut < l.line + l.span)

instance (cut : Nat) (ls : List LogicalLine) : Decidable (IsCut cut ls) :=
  inferInstanceAs (Decidable (∀ l ∈ ls, ¬ (l.line < cut ∧ cut < l.line + l.span)))

/-- At a cut no string is open, except at the end of the text. -/
theorem RunsOver.eq_nil_of_isCut {start : Nat} {inBlock : Bool} {l : List Char}
    {front back : List (List Char)} (h : RunsOver (stripLine inBlock l).1 front)
    (hlimit : start + (l :: front ++ back).length < lineLimit)
    (hcut : IsCut (start + (l :: front).length) (logicalFrom start inBlock (l :: front ++ back))) :
    back = [] := by
  by_contra hne
  have hlt := closeString_length_lt hne
  rw [List.length_append, List.length_cons] at hlimit
  rw [h.logicalFrom_append] at hcut
  refine hcut _ (List.mem_cons_self ..) ?_
  show lineNumber start < _ ∧ _ < lineNumber start + lineNumber _
  rw [List.length_append, lineNumber_of_lt (by omega), lineNumber_of_lt (by omega),
    List.length_cons]
  omega

/-- The number of a line once another has been put in at `cut`. -/
def shiftLine (cut line : Nat) : Nat :=
  if line < cut then line else line + 1

theorem shiftLine_of_lt {cut line : Nat} (h : line < cut) : shiftLine cut line = line :=
  if_pos h

theorem shiftLine_of_le {cut line : Nat} (h : cut ≤ line) : shiftLine cut line = line + 1 :=
  if_neg (Nat.not_lt.mpr h)

/-- Making room for one line keeps the order of all others. -/
theorem strictMono_shiftLine (cut : Nat) : StrictMono (shiftLine cut) := by
  intro m n hmn
  rcases Nat.lt_or_ge m cut with hm | hm
  · rw [shiftLine_of_lt hm]
    rcases Nat.lt_or_ge n cut with hn | hn
    · rwa [shiftLine_of_lt hn]
    · rw [shiftLine_of_le hn]
      omega
  · rw [shiftLine_of_le hm, shiftLine_of_le (by omega)]
    omega

end Source

namespace Item

variable {g : Nat → Nat}

/-- The items of a logical line stand on that line, wherever it is. -/
theorem ofLine_mapLine (l : LogicalLine) :
    ofLine { l with line := g l.line } = (ofLine l).map (mapLine g) := by
  rw [ofLine, ofLine, List.map_append, ParsedLine.parse_mapLine]
  obtain ⟨label, statement⟩ := ParsedLine.parse l.text l.line
  cases label <;> cases statement <;> rfl

/-- Items above the inserted line stay where they are. -/
theorem ofLine_mapLine_eq {l : LogicalLine} (h : g l.line = l.line) :
    (ofLine l).map (mapLine g) = ofLine l := by
  rw [← ofLine_mapLine, h]

theorem ofLine_blank (line span : Nat) : ofLine { line, span, text := [] } = [] := rfl

/-- A line break at the end of a line's text makes no difference. -/
theorem ofLine_append_newline (line span span' : Nat) (text : List Char) :
    ofLine { line, span, text := text ++ ['\n'] } = ofLine { line, span := span', text } := by
  rw [ofLine, ofLine, ParsedLine.parse_append_blank text (by decide)]

/-- The items of physical lines that start at line `start`. -/
def ofLines (start : Nat) (inBlock : Bool) (ls : List (List Char)) : List Item :=
  (logicalFrom start inBlock ls).flatMap ofLine

/-- An empty line moves what is below it down by one. -/
theorem ofLines_blank (start : Nat) (inBlock : Bool) (ls : List (List Char))
    (hlimit : start + ls.length < lineLimit) :
    ofLines start inBlock ([] :: ls) =
      (ofLines start inBlock ls).map (mapLine (shiftLine start)) := by
  rw [ofLines, logicalFrom_blank, List.flatMap_cons, ofLine_blank, List.nil_append,
    logicalFrom_succ start inBlock ls hlimit, List.flatMap_map, ofLines, List.map_flatMap]
  refine List.flatMap_congr fun l hl => ?_
  have hline : shiftLine start l.line = l.line + 1 :=
    shiftLine_of_le (line_mem_logicalFrom start inBlock ls (Nat.le_of_lt hlimit) l hl).1
  rw [← ofLine_mapLine, hline]

/-- A string that is open at the end of the text takes in a blank line there, which adds nothing. -/
theorem ofLines_runsOver {start : Nat} {inBlock : Bool} {l : List Char} {ls : List (List Char)}
    (h : RunsOver (stripLine inBlock l).1 ls) (hg : g (lineNumber start) = lineNumber start) :
    ofLines start inBlock (l :: ls ++ [[]]) =
      (ofLines start inBlock (l :: ls ++ [])).map (mapLine g) := by
  have hblank : closeString [[]] = (['\n'], []) := rfl
  have hnone : closeString [] = ([], []) := rfl
  rw [ofLines, ofLines, h.logicalFrom_append, h.logicalFrom_append, hblank, hnone, logicalFrom,
    logicalFrom, List.flatMap_singleton, List.flatMap_singleton,
    List.append_nil (completeLine (stripLine inBlock l).1 ls).1, ofLine_mapLine_eq hg]
  exact ofLine_append_newline _ _ _ _

/-- Along the logical lines before the cut: each ends before the cut, and stays as it is, or holds a
    string that never closes. -/
theorem ofLines_insert (back : List (List Char)) (start : Nat) (inBlock : Bool)
    (front : List (List Char)) :
    start + (front ++ back).length < lineLimit →
      IsCut (start + front.length) (logicalFrom start inBlock (front ++ back)) →
        ofLines start inBlock (front ++ [] :: back) = (ofLines start inBlock (front ++ back)).map
          (mapLine (shiftLine (start + front.length))) := by
  induction start, inBlock, front using logicalFrom.induct with
  | case1 start inBlock =>
      intro hlimit _
      exact ofLines_blank start inBlock back hlimit
  | case2 start inBlock l front stripped rest span ih =>
      intro hlimit hcut
      have hlength : start + span + rest.length = start + (l :: front).length := by
        have hspan : span + rest.length = front.length + 1 := span_add_length stripped.1 front
        rw [List.length_cons]
        omega
      have hstart : shiftLine (start + (l :: front).length) (lineNumber start) =
          lineNumber start := by
        rw [List.length_append] at hlimit
        rw [lineNumber_of_lt (by omega)]
        exact shiftLine_of_lt (by rw [List.length_cons]; omega)
      rcases endsWithin_or_runsOver stripped.1 front with hends | hruns
      · rw [hends.logicalFrom_append, ← hlength] at hcut
        have htail := ih (by rw [List.length_append] at hlimit ⊢; omega)
          fun x hx => hcut x (List.mem_cons_of_mem _ hx)
        rw [hlength] at htail
        rw [ofLines, ofLines, hends.logicalFrom_append, hends.logicalFrom_append,
          List.flatMap_cons, List.flatMap_cons, List.map_append, ofLine_mapLine_eq hstart]
        exact congrArg (_ ++ ·) htail
      · obtain rfl := hruns.eq_nil_of_isCut hlimit hcut
        exact ofLines_runsOver hruns hstart

/-- The statements of a source text stand on its lines. -/
theorem line_lt_of_mem_ofSource {source : List Char} (hlimit : (lines source).length ≤ lineLimit)
    {s : Statement} (h : statement s ∈ ofSource source) : s.line < (lines source).length := by
  obtain ⟨l, hl, hs⟩ := exists_of_mem_ofSource h
  rw [ParsedLine.line_parse hs]
  have hline := line_mem_logicalFrom 0 false (lines source) (by omega) l hl
  omega

end Item

/-! ## Markers -/

namespace Program

variable {marker : String}

/-- The numbers of the lines that hold the marker, if the first line has number `start`. -/
def markersFrom (marker : String) (start : Nat) (ls : List (List Char)) : List Nat :=
  ((ls.zipIdx start).filter fun (l, i) => hasPart marker.toList l && i ≤ lineLimit).map (·.2)

/-- The marked lines of a text, counted from its first line. -/
theorem markerLines_eq (marker : String) (source : List Char) :
    markerLines marker source = markersFrom marker 0 (lines source) := rfl

/-- The marked lines of one text after another. -/
theorem markersFrom_append (start : Nat) (ls more : List (List Char)) :
    markersFrom marker start (ls ++ more) =
      markersFrom marker start ls ++ markersFrom marker (start + ls.length) more := by
  rw [markersFrom, List.zipIdx_append, List.filter_append, List.map_append]
  rfl

/-- A marker is not blank, so there is none on an empty line. -/
theorem markersFrom_blank (hmarker : marker.toList ≠ []) (start : Nat) (ls : List (List Char)) :
    markersFrom marker start ([] :: ls) = markersFrom marker (start + 1) ls := by
  rw [markersFrom, List.zipIdx_cons, List.filter_cons_of_neg (by simp [hasPart_nil hmarker])]
  rfl

/-- A line is listed exactly because the marker is part of it. -/
theorem mem_markersFrom {start i : Nat} {ls : List (List Char)}
    (h : i ∈ markersFrom marker start ls) : start ≤ i ∧ i < start + ls.length ∧
      ∃ l, ls[i - start]? = some l ∧ hasPart marker.toList l = true := by
  obtain ⟨⟨l, j⟩, hmem, rfl⟩ := List.mem_map.mp h
  obtain ⟨hmem, hpart⟩ := List.mem_filter.mp hmem
  obtain ⟨hle, hlt, hl⟩ := List.mem_zipIdx hmem
  refine ⟨hle, hlt, l, ?_, (Bool.and_eq_true_iff.mp hpart).1⟩
  rw [hl]
  exact List.getElem?_eq_getElem _

/-- Marked lines move down by one with all others. -/
theorem markersFrom_succ (start : Nat) (ls : List (List Char))
    (hlimit : start + ls.length < lineLimit) :
    markersFrom marker (start + 1) ls = (markersFrom marker start ls).map (· + 1) := by
  rw [markersFrom, List.zipIdx_succ, List.filter_map, List.map_map, markersFrom, List.map_map]
  refine congrArg (List.map _) (List.filter_congr ?_)
  rintro ⟨l, i⟩ hmem
  have hlt := (List.mem_zipIdx hmem).2.1
  have hnext : i + 1 ≤ lineLimit := by omega
  show (hasPart marker.toList l && decide (i + 1 ≤ lineLimit)) =
    (hasPart marker.toList l && decide (i ≤ lineLimit))
  rw [decide_eq_true hnext, decide_eq_true (Nat.le_of_succ_le hnext)]

/-- The markers stand on the same lines, those from the cut on one line further down. -/
theorem markersFrom_insert (hmarker : marker.toList ≠ []) (front back : List (List Char))
    (hlimit : (front ++ back).length < lineLimit) :
    markersFrom marker 0 (front ++ [] :: back) =
      (markersFrom marker 0 (front ++ back)).map (shiftLine front.length) := by
  rw [List.length_append] at hlimit
  have hfront : (markersFrom marker 0 front).map (shiftLine front.length) =
      markersFrom marker 0 front := by
    refine (List.map_congr_left fun i hi => shiftLine_of_lt ?_).trans (List.map_id' _)
    have := (mem_markersFrom hi).2.1
    omega
  have hback : (markersFrom marker (0 + front.length) back).map (shiftLine front.length) =
      (markersFrom marker (0 + front.length) back).map (· + 1) := by
    refine List.map_congr_left fun i hi => shiftLine_of_le ?_
    have := (mem_markersFrom hi).1
    omega
  rw [markersFrom_append, markersFrom_append, List.map_append, hfront, hback,
    markersFrom_blank hmarker, markersFrom_succ _ _ (by omega)]

end Program

/-! ## A blank line in a source text -/

namespace Program

variable {front back : List Char} {config : Config}

/-- With a blank line at `cut` the same program is assembled, its lines from the cut on one further
    down. -/
theorem assemble_insert (hfront : EndsLine front) (hmarker : config.marker.toList ≠ [])
    (hlimit : (lines (front ++ back)).length < lineLimit)
    (hcut : IsCut (lines front).length (logicalLines (front ++ back)))
    (hlast : ∀ l ∈ (lines front).getLast?, hasPart config.marker.toList l = false) :
    assemble (front ++ '\n' :: back) config =
      (assemble (front ++ back) config).mapLines (shiftLine (lines front).length) := by
  have hlines : lines (front ++ back) = lines front ++ lines back := hfront.lines_append back
  have hlines' : lines (front ++ '\n' :: back) = lines front ++ [] :: lines back := by
    rw [hfront.lines_append, lines_newline]
  refine assemble_mapLines (strictMono_shiftLine _) ?_ ?_ ?_ ?_
  · -- the items
    have hitems := Item.ofLines_insert (lines back) 0 false (lines front)
    rw [Nat.zero_add, Nat.zero_add, ← hlines, ← hlines'] at hitems
    exact hitems hlimit hcut
  · intro s hs
    obtain ⟨s, address, hmem, rfl⟩ := exists_place_of_mem_placed hs
    have hline := Item.line_lt_of_mem_ofSource (Nat.le_of_lt hlimit) hmem
    show s.line < lineLimit ∧ shiftLine _ s.line < lineLimit
    rw [shiftLine]
    split <;> omega
  · rw [markerLines_eq, markerLines_eq, hlines', hlines]
    exact markersFrom_insert hmarker _ _ (hlines ▸ hlimit)
  · -- a marker right above the cut would be torn from its label
    intro i hi
    rw [markerLines_eq] at hi
    obtain ⟨-, -, l, hl, hpart⟩ := mem_markersFrom hi
    rcases Nat.lt_trichotomy (i + 1) (lines front).length with hlt | heq | hgt
    · rw [shiftLine_of_lt hlt, shiftLine_of_lt (Nat.lt_of_succ_lt hlt)]
    · have hmem : (lines front).getLast? = some l := by
        rw [List.getLast?_eq_getElem?, ← heq, ← hl, hlines]
        exact (List.getElem?_append_left (by omega)).symm
      rw [hlast l hmem] at hpart
      cases hpart
    · rw [shiftLine_of_le (Nat.le_of_lt_succ hgt), shiftLine_of_le (Nat.le_of_lt hgt)]

end Program

/-- Usable settings have a marker that is not empty. -/
theorem Config.marker_ne_nil {config : Config} (h : config.validate = .ok ()) :
    config.marker.toList ≠ [] := by
  intro hnil
  rw [validate, hnil] at h
  split at h
  · cases h
  · cases h

namespace Analysis

/-- A blank line between two logical lines, and not right below a marker, only moves what follows it:
    the analysis runs the same rounds and comes to the same results about the same statements, labels,
    blocks and routines, and lists the same findings, with every line number from the cut on
    increased by one. -/
theorem blankLine_shifts (front back : String) (config : Config)
    (hvalid : config.validate = .ok ()) (hfront : EndsLine front.toList)
    (hlimit : (lines (front ++ back).toList).length < lineLimit)
    (hcut : IsCut (lines front.toList).length (logicalLines (front ++ back).toList))
    (hlast : ∀ l ∈ (lines front.toList).getLast?, hasPart config.marker.toList l = false) :
    ∃ a b, ofSource (front ++ back) config = .ok a ∧
      ofSource (front ++ "\n" ++ back) config = .ok b ∧
      b = a.mapLines (shiftLine (lines front.toList).length) ∧
      (∀ i, b.last.flagsOf b.program i = a.last.flagsOf a.program i) ∧
      (∀ k, b.last.marksOf b.program k = a.last.marksOf a.program k ∧
        b.last.codesAfter b.program k = a.last.codesAfter a.program k) ∧
      b.findings = a.findings.map (Finding.mapLine (shiftLine (lines front.toList).length)) := by
  have htext : (front ++ "\n" ++ back).toList = front.toList ++ '\n' :: back.toList := by
    rw [String.toList_append, String.toList_append, List.append_assoc]
    rfl
  rw [String.toList_append] at hlimit hcut
  have hprogram := Program.assemble_insert hfront (Config.marker_ne_nil hvalid) hlimit hcut hlast
  have hb : ofText (front ++ "\n" ++ back) config =
      (ofText (front ++ back) config).mapLines (shiftLine (lines front.toList).length) := by
    rw [ofText, htext, hprogram, ofProgram_mapLines, ofText, String.toList_append]
  refine ⟨ofText (front ++ back) config, _, ofSource_eq_ok hvalid,
    (ofSource_eq_ok hvalid).trans (congrArg Except.ok hb), rfl, ?_, ?_, ?_⟩
  · intro i
    exact congrFun (congrFun (Round.flagsOf_mapLines _) _) i
  · intro k
    exact ⟨congrFun (congrFun (Round.marksOf_mapLines _) _) k,
      congrFun (congrFun (Round.codesAfter_mapLines _) _) k⟩
  · exact findings_mapLines _ (strictMono_shiftLine _) (refsValid_last _ config)

/-- A string over two lines. -/
def greeting : String :=
  "msg: .asciz \"good\nday\"\n"

/-- A use of the string, and a store that is overwritten. -/
def greet : String :=
  "    leal msg, %eax\n    movl $1, %ecx\n    movl $2, %ecx\n"

/-- The dead store moves from line 3 to line 4, the label stays on line 0. -/
theorem greeting_shifts :
    IsCut 2 (logicalLines (greeting ++ greet).toList) ∧
      ¬ IsCut 1 (logicalLines (greeting ++ greet).toList) ∧
      ∃ a b, ofSource (greeting ++ greet) {} = .ok a ∧
        ofSource (greeting ++ "\n" ++ greet) {} = .ok b ∧
        ⟨3, .deadStore⟩ ∈ a.findings ∧ ⟨4, .deadStore⟩ ∈ b.findings ∧
        ⟨0, .fault .sharesLine⟩ ∈ a.findings ∧ ⟨0, .fault .sharesLine⟩ ∈ b.findings := by
  obtain ⟨hcut, hinside, hlimit, hday, hmarker⟩ :
      IsCut 2 (logicalLines (greeting ++ greet).toList) ∧
      ¬ IsCut 1 (logicalLines (greeting ++ greet).toList) ∧
      (lines (greeting ++ greet).toList).length < lineLimit ∧
      (lines greeting.toList).getLast? = some "day\"".toList ∧
      hasPart ({} : Config).marker.toList "day\"".toList = false := by
    decide +kernel
  have hlast : ∀ l ∈ (lines greeting.toList).getLast?,
      hasPart ({} : Config).marker.toList l = false := by
    intro l hl
    rw [hday] at hl
    rw [← Option.some.inj hl]
    exact hmarker
  obtain ⟨a, b, ha, hb, -, -, -, hfindings⟩ :=
    blankLine_shifts greeting greet {} rfl (Or.inr (by decide)) hlimit hcut hlast
  have hraw : Finding.mk 3 .deadStore ∈ (ofText (greeting ++ greet) {}).rawFindings ∧
      Finding.mk 0 (.fault .sharesLine) ∈ (ofText (greeting ++ greet) {}).rawFindings := by
    decide +kernel
  rw [← eq_ofText_of_ofSource ha] at hraw
  have hdead := mem_findings.mpr hraw.1
  have hshares := mem_findings.mpr hraw.2
  refine ⟨hcut, hinside, a, b, ha, hb, hdead, ?_, hshares, ?_⟩
  · rw [hfindings]
    exact List.mem_map_of_mem hdead
  · rw [hfindings]
    exact List.mem_map_of_mem hshares

end Analysis

end AsmCheck
