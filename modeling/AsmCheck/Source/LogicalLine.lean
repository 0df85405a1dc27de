import AsmCheck.Source.Comment
import AsmCheck.Text.Lines

/-! # Logical lines

    A logical line is one physical line without its comments, except that a
    string directive whose string is still open takes in the lines up to the
    one that closes it. -/

namespace AsmCheck.Source

open AsmCheck.Text

/-- The greatest line number; lines beyond it share it. -/
def lineLimit : Nat := 4294967295

/-- The number of a line, counted from zero. -/
def lineNumber (index : Nat) : Nat :=
  min index lineLimit

/-- One line of source text after the removal of comments. -/
structure LogicalLine where
  /-- The physical line it starts on. -/
  line : Nat
  /-- How many physical lines it takes up. -/
  span : Nat
  /-- Its text. -/
  text : List Char
deriving DecidableEq, Repr

/-- The directives that store strings. -/
def stringDirectives : List String :=
  [".ascii", ".asciz", ".string"]

/-- Whether some word of the text, less anything up to its last colon, is a string directive. -/
def hasStringDirective (cs : List Char) : Bool :=
  (words cs).any fun w =>
    let name := (w.splitOn ':').getLast?.getD w
    stringDirectives.any fun d => isWord d name

/-- Takes in lines until the string that is open at their start closes.  A semicolon after the
    string cuts its line short.  Gives the text taken in and the lines left over. -/
def closeString : List (List Char) → List Char × List (List Char)
  | [] => ([], [])
  | l :: ls =>
    let part := cutOutside ';' .inside l
    if Quote.inside.run part = .outside then ('\n' :: part, ls)
    else
      let rest := closeString ls
      ('\n' :: part ++ rest.1, rest.2)

/-- Closing a string never adds lines. -/
theorem closeString_length_le (ls : List (List Char)) : (closeString ls).2.length ≤ ls.length := by
  induction ls with
  | nil => exact Nat.le_refl 0
  | cons l ls ih =>
    rw [closeString]
    dsimp only
    split
    · exact Nat.le_succ _
    · exact Nat.le_succ_of_le ih

/-- The text of a logical line that starts with the stripped line `text`, and the lines after it. -/
def completeLine (text : List Char) (ls : List (List Char)) : List Char × List (List Char) :=
  if hasStringDirective text && hasOpenQuote text then
    (text ++ (closeString ls).1, (closeString ls).2)
  else (text, ls)

/-- Completing a line never adds lines. -/
theorem completeLine_length_le (text : List Char) (ls : List (List Char)) :
    (completeLine text ls).2.length ≤ ls.length := by
  rw [completeLine]
  split
  · exact closeString_length_le ls
  · exact Nat.le_refl _

/-- The logical lines of physical lines that start at line `start`, inside a block comment or not. -/
def logicalFrom (start : Nat) (inBlock : Bool) : List (List Char) → List LogicalLine
  | [] => []
  | l :: ls =>
    let stripped := stripLine inBlock l
    let rest := (completeLine stripped.1 ls).2
    let span := ls.length + 1 - rest.length
    { line := lineNumber start, span := lineNumber span, text := (completeLine stripped.1 ls).1 } ::
      logicalFrom (start + span) stripped.2 rest
termination_by ls => ls.length
decreasing_by
  exact Nat.lt_succ_of_le (completeLine_length_le _ ls)

/-- The logical lines of a source text. -/
def logicalLines (source : List Char) : List LogicalLine :=
  logicalFrom 0 false (lines source)

end AsmCheck.Source
