import AsmCheck.Text.Blank
import AsmCheck.Text.Quote

/-! # Comments

    Comments between `/*` and `*/` are taken out wherever they stand and may
    run over several lines.  A hash sign at the start of a line or after a
    blank ends the line.  A line whose first text is `//` or a semicolon is
    dropped whole.  Nothing inside a string is a comment. -/

namespace AsmCheck.Source

open AsmCheck.Text

/-- Where the removal of comments stands within a line. -/
inductive CommentState where
  /-- Inside a comment between `/*` and `*/`. -/
  | block
  /-- In program text; `fresh` says that a hash sign here starts a comment. -/
  | code (quote : Quote) (fresh : Bool)
deriving DecidableEq, Repr

/-- Takes the comments out of what is left of a line; the flag says whether the line ends inside a
    block comment, for which a blank is put in its place once it closes. -/
def stripFrom : CommentState → List Char → List Char × Bool
  | .block, [] => ([], true)
  | .block, '*' :: '/' :: cs =>
    let rest := stripFrom (.code .outside true) cs
    (' ' :: rest.1, rest.2)
  | .block, _ :: cs => stripFrom .block cs
  | .code _ _, [] => ([], false)
  | .code .outside _, '/' :: '*' :: cs => stripFrom .block cs
  | .code .outside true, '#' :: _ => ([], false)
  | .code quote _, c :: cs =>
    let rest := stripFrom (.code (quote.step c) (quote == .outside && isBlank c)) cs
    (c :: rest.1, rest.2)

/-- Whether a line's first text makes the whole line a comment. -/
def isCommentLine (cs : List Char) : Bool :=
  match trimLeft cs with
  | '/' :: '/' :: _ => true
  | ';' :: _ => true
  | _ => false

/-- Takes the comments out of one line, given whether it starts inside a block comment; the flag
    says the same of the next line. -/
def stripLine (inBlock : Bool) (cs : List Char) : List Char × Bool :=
  if inBlock then stripFrom .block cs
  else if isCommentLine cs then ([], false)
  else stripFrom (.code .outside true) cs

/-- Takes the comments out of consecutive lines. -/
def stripLines (inBlock : Bool) : List (List Char) → List (List Char)
  | [] => []
  | l :: ls =>
    let stripped := stripLine inBlock l
    stripped.1 :: stripLines stripped.2 ls

end AsmCheck.Source
