/-! # Physical lines

    A line ends at a line feed, together with one carriage return directly
    before it.  What follows the last line feed is a line only if there is
    something. -/

namespace AsmCheck.Text

/-- The text without one carriage return at its end. -/
def dropReturn (cs : List Char) : List Char :=
  if cs.getLast? = some '\r' then cs.dropLast else cs

/-- The lines of a text, without their line ends. -/
def lines (cs : List Char) : List (List Char) :=
  let pieces := cs.splitOn '\n'
  let last := pieces.getLast?.getD []
  pieces.dropLast.map dropReturn ++ if last.isEmpty then [] else [last]

end AsmCheck.Text
