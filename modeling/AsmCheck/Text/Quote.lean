/-! # Quoted text

    A double quote opens a string and the next one closes it; inside a string
    a backslash takes the character after it along, whatever that is.  One
    small automaton follows this, and every scan of source text that has to
    know about strings runs it. -/

namespace AsmCheck.Text

/-- Where a scan stands with respect to string quotes. -/
inductive Quote where
  /-- Outside any string. -/
  | outside
  /-- Inside a string. -/
  | inside
  /-- Inside a string, directly after a backslash. -/
  | escaped
deriving DecidableEq, Repr

namespace Quote

/-- The position after one more character. -/
def step : Quote → Char → Quote
  | .outside, '"' => .inside
  | .outside, _ => .outside
  | .inside, '"' => .outside
  | .inside, '\\' => .escaped
  | .inside, _ => .inside
  | .escaped, _ => .inside

/-- The position after a stretch of text. -/
def run (q : Quote) (cs : List Char) : Quote :=
  cs.foldl step q

end Quote

/-- Whether the text ends inside a string that it opened. -/
def hasOpenQuote (cs : List Char) : Bool :=
  Quote.outside.run cs != .outside

/-- The text up to the first `stop` character that stands outside strings, from a given position. -/
def cutOutside (stop : Char) : Quote → List Char → List Char
  | _, [] => []
  | .outside, c :: cs => if c = stop then [] else c :: cutOutside stop (Quote.outside.step c) cs
  | q, c :: cs => c :: cutOutside stop (q.step c) cs

end AsmCheck.Text
