import AsmCheck.Text.Blank
import AsmCheck.Text.Quote

/-! # Tokens

    A statement splits into a mnemonic and operands at blanks and commas, but
    not at those within parentheses or strings, so that an address such as
    `8(%ebp, %esi, 4)` or a string stays whole. -/

namespace AsmCheck.Source

open AsmCheck.Text

/-- Where a scan for tokens stands. -/
structure TokenState where
  /-- With respect to strings. -/
  quote : Quote := .outside
  /-- How many parentheses are open. -/
  depth : Nat := 0
deriving DecidableEq, Repr

namespace TokenState

/-- Whether a character here stands between tokens. -/
def separates (st : TokenState) (c : Char) : Bool :=
  st.quote == .outside && st.depth == 0 && (isBlank c || c == ',')

/-- The state after one more character of a token.  A closing parenthesis without an opening one
    changes nothing. -/
def step (st : TokenState) (c : Char) : TokenState where
  quote := st.quote.step c
  depth :=
    if st.quote = .outside then
      if c = '(' then st.depth + 1 else if c = ')' then st.depth - 1 else st.depth
    else st.depth

end TokenState

/-- The tokens of a text that continues a token, of which `current` has been read, last character
    first. -/
def tokensFrom (st : TokenState) (current : List Char) : List Char → List (List Char)
  | [] => if current.isEmpty then [] else [current.reverse]
  | c :: cs =>
    if st.separates c then
      if current.isEmpty then tokensFrom st [] cs else current.reverse :: tokensFrom st [] cs
    else tokensFrom (st.step c) (c :: current) cs

/-- The tokens of a text. -/
def tokens (cs : List Char) : List (List Char) :=
  tokensFrom {} [] cs

end AsmCheck.Source
