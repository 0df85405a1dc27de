import AsmCheck.EnumSet

/-! # Condition codes

    Arithmetic leaves its result's sign behind: negative, zero or positive.
    A set of codes says either which signs are possible at a point of the
    program or which signs make a conditional jump taken. -/

namespace AsmCheck

/-- The sign of the last result, as a later conditional jump sees it. -/
inductive CondCode where
  | positive
  | zero
  | negative
deriving DecidableEq, Repr

namespace CondCode

instance : Enumerated CondCode where
  card := 3
  index
    | .positive => 0
    | .zero => 1
    | .negative => 2
  element := [CondCode.positive, .zero, .negative].get
  element_index a := by cases a <;> rfl
  index_element := by decide

/-- The letter a code is written with. -/
def letter : CondCode → Char
  | .negative => 'n'
  | .zero => 'z'
  | .positive => 'p'

/-- The code of a letter. -/
def ofLetter? : Char → Option CondCode
  | 'n' => some .negative
  | 'z' => some .zero
  | 'p' => some .positive
  | _ => none

/-- The order in which the codes of a set are written. -/
def written : List CondCode :=
  [.negative, .zero, .positive]

end CondCode

/-- A set of condition codes. -/
abbrev CodeSet := EnumSet CondCode

namespace CodeSet

/-- A set is written as the letters of its codes, the empty set as a dash. -/
def render (s : CodeSet) : String :=
  if s.isEmpty then "-"
  else String.ofList ((CondCode.written.filter s.contains).map CondCode.letter)

end CodeSet

end AsmCheck
