import AsmCheck.Text.Blank

/-! # Settings of an analysis -/

namespace AsmCheck

/-- The settings of one analysis. -/
structure Config where
  /-- How many rounds to run at most. -/
  maxRounds : Nat := 5
  /-- The text that marks the label on the line below it as a subroutine's entry. -/
  marker : String := "@SUBROUTINE"
  /-- Whether marks count; without them only the program's entry is traced. -/
  checksSubroutines : Bool := true
deriving DecidableEq, Repr

/-- Why settings cannot be used. -/
inductive ConfigError where
  | zeroRounds
  | emptyMarker
deriving DecidableEq, Repr

namespace ConfigError

/-- The wording of the error. -/
def message : ConfigError → String
  | .zeroRounds => "max rounds must be at least 1"
  | .emptyMarker => "subroutine marker must not be empty"

end ConfigError

namespace Config

/-- Refuses settings that no analysis can run with: no rounds at all, or a marker of blanks only. -/
def validate (c : Config) : Except ConfigError Unit :=
  if c.maxRounds = 0 then .error .zeroRounds
  else if (Text.trim c.marker.toList).isEmpty then .error .emptyMarker
  else .ok ()

end Config

end AsmCheck
