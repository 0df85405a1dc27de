/-! # Columns

    Text and numbers brought to a width, which counts characters. -/

namespace AsmCheck.Text

/-- Text at the left of a column of at least `width` characters. -/
def alignLeft (width : Nat) (s : String) : String :=
  s ++ String.ofList (List.replicate (width - s.length) ' ')

/-- Text at the right of a column of at least `width` characters, after copies of `fill`. -/
def alignRight (width : Nat) (fill : Char) (s : String) : String :=
  String.ofList (List.replicate (width - s.length) fill) ++ s

/-- A number at the right of a column. -/
def number (width n : Nat) : String :=
  alignRight width ' ' (toString n)

/-- An address in hexadecimal, with at least four digits. -/
def address (n : Nat) : String :=
  "0x" ++ alignRight 4 '0' (String.ofList (Nat.toDigits 16 n))

/-- Items in brackets. -/
def bracketed (items : List String) : String :=
  "[" ++ ", ".intercalate items ++ "]"

end AsmCheck.Text
