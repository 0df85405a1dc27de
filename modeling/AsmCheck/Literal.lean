import AsmCheck.Text.Blank

/-! # Literals

    Numbers are written in decimal, in hexadecimal after `0x`, or in octal
    after a leading zero.  They stand for 64-bit signed integers, and a number
    beyond that range stands for the end of the range that it is nearest to.
    Characters stand between apostrophes. -/

namespace AsmCheck

/-- How a number is spelled. -/
inductive Radix where
  | decimal
  | hex
  | octal
deriving DecidableEq, Repr

namespace Radix

/-- The base of the digits. -/
def base : Radix → Nat
  | .decimal => 10
  | .hex => 16
  | .octal => 8

end Radix

namespace Literal

/-! ## Reading -/

/-- Whether a character is a digit in base eight. -/
def isOctalDigit (c : Char) : Bool :=
  '0' ≤ c && c ≤ '7'

/-- Whether a character is a digit in base sixteen, in capital or small letters. -/
def isHexDigit (c : Char) : Bool :=
  c.isDigit || ('a' ≤ c && c ≤ 'f') || ('A' ≤ c && c ≤ 'F')

/-- The value of a digit. -/
def digitValue (c : Char) : Nat :=
  if c.isDigit then c.toNat - '0'.toNat
  else if 'a' ≤ c then c.toNat - 'a'.toNat + 10
  else c.toNat - 'A'.toNat + 10

/-- The least and the greatest integer of a range. -/
structure Bounds where
  least : Int
  greatest : Int

namespace Bounds

/-- The signed integers of 64 bits. -/
def int64 : Bounds where
  least := -0x8000000000000000
  greatest := 0x7fffffffffffffff

/-- The signed integers of 128 bits. -/
def int128 : Bounds where
  least := -0x80000000000000000000000000000000
  greatest := 0x7fffffffffffffffffffffffffffffff

/-- An integer, if it is in the range. -/
def narrow? (r : Bounds) (n : Int) : Option Int :=
  if r.least ≤ n ∧ n ≤ r.greatest then some n else none

end Bounds

/-- The nearest 64-bit signed integer. -/
def clamp (n : Int) : Int :=
  max (-0x8000000000000000) (min n 0x7fffffffffffffff)

/-- Goes on from a number with the digits behind it, in 128 bits, unless it gets too large. -/
def accumulate? (base : Nat) (n : Int) : List Char → Option Int
  | [] => some n
  | c :: cs =>
    (Bounds.int128.narrow? (n * base)).bind fun shifted =>
      (Bounds.int128.narrow? (shifted + digitValue c)).bind fun n => accumulate? base n cs

/-- The number that digits denote in a base, or the greatest one of 128 bits if they denote more. -/
def magnitude128 (base : Nat) (ds : List Char) : Int :=
  (accumulate? base 0 ds).getD Bounds.int128.greatest

/-- A number with its sign in 64 bits, or the end of the range that the sign points to. -/
def signed64 (negative : Bool) (n : Int) : Int :=
  (Bounds.int64.narrow? (if negative then -n else n)).getD
    (if negative then Bounds.int64.least else Bounds.int64.greatest)

/-- Splits off a minus sign. -/
def splitMinus : List Char → Bool × List Char
  | '-' :: cs => (true, cs)
  | cs => (false, cs)

/-- Reads the digits of a number and how they are spelled, and a second minus sign, which only
    hexadecimal digits may carry. -/
def readDigits : List Char → Option (Bool × List Char × Radix)
  | '0' :: c :: cs =>
    if c = 'x' ∨ c = 'X' then
      let (minus, ds) := splitMinus cs
      if !ds.isEmpty && ds.all isHexDigit then some (minus, ds, .hex) else none
    else if (c :: cs).all isOctalDigit then some (false, '0' :: c :: cs, .octal) else none
  | ['0'] => some (false, ['0'], .octal)
  | cs => if !cs.isEmpty && cs.all Char.isDigit then some (false, cs, .decimal) else none

/-- The integer that a text spells, with its spelling.  Two minus signs cancel out. -/
def readNumber (cs : List Char) : Option (Int × Radix) :=
  let (minus, rest) := splitMinus cs
  (readDigits rest).map fun (minus', ds, radix) =>
    (signed64 (minus ^^ minus') (magnitude128 radix.base ds), radix)

/-- The character that a backslash makes of another. -/
def unescape : Char → Char
  | 'n' => '\n'
  | 't' => '\t'
  | 'r' => '\r'
  | '0' => '\x00'
  | c => c

/-- The character that a text between apostrophes spells: one character, or a backslash and one. -/
def readQuoted : List Char → Option Char
  | [c] => if c = '\\' then none else some c
  | [b, c] => if b = '\\' then some (unescape c) else none
  | _ => none

/-- The character that a text with its apostrophes spells. -/
def readChar : List Char → Option Char
  | '\x27' :: cs => if cs.getLast? = some '\x27' then readQuoted cs.dropLast else none
  | _ => none

/-- Whether a character may start a name. -/
def isNameStart (c : Char) : Bool :=
  c.isAlpha || c == '_' || c == '.'

/-- Whether a text can name a label. -/
def isName : List Char → Bool
  | [] => false
  | c :: cs => isNameStart c && cs.all fun c => isNameStart c || c.isDigit

/-! ## Writing -/

/-- The digits of a number, hexadecimal ones in small letters, after the mark of their base. -/
def writeNat : Radix → Nat → List Char
  | .decimal, n => Nat.toDigits 10 n
  | .hex, n => '0' :: 'x' :: Nat.toDigits 16 n
  | .octal, 0 => ['0']
  | .octal, n => '0' :: Nat.toDigits 8 n

/-- An integer, with a minus sign in front if it is negative. -/
def writeNumber (radix : Radix) (n : Int) : List Char :=
  if n < 0 then '-' :: writeNat radix n.natAbs else writeNat radix n.natAbs

/-- What stands between the apostrophes for a character. -/
def writeQuoted : Char → List Char
  | '\n' => ['\\', 'n']
  | '\t' => ['\\', 't']
  | '\r' => ['\\', 'r']
  | '\x00' => ['\\', '0']
  | c => [c]

/-- A character with its apostrophes. -/
def writeChar (c : Char) : List Char :=
  '\x27' :: writeQuoted c ++ ['\x27']

/-- A number in hexadecimal, as addresses are shown. -/
def hexText (n : Nat) : String :=
  String.ofList (writeNat .hex n)

end Literal

end AsmCheck
