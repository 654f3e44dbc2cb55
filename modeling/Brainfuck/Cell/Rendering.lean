import Brainfuck.Text.Blank
import Brainfuck.Text.Numeral
import Brainfuck.Tape

namespace Brainfuck

inductive CellFormat where
  | ascii
  | hexadecimal
  | decimal
  deriving DecidableEq, Repr

structure UnknownFormat where
  name : Text
  deriving DecidableEq, Repr

def UnknownFormat.message (e : UnknownFormat) : Text :=
  "unknown format ".toList ++ Text.quoted e.name ++ ", expected ascii, hex or dec".toList

namespace CellFormat

def names : CellFormat → List Text
  | ascii => ["ascii".toList, "a".toList, "text".toList]
  | hexadecimal => ["hex".toList, "x".toList, "hexadecimal".toList]
  | decimal => ["dec".toList, "d".toList, "decimal".toList]

def read (name : Text) : Except UnknownFormat CellFormat :=
  match [ascii, hexadecimal, decimal].find? fun f =>
      f.names.contains (Text.lower (Text.trim name)) with
  | some f => .ok f
  | none => .error ⟨name⟩

end CellFormat

namespace Cell

/-- The character with the value as its code, or U+FFFD where there is none. -/
def toChar (value : Nat) : Char :=
  if value.isValidChar then Char.ofNat value else '\uFFFD'

/-- Characters follow one another, numbers have one space between them. -/
def render (format : CellFormat) (values : List Nat) : Text :=
  match format with
  | .ascii => values.map toChar
  | .hexadecimal => Text.spaced (values.map Text.hexadecimal)
  | .decimal => Text.spaced (values.map Text.decimal)

/-- Printable ASCII stands for itself. Other values are escaped: line feed, carriage return and
tab by a letter, the rest of the bytes by two hexadecimal digits, and wider values by as many as
they need in braces. -/
def escapeOne (value : Nat) : Text :=
  if 0x20 ≤ value ∧ value ≤ 0x7E then [Char.ofNat value]
  else if value = 0x0A then "\\n".toList
  else if value = 0x0D then "\\r".toList
  else if value = 0x09 then "\\t".toList
  else if value < 0x10 then "\\x0".toList ++ Text.capitalHexadecimal value
  else if value ≤ 0xFF then "\\x".toList ++ Text.capitalHexadecimal value
  else "\\u".toList ++ ['\x7b'] ++ Text.capitalHexadecimal value ++ ['\x7d']

def escape (values : List Nat) : Text := values.flatMap escapeOne

def display (format : CellFormat) (values : List Nat) : Text :=
  match format with
  | .ascii => escape values
  | .hexadecimal => render .hexadecimal values
  | .decimal => render .decimal values

end Cell
end Brainfuck
