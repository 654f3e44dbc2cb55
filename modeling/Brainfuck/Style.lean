import Brainfuck.Text.Numeral

namespace Brainfuck

structure Color where
  red : Nat
  green : Nat
  blue : Nat
  deriving DecidableEq, Repr

def Color.codes (c : Color) : List Text :=
  ["38".toList, "2".toList, Text.decimal c.red, Text.decimal c.green, Text.decimal c.blue]

structure Style where
  bold : Bool := false
  underline : Bool := false
  color : Option Color := none
  deriving DecidableEq, Repr

namespace Style

def escape : Char := '\x1b'

/-- The codes of a style: bold is 1, underlined 4, and a colour starts with 38 and 2. -/
def codes (s : Style) : List Text :=
  (if s.bold then ["1".toList] else []) ++ (if s.underline then ["4".toList] else [])
    ++ (s.color.map Color.codes).getD []

def sequence (codes : List Text) : Text :=
  escape :: '[' :: List.intercalate [';'] codes ++ ['m']

def paint (s : Style) (t : Text) : Text :=
  if s.codes = [] then t else sequence s.codes ++ t ++ sequence ["0".toList]

end Style

namespace Palette

def sky : Color := ⟨137, 220, 235⟩

def teal : Color := ⟨148, 226, 213⟩

def green : Color := ⟨166, 227, 161⟩

def red : Color := ⟨243, 139, 168⟩

def yellow : Color := ⟨249, 226, 175⟩

def peach : Color := ⟨250, 179, 135⟩

def mauve : Color := ⟨203, 166, 247⟩

def blue : Color := ⟨137, 180, 250⟩

def grey : Color := ⟨108, 112, 134⟩

end Palette
end Brainfuck
