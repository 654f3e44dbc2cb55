import Brainfuck.Text.Blank

namespace Brainfuck.Source

def excerptReach : Nat := 32

structure Excerpt where
  line : Text
  caret : Text
  deriving DecidableEq, Repr

/-- Blanks are shown as spaces, since line breaks and tabs would move the caret. -/
def excerpt (source : Text) (offset : Nat) : Excerpt :=
  let start := offset - excerptReach
  { line := ((source.drop start).take (offset + excerptReach + 1 - start)).map fun c =>
      if Text.isBlank c then ' ' else c
    caret := List.replicate (offset - start) ' ' ++ ['^'] }

def Excerpt.lines (e : Excerpt) : List Text := [e.line, e.caret]

end Brainfuck.Source
