import Brainfuck.Text.Basic
import Brainfuck.Instruction

namespace Brainfuck.Source

def isSymbol (breakpoint : Option Char) (c : Char) : Bool :=
  isInstruction c || breakpoint == some c

/-- The symbols of a source text in order, each with its offset in the text. -/
def symbols (breakpoint : Option Char) (source : Text) : List (Char × Nat) :=
  source.zipIdx.filter fun entry => isSymbol breakpoint entry.1

end Brainfuck.Source
