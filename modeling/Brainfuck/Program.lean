import Brainfuck.Source.Basic
import Brainfuck.Source.Brackets

namespace Brainfuck

structure Program where
  symbols : Array Char
  offsets : Array Nat
  partners : Source.Partners
  sourceLength : Nat
  deriving DecidableEq, Repr

namespace Program

/-- Drops the comments and pairs the brackets. -/
def load (breakpoint : Option Char) (source : Text) : Except Fault Program :=
  let kept := Source.symbols breakpoint source
  match Source.partners (kept.map Prod.fst) with
  | .error fault => .error fault
  | .ok partners => .ok
    { symbols := (kept.map Prod.fst).toArray
      offsets := (kept.map Prod.snd).toArray
      partners
      sourceLength := source.length }

def size (p : Program) : Nat := p.symbols.size

def symbol? (p : Program) (index : Nat) : Option Char := p.symbols[index]?

def partner? (p : Program) (index : Nat) : Option Nat := p.partners[index]?.join

def loopCount (p : Program) : Nat := (p.partners.toList.filter Option.isSome).length / 2

/-- Where the symbol at `index` stands in the source, or where the source ends if there is none. -/
def offset (p : Program) (index : Nat) : Nat := p.offsets[index]?.getD p.sourceLength

end Program
end Brainfuck
