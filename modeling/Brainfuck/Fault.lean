import Brainfuck.Text.Numeral

namespace Brainfuck

inductive Bracket where
  | opening
  | closing
  deriving DecidableEq, Repr

def Bracket.toChar : Bracket → Char
  | .opening => '['
  | .closing => ']'

inductive Fault where
  | unmatched (bracket : Bracket) (index : Nat)
  | invalidInstruction (symbol : Char) (index : Nat)
  | notRecording
  deriving DecidableEq, Repr

namespace Fault

def index? : Fault → Option Nat
  | unmatched _ index => some index
  | invalidInstruction _ index => some index
  | notRecording => none

def message : Fault → Text
  | unmatched bracket index =>
    "Unmatched bracket ".toList ++ Text.quoted [bracket.toChar]
      ++ " at instruction ".toList ++ Text.decimal index
  | invalidInstruction symbol index =>
    "Invalid instruction: ".toList ++ Text.quoted [symbol]
      ++ " at instruction ".toList ++ Text.decimal index
  | notRecording => "Cannot step back: execution history is not being recorded".toList

end Fault
end Brainfuck
