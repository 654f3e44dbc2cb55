namespace Brainfuck

inductive Instruction where
  | right
  | left
  | increment
  | decrement
  | output
  | input
  | openLoop
  | closeLoop
  deriving DecidableEq, Repr

namespace Instruction

def ofChar? : Char → Option Instruction
  | '>' => some right
  | '<' => some left
  | '+' => some increment
  | '-' => some decrement
  | '.' => some output
  | ',' => some input
  | '[' => some openLoop
  | ']' => some closeLoop
  | _ => none

def toChar : Instruction → Char
  | right => '>'
  | left => '<'
  | increment => '+'
  | decrement => '-'
  | output => '.'
  | input => ','
  | openLoop => '['
  | closeLoop => ']'

theorem ofChar?_toChar (i : Instruction) : ofChar? i.toChar = some i := by cases i <;> rfl

theorem toChar_of_ofChar? {c : Char} {i : Instruction} (h : ofChar? c = some i) :
    i.toChar = c := by
  unfold ofChar? at h
  split at h <;> cases h <;> rfl

end Instruction

def isInstruction (c : Char) : Bool := (Instruction.ofChar? c).isSome

end Brainfuck
