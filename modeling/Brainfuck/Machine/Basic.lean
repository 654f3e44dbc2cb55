import Brainfuck.Program
import Brainfuck.Settings.Basic
import Brainfuck.UndoLog

namespace Brainfuck

/-- A program at one point of its execution. All of the input is kept for a restart, besides what is
still to be read. -/
structure Machine where
  program : Program
  settings : Settings
  input : Text
  tape : Tape := {}
  pc : Nat := 0
  steps : Nat := 0
  output : Array Nat := #[]
  pending : Text
  undo : UndoLog := {}

namespace Machine

def start (program : Program) (settings : Settings) (input : Text) : Machine :=
  { program, settings, input, pending := input }

def load (source input : Text) (settings : Settings) : Except Fault Machine :=
  match Program.load settings.breakpoint source with
  | .ok program => .ok (start program settings input)
  | .error fault => .error fault

def restart (m : Machine) : Machine := start m.program m.settings m.input

def symbol? (m : Machine) : Option Char := m.program.symbol? m.pc

def halted (m : Machine) : Bool := m.program.size ≤ m.pc

def canGoBack (m : Machine) : Bool := m.settings.recording && 0 < m.steps

/-- What can be seen of a machine from outside. -/
structure Observation where
  cells : List Nat
  pointer : Int
  pc : Nat
  steps : Nat
  output : Array Nat
  deriving DecidableEq, Repr

def observe (m : Machine) : Observation :=
  { cells := m.tape.cells, pointer := m.tape.pointer, pc := m.pc, steps := m.steps,
    output := m.output }

end Machine
end Brainfuck
