import Brainfuck.Machine.Basic

namespace Brainfuck.Machine

/-- To where the jump logged for this step came from, if one was logged. -/
def unjump (m : Machine) : Machine :=
  match m.undo.jump? m.steps with
  | some origin => { m with pc := origin, undo := m.undo.dropJump m.steps }
  | none => m

def unread (m : Machine) : Machine :=
  match m.undo.read? m.steps with
  | some entry =>
    { m with
      pending := entry.consumed.toList ++ m.pending
      tape := m.tape.write entry.previous
      undo := m.undo.dropRead m.steps }
  | none => m

/-- Takes back what an instruction did, once the machine has gone back to it. -/
def revert : Instruction → Machine → Machine
  | .right, m => { m with tape := m.tape.left }
  | .left, m => { m with tape := m.tape.right }
  | .increment, m => { m with tape := m.tape.decrement m.settings.greatest }
  | .decrement, m => { m with tape := m.tape.increment m.settings.greatest }
  | .output, m => { m with output := m.output.pop }
  | .input, m => m.unread
  | .openLoop, m => m.unjump
  | .closeLoop, m => m.unjump

def retreat (m : Machine) : Machine := { m with pc := m.pc - 1, steps := m.steps - 1 }

def undone (m : Machine) : Machine :=
  let earlier := m.retreat
  match earlier.symbol?.bind Instruction.ofChar? with
  | some i => revert i earlier
  | none => earlier

/-- Takes back the last step. At the start there is none, and nothing happens. -/
def back (m : Machine) : Except Fault Machine :=
  if ! m.settings.recording then .error .notRecording
  else if m.steps = 0 then .ok m
  else .ok m.undone

def backUpTo : Nat → Machine → Machine × Option Fault
  | 0, m => (m, none)
  | count + 1, m =>
    if ! m.settings.recording then (m, some .notRecording)
    else if m.steps = 0 then (m, none)
    else backUpTo count m.undone

end Brainfuck.Machine
