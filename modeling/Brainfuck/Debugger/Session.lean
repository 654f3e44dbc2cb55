import Brainfuck.Debugger.View
import Brainfuck.Machine.Backward
import Brainfuck.Machine.Run

namespace Brainfuck.Debugger

structure Session where
  source : Text
  machine : Machine
  outputFormat : CellFormat := .ascii
  memoryFormat : CellFormat := .decimal
  color : Bool := false
  maxSteps : Option Nat := none
  /-- Whether the user has asked the next command to stop. -/
  interrupted : Bool := false

inductive Flow where
  | more
  | quit
  deriving DecidableEq, Repr

structure Reply where
  text : Text
  flow : Flow
  session : Session

def Session.load (source input : Text) (settings : Settings) : Except Fault Session :=
  (Machine.load source input settings).map fun machine => { source, machine }

def interruptedText : Text := Text.line "interrupted".toList

def faultText (message : Text) : Text := Text.line ("error: ".toList ++ message)

def stepsText : Option Fault → Text
  | none => []
  | some fault => faultText fault.message

/-- Up to `count` steps forward. An interruption stops the first of them, if there is one. -/
def forward (interrupted : Bool) (count : Nat) (m : Machine) : Text × Machine :=
  if count = 0 ∨ m.halted then ([], m)
  else if interrupted then (interruptedText, m)
  else
    let (machine, fault) := m.stepUpTo count
    (stepsText fault, machine)

/-- Up to `count` steps back. At the start there is nothing to take back, and an interruption is not
noticed. -/
def backward (interrupted : Bool) (count : Nat) (m : Machine) : Text × Machine :=
  if count = 0 ∨ m.steps = 0 ∧ m.settings.recording then ([], m)
  else if interrupted then (interruptedText, m)
  else
    let (machine, fault) := m.backUpTo count
    (stepsText fault, machine)

def runText : Except Abort Stop → Text
  | .ok .halted => Text.line "halted".toList
  | .ok (.breakpoint index) =>
    Text.line ("breakpoint at instruction ".toList ++ Text.decimal index)
  | .error (.fault cause) => faultText cause.message
  | .error abort => Text.line abort.message

namespace Session

def supervision (s : Session) : Machine.Supervision :=
  { maxSteps := s.maxSteps, cancelAfter := if s.interrupted then some 0 else none }

def moved (s : Session) (text : Text) (machine : Machine) : Reply :=
  { text := text ++ stateText machine, flow := .more, session := { s with machine } }

def told (s : Session) (text : Text) : Reply := { text, flow := .more, session := s }

/-- What a command does while the request to stop is as it is; `none` when a run needs more fuel. -/
def answer (fuel : Nat) (s : Session) : Command → Option Reply
  | .step count =>
    let (text, machine) := forward s.interrupted count s.machine
    some (s.moved text machine)
  | .back count =>
    let (text, machine) := backward s.interrupted count s.machine
    some (s.moved text machine)
  | .run =>
    (s.machine.supervise s.supervision fuel).map fun (ending, machine) =>
      s.moved (runText ending) machine
  | .reset => some (s.moved [] s.machine.restart)
  | .memory format =>
    let s := { s with memoryFormat := format.getD s.memoryFormat }
    some (s.told (memoryText s.memoryFormat s.machine.tape))
  | .output format =>
    let s := { s with outputFormat := format.getD s.outputFormat }
    some (s.told (outputText s.outputFormat s.machine))
  | .location => some (s.told (locationText s.color s.source s.machine))
  | .state => some (s.told (stateText s.machine))
  | .help => some (s.told helpText)
  | .quit => some { text := [], flow := .quit, session := s }

/-- Every command, once done, drops the request to stop. -/
def perform (fuel : Nat) (s : Session) (command : Command) : Option Reply :=
  (s.answer fuel command).map fun reply =>
    { reply with session := { reply.session with interrupted := false } }

/-- A line is empty, or a command, or else is told to be wrong. -/
def respond (fuel : Nat) (s : Session) (line : Text) : Option Reply :=
  if Text.trim line = [] then some (s.told [])
  else match Command.read (Text.trim line) with
    | .ok command => s.perform fuel command
    | .error e => some (s.told (faultText e.message))

end Session
end Brainfuck.Debugger
