import Brainfuck.Machine.Basic

namespace Brainfuck.Machine

def jump (m : Machine) : Machine :=
  { m with
    undo := if m.settings.recording then m.undo.putJump m.steps m.pc else m.undo
    pc := (m.program.partner? m.pc).getD m.pc }

/-- The value that a read of `c` gives, cut to the width of a cell. -/
def incoming (settings : Settings) (c : Char) : Nat := c.toNat &&& settings.greatest

def fillAtEnd (settings : Settings) (tape : Tape) : Tape :=
  match settings.endOfInput with
  | .zero => tape.write 0
  | .unchanged => tape
  | .greatest => tape.write settings.greatest

def read (m : Machine) : Machine :=
  let entry : Read := { previous := m.tape.current, consumed := m.pending.head? }
  { m with
    undo := if m.settings.recording then m.undo.putRead m.steps entry else m.undo
    pending := m.pending.tail
    tape :=
      match m.pending with
      | c :: _ => m.tape.write (incoming m.settings c)
      | [] => fillAtEnd m.settings m.tape }

/-- What an instruction does before the machine goes on to the next symbol. -/
def perform : Instruction → Machine → Machine
  | .right, m => { m with tape := m.tape.right }
  | .left, m => { m with tape := m.tape.left }
  | .increment, m => { m with tape := m.tape.increment m.settings.greatest }
  | .decrement, m => { m with tape := m.tape.decrement m.settings.greatest }
  | .output, m => { m with output := m.output.push m.tape.current }
  | .input, m => m.read
  | .openLoop, m => if m.tape.current = 0 then m.jump else m
  | .closeLoop, m => if m.tape.current = 0 then m else m.jump

def advance (m : Machine) : Machine := { m with pc := m.pc + 1, steps := m.steps + 1 }

def execute (c : Char) (m : Machine) : Machine :=
  match Instruction.ofChar? c with
  | some i => (perform i m).advance
  | none => m.advance

/-- The fault of a symbol that is neither an instruction nor the breakpoint. -/
def fault? (m : Machine) (c : Char) : Option Fault :=
  if Source.isSymbol m.settings.breakpoint c then none else some (.invalidInstruction c m.pc)

def step (m : Machine) : Except Fault Machine :=
  match m.symbol? with
  | none => .ok m
  | some c =>
    match m.fault? c with
    | some fault => .error fault
    | none => .ok (execute c m)

/-- Up to `count` steps, fewer when the program ends or a fault comes first. -/
def stepUpTo : Nat → Machine → Machine × Option Fault
  | 0, m => (m, none)
  | count + 1, m =>
    match m.symbol? with
    | none => (m, none)
    | some c =>
      match m.fault? c with
      | some fault => (m, some fault)
      | none => stepUpTo count (execute c m)

end Brainfuck.Machine
