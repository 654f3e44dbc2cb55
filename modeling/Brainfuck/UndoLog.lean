import Std.Data.HashMap
import Brainfuck.Tape

namespace Brainfuck

/-- What a read replaced: the cell's value, and the character taken unless the input was over. -/
structure Read where
  previous : Nat
  consumed : Option Char
  deriving DecidableEq, Repr

/-- Where the jumps came from and what the reads replaced, which their instructions alone do not
tell. Entries go by the step count at which the instruction ran. -/
structure UndoLog where
  jumps : Std.HashMap Nat Nat := ∅
  reads : Std.HashMap Nat Read := ∅

namespace UndoLog

def putJump (log : UndoLog) (step origin : Nat) : UndoLog :=
  { log with jumps := log.jumps.insert step origin }

def putRead (log : UndoLog) (step : Nat) (read : Read) : UndoLog :=
  { log with reads := log.reads.insert step read }

def jump? (log : UndoLog) (step : Nat) : Option Nat := log.jumps[step]?

def read? (log : UndoLog) (step : Nat) : Option Read := log.reads[step]?

def dropJump (log : UndoLog) (step : Nat) : UndoLog :=
  { log with jumps := log.jumps.erase step }

def dropRead (log : UndoLog) (step : Nat) : UndoLog :=
  { log with reads := log.reads.erase step }

def size (log : UndoLog) : Nat := log.jumps.size + log.reads.size

def isEmpty (log : UndoLog) : Bool := log.jumps.isEmpty && log.reads.isEmpty

theorem jump?_putJump (log : UndoLog) (step origin s : Nat) :
    (log.putJump step origin).jump? s = if step = s then some origin else log.jump? s := by
  simp [jump?, putJump, Std.HashMap.getElem?_insert]

theorem read?_putRead (log : UndoLog) (step : Nat) (read : Read) (s : Nat) :
    (log.putRead step read).read? s = if step = s then some read else log.read? s := by
  simp [read?, putRead, Std.HashMap.getElem?_insert]

theorem jump?_dropJump (log : UndoLog) (step s : Nat) :
    (log.dropJump step).jump? s = if step = s then none else log.jump? s := by
  simp [jump?, dropJump, Std.HashMap.getElem?_erase]

theorem read?_dropRead (log : UndoLog) (step s : Nat) :
    (log.dropRead step).read? s = if step = s then none else log.read? s := by
  simp [read?, dropRead, Std.HashMap.getElem?_erase]

end UndoLog
end Brainfuck
