import Brainfuck.Machine.Forward

namespace Brainfuck

inductive Stop where
  | halted
  | breakpoint (index : Nat)
  deriving DecidableEq, Repr

inductive Abort where
  | fault (cause : Fault)
  | stepLimit (limit : Nat)
  | cancelled
  deriving DecidableEq, Repr

def Abort.message : Abort → Text
  | .fault cause => cause.message
  | .stepLimit limit =>
    "Execution aborted: step limit exceeded (".toList ++ Text.decimal limit ++ ")".toList
  | .cancelled => "Execution aborted: cancelled".toList

namespace Machine

def isBreakpoint (m : Machine) (c : Char) : Bool := m.settings.breakpoint == some c

/-- Up to the end of the program or a breakpoint. A run may go on forever, so it is given fuel,
which every step uses up; `none` says that it was not enough. -/
def run : Nat → Machine → Option (Except Fault Stop × Machine)
  | 0, _ => none
  | fuel + 1, m =>
    match m.symbol? with
    | none => some (.ok .halted, m)
    | some c =>
      match m.fault? c with
      | some fault => some (.error fault, m)
      | none =>
        let next := execute c m
        if next.isBreakpoint c then some (.ok (.breakpoint (next.pc - 1)), next)
        else run fuel next

/-- What a supervised run looks at before every step. -/
structure Supervision where
  maxSteps : Option Nat := none
  /-- The number of steps of the run after which it is cancelled, by the clock or by ctrl+c. -/
  cancelAfter : Option Nat := none
  deriving DecidableEq, Repr

/-- Why a run that has taken `taken` steps may take no other. Cancelling goes before the limit. -/
def Supervision.abort? (s : Supervision) (taken : Nat) : Option Abort :=
  if s.cancelAfter.any (· ≤ taken) then some .cancelled
  else match s.maxSteps with
    | some limit => if limit ≤ taken then some (.stepLimit limit) else none
    | none => none

def superviseFrom (s : Supervision) :
    Nat → Nat → Machine → Option (Except Abort Stop × Machine)
  | 0, _, _ => none
  | fuel + 1, taken, m =>
    match m.symbol? with
    | none => some (.ok .halted, m)
    | some c =>
      match s.abort? taken with
      | some abort => some (.error abort, m)
      | none =>
        match m.fault? c with
        | some fault => some (.error (.fault fault), m)
        | none =>
          let next := execute c m
          if next.isBreakpoint c then some (.ok (.breakpoint (next.pc - 1)), next)
          else superviseFrom s fuel (taken + 1) next

def supervise (s : Supervision) (fuel : Nat) (m : Machine) :
    Option (Except Abort Stop × Machine) := superviseFrom s fuel 0 m

end Machine
end Brainfuck
