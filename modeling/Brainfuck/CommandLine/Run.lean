import Brainfuck.Cell.Rendering
import Brainfuck.CommandLine.Host

namespace Brainfuck.CommandLine.Run

structure Limits where
  milliseconds : Nat
  maxSteps : Option Nat
  deriving DecidableEq, Repr

def timeoutVariable : Text := "BF_TIMEOUT_MS".toList

def maxStepsVariable : Text := "BF_MAX_STEPS".toList

/-- Options go before the environment. Without either there are two seconds and any number of
steps. -/
def limits (a : Arguments) (host : Host) : Limits :=
  { milliseconds := (a.timeout <|> host.count? timeoutVariable).getD 2000
    maxSteps := a.maxSteps <|> host.count? maxStepsVariable }

/-- Time is told by steps: a run is cancelled after as many as fit into its milliseconds. -/
def supervision (pace : Nat) (l : Limits) : Machine.Supervision :=
  { maxSteps := l.maxSteps, cancelAfter := some (l.milliseconds * pace) }

def carryOut (pace : Nat) (l : Limits) (m : Machine) : Except Abort Stop × Machine :=
  (m.supervise (supervision pace l) (l.milliseconds * pace + 1)).getD (.error .cancelled, m)

def timeoutText (milliseconds : Nat) : Text :=
  Text.line ("Execution aborted: wall-clock timeout exceeded (".toList ++ Text.decimal milliseconds
    ++ " ms)".toList)

def verdict (l : Limits) (source : Text) (m : Machine) : Except Abort Stop → Nat × Text
  | .ok .halted => (0, [])
  | .ok (.breakpoint index) =>
    (0, Text.line (Text.signed (some programName)
      ("suspended at breakpoint (instruction ".toList ++ Text.decimal index ++ ", step ".toList
        ++ Text.decimal m.steps ++ ")".toList)))
  | .error .cancelled => (1, timeoutText l.milliseconds)
  | .error abort => (1, abort.report (some programName) m.settings.breakpoint source)

/-- What was put out is shown however the run ended, and a line feed after it. -/
def conclude (format : CellFormat) (l : Limits) (source : Text)
    (run : Except Abort Stop × Machine) : Response :=
  let (code, stderr) := verdict l source run.2 run.1
  { code, stdout := Text.line (Cell.render format run.2.output.toList), stderr }

/-- Loads a program and runs it. Nothing is recorded, since a run never goes back. -/
def launch (a : Arguments) (host : Host) (source input : Text) (settings : Settings) : Response :=
  match Machine.load source input { settings with recording := false } with
  | .error fault =>
    { code := 1, stdout := Text.line [],
      stderr := fault.report (some programName) settings.breakpoint source }
  | .ok m =>
    let l := limits a host
    conclude a.format l source (carryOut host.pace l m)

def respond (a : Arguments) (host : Host) : Except Response Response :=
  if a.help then .error (.usage .run 0)
  else do
    a.checkSource .run
    let source ← a.source .run host
    let input ← a.inputText .run host
    let settings ← a.settings host
    .ok (launch a host source input settings)

end Brainfuck.CommandLine.Run
