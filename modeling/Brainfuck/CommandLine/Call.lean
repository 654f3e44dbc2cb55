import Brainfuck.CommandLine.Debug
import Brainfuck.CommandLine.Run

namespace Brainfuck.CommandLine

inductive Outcome where
  | finished (response : Response)
  | conversation (mode : Debugger.Mode) (session : Debugger.Session)

/-- The environment variables that a call looks at. `BF_LOG` is not among them: all it asks for are
diagnostics besides the response. -/
def variableNames : List Text :=
  Settings.Key.all.map Settings.Key.variableName
    ++ [Debugger.Mode.variableName, Run.timeoutVariable, Run.maxStepsVariable]

def act (host : Host) (a : Arguments) : Action → Outcome
  | .run =>
    match Run.respond a host with
    | .ok r => .finished r
    | .error r => .finished r
  | .debug =>
    match Debug.prepare a host with
    | .ok (mode, session) => .conversation mode session
    | .error r => .finished r

def call (host : Host) (words : List Text) : Outcome :=
  match Request.read words with
  | .error refusal => .finished (.refused refusal)
  | .ok (.overview asked) => .finished (.overview (if asked then 0 else 2))
  | .ok (.act action a) => act host a action

/-- The response to a call whose conversation, if it comes to one, is read from standard input. It
is `none` when a run of the debugger needs more fuel. -/
def respond (fuel : Nat) (host : Host) (words : List Text) : Option Response :=
  match call host words with
  | .finished r => some r
  | .conversation _ session => Debug.converse fuel host session

end Brainfuck.CommandLine
