import Brainfuck.CommandLine.Host
import Brainfuck.Debugger.Mode
import Brainfuck.Debugger.Transcript

namespace Brainfuck.CommandLine.Debug

open Debugger

def modeOption (a : Arguments) : Option Mode :=
  if a.bare then some .bare else if a.editor then some .editor else none

def mode (a : Arguments) (host : Host) : Except Response Mode :=
  match Mode.select (modeOption a) (host.environment Mode.variableName) host.terminal with
  | .ok mode => .ok mode
  | .error e => .error (.complaint 1 e.message)

def session (a : Arguments) (source input : Text) (settings : Settings) :
    Except Response Session :=
  let settings := if a.noHistory then { settings with recording := false } else settings
  match Session.load source input settings with
  | .ok s => .ok { s with maxSteps := a.maxSteps }
  | .error fault => .error
    { code := 1, stderr := fault.report (some programName) settings.breakpoint source }

def prepare (a : Arguments) (host : Host) : Except Response (Mode × Session) :=
  if a.help then .error (.usage .debug 0)
  else do
    a.checkSource .debug
    let mode ← mode a host
    let source ← a.source .debug host
    let input ← a.inputText .debug host
    let settings ← a.settings host
    let session ← session a source input settings
    .ok (mode, session)

/-- A failed read of the commands, after what has been shown. -/
def broken (e : ReadFailure) (text : Text) : Response :=
  { Response.complaint 1 ("debugger error: ".toList ++ e.message) with stdout := text }

/-- A stream that holds a line in another encoding ends the call in failure. -/
def conclude (t : Transcript) : Response :=
  if t.undecodable then broken .encoding t.text else { code := 0, stdout := t.text }

def converse (fuel : Nat) (host : Host) (s : Session) : Option Response :=
  match host.stdin with
  | .ok commands => (s.transcript fuel commands).map conclude
  | .error e => some (broken e [])

end Brainfuck.CommandLine.Debug
