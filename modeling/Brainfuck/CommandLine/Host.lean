import Brainfuck.CommandLine.FileTree
import Brainfuck.CommandLine.Request
import Brainfuck.CommandLine.Usage
import Brainfuck.Diagnostic
import Brainfuck.Settings.Layers

namespace Brainfuck.CommandLine

structure Host where
  environment : Text → Option Text
  stdin : Except ReadFailure Bytes
  terminal : Bool
  fileAt : Text → Except ReadFailure Bytes
  document : Option Bytes
  /-- How many steps a machine makes in a millisecond. -/
  pace : Nat

structure Response where
  code : Nat
  stdout : Text := []
  stderr : Text := []
  deriving DecidableEq, Repr

namespace Response

def complaint (code : Nat) (message : Text) : Response :=
  { code, stderr := Text.line (Text.signed (some programName) message) }

def overview (code : Nat) : Response := { code, stderr := overviewText }

def usage (action : Action) (code : Nat) : Response := { code, stderr := action.usage }

/-- A refusal is told by its first line, which is not ended. -/
def refused (r : Refusal) : Response :=
  { code := 2, stderr := Text.firstLine ("error: ".toList ++ r.message) }

end Response

namespace Host

def decode (bytes : Bytes) : Except ReadFailure Text :=
  match bytes.text? with
  | some t => .ok t
  | none => .error .encoding

def readText (host : Host) (path : Text) : Except ReadFailure Text := do
  decode (← host.fileAt path)

def stdinText (host : Host) : Except ReadFailure Text := do
  decode (← host.stdin)

/-- The count in an environment variable; one that is not a count is ignored. -/
def count? (host : Host) (variableName : Text) : Option Nat :=
  (host.environment variableName).bind fun value => (Text.count value).toOption

/-- The text of the settings document; one that is not UTF-8 is ignored. -/
def documentText? (host : Host) : Option Text := host.document.bind Bytes.text?

end Host

namespace Arguments

def orComplain (what : String) : Except ReadFailure Text → Except Response Text
  | .ok t => .ok t
  | .error e => .error (.complaint 1 (what.toList ++ ": ".toList ++ e.message))

def checkSource (a : Arguments) (action : Action) : Except Response Unit :=
  if a.file.isSome && ! a.code.isEmpty then
    let complaint := Response.complaint 2 "cannot use positional code together with --file".toList
    .error { complaint with stderr := complaint.stderr ++ action.usage }
  else .ok ()

def source (a : Arguments) (action : Action) (host : Host) : Except Response Text :=
  match a.file, a.code with
  | some path, _ => orComplain "failed to read code file as UTF-8" (host.readText path)
  | none, [] => .error (.usage action 2)
  | none, words => .ok words.flatten

/-- The program's input. When neither it nor a file is given, a run takes standard input, from which
the debugger takes commands instead. -/
def inputText (a : Arguments) (action : Action) (host : Host) : Except Response Text :=
  match a.input, a.inputFile with
  | some t, _ => .ok t
  | none, some path => orComplain "failed to read input file as UTF-8" (host.readText path)
  | none, none =>
    if action = .run ∧ ¬ host.terminal then
      orComplain "failed reading UTF-8 from stdin" host.stdinText
    else .ok []

def overlay (a : Arguments) (s : Settings) : Except SettingError Settings :=
  let s := { s with
    endOfInput := a.endOfInput.getD s.endOfInput
    width := a.cellWidth.getD s.width }
  match a.breakpoint with
  | some value => (Settings.readBreakpoint value).map fun b => { s with breakpoint := b }
  | none => .ok s

def settings (a : Arguments) (host : Host) : Except Response Settings :=
  match Settings.resolve host.documentText? host.environment >>= a.overlay with
  | .ok s => .ok s
  | .error e => .error (.complaint 2 e.message)

end Arguments
end Brainfuck.CommandLine
