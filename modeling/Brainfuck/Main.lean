import Brainfuck.CommandLine.Call

/-!
The program `bf`: gathers what a call needs from the system, and carries out its response. It keeps
no diagnostics, and leaves ctrl+c to the system.
-/

namespace Brainfuck.Main

open CommandLine Debugger

def fuel : Nat := 1000000000000000000

/-- Steps in a millisecond. -/
def pace : Nat := 5000

def failure : IO.Error → ReadFailure
  | .noFileOrDirectory _ _ _ => .missing
  | .inappropriateType _ 20 _ => .notDirectory
  | .inappropriateType _ _ _ => .directory
  | .invalidArgument _ 36 _ => .nameTooLong
  | e => .other e.toString.toList

def attempt (read : IO ByteArray) : IO (Except ReadFailure Bytes) := do
  try
    return .ok (← read).data.toList
  catch e => return .error (failure e)

def readFile (path : Text) : IO (Except ReadFailure Bytes) :=
  attempt (IO.FS.readBinFile (String.ofList path))

/-- The settings document in the user's configuration directory. -/
def readDocument : IO (Option Bytes) := do
  let home := (← IO.getEnv "HOME").map (· ++ "/.config")
  match (← IO.getEnv "XDG_CONFIG_HOME") <|> home with
  | none => return none
  | some directory => return (← readFile (directory ++ "/bf.toml").toList).toOption

def lookUp {α : Type} (pairs : List (Text × α)) (key : Text) : Option α := pairs.lookup key

def gatherHost (paths : List Text) : IO Host := do
  let stdin ← IO.getStdin
  let terminal ← stdin.isTty
  let input ← if terminal then pure (.ok []) else attempt stdin.readBinToEnd
  let assigned ← variableNames.filterMapM fun name => do
    return (← IO.getEnv (String.ofList name)).map fun value => (name, value.toList)
  let files ← paths.mapM fun path => do return (path, ← readFile path)
  return {
    environment := lookUp assigned
    stdin := input
    terminal
    fileAt := fun path => (lookUp files path).getD (.error .missing)
    document := ← readDocument
    pace }

def write (t : Text) : IO Unit := do
  let stdout ← IO.getStdout
  stdout.putStr (String.ofList t)
  stdout.flush

partial def talk (s : Session) : IO Unit := do
  write "bf-dbg> ".toList
  let line ← (← IO.getStdin).getLine
  if line.isEmpty then return
  match s.respond fuel line.toList with
  | none => return
  | some reply => do
    write reply.text
    match reply.flow with
    | .quit => return
    | .more => talk reply.session

def emit (r : Response) : IO UInt32 := do
  (← IO.getStderr).putStr (String.ofList r.stderr)
  write r.stdout
  return r.code.toUInt32

end Brainfuck.Main

open Brainfuck Main CommandLine Debugger in
def main (words : List String) : IO UInt32 := do
  let words := words.map String.toList
  let paths := (Request.read words).toOption.elim [] Request.paths
  let host ← gatherHost paths
  match call host words with
  | .finished r => emit r
  | .conversation .bare s =>
    match Debug.converse fuel host s with
    | some r => emit r
    | none => return 1
  | .conversation .editor s => do
    let stderr ← IO.getStderr
    if ← stderr.isTty then
      stderr.putStr "Brainfuck debugger. Type 'help' for commands, ctrl+d to exit\n"
    let color ← (← IO.getStdout).isTty
    write (stateText s.machine)
    talk { s with color }
    return 0
