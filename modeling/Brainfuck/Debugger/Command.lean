import Brainfuck.Cell.Rendering

namespace Brainfuck.Debugger

inductive Command where
  | step (count : Nat)
  | back (count : Nat)
  | run
  | reset
  | memory (format : Option CellFormat)
  | output (format : Option CellFormat)
  | location
  | state
  | help
  | quit
  deriving DecidableEq, Repr

inductive CommandError where
  | empty
  | surplus (word : Text)
  | count (word : Text)
  | format (cause : UnknownFormat)
  | noArgument (name word : Text)
  | unknown (name : Text)
  deriving DecidableEq, Repr

def CommandError.message : CommandError → Text
  | .empty => "empty command".toList
  | .surplus word => "unexpected argument ".toList ++ Text.quoted word
  | .count word => "invalid count ".toList ++ Text.quoted word
  | .format cause => cause.message
  | .noArgument name word =>
    Text.quoted name ++ " takes no argument, got ".toList ++ Text.quoted word
  | .unknown name => "unknown command ".toList ++ Text.quoted name ++ " (try 'help')".toList

/-- What a command does, its argument left out. -/
inductive Verb where
  | step
  | back
  | run
  | reset
  | memory
  | output
  | location
  | state
  | help
  | quit
  deriving DecidableEq, Repr

namespace Verb

def all : List Verb := [step, back, run, reset, memory, output, location, state, help, quit]

def names : Verb → List Text
  | step => ["step".toList, "s".toList, "next".toList, "n".toList]
  | back => ["back".toList, "b".toList]
  | run => ["run".toList, "r".toList, "continue".toList, "c".toList]
  | reset => ["reset".toList]
  | memory => ["mem".toList, "m".toList, "memory".toList]
  | output => ["out".toList, "o".toList, "output".toList]
  | location => ["where".toList, "w".toList]
  | state => ["state".toList]
  | help => ["help".toList, "h".toList, "?".toList]
  | quit => ["quit".toList, "q".toList, "exit".toList]

def named? (name : Text) : Option Verb := all.find? fun v => v.names.contains (Text.lower name)

end Verb

/-- A count that is left out is one. -/
def readCount : Option Text → Except CommandError Nat
  | none => .ok 1
  | some word =>
    match Text.count word with
    | .ok n => .ok n
    | .error _ => .error (.count word)

def readFormat : Option Text → Except CommandError (Option CellFormat)
  | none => .ok none
  | some word =>
    match CellFormat.read word with
    | .ok f => .ok (some f)
    | .error cause => .error (.format cause)

def alone (name : Text) (command : Command) : Option Text → Except CommandError Command
  | none => .ok command
  | some word => .error (.noArgument name word)

def Verb.command (v : Verb) (name : Text) (argument : Option Text) :
    Except CommandError Command :=
  match v with
  | .step => (readCount argument).map .step
  | .back => (readCount argument).map .back
  | .run => alone name .run argument
  | .reset => alone name .reset argument
  | .memory => (readFormat argument).map .memory
  | .output => (readFormat argument).map .output
  | .location => alone name .location argument
  | .state => alone name .state argument
  | .help => alone name .help argument
  | .quit => alone name .quit argument

def Command.ofWords (name : Text) (argument : Option Text) : Except CommandError Command :=
  match Verb.named? name with
  | some v => v.command name argument
  | none => .error (.unknown (Text.lower name))

def Command.read (line : Text) : Except CommandError Command :=
  match Text.words line with
  | [] => .error .empty
  | [name] => ofWords name none
  | [name, argument] => ofWords name (some argument)
  | _ :: _ :: third :: _ => .error (.surplus third)

theorem Command.read_congr {line line' : Text} (h : Text.words line = Text.words line') :
    read line = read line' := by
  rw [read, read, h]

end Brainfuck.Debugger
