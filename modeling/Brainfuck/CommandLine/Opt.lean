import Brainfuck.Text.Basic

namespace Brainfuck.CommandLine

inductive Action where
  | run
  | debug
  deriving DecidableEq, Repr

inductive Opt where
  | file
  | input
  | inputFile
  | endOfInput
  | cellWidth
  | breakpoint
  | format
  | timeout
  | maxSteps
  | noHistory
  | bare
  | editor
  | help
  deriving DecidableEq, Repr

namespace Opt

def long : Opt → Text
  | file => "file".toList
  | input => "input".toList
  | inputFile => "input-file".toList
  | endOfInput => "eof".toList
  | cellWidth => "cell-width".toList
  | breakpoint => "breakpoint".toList
  | format => "format".toList
  | timeout => "timeout".toList
  | maxSteps => "max-steps".toList
  | noHistory => "no-history".toList
  | bare => "bare".toList
  | editor => "editor".toList
  | help => "help".toList

def short? : Opt → Option Char
  | file => some 'f'
  | input => some 'i'
  | help => some 'h'
  | _ => none

/-- What stands for the value of the option; a flag has none. -/
def placeholder? : Opt → Option Text
  | file => some "PATH".toList
  | input => some "TEXT".toList
  | inputFile => some "PATH".toList
  | endOfInput => some "POLICY".toList
  | cellWidth => some "BITS".toList
  | breakpoint => some "CHAR".toList
  | format => some "FMT".toList
  | timeout => some "MS".toList
  | maxSteps => some "N".toList
  | noHistory => none
  | bare => none
  | editor => none
  | help => none

def isFlag (o : Opt) : Bool := o.placeholder?.isNone

def display (o : Opt) : Text :=
  "--".toList ++ o.long ++
    match o.placeholder? with
    | some p => " <".toList ++ p ++ ">".toList
    | none => []

/-- The option that may not be given together with this one. -/
def rival? : Opt → Option Opt
  | input => some inputFile
  | inputFile => some input
  | bare => some editor
  | editor => some bare
  | _ => none

end Opt

namespace Action

def all : List Action := [run, debug]

def name : Action → Text
  | run => "run".toList
  | debug => "debug".toList

def named? (word : Text) : Option Action := all.find? fun a => a.name == word

def options : Action → List Opt
  | run => [.file, .input, .inputFile, .endOfInput, .cellWidth, .breakpoint, .format, .timeout,
      .maxSteps, .help]
  | debug => [.file, .input, .inputFile, .endOfInput, .cellWidth, .breakpoint, .noHistory,
      .maxSteps, .bare, .editor, .help]

end Action
end Brainfuck.CommandLine
