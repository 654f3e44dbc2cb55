import Brainfuck.Cell.Rendering
import Brainfuck.CommandLine.Opt
import Brainfuck.Settings.Basic
import Brainfuck.Terminal

namespace Brainfuck.CommandLine

inductive Refusal where
  | unknownAction (word : Text)
  | unexpectedArgument (word : Text)
  | unexpectedValue (value : Text) (option : Opt)
  | missingValue (option : Opt)
  | repeated (option : Opt)
  | rivals (first second : Opt)
  | badValue (value : Text) (option : Opt) (reason : Text)
  deriving DecidableEq, Repr

/-- What was typed, less what only a terminal takes. -/
def quotedPlain (typed : Text) : Text := Text.quoted (Terminal.plain typed)

def Refusal.message : Refusal → Text
  | .unknownAction word => "unrecognized subcommand ".toList ++ quotedPlain word
  | .unexpectedArgument word =>
    "unexpected argument ".toList ++ quotedPlain word ++ " found".toList
  | .unexpectedValue value option =>
    "unexpected value ".toList ++ quotedPlain value ++ " for ".toList ++ Text.quoted option.display
      ++ " found; no more were expected".toList
  | .missingValue option =>
    "a value is required for ".toList ++ Text.quoted option.display
      ++ " but none was supplied".toList
  | .repeated option =>
    "the argument ".toList ++ Text.quoted option.display
      ++ " cannot be used multiple times".toList
  | .rivals first second =>
    "the argument ".toList ++ Text.quoted first.display
      ++ " cannot be used with ".toList ++ Text.quoted second.display
  | .badValue value option reason =>
    "invalid value ".toList ++ quotedPlain value ++ " for ".toList ++ Text.quoted option.display
      ++ ": ".toList ++ Terminal.plain reason

structure Arguments where
  file : Option Text := none
  input : Option Text := none
  inputFile : Option Text := none
  endOfInput : Option EndOfInput := none
  cellWidth : Option Width := none
  /-- Not read before the settings are put together. -/
  breakpoint : Option Text := none
  format : CellFormat := .ascii
  timeout : Option Nat := none
  maxSteps : Option Nat := none
  noHistory : Bool := false
  bare : Bool := false
  editor : Bool := false
  help : Bool := false
  code : List Text := []
  given : List Opt := []
  deriving DecidableEq, Repr

namespace Arguments

def withValue {ε α : Type} (o : Opt) (value : Text) (reason : ε → Text) (result : Except ε α)
    (use : α → Arguments) : Except Refusal Arguments :=
  match result with
  | .ok a => .ok (use a)
  | .error e => .error (.badValue value o (reason e))

def set (a : Arguments) (o : Opt) (value : Text) : Except Refusal Arguments :=
  match o with
  | .file => .ok { a with file := some value }
  | .input => .ok { a with input := some value }
  | .inputFile => .ok { a with inputFile := some value }
  | .endOfInput => withValue o value SettingError.message (EndOfInput.read value) fun e =>
      { a with endOfInput := some e }
  | .cellWidth => withValue o value SettingError.message (Width.read value) fun w =>
      { a with cellWidth := some w }
  | .breakpoint => .ok { a with breakpoint := some value }
  | .format => withValue o value UnknownFormat.message (CellFormat.read value) fun f =>
      { a with format := f }
  | .timeout => withValue o value Text.CountError.message (Text.count value) fun n =>
      { a with timeout := some n }
  | .maxSteps => withValue o value Text.CountError.message (Text.count value) fun n =>
      { a with maxSteps := some n }
  | .noHistory => .ok { a with noHistory := true }
  | .bare => .ok { a with bare := true }
  | .editor => .ok { a with editor := true }
  | .help => .ok { a with help := true }

/-- One more option given, with its value unless it is a flag. No option is given twice. -/
def give (a : Arguments) (o : Opt) (value : Option Text) : Except Refusal Arguments :=
  if ! o.isFlag && value.isNone then .error (.missingValue o)
  else if a.given.contains o then .error (.repeated o)
  else { a with given := a.given ++ [o] }.set o (value.getD [])

def checkRivals (a : Arguments) : Except Refusal Arguments :=
  match a.given.find? fun o => o.rival?.any a.given.contains with
  | some o => .error (.rivals o (o.rival?.getD o))
  | none => .ok a

end Arguments
end Brainfuck.CommandLine
