import Brainfuck.Text.Blank

namespace Brainfuck.Debugger

inductive Mode where
  | bare
  | editor
  deriving DecidableEq, Repr

inductive ModeError where
  | optionNeedsTerminal
  | variableNeedsTerminal
  | unknown (value : Text)
  deriving DecidableEq, Repr

def ModeError.message : ModeError → Text
  | .optionNeedsTerminal =>
    "cannot start editor: stdin is not a TTY (use --bare or BF_DEBUG_MODE=bare)".toList
  | .variableNeedsTerminal =>
    "cannot start editor: stdin is not a TTY (use BF_DEBUG_MODE=bare)".toList
  | .unknown value =>
    "invalid BF_DEBUG_MODE value: ".toList ++ value ++ ", must be 'bare' or 'editor'".toList

namespace Mode

def variableName : Text := "BF_DEBUG_MODE".toList

def named? (name : Text) : Option Mode :=
  if name = "bare".toList then some bare
  else if name = "editor".toList then some editor
  else none

def onTerminal (terminal : Bool) (refusal : ModeError) : Except ModeError Mode :=
  if terminal then .ok editor else .error refusal

/-- An option decides, then the environment, then whether there is a terminal. -/
def select (option : Option Mode) (setting : Option Text) (terminal : Bool) :
    Except ModeError Mode :=
  match option, setting with
  | some bare, _ => .ok bare
  | some editor, _ => onTerminal terminal .optionNeedsTerminal
  | none, some value =>
    match named? (Text.lower (Text.trim value)) with
    | some bare => .ok bare
    | some editor => onTerminal terminal .variableNeedsTerminal
    | none => .error (.unknown value)
  | none, none => .ok (if terminal then editor else bare)

end Mode
end Brainfuck.Debugger
