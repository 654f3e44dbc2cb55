import Brainfuck.Settings.Basic
import Brainfuck.Settings.Document

namespace Brainfuck.Settings

inductive Key where
  | endOfInput
  | width
  | breakpoint
  | history
  deriving DecidableEq, Repr

namespace Key

def all : List Key := [endOfInput, width, breakpoint, history]

def name : Key → Text
  | endOfInput => "eof".toList
  | width => "cell_width".toList
  | breakpoint => "breakpoint".toList
  | history => "history".toList

def variableName : Key → Text
  | endOfInput => "BF_EOF".toList
  | width => "BF_CELL_WIDTH".toList
  | breakpoint => "BF_BREAKPOINT".toList
  | history => "BF_HISTORY".toList

end Key

/-- The settings with one value read from text; the key is called `name` where the value is bad. -/
def set (s : Settings) (key : Key) (name value : Text) : Except SettingError Settings :=
  match key with
  | .endOfInput => (EndOfInput.read value).map fun e => { s with endOfInput := e }
  | .width => (Width.read value).map fun w => { s with width := w }
  | .breakpoint => (readBreakpoint value).map fun b => { s with breakpoint := b }
  | .history => (readFlag name value).map fun r => { s with recording := r }

/-- The settings after one layer, with the first bad value if there was one: then the keys before
it are set, and it and the later ones are not. -/
def overlay (name : Key → Text) (lookup : Text → Option Text) :
    List Key → Settings → Settings × Option SettingError
  | [], s => (s, none)
  | key :: keys, s =>
    match lookup (name key) with
    | none => overlay name lookup keys s
    | some value =>
      match s.set key (name key) value with
      | .ok next => overlay name lookup keys next
      | .error e => (s, some e)

def sectionName : Text := "engine".toList

def overlayDocument (document : Text) (s : Settings) : Settings × Option SettingError :=
  overlay Key.name (Document.value? (Document.pairs sectionName document)) Key.all s

def overlayVariables (environment : Text → Option Text) (s : Settings) :
    Settings × Option SettingError :=
  overlay Key.variableName environment Key.all s

def complete : Settings × Option SettingError → Except SettingError Settings
  | (s, none) => .ok s
  | (_, some e) => .error e

def ofDocument : Option Text → Except SettingError Settings
  | some document => complete (overlayDocument document {})
  | none => .ok {}

def resolve (document : Option Text) (environment : Text → Option Text) :
    Except SettingError Settings := do
  complete (overlayVariables environment (← ofDocument document))

end Brainfuck.Settings
