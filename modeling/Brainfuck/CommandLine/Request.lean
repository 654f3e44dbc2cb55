import Brainfuck.CommandLine.Arguments

namespace Brainfuck.CommandLine

/-- The arguments settled so far, and the option that waits to be settled. It is settled when the
next option or word of code begins or the words end: until then a word that is wrong in itself is
refused first. -/
structure Reading where
  arguments : Arguments := {}
  waiting : Option (Opt × Option Text) := none

namespace Reading

def settle (r : Reading) : Except Refusal Arguments :=
  match r.waiting with
  | none => .ok r.arguments
  | some (o, value) => r.arguments.give o value

def take (r : Reading) (o : Opt) (value : Option Text) : Except Refusal Reading := do
  let settled ← r.settle
  let arguments ← settled.give o value
  .ok { arguments }

def await (r : Reading) (o : Opt) : Except Refusal Reading := do
  let arguments ← r.settle
  .ok { arguments, waiting := some (o, none) }

def takeLong (options : List Opt) (body : Text) (r : Reading) : Except Refusal Reading :=
  let name := body.takeWhile (· ≠ '=')
  let attached := (Text.cut? '=' body).map Prod.snd
  match options.find? fun o => o.long == name with
  | none => .error (.unexpectedArgument ("--".toList ++ name))
  | some o =>
    match o.isFlag, attached with
    | true, none => r.take o none
    | true, some value => .error (.unexpectedValue value o)
    | false, none => r.await o
    | false, some value => r.take o (some value)

/-- Takes the letters after one dash. The first one that is no flag has the rest as its value, less
an equals sign in front; if there is no rest it waits. -/
def takeShort (options : List Opt) : Text → Reading → Except Refusal Reading
  | [], r => .ok r
  | c :: rest, r =>
    match options.find? fun o => o.short? == some c with
    | none => .error (.unexpectedArgument ['-', c])
    | some o =>
      if o.isFlag then do takeShort options rest (← r.take o none)
      else match rest with
        | [] => r.await o
        | '=' :: value => r.take o (some value)
        | value => r.take o (some value)

/-- Reads the words of an action. The first word that is no option nor the value of one begins the
code, and so does whatever follows two dashes alone. -/
def takeWords (options : List Opt) : List Text → Reading → Except Refusal Arguments
  | [], r => r.settle
  | word :: rest, r =>
    match word with
    | ['-', '-'] => do
      let arguments ← r.settle
      .ok { arguments with code := rest }
    | '-' :: '-' :: body => do takeWords options rest (← r.takeLong options body)
    | '-' :: c :: letters => do takeWords options rest (← r.takeShort options (c :: letters))
    | _ =>
      match r.waiting with
      | some (o, none) => takeWords options rest { r with waiting := some (o, some word) }
      | _ => do
        let arguments ← r.settle
        .ok { arguments with code := word :: rest }

end Reading

def Arguments.read (action : Action) (words : List Text) : Except Refusal Arguments := do
  (← Reading.takeWords action.options words {}).checkRivals

inductive Request where
  | overview (asked : Bool)
  | act (action : Action) (arguments : Arguments)
  deriving DecidableEq, Repr

namespace Request

/-- The refusal of a word that stands where an action would, but after two dashes. -/
def afterDashes (word : Text) : Refusal :=
  if (Action.named? word).isSome then .unexpectedArgument word else .unknownAction word

/-- Reads what stands before the action's name: help is the only option. Help goes before any
action, but not before a refusal. -/
def readFrom (r : Reading) : List Text → Except Refusal Request
  | [] => .ok (.overview r.arguments.help)
  | word :: rest =>
    match word with
    | ['-', '-'] =>
      match rest with
      | [] => .ok (.overview r.arguments.help)
      | next :: _ => .error (afterDashes next)
    | '-' :: '-' :: body => do readFrom (← r.takeLong [.help] body) rest
    | '-' :: c :: letters => do readFrom (← r.takeShort [.help] (c :: letters)) rest
    | _ =>
      match Action.named? word with
      | none => .error (.unknownAction word)
      | some action => do
        let arguments ← Arguments.read action rest
        if r.arguments.help then .ok (.overview true) else .ok (.act action arguments)

def read (words : List Text) : Except Refusal Request := readFrom {} words

def paths : Request → List Text
  | .overview _ => []
  | .act _ a => a.file.toList ++ a.inputFile.toList

end Request
end Brainfuck.CommandLine
