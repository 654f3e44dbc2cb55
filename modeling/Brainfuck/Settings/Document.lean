import Brainfuck.Text.Blank
import Brainfuck.Text.Lines

namespace Brainfuck.Document

/-- What a line of a document says. Blank lines, comments after a `#`, and lines of no known form
say nothing. -/
inductive Entry where
  | header (name : Text)
  | assignment (key value : Text)
  | nothing
  deriving DecidableEq, Repr

def unquote (value : Text) : Text := (Text.enclosed? '"' '"' value).getD value

def entry (line : Text) : Entry :=
  let body := Text.trim line
  if body.head? = some '#' then .nothing
  else match Text.enclosed? '[' ']' body with
    | some name => .header (Text.trim name)
    | none =>
      match Text.cut? '=' body with
      | some (key, value) => .assignment (Text.trim key) (unquote (Text.trim value))
      | none => .nothing

/-- The assignments under the headers called `name`, where `inside` tells whether the first entry
stands under one. -/
def assignments (name : Text) (inside : Bool) : List Entry → List (Text × Text)
  | [] => []
  | .header other :: rest => assignments name (other == name) rest
  | .assignment key value :: rest =>
    if inside then (key, value) :: assignments name inside rest else assignments name inside rest
  | .nothing :: rest => assignments name inside rest

def pairs (name document : Text) : List (Text × Text) :=
  assignments name false ((Text.lines document).map entry)

def value? (given : List (Text × Text)) (key : Text) : Option Text := given.reverse.lookup key

end Brainfuck.Document
