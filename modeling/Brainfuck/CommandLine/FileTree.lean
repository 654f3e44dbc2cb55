import Brainfuck.Text.Lines

namespace Brainfuck.CommandLine

inductive ReadFailure where
  | missing
  | notDirectory
  | directory
  | nameTooLong
  | encoding
  | other (description : Text)
  deriving DecidableEq, Repr

def ReadFailure.message : ReadFailure → Text
  | .missing => "No such file or directory (os error 2)".toList
  | .notDirectory => "Not a directory (os error 20)".toList
  | .directory => "Is a directory (os error 21)".toList
  | .nameTooLong => "File name too long (os error 36)".toList
  | .encoding => "stream did not contain valid UTF-8".toList
  | .other description => description

inductive FileEntry where
  | file (content : Bytes)
  | directory
  deriving DecidableEq, Repr

/-- The names that lead to a file or a directory from the top. -/
abbrev Place := List Text

structure FileTree where
  entries : List (Place × FileEntry)
  workingDirectory : Place
  deriving DecidableEq, Repr

namespace FileTree

/-- In bytes. -/
def longestName : Nat := 255

/-- In bytes. -/
def longestPath : Nat := 4095

/-- What stands at a place. On the way to an entry or to the working directory are directories. -/
def entry? (t : FileTree) (place : Place) : Option FileEntry :=
  match t.entries.lookup place with
  | some e => some e
  | none =>
    if place.isPrefixOf t.workingDirectory || t.entries.any fun e => place.isPrefixOf e.1 then
      some .directory
    else none

/-- Where one name of a path leads from a place. Only a directory can be left, even for itself. -/
def follow (t : FileTree) (place : Place) (name : Text) : Except ReadFailure Place :=
  match t.entry? place with
  | none => .error .missing
  | some (.file _) => .error .notDirectory
  | some .directory =>
    if name = [] ∨ name = ['.'] then .ok place
    else if name = ['.', '.'] then .ok place.dropLast
    else if (Bytes.ofText name).length > longestName then .error .nameTooLong
    else .ok (place ++ [name])

def resolve (t : FileTree) (path : Text) : Except ReadFailure Place :=
  if path = [] then .error .missing
  else if (Bytes.ofText path).length > longestPath then .error .nameTooLong
  else
    (path.splitOn '/').foldlM t.follow (if path.head? = some '/' then [] else t.workingDirectory)

def read (t : FileTree) (path : Text) : Except ReadFailure Bytes := do
  match t.entry? (← t.resolve path) with
  | some (.file content) => .ok content
  | some .directory => .error .directory
  | none => .error .missing

end FileTree
end Brainfuck.CommandLine
