import Brainfuck.Style
import Brainfuck.Text.Lines

/-!
What is left of a text where no terminal shows it: control characters and terminal sequences are
taken out. A sequence begins with an escape, and the character after that tells how it ends.
-/

namespace Brainfuck.Terminal

inductive Mode where
  | text
  | escape
  | escapeMarks
  | control
  | deviceOpening
  | deviceParameters
  | deviceMarks
  | deviceText
  | command
  deriving DecidableEq, Repr

def isLayout (c : Char) : Bool := ['\t', '\n', '\x0c', '\r'].contains c

def isMark (c : Char) : Bool := ' ' ≤ c && c ≤ '/'

def isParameter (c : Char) : Bool := '0' ≤ c && c ≤ '?'

def isFinal (c : Char) : Bool := '@' ≤ c && c ≤ '~'

namespace Mode

/-- Layout is shown even within an escape or a control sequence, of which nothing else is. -/
def shows (m : Mode) (c : Char) : Bool :=
  match m with
  | text => isLayout c || (' ' ≤ c && c ≠ '\x7f')
  | escape => isLayout c
  | escapeMarks => isLayout c
  | control => isLayout c
  | _ => false

/-- An escape starts over, and two characters cancel, in every mode. Text for a device ends with a
character that has the byte 156 in its encoding, and a command with the bell. -/
def next (m : Mode) (c : Char) : Mode :=
  if c = Style.escape then escape
  else if c = '\x18' ∨ c = '\x1a' then text
  else match m with
    | text => text
    | escape =>
      if isMark c then escapeMarks
      else if c = '[' then control
      else if c = ']' then command
      else if c = 'P' then deviceOpening
      else if c = 'X' ∨ c = '^' ∨ c = '_' then deviceText
      else if isParameter c || isFinal c then text
      else escape
    | escapeMarks => if isParameter c || isFinal c then text else escapeMarks
    | control => if isFinal c then text else control
    | deviceOpening =>
      if isMark c then deviceMarks
      else if isParameter c then deviceParameters
      else if isFinal c then deviceText
      else deviceOpening
    | deviceParameters =>
      if isMark c then deviceMarks
      else if '<' ≤ c ∧ c ≤ '~' then deviceText
      else deviceParameters
    | deviceMarks => if isParameter c || isFinal c then deviceText else deviceMarks
    | deviceText => if (Bytes.ofText [c]).contains 156 then text else deviceText
    | command => if c = '\x07' then text else command

end Mode

/-- What is shown from a mode on. Whatever the mode, a character that is shown is followed by all
that plain text shows: a sequence still open waits for the end of that stretch, unless a character
beyond ASCII in it closes the sequence. -/
def plainFrom (showing : Bool) (m : Mode) : Text → Text
  | [] => []
  | c :: rest =>
    if showing && Mode.text.shows c then
      c :: plainFrom true (if c.toNat < 128 then m else .text) rest
    else if m.shows c then c :: plainFrom true (m.next c) rest
    else plainFrom false (m.next c) rest

def plain (t : Text) : Text := plainFrom false .text t

end Brainfuck.Terminal
