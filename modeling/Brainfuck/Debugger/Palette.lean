import Brainfuck.Debugger.Command
import Brainfuck.Instruction
import Brainfuck.Style

namespace Brainfuck.Debugger

/-- Instructions are bold in a colour each, comments grey, and the breakpoint is underlined even
where it is an instruction. -/
def symbolStyle (breakpoint : Option Char) (c : Char) : Style :=
  if breakpoint = some c then { bold := true, underline := true, color := some Palette.blue }
  else match Instruction.ofChar? c with
    | some .right => { bold := true, color := some Palette.sky }
    | some .left => { bold := true, color := some Palette.teal }
    | some .increment => { bold := true, color := some Palette.green }
    | some .decrement => { bold := true, color := some Palette.red }
    | some .output => { bold := true, color := some Palette.yellow }
    | some .input => { bold := true, color := some Palette.peach }
    | some .openLoop => { bold := true, color := some Palette.mauve }
    | some .closeLoop => { bold := true, color := some Palette.mauve }
    | none => { color := some Palette.grey }

def paintSource (breakpoint : Option Char) (line : Text) : Text :=
  line.flatMap fun c => (symbolStyle breakpoint c).paint [c]

structure Segment where
  style : Style
  text : Text
  deriving DecidableEq, Repr

def knownStyle : Style := { bold := true, color := some Palette.mauve }

def unknownStyle : Style := { color := some Palette.red }

def argumentStyle : Style := { color := some Palette.peach }

/-- A command line as leading blanks, the first word, and the rest, less those that are empty. The
word shows whether the line is a command. -/
def segments (line : Text) : List Segment :=
  let body := Text.trimStart line
  let wordStyle := if (Command.read line).isOk then knownStyle else unknownStyle
  [ ⟨{}, line.takeWhile Text.isBlank⟩,
    ⟨wordStyle, body.takeWhile (! Text.isBlank ·)⟩,
    ⟨argumentStyle, body.dropWhile (! Text.isBlank ·)⟩ ].filter (! ·.text.isEmpty)

end Brainfuck.Debugger
