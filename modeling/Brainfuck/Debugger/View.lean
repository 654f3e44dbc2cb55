import Brainfuck.Cell.Rendering
import Brainfuck.Debugger.Palette
import Brainfuck.Machine.Basic
import Brainfuck.Source.Excerpt
import Brainfuck.Text.Lines

namespace Brainfuck.Debugger

def nextSymbol (m : Machine) : Text :=
  match m.symbol? with
  | some c => Text.quoted [c]
  | none => "end".toList

def stateText (m : Machine) : Text :=
  Text.line
    ("step=".toList ++ Text.decimal m.steps
      ++ " pc=".toList ++ Text.decimal m.pc ++ "/".toList ++ Text.decimal m.program.size
      ++ " ptr=".toList ++ Text.integer m.tape.pointer
      ++ " cell=".toList ++ Text.decimal m.tape.current
      ++ " instr=".toList ++ nextSymbol m
      ++ " out=".toList ++ Text.decimal m.output.size)

/-- One cell, in brackets where the pointer is. -/
def cellText (format : CellFormat) (tape : Tape) (index : Int) : Text :=
  let value := Cell.display format [tape.cell index]
  if index = tape.pointer then '[' :: value ++ [']'] else value

def memoryText (format : CellFormat) (tape : Tape) : Text :=
  Text.line
    ("cells ".toList ++ Text.integer tape.lowest ++ "..".toList ++ Text.integer tape.highest
      ++ ": ".toList ++ Text.spaced (tape.indices.map (cellText format tape)))

def outputText (format : CellFormat) (m : Machine) : Text :=
  Text.line ("output: ".toList ++ Cell.display format m.output.toList)

def locationText (color : Bool) (source : Text) (m : Machine) : Text :=
  let shown := Source.excerpt source (m.program.offset m.pc)
  let line := if color then paintSource m.settings.breakpoint shown.line else shown.line
  Text.line ("  ".toList ++ line) ++ Text.line ("  ".toList ++ shown.caret)

def helpText : Text := Text.page
  [ "Commands:",
    "  step [N]     s    Execute N instructions (default 1; ctrl+c stops early)",
    "  back [N]     b    Undo N instructions (default 1; needs history)",
    "  run          r c  Run until the program ends or a breakpoint is consumed",
    "  reset             Start over with the original input",
    "  mem [FMT]    m    Show every visited cell as dec, hex or ascii; the pointer cell is bracketed",
    "  out [FMT]    o    Show output as ascii, hex or dec",
    "  where        w    Show the source around the program counter",
    "  state             Show counters only",
    "  help         h ?  Show this help",
    "  quit         q    Leave the debugger" ]

end Brainfuck.Debugger
