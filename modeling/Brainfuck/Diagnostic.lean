import Brainfuck.Machine.Run
import Brainfuck.Source.Excerpt

namespace Brainfuck

/-- The offset of the symbol at `index`, or the end of the source when there are fewer symbols. -/
def Source.offset (breakpoint : Option Char) (source : Text) (index : Nat) : Nat :=
  ((symbols breakpoint source)[index]?.map Prod.snd).getD source.length

def Text.signed (program : Option Text) (message : Text) : Text :=
  match program with
  | some name => name ++ ": ".toList ++ message
  | none => message

/-- An excerpt of the source under a headline that names the symbol's index. -/
def Source.report (breakpoint : Option Char) (source headline : Text) (index : Nat) : Text :=
  Text.line (headline ++ " at instruction ".toList ++ Text.decimal index)
    ++ (excerpt source (offset breakpoint source index)).lines.flatMap fun l =>
      Text.line ("  ".toList ++ l)

def Fault.report (program : Option Text) (breakpoint : Option Char) (source : Text) :
    Fault → Text
  | unmatched bracket index =>
    Source.report breakpoint source
      (Text.signed program
        ("Parse error: unmatched bracket ".toList ++ Text.quoted [bracket.toChar])) index
  | invalidInstruction symbol index =>
    Source.report breakpoint source
      (Text.signed program
        ("Runtime error: invalid instruction ".toList ++ Text.quoted [symbol])) index
  | notRecording => Text.line (Text.signed program notRecording.message)

def Abort.report (program : Option Text) (breakpoint : Option Char) (source : Text) :
    Abort → Text
  | fault cause => cause.report program breakpoint source
  | stepLimit limit => Text.line (stepLimit limit).message
  | cancelled => Text.line cancelled.message

end Brainfuck
