import Brainfuck.Debugger.Session
import Brainfuck.Text.Lines

namespace Brainfuck.Debugger

structure Transcript where
  text : Text
  session : Session
  undecodable : Bool

namespace Session

/-- Feeds lines up to the first `quit` or the first line that is not UTF-8. -/
def feed (fuel : Nat) (s : Session) : List Bytes → Option Transcript
  | [] => some { text := [], session := s, undecodable := false }
  | line :: rest =>
    match line.text? with
    | none => some { text := [], session := s, undecodable := true }
    | some line =>
      match s.respond fuel line with
      | none => none
      | some reply =>
        match reply.flow with
        | .quit => some { text := reply.text, session := reply.session, undecodable := false }
        | .more =>
          (feed fuel reply.session rest).map fun t => { t with text := reply.text ++ t.text }

def transcript (fuel : Nat) (s : Session) (stream : Bytes) : Option Transcript :=
  s.feed fuel stream.lines

end Session
end Brainfuck.Debugger
