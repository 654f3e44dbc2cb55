import Brainfuck.Main
import Brainfuck.Proofs.Breakpoints
import Brainfuck.Proofs.Rewinding
import Brainfuck.Proofs.Structured
import Brainfuck.Proofs.Machine.Pausing
import Brainfuck.Proofs.Supervision
import Brainfuck.Proofs.Recording
import Brainfuck.Proofs.Safety
import Brainfuck.Proofs.Machine.Timeline
import Brainfuck.Proofs.Debugger.Cursor
import Brainfuck.Proofs.Pairing
import Brainfuck.Proofs.Suspension
import Brainfuck.Proofs.UndoStack
import Brainfuck.Proofs.CommandLine.Agreement
import Brainfuck.Proofs.Debugger.Answers
import Brainfuck.Proofs.Visits
import Brainfuck.Proofs.Cells
import Brainfuck.Proofs.Conservation
import Brainfuck.Proofs.UndoLog
import Brainfuck.Proofs.UnreadInput
import Brainfuck.Proofs.Translation
import Brainfuck.Proofs.Caret
import Brainfuck.Proofs.Symbols
import Brainfuck.Proofs.Debugger.Grammar
import Brainfuck.Proofs.Debugger.Transcripts
import Brainfuck.Proofs.Settings.Document
import Brainfuck.Proofs.Settings.Quoting
import Brainfuck.Proofs.Settings.Layers
import Brainfuck.Proofs.Debugger.MemoryView
import Brainfuck.Proofs.Debugger.Formats
import Brainfuck.Proofs.Cell.Escaping
import Brainfuck.Proofs.Copying
import Brainfuck.Proofs.CommandLine.Limits
import Brainfuck.Proofs.Debugger.Highlighting
import Brainfuck.Proofs.Debugger.Painting
import Brainfuck.Proofs.CommandLine.FailedStarts
import Brainfuck.Proofs.CommandLine.Grammar
import Brainfuck.Proofs.CommandLine.Routes
import Brainfuck.Proofs.Termination
