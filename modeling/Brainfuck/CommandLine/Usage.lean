import Brainfuck.CommandLine.Opt
import Brainfuck.Text.Lines

namespace Brainfuck.CommandLine

/-- The name under which the program speaks of itself, by whatever name it was called. -/
def programName : Text := "bf".toList

def overviewText : Text := Text.page
  [ "Usage:",
    "  bf run   [OPTIONS] \"<code>\"       # Run Brainfuck code (args are concatenated)",
    "  bf run   [OPTIONS] --file <PATH>  # Run Brainfuck code loaded from file",
    "  bf debug [OPTIONS] \"<code>\"       # Step through code forwards and backwards",
    "  bf debug [OPTIONS] --file <PATH>  # Debug code loaded from file",
    "",
    "Run \"bf <subcommand> --help\" for more info.",
    "" ]

def Action.usage : Action → Text
  | .run => Text.page
    [ "Usage:",
      "  bf run [OPTIONS] \"<code>\"",
      "  bf run [OPTIONS] --file <PATH>",
      "",
      "Options:",
      "  --file,  -f <PATH>     Read Brainfuck code from PATH instead of positional \"<code>\"",
      "  --input, -i <TEXT>     Text consumed by ',' (otherwise piped stdin, otherwise empty)",
      "  --input-file <PATH>    Read the text consumed by ',' from PATH",
      "  --eof <POLICY>         On exhausted input: zero (default), unchanged, max",
      "  --cell-width <BITS>    8 (default) or 32",
      "  --breakpoint <CHAR>    Suspend after executing CHAR",
      "  --format <FMT>         Render output as ascii (default), hex or dec",
      "  --timeout <MS>         Wall-clock limit (fallback BF_TIMEOUT_MS; default 2000)",
      "  --max-steps <N>        Step limit (fallback BF_MAX_STEPS; default unlimited)",
      "  --help,  -h            Show this help",
      "",
      "Notes:",
      "- Characters outside of ><+-.,[] (and the breakpoint) are ignored as comments.",
      "- Memory is unbounded in both directions.",
      "- Settings may also come from BF_EOF, BF_CELL_WIDTH, BF_BREAKPOINT and the",
      "  [engine] section of bf.toml in your config directory.",
      "",
      "Examples:",
      "- Load Brainfuck code from a file:",
      "    bf run --file ./program.bf",
      "- Feed a file to ',':",
      "    bf run \",[.,]\" < input.txt",
      "" ]
  | .debug => Text.page
    [ "Usage:",
      "  bf debug [OPTIONS] \"<code>\"",
      "  bf debug [OPTIONS] --file <PATH>",
      "",
      "Options:",
      "  --file,  -f <PATH>     Read Brainfuck code from PATH instead of positional \"<code>\"",
      "  --input, -i <TEXT>     Text consumed by ','",
      "  --input-file <PATH>    Read the text consumed by ',' from PATH",
      "  --eof <POLICY>         On exhausted input: zero (default), unchanged, max",
      "  --cell-width <BITS>    8 (default) or 32",
      "  --breakpoint <CHAR>    'run' suspends after executing CHAR",
      "  --no-history           Do not record history; 'back' is unavailable",
      "  --max-steps <N>        Step limit for each 'run'",
      "  --bare                 Force non-interactive bare mode",
      "  --editor               Force interactive editor mode (errors if stdin is not a TTY)",
      "  --help,  -h            Show this help",
      "",
      "Description:",
      "  Steps through a program forwards and backwards. In bare mode (piped stdin)",
      "  one command is read per line and only results are printed.",
      "",
      "Commands:",
      "  step [N], back [N], run, reset, mem [ascii|hex|dec], out [ascii|hex|dec], where, state, help, quit",
      "",
      "Notes:",
      "    - Ctrl+C interrupts a running 'run' command.",
      "    - Ctrl+D leaves the debugger.",
      "    - Mode selection:",
      "        * Flags: --bare|--editor override environment and auto-detection.",
      "        * Env: BF_DEBUG_MODE=bare|editor overrides auto-detection.",
      "        * Auto-detect: if stdin is a TTY, starts in interactive editor mode; otherwise, bare mode.",
      "" ]

end Brainfuck.CommandLine
