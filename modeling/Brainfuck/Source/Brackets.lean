import Brainfuck.Fault

namespace Brainfuck.Source

/-- For each symbol the index of the bracket paired with it; `none` where there is no bracket. -/
abbrev Partners := Array (Option Nat)

/-- Scans the symbols that follow those in `table`. The open brackets that still wait for a partner
are in `waiting`, innermost first. -/
def pairFrom (table : Partners) (waiting : List Nat) : List Char → Except Fault Partners
  | [] =>
    match waiting with
    | [] => .ok table
    | innermost :: _ => .error (.unmatched .opening innermost)
  | c :: rest =>
    if c = '[' then pairFrom (table.push none) (table.size :: waiting) rest
    else if c = ']' then
      match waiting with
      | [] => .error (.unmatched .closing table.size)
      | innermost :: outer =>
        let closed := table.setIfInBounds innermost (some table.size)
        pairFrom (closed.push (some innermost)) outer rest
    else pairFrom (table.push none) waiting rest

/-- Each bracket with its partner. An excess closing bracket is reported where it stands; without
one, the last opening bracket that has no partner. -/
def partners (symbols : List Char) : Except Fault Partners := pairFrom #[] [] symbols

end Brainfuck.Source
