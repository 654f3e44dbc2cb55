import Brainfuck.CommandLine.Run
import Brainfuck.Proofs.Debugger.Rows
import Brainfuck.Proofs.Recording

namespace Brainfuck.CommandLine

open Debugger

def suspensionText (index steps : Nat) : Text :=
  Text.line ("bf: suspended at breakpoint (instruction ".toList ++ Text.decimal index
    ++ ", step ".toList ++ Text.decimal steps ++ ")".toList)

theorem suspensionText_injective {i i' k k' : Nat}
    (h : suspensionText i k = suspensionText i' k') : i = i' ∧ k = k' := by
  have hbody := List.append_cancel_right h
  simp only [List.append_assoc] at hbody
  have hindex := List.append_cancel_left hbody
  -- the digits of the index end at the comma
  have hi := congrArg (List.takeWhile Char.isDigit) hindex
  rw [show ", step ".toList = ',' :: " step ".toList from rfl] at hi
  simp only [List.cons_append] at hi
  rw [Text.takeWhile_decimal i (by decide), Text.takeWhile_decimal i' (by decide)] at hi
  obtain rfl := Text.decimal_injective hi
  have hsteps := List.append_cancel_right (List.append_cancel_left (List.append_cancel_left hindex))
  exact ⟨rfl, Text.decimal_injective hsteps⟩

/-- The counter of steps comes first in a state. -/
theorem exists_stateText (m : Machine) :
    ∃ rest, stateText m = "step=".toList ++ Text.decimal m.steps ++ [' '] ++ rest ++ ['\n'] := by
  refine ⟨"pc=".toList ++ Text.decimal m.pc ++ "/".toList ++ Text.decimal m.program.size
    ++ " ptr=".toList ++ Text.integer m.tape.pointer ++ " cell=".toList
    ++ Text.decimal m.tape.current ++ " instr=".toList ++ nextSymbol m ++ " out=".toList
    ++ Text.decimal m.output.size, ?_⟩
  simp only [stateText, Text.line, List.append_assoc]
  rfl

/-- The lines around a state. It may take up more than one, as the symbol that it names may be a
line feed. -/
theorem lines_report {first last : Text} (hfirst : '\n' ∉ first) (hlast : '\n' ∉ last)
    (m : Machine) :
    ∃ tail others,
      Text.lines (Text.line first ++ stateText m ++ Text.line last) =
        first :: ("step=".toList ++ Text.decimal m.steps ++ [' '] ++ tail) :: others ++ [last] := by
  obtain ⟨rest, hstate⟩ := exists_stateText m
  have hcount : '\n' ∉ "step=".toList ++ Text.decimal m.steps ++ [' '] := by
    simp only [List.mem_append, not_or]
    exact ⟨⟨by decide, Text.feed_not_mem_decimal _⟩, by decide⟩
  obtain ⟨tail, others, hlines⟩ := exists_linesBy (by simp) hcount (rest ++ ['\n'])
  refine ⟨tail, others, ?_⟩
  calc Text.lines (Text.line first ++ stateText m ++ Text.line last)
      = linesBy '\n' (first ++ '\n' :: (stateText m ++ Text.line last)) := by
        simp [Text.lines, Text.line]
    _ = first :: linesBy '\n' (stateText m ++ Text.line last) := by
        rw [linesBy_append, linesBy_of_not_mem hfirst, List.singleton_append]
    _ = first :: (linesBy '\n' (stateText m) ++ [last]) := by
        rw [hstate, List.append_assoc, List.singleton_append, linesBy_append, Text.line,
          linesBy_of_not_mem hlast]
    _ = _ := by
        rw [hstate, List.append_assoc _ rest, hlines, List.cons_append, List.cons_append,
          List.cons_append]

/-- How a run can end that is neither cancelled nor at fault. -/
inductive Ends (limit : Nat) : Except Abort Stop → Prop where
  | halted : Ends limit (.ok .halted)
  | breakpoint (index : Nat) : Ends limit (.ok (.breakpoint index))
  | stepLimit : Ends limit (.error (.stepLimit limit))

def headline : Except Abort Stop → Text
  | .ok .halted => "halted".toList
  | .ok (.breakpoint index) => "breakpoint at instruction ".toList ++ Text.decimal index
  | .error abort => abort.message

variable {limit : Nat} {x : Except Abort Stop} {format : CellFormat}

theorem runText_eq_line (hx : Ends limit x) : runText x = Text.line (headline x) := by
  cases hx with
  | halted => rfl
  | breakpoint index => rfl
  | stepLimit =>
    show runText (.error (.stepLimit limit)) = Text.line (Abort.stepLimit limit).message
    simp only [runText]

theorem feed_not_mem_headline (hx : Ends limit x) : '\n' ∉ headline x := by
  cases hx with
  | halted => decide
  | breakpoint index =>
    exact List.not_mem_append (by decide +kernel) (Text.feed_not_mem_decimal index)
  | stepLimit =>
    have hlimit : '\n' ∉ (Abort.stepLimit limit).message := Abort.feed_not_mem_message nofun
    exact hlimit

/-- No two kinds of headline begin with the same letter. -/
def firstLetter : Except Abort Stop → Option Char
  | .ok .halted => some 'h'
  | .ok (.breakpoint _) => some 'b'
  | .error _ => some 'E'

theorem head?_headline (hx : Ends limit x) : (headline x).head? = firstLetter x := by
  cases hx with
  | halted => rfl
  | breakpoint index => rfl
  | stepLimit => rfl

theorem headline_injective {y : Except Abort Stop} (hx : Ends limit x) (hy : Ends limit y)
    (h : headline x = headline y) : x = y := by
  have hletter : firstLetter x = firstLetter y := by
    rw [← head?_headline hx, h, head?_headline hy]
  cases hx with
  | halted =>
    cases hy with
    | halted => rfl
    | breakpoint => simp [firstLetter] at hletter
    | stepLimit => simp [firstLetter] at hletter
  | breakpoint index =>
    cases hy with
    | halted => simp [firstLetter] at hletter
    | breakpoint => rw [Text.decimal_injective (List.append_cancel_left h)]
    | stepLimit => simp [firstLetter] at hletter
  | stepLimit =>
    cases hy with
    | halted => simp [firstLetter] at hletter
    | breakpoint => simp [firstLetter] at hletter
    | stepLimit => rfl

theorem headline_iff (hx : Ends limit x) :
    (headline x = "halted".toList ↔ x = .ok .halted) ∧
    (∀ i, headline x = "breakpoint at instruction ".toList ++ Text.decimal i ↔
      x = .ok (.breakpoint i)) ∧
    (headline x = (Abort.stepLimit limit).message ↔ x = .error (.stepLimit limit)) := by
  have htells {y : Except Abort Stop} (hy : Ends limit y) : headline x = headline y ↔ x = y :=
    ⟨headline_injective hx hy, congrArg headline⟩
  exact ⟨htells .halted, fun i => htells (.breakpoint i), htells .stepLimit⟩

theorem verdict_iff (hx : Ends limit x) (l : Run.Limits) (source : Text) (m : Machine) :
    ((Run.verdict l source m x).1 = 0 ∧ (Run.verdict l source m x).2 = [] ↔ x = .ok .halted) ∧
    (∀ i, ((Run.verdict l source m x).1 = 0 ∧
        ∃ k, (Run.verdict l source m x).2 = suspensionText i k) ↔ x = .ok (.breakpoint i)) ∧
    ((Run.verdict l source m x).1 = 1 ∧
        (Run.verdict l source m x).2 = Text.line (Abort.stepLimit limit).message ↔
      x = .error (.stepLimit limit)) := by
  cases hx with
  | halted =>
    refine ⟨iff_of_true ⟨rfl, rfl⟩ rfl, fun i => iff_of_false ?_ nofun, iff_of_false ?_ nofun⟩
    · rintro ⟨-, k, h⟩
      cases h
    · rintro ⟨h, -⟩
      cases h
  | breakpoint index =>
    refine ⟨iff_of_false ?_ nofun, fun i => ⟨?_, ?_⟩, iff_of_false ?_ nofun⟩
    · rintro ⟨-, h⟩
      cases h
    · rintro ⟨-, k, h⟩
      obtain ⟨rfl, -⟩ := suspensionText_injective (i := index) (k := m.steps) h
      rfl
    · rintro ⟨⟩
      exact ⟨rfl, m.steps, rfl⟩
    · rintro ⟨h, -⟩
      cases h
  | stepLimit =>
    refine ⟨iff_of_false ?_ nofun, fun i => iff_of_false ?_ nofun, iff_of_true ⟨rfl, rfl⟩ rfl⟩
    · rintro ⟨h, -⟩
      cases h
    · rintro ⟨h, -⟩
      cases h

/-- The responses of a run and of a debugger tell the same of a program. -/
structure Agree (limit : Nat) (r d : Response) : Prop where
  output : ∃ body, (Text.lines d.stdout).getLast? = some ("output: ".toList ++ body) ∧
    r.stdout = Text.line body
  halted : (Text.lines d.stdout).head? = some "halted".toList ↔ r.code = 0 ∧ r.stderr = []
  breakpoint : ∀ i,
    (Text.lines d.stdout).head? = some ("breakpoint at instruction ".toList ++ Text.decimal i) ↔
      r.code = 0 ∧ ∃ k, r.stderr = suspensionText i k
  steps : ∀ i k, r.stderr = suspensionText i k →
    ∃ tail, (Text.lines d.stdout)[1]? =
      some ("step=".toList ++ Text.decimal k ++ [' '] ++ tail)
  stepLimit : (Text.lines d.stdout).head? = some (Abort.stepLimit limit).message ↔
    r.code = 1 ∧ r.stderr = Text.line (Abort.stepLimit limit).message

theorem lines_stdout (hx : Ends limit x) (m : Machine) :
    (Text.lines (runText x ++ stateText m ++ outputText format m)).head? = some (headline x) ∧
    (∃ tail, (Text.lines (runText x ++ stateText m ++ outputText format m))[1]? =
      some ("step=".toList ++ Text.decimal m.steps ++ [' '] ++ tail)) ∧
    (Text.lines (runText x ++ stateText m ++ outputText format m)).getLast? =
      some ("output: ".toList ++ Cell.display format m.output.toList) := by
  have hlast : '\n' ∉ "output: ".toList ++ Cell.display format m.output.toList :=
    List.not_mem_append (by decide) (Cell.feed_not_mem_display format _)
  obtain ⟨tail, others, hlines⟩ := lines_report (feed_not_mem_headline hx) hlast m
  rw [runText_eq_line hx, outputText, hlines]
  exact ⟨rfl, ⟨tail, rfl⟩, List.getLast?_concat⟩

/-- The responses agree when both come from the same end of the same run. -/
theorem agree_conclude (hf : format ≠ .ascii) (hx : Ends limit x) (l : Run.Limits) (source : Text)
    (m : Machine) :
    Agree limit (Run.conclude format l source (x, m.unrecorded))
      { code := 0, stdout := runText x ++ stateText m ++ outputText format m } := by
  obtain ⟨hhead, ⟨tail, hsecond⟩, hlast⟩ := lines_stdout hx m
  obtain ⟨hhalted, hbreak, hlimit⟩ := headline_iff hx
  obtain ⟨hhalted', hbreak', hlimit'⟩ := verdict_iff hx l source m.unrecorded
  constructor
  · refine ⟨_, hlast, ?_⟩
    rw [Cell.display_eq_render hf]
    rfl
  · rw [hhead, Option.some_inj, hhalted]
    exact hhalted'.symm
  · intro i
    rw [hhead, Option.some_inj, hbreak]
    exact (hbreak' i).symm
  · intro i k h
    cases hx with
    | halted => cases h
    | breakpoint index =>
      obtain ⟨-, rfl⟩ := suspensionText_injective (i := index) (k := m.steps) h
      exact ⟨tail, hsecond⟩
    | stepLimit => cases h
  · rw [hhead, Option.some_inj, hlimit]
    exact hlimit'.symm

end Brainfuck.CommandLine
