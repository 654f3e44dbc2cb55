import Brainfuck.Proofs.Debugger.Cursor
import Brainfuck.Proofs.Debugger.Rows
import Brainfuck.Proofs.Safety

namespace Brainfuck.Debugger

open Machine
open Text (Rows)

def isNotice (text : Text) : Bool :=
  interruptedText.isPrefixOf text || "error: ".toList.isPrefixOf text

/-- How many lines a command is answered with when a state takes `state` lines. -/
def Command.rowCount (noticed : Bool) (state : Nat) : Command → Nat
  | .step _ | .back _ => if noticed then 1 + state else state
  | .run => 1 + state
  | .reset | .state => state
  | .memory _ | .output _ => 1
  | .location => 2
  | .help => 11
  | .quit => 0

/-- Blank lines are not answered, and a complaint is one line. -/
def rowCount (line : Text) (noticed : Bool) (state : Nat) : Nat :=
  match Command.read line with
  | .ok command => command.rowCount noticed state
  | .error _ => if Text.trim line = [] then 0 else 1

variable {origin m : Machine} {count fuel : Nat} {stop : Bool} {text line : Text}
  {command : Command} {reply : Reply} {s e : Session}

inductive Notice : Text → Prop where
  | none : Notice []
  | interrupted : Notice interruptedText
  | fault {message : Text} (h : '\n' ∉ message) : Notice (faultText message)

theorem isNotice_stateText (m : Machine) : isNotice (stateText m) = false := by
  unfold stateText
  simp only [Text.line, List.append_assoc]
  rfl

theorem Notice.rows (h : Notice text) (m : Machine) :
    Rows (if isNotice (text ++ stateText m) then 1 + stateRows m else stateRows m)
      (text ++ stateText m) := by
  cases h with
  | none =>
    rw [List.nil_append, isNotice_stateText]
    exact rows_stateText m
  | interrupted => exact (Rows.single (by decide)).append (rows_stateText m)
  | fault h => exact (rows_faultText h).append (rows_stateText m)

theorem notice_forward (hm : m.program.Sound m.settings.breakpoint) :
    Notice (forward stop count m).1 := by
  unfold forward
  split
  · exact .none
  · cases stop with
    | true => exact .interrupted
    | false =>
      simp only [stepUpTo_eq hm]
      exact .none

/-- The only fault on the way back is that there is no record. -/
theorem backUpTo_fault (count : Nat) (m : Machine) :
    (m.backUpTo count).2 = none ∨ (m.backUpTo count).2 = some .notRecording := by
  induction count generalizing m with
  | zero => exact .inl rfl
  | succ count ih =>
    rw [Machine.backUpTo]
    split
    · exact .inr rfl
    · split
      · exact .inl rfl
      · exact ih _

theorem notice_backward : Notice (backward stop count m).1 := by
  unfold backward
  split
  · exact .none
  · cases stop with
    | true => exact .interrupted
    | false =>
      show Notice (stepsText (m.backUpTo count).2)
      rcases backUpTo_fault count m with h | h
      · rw [h]
        exact .none
      · rw [h]
        exact .fault (by decide +kernel)

namespace Session

theorem rows_of_answer (hm : s.machine.program.Sound s.machine.settings.breakpoint)
    (ha : s.answer fuel command = some reply) :
    Rows (command.rowCount (isNotice reply.text) (stateRows reply.session.machine)) reply.text := by
  cases command with
  | step count =>
    obtain rfl := Option.some.inj ha
    exact (notice_forward hm).rows _
  | back count =>
    obtain rfl := Option.some.inj ha
    exact notice_backward.rows _
  | run =>
    obtain ⟨⟨r, n⟩, hn, rfl⟩ := Option.map_eq_some_iff.mp ha
    -- in a sound program a run reports no fault, so that only the state is left
    refine (rows_runText ?_).append (rows_stateText n)
    rintro f rfl
    exact supervise_ne_fault hm hn
  | reset =>
    obtain rfl := Option.some.inj ha
    exact rows_stateText _
  | memory format =>
    obtain rfl := Option.some.inj ha
    exact rows_memoryText _ _
  | output format =>
    obtain rfl := Option.some.inj ha
    exact rows_outputText _ _
  | location =>
    obtain rfl := Option.some.inj ha
    exact rows_locationText _ _ _
  | state =>
    obtain rfl := Option.some.inj ha
    exact rows_stateText _
  | help =>
    obtain rfl := Option.some.inj ha
    exact rows_helpText
  | quit =>
    obtain rfl := Option.some.inj ha
    exact .nil

theorem rows_of_replies (hm : s.machine.program.Sound s.machine.settings.breakpoint)
    (hl : s.Replies line reply) :
    Rows (rowCount line (isNotice reply.text) (stateRows reply.session.machine)) reply.text := by
  unfold rowCount
  cases hread : Command.read line with
  | error e =>
    obtain rfl := (replies_of_error hread).mp hl
    by_cases hblank : Text.trim line = []
    · simpa [told, hblank] using Rows.nil
    · simpa [told, hblank] using rows_faultText (Command.feed_not_mem_message hread)
  | ok command =>
    obtain ⟨fuel, answer, ha, rfl⟩ := (replies_of_ok hread).mp hl
    have hrows := rows_of_answer hm ha
    exact hrows

end Session

/-- A line feed is no instruction, so only as the breakpoint does it get into a program. -/
theorem stateRows_eq_one (hm : m.program.Sound m.settings.breakpoint)
    (h : m.settings.breakpoint ≠ some '\n') : stateRows m = 1 := by
  apply if_neg
  intro hc
  have hsymbol := hm.isSymbol_of_symbol? hc
  rw [Source.isSymbol, Bool.or_eq_true] at hsymbol
  rcases hsymbol with hsymbol | hsymbol
  · exact absurd hsymbol (by decide)
  · exact h (by simpa using hsymbol)

/-- Every line is answered with the lines that its command calls for. A state is one of them unless
the breakpoint is a line feed and comes next. -/
theorem rows_of_session {source input : Text} {settings : Settings} {log : List Exchange}
    (color : Bool) (limit : Option Nat) (hload : Session.load source input settings = .ok s)
    (h : Session.Feeds { s with color, maxSteps := limit } log e) (raised : Bool) (line : Text) :
    (∀ reply, (e.raise raised).Replies line reply →
      Rows (rowCount line (isNotice reply.text) (stateRows reply.session.machine)) reply.text ∧
        (stateRows reply.session.machine = 1 ∨ settings.breakpoint = some '\n')) ∧
      (Command.read line = .ok .run ∨ ∃ reply, (e.raise raised).Replies line reply) := by
  obtain ⟨m, hm, rfl⟩ := Session.load_eq_ok hload
  have ho := fresh_load hm
  have he := h.tracks ho (Tracks.self ho)
  refine ⟨?_, ?_⟩
  · intro reply hl
    refine ⟨Session.rows_of_replies (s := e.raise raised) (he.sound ho).program hl, ?_⟩
    have hr := Session.tracks_of_replies (s := e.raise raised) ho he hl
    have hsettings : reply.session.machine.settings = settings :=
      hr.settings.trans (settings_load hm)
    by_cases hb : settings.breakpoint = some '\n'
    · exact .inr hb
    · exact .inl (stateRows_eq_one (hr.sound ho).program (hsettings ▸ hb))
  · by_cases hrun : Command.read line = .ok .run
    · exact .inl hrun
    · exact .inr (Session.exists_replies _ hrun)

/-- Without a record a step back is refused in one line, and the breakpoint that comes next breaks
the state after it in two. -/
theorem rows_of_session_refused :
    ∃ s log e reply,
      Session.load "+\n".toList [] { breakpoint := some '\n', recording := false } = .ok s ∧
      Session.Feeds { s with color := true, maxSteps := some 1 } log e ∧
      log.map (fun x => (x.raised, x.line)) = [(false, "s".toList)] ∧
      (e.raise false).Replies "back 2".toList reply ∧ Rows 3 reply.text := by
  have hstep : Command.read "s".toList = .ok (.step 1) := by
    rw [Command.read, show Text.words "s".toList = ["s".toList] by decide +kernel]
    rfl
  have hback : Command.read "back 2".toList = .ok (.back 2) := by
    rw [Command.read,
      show Text.words "back 2".toList = ["back".toList, "2".toList] by decide +kernel]
    rfl
  obtain ⟨s, log, e, reply, hload, hfeeds, hlines, hl, hnotice, hstate⟩ : ∃ s log e reply,
      Session.load "+\n".toList [] { breakpoint := some '\n', recording := false } = .ok s ∧
        Session.Feeds { s with color := true, maxSteps := some 1 } log e ∧
        log.map (fun x => (x.raised, x.line)) = [(false, "s".toList)] ∧
        (e.raise false).Replies "back 2".toList reply ∧ isNotice reply.text = true ∧
        stateRows reply.session.machine = 2 :=
    ⟨_, _, _, _, rfl, .cons false ((Session.replies_of_ok hstep).mpr ⟨0, _, rfl, rfl⟩) .nil, rfl,
      (Session.replies_of_ok hback).mpr ⟨0, _, rfl, rfl⟩, rfl, rfl⟩
  obtain ⟨hrows, -⟩ := (rows_of_session true (some 1) hload hfeeds false "back 2".toList).1 reply hl
  rw [rowCount, hback, hnotice, hstate] at hrows
  exact ⟨s, log, e, reply, hload, hfeeds, hlines, hl, hrows⟩

/-- A state is not always one line. -/
theorem state_broken_by_breakpoint :
    ∃ s reply, Session.load "\n".toList [] { breakpoint := some '\n' } = .ok s ∧
      s.Replies "state".toList reply ∧ ¬Rows 1 reply.text := by
  have hstate : Command.read "state".toList = .ok .state := by
    rw [Command.read, show Text.words "state".toList = ["state".toList] by decide +kernel]
    rfl
  refine ⟨_, _, rfl, (Session.replies_of_ok hstate).mpr ⟨0, _, rfl, rfl⟩, ?_⟩
  intro h
  exact absurd h.count_feed (by decide +kernel)

end Brainfuck.Debugger
