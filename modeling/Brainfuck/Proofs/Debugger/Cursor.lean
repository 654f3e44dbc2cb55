import Brainfuck.Proofs.Debugger.Dialogue
import Brainfuck.Proofs.Machine.Timeline
import Brainfuck.Proofs.Supervision

namespace Brainfuck.Debugger

open Machine

/-- A time, and whether there is a request to stop. -/
structure Cursor where
  time : Nat := 0
  interrupted : Bool := false

/-- The commands that a request to stop keeps from doing anything. -/
def Command.Heeds : Command → Prop
  | .step _ | .back _ | .run => True
  | _ => False

/-- The command leads from the time `t` to the time `u` if it is not stopped, and a run is reported
in the text. -/
def Command.Leads (origin : Machine) (limit : Option Nat) (t u : Nat) (text : Text) :
    Command → Prop
  | .step count => IsLeast ({t + count} ∪ origin.endings) u
  | .back count => u = t - count
  | .run => ∃ r, origin.Reaches limit t u r ∧ text = runText r ++ stateText (origin.after u)
  | .reset => u = 0
  | .memory _ | .output _ | .location | .state | .help | .quit => u = t

namespace Cursor

def raise (raised : Bool) (x : Cursor) : Cursor :=
  { x with interrupted := x.interrupted || raised }

inductive Acts (origin : Machine) (limit : Option Nat) (x : Cursor) (text : Text) :
    Command → Nat → Prop where
  | stopped {command : Command} (up : x.interrupted = true) (heeds : command.Heeds) :
    Acts origin limit x text command x.time
  | done {command : Command} {u : Nat} (free : x.interrupted = true → ¬command.Heeds)
    (leads : command.Leads origin limit x.time u text) : Acts origin limit x text command u

/-- The line takes one cursor to the other. A request to stop lasts until a command was read. -/
inductive Turn (origin : Machine) (limit : Option Nat) (x : Cursor) (line text : Text) :
    Cursor → Prop where
  | unread {e : CommandError} (h : Command.read line = .error e) : Turn origin limit x line text x
  | read {command : Command} {u : Nat} (h : Command.read line = .ok command)
    (acts : Acts origin limit x text command u) :
    Turn origin limit x line text { time := u, interrupted := false }

structure Shows (origin : Machine) (x : Cursor) (s : Session) : Prop where
  time : (origin.after x.time).steps = x.time
  steps : s.machine.steps = (origin.after x.time).steps
  pc : s.machine.pc = (origin.after x.time).pc
  pointer : s.machine.tape.pointer = (origin.after x.time).tape.pointer
  cell : ∀ i, s.machine.tape.cell i = (origin.after x.time).tape.cell i
  output : s.machine.output = (origin.after x.time).output
  pending : s.machine.pending = (origin.after x.time).pending
  interrupted : s.interrupted = x.interrupted

/-- The lines take one cursor to the other, and after each of them the session is at the cursor. -/
inductive Path (origin : Machine) (limit : Option Nat) :
    Cursor → List Exchange → Cursor → Prop where
  | nil {x : Cursor} : Path origin limit x [] x
  | cons {x y z : Cursor} {e : Exchange} {log : List Exchange}
    (turn : Turn origin limit (x.raise e.raised) e.line e.reply.text y)
    (shows : y.Shows origin e.reply.session) (rest : Path origin limit y log z) :
    Path origin limit x (e :: log) z

end Cursor

variable {origin m n : Machine} {limit : Option Nat} {count fuel u : Nat} {stop : Bool}
  {text line : Text} {command : Command} {reply : Reply} {s e : Session}

theorem forward_machine (hm : m.program.Sound m.settings.breakpoint) :
    (forward stop count m).2 = if stop then m else m.after count := by
  unfold forward
  by_cases h : count = 0 ∨ m.halted = true
  · have hafter : m.after count = m := by
      rcases h with rfl | h
      · rfl
      · exact after_of_none (mem_endings.mp (show 0 ∈ m.endings from h)) count
    rw [if_pos h, hafter, ite_self]
  · rw [if_neg h]
    cases stop with
    | true => rfl
    | false => exact congrArg Prod.fst (stepUpTo_eq hm count)

theorem backward_machine (hr : m.settings.recording = true) :
    (backward stop count m).2 = if stop then m else (m.backUpTo count).1 := by
  unfold backward
  -- where there is nothing to take back it makes no difference whether it is stopped
  by_cases h : count = 0 ∨ m.steps = 0 ∧ m.settings.recording
  · have hback : (m.backUpTo count).1 = m := by
      cases count with
      | zero => rfl
      | succ count =>
        have h0 : m.steps = 0 := by simpa [hr] using h
        simp [Machine.backUpTo, hr, h0]
    rw [if_pos h, hback, ite_self]
  · rw [if_neg h]
    cases stop with
    | true => rfl
    | false => rfl

theorem backward_machine_unrecorded (hr : m.settings.recording = false) :
    (backward stop count m).2 = m := by
  unfold backward
  split
  · rfl
  · cases stop with
    | true => rfl
    | false =>
      cases count with
      | zero => rfl
      | succ count => simp [Machine.backUpTo, hr]

theorem tracks_forward (ho : origin.Fresh) (h : Tracks origin m) :
    Tracks origin (forward stop count m).2 := by
  rw [forward_machine (h.sound ho).program]
  cases stop with
  | true => exact h
  | false => exact h.after ho count

theorem tracks_backward (ho : origin.Fresh) (h : Tracks origin m) :
    Tracks origin (backward stop count m).2 := by
  cases hr : m.settings.recording with
  | true =>
    rw [backward_machine hr]
    cases stop with
    | true => exact h
    | false =>
      obtain ⟨n, hn, hnt, -⟩ := h.backUpTo ho (h.settings ▸ hr) count
      simpa [hn] using hnt
  | false =>
    rw [backward_machine_unrecorded hr]
    exact h

theorem tracks_supervise (ho : origin.Fresh) (h : Tracks origin m) {s : Supervision}
    {r : Except Abort Stop} (hr : m.supervise s fuel = some (r, n)) : Tracks origin n := by
  obtain ⟨k, -, rfl⟩ := (supervise_iff (h.sound ho).program).mp ⟨fuel, hr⟩
  exact h.after ho k

theorem acts_step (ho : origin.Fresh) (h : Tracks origin m) :
    Cursor.Acts origin limit ⟨m.steps, stop⟩ text (.step count)
      (forward stop count m).2.steps := by
  rw [forward_machine (h.sound ho).program]
  cases stop with
  | true => exact .stopped rfl trivial
  | false => exact .done (fun hup => nomatch hup) (h.isLeast_steps ho count)

theorem acts_back (ho : origin.Fresh) (hr : origin.settings.recording = true)
    (h : Tracks origin m) :
    Cursor.Acts origin limit ⟨m.steps, stop⟩ text (.back count)
      (backward stop count m).2.steps := by
  rw [backward_machine (h.settings ▸ hr)]
  cases stop with
  | true => exact .stopped rfl trivial
  | false =>
    obtain ⟨n, hn, -, hns⟩ := h.backUpTo ho hr count
    simp only [hn]
    exact .done (fun hup => nomatch hup) hns

theorem stateText_congr (h : m.Same n) : stateText m = stateText n := by
  have hcurrent : m.tape.current = n.tape.current := congrArg Store.current h.store
  rw [stateText, stateText, nextSymbol, nextSymbol, h.steps, h.pc, h.program, h.pointer, hcurrent,
    h.symbol?, h.output]

theorem acts_run (ho : origin.Fresh) (h : Tracks origin m) {r : Except Abort Stop}
    (hr : m.supervise { maxSteps := limit, cancelAfter := if stop then some 0 else none } fuel =
      some (r, n)) :
    Cursor.Acts origin limit ⟨m.steps, stop⟩ (runText r ++ stateText n) .run n.steps := by
  have hm := (h.sound ho).program
  cases stop with
  | true =>
    obtain ⟨-, rfl⟩ := ((pauses_cancelled limit m).returns_iff hm).mp (.supervise hr)
    exact .stopped rfl trivial
  | false =>
    obtain ⟨hn, hreach⟩ := h.reaches_of_supervise ho hr
    refine .done (fun hup => nomatch hup) ⟨r, hreach, ?_⟩
    rw [stateText_congr hn.same]

namespace Session

def cursor (s : Session) : Cursor := { time := s.machine.steps, interrupted := s.interrupted }

/-- Whether or not there is a record, a command keeps the machine on its path. -/
theorem tracks_of_answer (ho : origin.Fresh) (h : Tracks origin s.machine)
    (ha : s.answer fuel command = some reply) : Tracks origin reply.session.machine := by
  cases command with
  | step count =>
    obtain rfl := Option.some.inj ha
    exact tracks_forward ho h
  | back count =>
    obtain rfl := Option.some.inj ha
    exact tracks_backward ho h
  | run =>
    obtain ⟨⟨r, n⟩, hn, rfl⟩ := Option.map_eq_some_iff.mp ha
    exact tracks_supervise ho h hn
  | reset =>
    obtain rfl := Option.some.inj ha
    exact (h.restart ho).symm ▸ Tracks.self ho
  | memory | output | location | state | help | quit =>
    obtain rfl := Option.some.inj ha
    exact h

theorem tracks_of_replies (ho : origin.Fresh) (h : Tracks origin s.machine)
    (hl : s.Replies line reply) : Tracks origin reply.session.machine := by
  cases hread : Command.read line with
  | error e =>
    obtain rfl := (replies_of_error hread).mp hl
    exact h
  | ok command =>
    obtain ⟨fuel, answer, ha, rfl⟩ := (replies_of_ok hread).mp hl
    have ht := tracks_of_answer ho h ha
    exact ht

theorem Feeds.tracks (ho : origin.Fresh) {log : List Exchange} (h : Tracks origin s.machine)
    (hf : Feeds s log e) : Tracks origin e.machine := by
  induction hf with
  | nil => exact h
  | @cons s _ raised _ _ _ first _ ih =>
    exact ih (tracks_of_replies (s := s.raise raised) ho h first)

/-- What a command does to the machine it does to the cursor. -/
theorem acts_of_answer (ho : origin.Fresh) (hr : origin.settings.recording = true)
    (h : Tracks origin s.machine) (ha : s.answer fuel command = some reply) :
    reply.session.maxSteps = s.maxSteps ∧
      Cursor.Acts origin s.maxSteps s.cursor reply.text command reply.session.machine.steps := by
  cases command with
  | step count =>
    obtain rfl := Option.some.inj ha
    exact ⟨rfl, acts_step ho h⟩
  | back count =>
    obtain rfl := Option.some.inj ha
    exact ⟨rfl, acts_back ho hr h⟩
  | run =>
    obtain ⟨⟨r, n⟩, hn, rfl⟩ := Option.map_eq_some_iff.mp ha
    exact ⟨rfl, acts_run ho h hn⟩
  | reset | memory | output | location | state | help | quit =>
    obtain rfl := Option.some.inj ha
    exact ⟨rfl, .done (fun _ => not_false) rfl⟩

theorem turn_of_replies (ho : origin.Fresh) (hr : origin.settings.recording = true)
    (h : Tracks origin s.machine) (hl : s.Replies line reply) :
    reply.session.maxSteps = s.maxSteps ∧
      Cursor.Turn origin s.maxSteps s.cursor line reply.text reply.session.cursor := by
  cases hread : Command.read line with
  | error e =>
    obtain rfl := (replies_of_error hread).mp hl
    exact ⟨rfl, .unread hread⟩
  | ok command =>
    obtain ⟨fuel, answer, ha, rfl⟩ := (replies_of_ok hread).mp hl
    obtain ⟨hlimit, hacts⟩ := acts_of_answer ho hr h ha
    exact ⟨hlimit, .read hread hacts⟩

theorem exists_answer (ho : origin.Fresh) (h : Tracks origin s.machine)
    (ha : Cursor.Acts origin s.maxSteps s.cursor text command u) :
    ∃ fuel reply, s.answer fuel command = some reply := by
  -- every other command answers whatever the fuel is
  by_cases hrun : command = .run
  · subst hrun
    have hrunning : ∃ fuel x, s.machine.supervise s.supervision fuel = some x := by
      cases ha with
      | stopped up =>
        have hs : s.supervision = { maxSteps := s.maxSteps, cancelAfter := some 0 } :=
          congrArg (Supervision.mk s.maxSteps) (if_pos up)
        rw [hs]
        exact ⟨_, _, (pauses_cancelled s.maxSteps s.machine).supervise (h.sound ho).program 0⟩
      | done free leads =>
        have hs : s.supervision = { maxSteps := s.maxSteps } :=
          congrArg (Supervision.mk s.maxSteps) (if_neg fun up => free up trivial)
        obtain ⟨r, hreach, -⟩ := leads
        obtain ⟨fuel, n, hn⟩ := h.exists_supervise ho hreach
        rw [hs]
        exact ⟨fuel, _, hn⟩
    obtain ⟨fuel, x, hx⟩ := hrunning
    exact ⟨fuel, _, Option.map_eq_some_iff.mpr ⟨x, hx, rfl⟩⟩
  · cases command with
    | run => exact absurd rfl hrun
    | _ => exact ⟨0, _, rfl⟩

/-- A line has a reply exactly when there is somewhere for the cursor to go. -/
theorem exists_replies_iff (ho : origin.Fresh) (hr : origin.settings.recording = true)
    (h : Tracks origin s.machine) :
    (∃ reply, s.Replies line reply) ↔
      ∃ text y, Cursor.Turn origin s.maxSteps s.cursor line text y := by
  constructor
  · rintro ⟨reply, hl⟩
    obtain ⟨-, hturn⟩ := turn_of_replies ho hr h hl
    exact ⟨_, _, hturn⟩
  · rintro ⟨text, y, hturn⟩
    cases hturn with
    | unread hread =>
      exact ⟨_, (replies_of_error hread).mpr rfl⟩
    | read hread acts =>
      obtain ⟨fuel, answer, ha⟩ := exists_answer ho h acts
      exact ⟨_, (replies_of_ok hread).mpr ⟨fuel, answer, ha, rfl⟩⟩

theorem shows_cursor (h : Tracks origin s.machine) : s.cursor.Shows origin s where
  time := h.same.steps
  steps := h.same.steps.symm
  pc := h.same.pc.symm
  pointer := h.same.pointer.symm
  cell i := (h.same.cell i).symm
  output := h.same.output.symm
  pending := h.same.pending.symm
  interrupted := rfl

theorem Feeds.path (ho : origin.Fresh) (hr : origin.settings.recording = true)
    {log : List Exchange} (h : Tracks origin s.machine) (hf : Feeds s log e) :
    Tracks origin e.machine ∧ e.maxSteps = s.maxSteps ∧
      Cursor.Path origin s.maxSteps s.cursor log e.cursor := by
  refine ⟨hf.tracks ho h, ?_⟩
  induction hf with
  | nil => exact ⟨rfl, .nil⟩
  | @cons s _ raised _ _ _ first _ ih =>
    have ht := tracks_of_replies (s := s.raise raised) ho h first
    obtain ⟨hlimit, hturn⟩ := turn_of_replies (s := s.raise raised) ho hr h first
    obtain ⟨helimit, hpath⟩ := ih ht
    rw [hlimit] at helimit hpath
    exact ⟨helimit, .cons hturn (shows_cursor ht) hpath⟩

end Session

end Brainfuck.Debugger
