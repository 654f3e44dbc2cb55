import Mathlib.Data.Option.Defs
import Brainfuck.Proofs.Recording
import Brainfuck.Proofs.Rewinding

/-!
An undo log without step counts. A stack that gets one record for every step, and loses it when the
step is taken back, serves a machine as well as the log that goes by step counts.
-/

namespace Brainfuck

/-- What the stack keeps of one step. -/
inductive Record where
  | plain
  | jump (origin : Nat)
  | read (entry : Read)
  deriving DecidableEq, Repr

/-- A machine that keeps no log, and beside it the records of its steps, the last one on top. -/
structure Stacked where
  machine : Machine
  stack : List Record := []

namespace Record

def of (c : Char) (m : Machine) : Record :=
  match Instruction.ofChar? c with
  | some .openLoop => if m.tape.current = 0 then jump m.pc else plain
  | some .closeLoop => if m.tape.current = 0 then plain else jump m.pc
  | some .input => read { previous := m.tape.current, consumed := m.pending.head? }
  | _ => plain

def opposite : Instruction → Machine → Machine
  | .right, m => { m with tape := m.tape.left }
  | .left, m => { m with tape := m.tape.right }
  | .increment, m => { m with tape := m.tape.decrement m.settings.greatest }
  | .decrement, m => { m with tape := m.tape.increment m.settings.greatest }
  | .output, m => { m with output := m.output.pop }
  | .input, m => m
  | .openLoop, m => m
  | .closeLoop, m => m

def apply : Record → Machine → Machine
  | plain, m =>
    match m.symbol?.bind Instruction.ofChar? with
    | some i => opposite i m
    | none => m
  | jump origin, m => { m with pc := origin }
  | read entry, m =>
    { m with
      pending := entry.consumed.toList ++ m.pending
      tape := m.tape.write entry.previous }

def origin? : Record → Option Nat
  | jump origin => some origin
  | _ => none

def replaced? : Record → Option Read
  | read entry => some entry
  | _ => none

end Record

namespace Stacked

def load (source input : Text) (settings : Settings) : Except Fault Stacked :=
  (Machine.load source input { settings with recording := false }).map fun machine => { machine }

def restart (v : Stacked) : Stacked := { machine := v.machine.restart }

def execute (c : Char) (v : Stacked) : Stacked :=
  { machine := Machine.execute c v.machine, stack := .of c v.machine :: v.stack }

def step (v : Stacked) : Except Fault Stacked :=
  match v.machine.symbol? with
  | none => .ok v
  | some c =>
    match v.machine.fault? c with
    | some fault => .error fault
    | none => .ok (v.execute c)

/-- Pops a record and applies it. Without a record there is no step to take back. -/
def back (v : Stacked) : Stacked :=
  match v.stack with
  | [] => v
  | record :: rest => { machine := record.apply v.machine.retreat, stack := rest }

def superviseFrom (s : Machine.Supervision) :
    Nat → Nat → Stacked → Option (Except Abort Stop × Stacked)
  | 0, _, _ => none
  | fuel + 1, taken, v =>
    match v.machine.symbol? with
    | none => some (.ok .halted, v)
    | some c =>
      match s.abort? taken with
      | some abort => some (.error abort, v)
      | none =>
        match v.machine.fault? c with
        | some fault => some (.error (.fault fault), v)
        | none =>
          let next := v.execute c
          if next.machine.isBreakpoint c then
            some (.ok (.breakpoint (next.machine.pc - 1)), next)
          else superviseFrom s fuel (taken + 1) next

/-- The call on `v` gives the answer and leaves `w`. A plain run is one without limits. -/
inductive Returns : Call → Stacked → Answer → Stacked → Prop where
  | step {v w : Stacked} (h : v.step = .ok w) : Returns .step v .done w
  | stepRefused {v : Stacked} {f : Fault} (h : v.step = .error f) : Returns .step v (.refused f) v
  | back {v : Stacked} : Returns .back v .done v.back
  | run {v w : Stacked} {fuel : Nat} {r : Except Abort Stop}
    (h : v.superviseFrom {} fuel 0 = some (r, w)) : Returns .run v (.stopped r) w
  | supervise {v w : Stacked} {s : Machine.Supervision} {fuel : Nat} {r : Except Abort Stop}
    (h : v.superviseFrom s fuel 0 = some (r, w)) : Returns (.supervise s) v (.stopped r) w
  | restart {v : Stacked} : Returns .restart v .done v.restart

inductive Trace : Stacked → List (Call × Answer) → Stacked → Prop where
  | nil {v : Stacked} : Trace v [] v
  | cons {v w z : Stacked} {c : Call} {a : Answer} {log : List (Call × Answer)}
    (first : Returns c v a w) (rest : Trace w log z) : Trace v ((c, a) :: log) z

end Stacked

/-! ### Records -/

namespace Record

theorem origin?_of (c : Char) (m : Machine) :
    (of c m).origin? = if m.store.Jumps c then some m.pc else none := by
  unfold of
  cases hi : Instruction.ofChar? c with
  | none =>
    have hj : ¬m.store.Jumps c := by
      rintro (⟨rfl, -⟩ | ⟨rfl, -⟩) <;> exact absurd hi (by decide)
    rw [if_neg hj]
    rfl
  | some i =>
    obtain rfl := Instruction.toChar_of_ofChar? hi
    by_cases h0 : m.tape.current = 0 <;> cases i <;>
      simp [Store.Jumps, Instruction.toChar, origin?, h0]

theorem replaced?_of (c : Char) (m : Machine) :
    (of c m).replaced? =
      if c = ',' then some { previous := m.tape.current, consumed := m.pending.head? }
      else none := by
  unfold of
  cases hi : Instruction.ofChar? c with
  | none =>
    have hc : c ≠ ',' := by
      rintro rfl
      exact absurd hi (by decide)
    rw [if_neg hc]
    rfl
  | some i =>
    obtain rfl := Instruction.toChar_of_ofChar? hi
    by_cases h0 : m.tape.current = 0 <;> cases i <;> simp [Instruction.toChar, replaced?, h0]

theorem bind_getElem?_push {α : Type} (f : Record → Option α) (r : Record) (stack : List Record)
    (s : Nat) :
    (r :: stack).reverse[s]?.bind f =
      if stack.length = s then f r else stack.reverse[s]?.bind f := by
  rw [List.reverse_cons]
  split
  · next h => simp [← h]
  · next h =>
    by_cases hs : s < stack.length
    · rw [List.getElem?_append_left (by simpa using hs)]
    · rw [List.getElem?_eq_none (by simp; omega), List.getElem?_eq_none (by simp; omega)]

end Record

/-! ### What the log holds for the last step -/

namespace Machine

variable {origin m : Machine} {s : Nat}

/-- What the last step executed, as it can still be told after it. -/
theorem Tracks.exists_executed (ho : origin.Fresh) (h : Tracks origin m)
    (hr : m.settings.recording = true) (hpos : 0 < m.steps) :
    ∃ c e, e.Sound ∧ e.symbol? = some c ∧ e.steps = m.steps - 1 ∧ Executed c e m.retreat := by
  obtain ⟨t, ht⟩ := Nat.exists_eq_add_one.mpr hpos
  have hsame := h.same
  rw [ht] at hsame
  obtain ⟨c, hc, hts, he⟩ := exists_last_step ho.steps (hsame.steps.trans ht)
  rw [he] at hsame
  have hrec : (origin.after t).settings.recording = true := by
    rw [(frame_after t origin).2.1, ← h.settings]
    exact hr
  have hsound := ho.sound.after t
  exact ⟨c, _, hsound, hc, by omega, executed_retreat hsound.inRange hrec hsame⟩

/-- A jump is in the log only where the machine has come to a bracket by it. -/
theorem Tracks.bracket_of_jump? (ho : origin.Fresh) (h : Tracks origin m)
    (hr : m.settings.recording = true) (hpos : 0 < m.steps) {pc : Nat}
    (hlog : m.undo.jump? (m.steps - 1) = some pc) :
    m.retreat.symbol? = some '[' ∨ m.retreat.symbol? = some ']' := by
  obtain ⟨c, e, he, hc, hs, hx⟩ := h.exists_executed ho hr hpos
  have hj : e.store.Jumps c := by
    by_contra hj
    have hnone := hx.jump (m.steps - 1)
    rw [if_neg fun k => hj k.1, he.jump_unlogged _ (Nat.le_of_eq hs)] at hnone
    exact Option.some_ne_none pc (hlog.symm.trans hnone)
  obtain ⟨j, hp, hsym⟩ := exists_partner_of_jumps he.program hc hj
  rwa [symbol?, hx.pc, if_pos hj, hp, ← hx.program]

/-- A read is in the log only where the machine has just passed the symbol of a read. -/
theorem Tracks.input_of_read? (ho : origin.Fresh) (h : Tracks origin m)
    (hr : m.settings.recording = true) (hpos : 0 < m.steps) {entry : Read}
    (hlog : m.undo.read? (m.steps - 1) = some entry) : m.retreat.symbol? = some ',' := by
  obtain ⟨c, e, he, hc, hs, hx⟩ := h.exists_executed ho hr hpos
  have hin : c = ',' := by
    by_contra hin
    have hnone := hx.read (m.steps - 1)
    rw [if_neg fun k => hin k.1, he.read_unlogged _ (Nat.le_of_eq hs)] at hnone
    exact Option.some_ne_none entry (hlog.symm.trans hnone)
  have hj : ¬e.store.Jumps c := hin ▸ Store.not_jumps .input e.store
  rw [symbol?, hx.pc, if_neg hj, ← hx.program, ← hin]
  exact hc

/-- A step back touches the log only at the step that it takes back. -/
theorem log_undone_of_ne (hs : s ≠ m.steps - 1) :
    m.undone.undo.jump? s = m.undo.jump? s ∧ m.undone.undo.read? s = m.undo.read? s := by
  have hs' : ¬m.retreat.steps = s := fun e => hs e.symm
  have hjump : m.retreat.unjump.undo.jump? s = m.undo.jump? s ∧
      m.retreat.unjump.undo.read? s = m.undo.read? s := by
    unfold unjump
    split
    · exact ⟨by rw [UndoLog.jump?_dropJump, if_neg hs']; rfl, rfl⟩
    · exact ⟨rfl, rfl⟩
  have hread : m.retreat.unread.undo.jump? s = m.undo.jump? s ∧
      m.retreat.unread.undo.read? s = m.undo.read? s := by
    unfold unread
    split
    · exact ⟨rfl, by rw [UndoLog.read?_dropRead, if_neg hs']; rfl⟩
    · exact ⟨rfl, rfl⟩
  dsimp only [undone]
  split
  · next i _ =>
    cases i with
    | input => exact hread
    | openLoop => exact hjump
    | closeLoop => exact hjump
    | _ => exact ⟨rfl, rfl⟩
  · exact ⟨rfl, rfl⟩

/-- Without a record of its own the last step is taken back by the opposite of its symbol. -/
theorem undone_of_unlogged (hj : m.undo.jump? (m.steps - 1) = none)
    (hr : m.undo.read? (m.steps - 1) = none) :
    m.undone.unrecorded = Record.plain.apply m.unrecorded.retreat := by
  have hs : m.unrecorded.retreat.symbol? = m.retreat.symbol? := rfl
  have hjump : m.retreat.unjump = m.retreat := unjump_of_none hj
  have hread : m.retreat.unread = m.retreat := unread_of_none hr
  dsimp only [undone, Record.apply]
  rw [hs]
  cases m.retreat.symbol?.bind Instruction.ofChar? with
  | none => rfl
  | some i =>
    cases i with
    | input => exact congrArg unrecorded hread
    | openLoop => exact congrArg unrecorded hjump
    | closeLoop => exact congrArg unrecorded hjump
    | _ => rfl

end Machine

/-! ### The log and the stack -/

/-- The log and the stack are of the same steps: the record of the step numbered `s` is the one with
`s` others below it. -/
structure Coupled (m : Machine) (v : Stacked) : Prop where
  recording : m.settings.recording = true
  machine : v.machine = m.unrecorded
  length : v.stack.length = m.steps
  jump : ∀ s, m.undo.jump? s = v.stack.reverse[s]?.bind Record.origin?
  read : ∀ s, m.undo.read? s = v.stack.reverse[s]?.bind Record.replaced?

namespace Coupled

open Machine

variable {origin m : Machine} {v : Stacked} {a : Answer}

theorem start (p : Program) (settings : Settings) (input : Text)
    (hr : settings.recording = true) :
    Coupled (Machine.start p settings input)
      { machine := Machine.start p { settings with recording := false } input } where
  recording := hr
  machine := rfl
  length := rfl
  jump s := by simp [Machine.start, UndoLog.jump?]
  read s := by simp [Machine.start, UndoLog.read?]

theorem restart (h : Coupled m v) : Coupled m.restart v.restart := by
  rw [Stacked.restart, h.machine]
  exact start m.program m.settings m.input h.recording

theorem getElem?_eq_none (h : Coupled m v) {s : Nat} (hs : m.steps ≤ s) :
    v.stack.reverse[s]? = none := by
  rw [List.getElem?_eq_none_iff, List.length_reverse, h.length]
  exact hs

theorem execute (h : Coupled m v) (c : Char) : Coupled (Machine.execute c m) (v.execute c) where
  recording := by rw [settings_execute]; exact h.recording
  machine := by
    rw [Stacked.execute, h.machine]
    exact execute_unrecorded c m
  length := by
    rw [steps_execute, ← h.length]
    rfl
  jump s := by
    rw [jump?_execute, Stacked.execute, Record.bind_getElem?_push, Record.origin?_of, h.length,
      h.jump, h.machine]
    by_cases hs : m.steps = s
    · have hnone := h.getElem?_eq_none (Nat.le_of_eq hs)
      simp [h.recording, hs, hnone]
      rfl
    · simp [hs]
  read s := by
    rw [read?_execute, Stacked.execute, Record.bind_getElem?_push, Record.replaced?_of, h.length,
      h.read, h.machine]
    by_cases hs : m.steps = s
    · have hnone := h.getElem?_eq_none (Nat.le_of_eq hs)
      simp [h.recording, hs, hnone]
      rfl
    · simp [hs]

/-- Popping a record does what the step back does that looks the record up in the log. -/
theorem undone (ho : origin.Fresh) (ht : Tracks origin m) (h : Coupled m v)
    (hpos : 0 < m.steps) : Coupled m.undone v.back := by
  obtain ⟨r, rest, hv⟩ := List.exists_cons_of_length_pos (h.length ▸ hpos : 0 < v.stack.length)
  have hlen : rest.length = m.steps - 1 := by rw [← h.length, hv]; rfl
  have hback : v.back = { machine := r.apply m.unrecorded.retreat, stack := rest } := by
    rw [Stacked.back, hv, ← h.machine]
  have hjump (s : Nat) : m.undo.jump? s =
      if m.steps - 1 = s then r.origin? else rest.reverse[s]?.bind Record.origin? := by
    rw [h.jump, hv, Record.bind_getElem?_push, hlen]
  have hread (s : Nat) : m.undo.read? s =
      if m.steps - 1 = s then r.replaced? else rest.reverse[s]?.bind Record.replaced? := by
    rw [h.read, hv, Record.bind_getElem?_push, hlen]
  have hj := (hjump _).trans (if_pos rfl)
  have hr := (hread _).trans (if_pos rfl)
  obtain ⟨hu, hsteps, -⟩ := ht.undone ho h.recording hpos
  have hsound := hu.sound ho
  -- the step that was taken back has no record on either side any more
  have hend {s : Nat} (hs : m.steps - 1 = s) : rest.reverse[s]? = none := by
    rw [List.getElem?_eq_none_iff, List.length_reverse, hlen]
    exact Nat.le_of_eq hs
  rw [hback]
  constructor
  · rw [hu.settings, ← ht.settings]
    exact h.recording
  · cases r with
    | plain => exact (undone_of_unlogged hj hr).symm
    | jump pc =>
      rw [undone_of_bracket (ht.bracket_of_jump? ho h.recording hpos hj), unjump_of_some hj]
      rfl
    | read entry =>
      have hc := ht.input_of_read? ho h.recording hpos hr
      rw [undone_of_simple hc (i := .input) rfl]
      show _ = m.retreat.unread.unrecorded
      rw [unread_of_some hr]
      rfl
  · rw [hsteps, hlen]
  · intro s
    by_cases hs : m.steps - 1 = s
    · rw [hsound.jump_unlogged s (by omega), hend hs]
      rfl
    · rw [(log_undone_of_ne fun e => hs e.symm).1, hjump, if_neg hs]
  · intro s
    by_cases hs : m.steps - 1 = s
    · rw [hsound.read_unlogged s (by omega), hend hs]
      rfl
    · rw [(log_undone_of_ne fun e => hs e.symm).2, hread, if_neg hs]

theorem superviseFrom (h : Coupled m v) (s : Supervision) (fuel taken : Nat) :
    Option.Rel (fun x y => x.1 = y.1 ∧ Coupled x.2 y.2) (Machine.superviseFrom s fuel taken m)
      (v.superviseFrom s fuel taken) := by
  -- a round looks at the symbol, the fault, the breakpoint and the counter, all of them the same
  induction fuel generalizing taken m v with
  | zero => exact .none
  | succ fuel ih =>
    have hs : v.machine.symbol? = m.symbol? := by rw [h.machine]; rfl
    rw [Machine.superviseFrom, Stacked.superviseFrom, hs]
    cases m.symbol? with
    | none => exact .some ⟨rfl, h⟩
    | some c =>
      have hf : v.machine.fault? c = m.fault? c := by rw [h.machine]; rfl
      have hx := h.execute c
      simp only [hf]
      cases s.abort? taken with
      | some abort => exact .some ⟨rfl, h⟩
      | none =>
        cases m.fault? c with
        | some f => exact .some ⟨rfl, h⟩
        | none =>
          have hb :
              (v.execute c).machine.isBreakpoint c = (Machine.execute c m).isBreakpoint c := by
            rw [hx.machine]
            rfl
          have hpc : (v.execute c).machine.pc = (Machine.execute c m).pc := by
            rw [hx.machine]
            rfl
          simp only [hb, hpc]
          split
          · exact .some ⟨rfl, hx⟩
          · exact ih hx (taken + 1)

theorem step (h : Coupled m v) :
    (∃ n w, m.step = .ok n ∧ v.step = .ok w ∧ Coupled n w) ∨
      ∃ f, m.step = .error f ∧ v.step = .error f := by
  have hs : v.machine.symbol? = m.symbol? := by rw [h.machine]; rfl
  rw [Machine.step, Stacked.step, hs]
  cases m.symbol? with
  | none => exact .inl ⟨m, v, rfl, rfl, h⟩
  | some c =>
    have hf : v.machine.fault? c = m.fault? c := by rw [h.machine]; rfl
    simp only [hf]
    cases m.fault? c with
    | some f => exact .inr ⟨f, rfl, rfl⟩
    | none => exact .inl ⟨_, _, rfl, rfl, h.execute c⟩

theorem back (ho : origin.Fresh) (ht : Tracks origin m) (h : Coupled m v) :
    ∃ n, m.back = .ok n ∧ Coupled n v.back := by
  rcases Nat.eq_zero_or_pos m.steps with h0 | hpos
  -- with no steps the stack is empty, and both stay where they are
  · have hnil : v.stack = [] := List.eq_nil_of_length_eq_zero (h.length.trans h0)
    refine ⟨m, by simp [Machine.back, h.recording, h0], ?_⟩
    rwa [Stacked.back, hnil]
  · exact ⟨_, back_eq_undone h.recording hpos, h.undone ho ht hpos⟩

theorem supervise (h : Coupled m v) (s : Supervision) :
    (∀ n, Machine.Returns (.supervise s) m a n →
      ∃ w, Stacked.Returns (.supervise s) v a w ∧ Coupled n w) ∧
    ∀ w, Stacked.Returns (.supervise s) v a w →
      ∃ n, Machine.Returns (.supervise s) m a n ∧ Coupled n w := by
  constructor
  · intro n hn
    cases hn with
    | @supervise _ _ _ fuel r hn =>
      have hrel := h.superviseFrom s fuel 0
      rw [show Machine.superviseFrom s fuel 0 m = some (r, n) from hn] at hrel
      generalize hy : v.superviseFrom s fuel 0 = y at hrel
      cases hrel with
      | @some _ y hxy =>
        obtain ⟨rfl, hw⟩ := hxy
        exact ⟨y.2, .supervise hy, hw⟩
  · intro w hw
    cases hw with
    | @supervise _ _ _ fuel r hw =>
      have hrel := h.superviseFrom s fuel 0
      rw [hw] at hrel
      generalize hx : Machine.superviseFrom s fuel 0 m = x at hrel
      cases hrel with
      | @some x _ hxy =>
        obtain ⟨rfl, hn⟩ := hxy
        exact ⟨x.2, .supervise hx, hn⟩

theorem returns (ho : origin.Fresh) (ht : Tracks origin m) (h : Coupled m v) (c : Call) :
    (∀ n, Machine.Returns c m a n → ∃ w, Stacked.Returns c v a w ∧ Coupled n w) ∧
      ∀ w, Stacked.Returns c v a w → ∃ n, Machine.Returns c m a n ∧ Coupled n w := by
  cases c with
  | step =>
    obtain ⟨n, w, hn, hw, hnw⟩ | ⟨f, hn, hw⟩ := h.step
    · constructor
      · intro n' hn'
        obtain ⟨rfl, rfl⟩ := hn'.unique (.step hn)
        exact ⟨w, .step hw, hnw⟩
      · intro w' hw'
        cases hw' with
        | step hw' =>
          obtain rfl := Except.ok.inj (hw.symm.trans hw')
          exact ⟨n, .step hn, hnw⟩
        | stepRefused hw' => simp [hw] at hw'
    · constructor
      · intro n' hn'
        obtain ⟨rfl, rfl⟩ := hn'.unique (.stepRefused hn)
        exact ⟨v, .stepRefused hw, h⟩
      · intro w' hw'
        cases hw' with
        | step hw' => simp [hw] at hw'
        | stepRefused hw' =>
          obtain rfl := Except.error.inj (hw.symm.trans hw')
          exact ⟨m, .stepRefused hn, h⟩
  | back =>
    obtain ⟨n, hn, hw⟩ := h.back ho ht
    constructor
    · intro n' hn'
      obtain ⟨rfl, rfl⟩ := hn'.unique (.back hn)
      exact ⟨v.back, .back, hw⟩
    · rintro w' ⟨⟩
      exact ⟨n, .back hn, hw⟩
  | run =>
    obtain ⟨hforth, hback⟩ := h.supervise (a := a) {}
    constructor
    · intro n hn
      obtain ⟨w, hw, hnw⟩ := hforth n (returns_free_iff.mpr hn)
      cases hw with
      | supervise hw => exact ⟨w, .run hw, hnw⟩
    · intro w hw
      cases hw with
      | run hw =>
        obtain ⟨n, hn, hnw⟩ := hback w (.supervise hw)
        exact ⟨n, returns_free_iff.mp hn, hnw⟩
  | supervise s => exact h.supervise s
  | restart =>
    constructor
    · rintro n ⟨⟩
      exact ⟨v.restart, .restart, h.restart⟩
    · rintro w ⟨⟩
      exact ⟨m.restart, .restart, h.restart⟩

theorem trace (ho : origin.Fresh) (ht : Tracks origin m) (h : Coupled m v)
    (log : List (Call × Answer)) :
    (∀ n, Machine.Trace m log n → ∃ w, Stacked.Trace v log w ∧ Coupled n w) ∧
      ∀ w, Stacked.Trace v log w → ∃ n, Machine.Trace m log n ∧ Coupled n w := by
  induction log generalizing m v with
  | nil =>
    constructor
    · rintro n ⟨⟩
      exact ⟨v, .nil, h⟩
    · rintro w ⟨⟩
      exact ⟨m, .nil, h⟩
  | cons entry log ih =>
    constructor
    · intro n hn
      cases hn with
      | cons first rest =>
        obtain ⟨u, hu, hku⟩ := (h.returns ho ht _).1 _ first
        obtain ⟨w, hw, hnw⟩ := (ih (ht.trace ho (.single first)) hku).1 n rest
        exact ⟨w, .cons hu hw, hnw⟩
    · intro w hw
      cases hw with
      | cons first rest =>
        obtain ⟨k, hk, hku⟩ := (h.returns ho ht _).2 _ first
        obtain ⟨n, hn, hnw⟩ := (ih (ht.trace ho (.single hk)) hku).2 w rest
        exact ⟨n, .cons hk hn, hnw⟩

end Coupled

namespace Stacked

open Machine

/-- A machine with a log by step counts and one with a stack load alike, give the same answers to
all calls, and cannot be told apart after any of them. -/
theorem log_refines_stack (source input : Text) (settings : Settings)
    (hr : settings.recording = true) :
    (∀ f, Machine.load source input settings = .error f ↔
      Stacked.load source input settings = .error f) ∧
    ∀ m v, Machine.load source input settings = .ok m → Stacked.load source input settings = .ok v →
      (∀ log, (∃ m', Machine.Trace m log m') ↔ ∃ v', Stacked.Trace v log v') ∧
      ∀ log log' m' v', log.map Prod.fst = log'.map Prod.fst →
        Machine.Trace m log m' → Stacked.Trace v log' v' →
        log = log' ∧ m'.pc = v'.machine.pc ∧ m'.steps = v'.machine.steps ∧
          m'.tape.pointer = v'.machine.tape.pointer ∧
          (∀ i, m'.tape.cell i = v'.machine.tape.cell i) ∧
          m'.tape.lowest = v'.machine.tape.lowest ∧ m'.tape.highest = v'.machine.tape.highest ∧
          m'.output = v'.machine.output ∧ m'.pending = v'.machine.pending := by
  have hload : Stacked.load source input settings =
      (Machine.load source input settings).map fun m => { machine := m.unrecorded } := by
    rw [Stacked.load, load_without_recording]
    cases Machine.load source input settings <;> rfl
  constructor
  · intro f
    rw [hload]
    cases Machine.load source input settings <;> simp [Except.map]
  · intro m v hm hv
    have ho := fresh_load hm
    have hcoupled : Coupled m v := by
      rw [hload, hm] at hv
      obtain rfl := Except.ok.inj hv
      obtain ⟨p, -, rfl⟩ := load_eq_ok hm
      exact .start p settings input hr
    have htrace := hcoupled.trace ho (.self ho)
    constructor
    · intro log
      constructor
      · rintro ⟨m', h⟩
        obtain ⟨v', h', -⟩ := (htrace log).1 m' h
        exact ⟨v', h'⟩
      · rintro ⟨v', h⟩
        obtain ⟨m', h', -⟩ := (htrace log).2 v' h
        exact ⟨m', h'⟩
    · intro log log' m' v' hcalls h h'
      obtain ⟨n, hn, hnv⟩ := (htrace log').2 v' h'
      obtain ⟨rfl, rfl⟩ := h.unique hn hcalls
      rw [hnv.machine]
      exact ⟨rfl, rfl, rfl, rfl, fun i => rfl, rfl, rfl, rfl, rfl⟩

/-- A read is taken back and made again, at the step count that it had before. -/
theorem log_refines_stack_reread :
    ∃ m v m' v', Machine.load ",+.".toList "h".toList {} = .ok m ∧
      Stacked.load ",+.".toList "h".toList {} = .ok v ∧
      Machine.Trace m ((.run, .stopped (.ok .halted)) ::
        List.replicate 3 (.back, .done) ++ List.replicate 3 (.step, .done)) m' ∧
      Stacked.Trace v ((.run, .stopped (.ok .halted)) ::
        List.replicate 3 (.back, .done) ++ List.replicate 3 (.step, .done)) v' ∧
      m'.pc = v'.machine.pc ∧ m'.pending = v'.machine.pending := by
  obtain ⟨m, n, hload, hrun, hr, hs⟩ := exists_successor
  have ho := fresh_load hload
  have ht := ho.tracks hrun
  obtain ⟨b, hb, hbt, -⟩ := ht.rewind ho (ht.settings ▸ hr) (Nat.le_of_eq hs.symm)
  have htrace := (hrun.append hb).append ((hbt.sound ho).trace_steps 3)
  obtain ⟨-, hagree⟩ := log_refines_stack ",+.".toList "h".toList {} rfl
  obtain ⟨v, hv⟩ : ∃ v, Stacked.load ",+.".toList "h".toList {} = .ok v := ⟨_, rfl⟩
  obtain ⟨hiff, hsame⟩ := hagree m v hload hv
  obtain ⟨v', hv'⟩ := (hiff _).mp ⟨_, htrace⟩
  obtain ⟨-, hpc, -, -, -, -, -, -, hpending⟩ := hsame _ _ _ v' rfl htrace hv'
  exact ⟨m, v, _, v', hload, hv, htrace, hv', hpc, hpending⟩

end Stacked
end Brainfuck
