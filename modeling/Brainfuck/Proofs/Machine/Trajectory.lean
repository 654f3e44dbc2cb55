import Mathlib.Logic.Function.Iterate
import Brainfuck.Proofs.Machine.Forward

namespace Brainfuck.Machine

/-- The machine one step later. At the end of the program it is the same machine. -/
def next (m : Machine) : Machine :=
  match m.symbol? with
  | some c => execute c m
  | none => m

def after (count : Nat) (m : Machine) : Machine := next^[count] m

theorem next_of_some {m : Machine} {c : Char} (h : m.symbol? = some c) : m.next = execute c m := by
  rw [next, h]

theorem next_of_none {m : Machine} (h : m.symbol? = none) : m.next = m := by
  rw [next, h]

theorem halted_iff (m : Machine) : m.halted = true ↔ m.symbol? = none := by
  rw [symbol?, Program.symbol?_eq_none_iff, halted, decide_eq_true_iff]

theorem after_succ (count : Nat) (m : Machine) : m.after (count + 1) = m.next.after count :=
  Function.iterate_succ_apply next count m

theorem after_succ' (count : Nat) (m : Machine) : m.after (count + 1) = (m.after count).next :=
  Function.iterate_succ_apply' next count m

theorem after_add (j k : Nat) (m : Machine) : m.after (j + k) = (m.after j).after k := by
  rw [Nat.add_comm]
  exact Function.iterate_add_apply next k j m

theorem frame_next (m : Machine) :
    m.next.program = m.program ∧ m.next.settings = m.settings ∧ m.next.input = m.input := by
  unfold next
  split
  · exact ⟨program_execute _ m, settings_execute _ m, input_execute _ m⟩
  · exact ⟨rfl, rfl, rfl⟩

theorem frame_after (count : Nat) (m : Machine) :
    (m.after count).program = m.program ∧ (m.after count).settings = m.settings ∧
      (m.after count).input = m.input := by
  induction count with
  | zero => exact ⟨rfl, rfl, rfl⟩
  | succ count ih =>
    obtain ⟨hp, hs, hi⟩ := frame_next (m.after count)
    rw [after_succ']
    exact ⟨hp.trans ih.1, hs.trans ih.2.1, hi.trans ih.2.2⟩

theorem sound_program_execute {m : Machine} (hm : m.program.Sound m.settings.breakpoint)
    (c : Char) : (execute c m).program.Sound (execute c m).settings.breakpoint := by
  rwa [program_execute, settings_execute]

theorem sound_program_after {m : Machine} (hm : m.program.Sound m.settings.breakpoint)
    (count : Nat) : (m.after count).program.Sound (m.after count).settings.breakpoint := by
  obtain ⟨hprogram, hsettings, -⟩ := frame_after count m
  rwa [hprogram, hsettings]

theorem steps_next_le (m : Machine) : m.next.steps ≤ m.steps + 1 := by
  unfold next
  split
  · exact Nat.le_of_eq (steps_execute _ m)
  · exact Nat.le_succ _

theorem steps_after_le (count : Nat) (m : Machine) : (m.after count).steps ≤ m.steps + count := by
  induction count with
  | zero => exact Nat.le_refl _
  | succ count ih =>
    rw [after_succ']
    have := (m.after count).steps_next_le
    omega

theorem spans_next (m : Machine) : m.tape.Spans m.next.tape := by
  unfold next
  split
  · exact spans_execute _ m
  · exact m.tape.spans_self

theorem covers_next (m : Machine) : m.next.tape.Covers m.tape := m.spans_next.covers

theorem cell_next_of_ne {m : Machine} (h : m.store.InRange m.settings) {i : Int}
    (hi : i ≠ m.tape.pointer) : m.next.tape.cell i = m.tape.cell i := by
  unfold next
  split
  · exact cell_execute_of_ne h _ hi
  · rfl

theorem covers_after (j k : Nat) (m : Machine) :
    (m.after (j + k)).tape.Covers (m.after j).tape := by
  induction k with
  | zero => exact .refl _
  | succ k ih => exact (after_succ' (j + k) m ▸ covers_next _).trans ih

theorem output_prefix_next (m : Machine) : m.output.toList <+: m.next.output.toList := by
  unfold next
  split
  · exact output_prefix_execute _ m
  · exact List.prefix_rfl

/-- What was put out is never taken back on the way forward. -/
theorem output_prefix_after (j k : Nat) (m : Machine) :
    (m.after j).output.toList <+: (m.after (j + k)).output.toList := by
  induction k with
  | zero => exact List.prefix_rfl
  | succ k ih => exact ih.trans (after_succ' (j + k) m ▸ output_prefix_next _)

/-- What holds of a machine whenever it only went forward. -/
structure Sound (m : Machine) : Prop where
  program : m.program.Sound m.settings.breakpoint
  inRange : m.store.InRange m.settings
  jump_unlogged : ∀ s, m.steps ≤ s → m.undo.jump? s = none
  read_unlogged : ∀ s, m.steps ≤ s → m.undo.read? s = none

theorem load_eq_ok {source input : Text} {settings : Settings} {m : Machine}
    (h : load source input settings = .ok m) :
    ∃ p, Program.load settings.breakpoint source = .ok p ∧ m = start p settings input := by
  unfold load at h
  split at h
  · next p hp => exact ⟨p, hp, (Except.ok.inj h).symm⟩
  · simp at h

theorem load_eq_error_iff {source input : Text} {settings : Settings} {f : Fault} :
    load source input settings = .error f ↔ Program.load settings.breakpoint source = .error f := by
  unfold load
  split <;> next hp => simp [hp]

theorem settings_load {source input : Text} {settings : Settings} {m : Machine}
    (h : load source input settings = .ok m) : m.settings = settings := by
  obtain ⟨p, -, rfl⟩ := load_eq_ok h
  rfl

theorem exists_load_iff (source input : Text) (settings : Settings) :
    (∃ m, load source input settings = .ok m) ↔ Source.Balanced source := by
  rw [← Program.exists_load_iff settings.breakpoint]
  constructor
  · rintro ⟨m, hm⟩
    obtain ⟨p, hp, -⟩ := load_eq_ok hm
    exact ⟨p, hp⟩
  · rintro ⟨p, hp⟩
    exact ⟨start p settings input, by rw [load, hp]⟩

theorem sound_start {p : Program} {settings : Settings} (h : p.Sound settings.breakpoint)
    (input : Text) : (start p settings input).Sound where
  program := h
  inRange := store_start p settings input ▸ Store.inRange_blank settings input
  jump_unlogged s _ := by simp [start, UndoLog.jump?]
  read_unlogged s _ := by simp [start, UndoLog.read?]

theorem sound_load {source input : Text} {settings : Settings} {m : Machine}
    (h : load source input settings = .ok m) : m.Sound := by
  obtain ⟨p, hp, rfl⟩ := load_eq_ok h
  exact sound_start (Program.sound_of_load hp) input

theorem Sound.execute {m : Machine} (h : m.Sound) (c : Char) : (execute c m).Sound where
  program := by simpa using h.program
  inRange := by
    rw [store_execute h.inRange, settings_execute]
    exact h.inRange.execute c
  jump_unlogged s hs := by
    rw [steps_execute] at hs
    rw [jump?_execute, if_neg fun hj => absurd hj.2.2 (by omega)]
    exact h.jump_unlogged s (by omega)
  read_unlogged s hs := by
    rw [steps_execute] at hs
    rw [read?_execute, if_neg fun hr => absurd hr.2.2 (by omega)]
    exact h.read_unlogged s (by omega)

theorem Sound.next {m : Machine} (h : m.Sound) : m.next.Sound := by
  unfold Machine.next
  split
  · exact h.execute _
  · exact h

theorem Sound.after {m : Machine} (h : m.Sound) (count : Nat) : (m.after count).Sound := by
  induction count with
  | zero => exact h
  | succ count ih => exact after_succ' count m ▸ ih.next

theorem fault?_eq_none {m : Machine} (h : m.program.Sound m.settings.breakpoint) {c : Char}
    (hc : m.symbol? = some c) : m.fault? c = none := by
  rw [fault?, if_pos (h.isSymbol_of_symbol? hc)]

theorem step_eq_next {m : Machine} (h : m.program.Sound m.settings.breakpoint) :
    m.step = .ok m.next := by
  unfold step next
  cases hc : m.symbol? with
  | none => rfl
  | some c => simp [fault?_eq_none h hc]

theorem Sound.step_after {m : Machine} (h : m.Sound) (i : Nat) :
    (m.after i).step = .ok (m.after (i + 1)) := by
  rw [after_succ']
  exact step_eq_next (h.after i).program

/-- The machines differ at most in their visited spans and in the layout of their maps. -/
structure Same (m n : Machine) : Prop where
  program : m.program = n.program
  settings : m.settings = n.settings
  input : m.input = n.input
  store : m.store = n.store
  pc : m.pc = n.pc
  steps : m.steps = n.steps
  jump : ∀ s, m.undo.jump? s = n.undo.jump? s
  read : ∀ s, m.undo.read? s = n.undo.read? s

namespace Same

theorem refl (m : Machine) : m.Same m := ⟨rfl, rfl, rfl, rfl, rfl, rfl, fun _ => rfl, fun _ => rfl⟩

variable {m n k : Machine}

theorem symm (h : m.Same n) : n.Same m where
  program := h.program.symm
  settings := h.settings.symm
  input := h.input.symm
  store := h.store.symm
  pc := h.pc.symm
  steps := h.steps.symm
  jump s := (h.jump s).symm
  read s := (h.read s).symm

theorem trans (h : m.Same n) (h' : n.Same k) : m.Same k where
  program := h.program.trans h'.program
  settings := h.settings.trans h'.settings
  input := h.input.trans h'.input
  store := h.store.trans h'.store
  pc := h.pc.trans h'.pc
  steps := h.steps.trans h'.steps
  jump s := (h.jump s).trans (h'.jump s)
  read s := (h.read s).trans (h'.read s)

theorem pointer (h : m.Same n) : m.tape.pointer = n.tape.pointer := congrArg Store.pointer h.store

theorem cell (h : m.Same n) (i : Int) : m.tape.cell i = n.tape.cell i :=
  congrFun (congrArg Store.cell h.store) i

theorem output (h : m.Same n) : m.output = n.output := congrArg Store.output h.store

theorem pending (h : m.Same n) : m.pending = n.pending := congrArg Store.pending h.store

theorem symbol? (h : m.Same n) : m.symbol? = n.symbol? := by
  rw [Machine.symbol?, Machine.symbol?, h.program, h.pc]

theorem sound (h : m.Same n) (hm : m.Sound) : n.Sound where
  program := h.program ▸ h.settings ▸ hm.program
  inRange := h.store ▸ h.settings ▸ hm.inRange
  jump_unlogged s hs := (h.jump s).symm.trans (hm.jump_unlogged s (h.steps ▸ hs))
  read_unlogged s hs := (h.read s).symm.trans (hm.read_unlogged s (h.steps ▸ hs))

theorem execute (h : m.Same n) (hm : m.store.InRange m.settings) (c : Char) :
    (execute c m).Same (execute c n) where
  program := by simpa using h.program
  settings := by simpa using h.settings
  input := by simpa using h.input
  store := by
    rw [store_execute hm, store_execute (h.store ▸ h.settings ▸ hm), h.store, h.settings]
  pc := by
    simp only [pc_execute, h.store, h.program, h.pc]
  steps := by simpa using h.steps
  jump s := by
    simp only [jump?_execute, h.store, h.settings, h.steps, h.pc, h.jump]
  read s := by
    have hc : m.tape.current = n.tape.current := congrArg Store.current h.store
    simp only [read?_execute, h.settings, h.steps, h.pending, hc, h.read]

theorem next (h : m.Same n) (hm : m.store.InRange m.settings) : m.next.Same n.next := by
  cases hc : m.symbol? with
  | none =>
    rw [next_of_none hc, next_of_none (h.symbol?.symm.trans hc)]
    exact h
  | some c =>
    rw [next_of_some hc, next_of_some (h.symbol?.symm.trans hc)]
    exact h.execute hm c

theorem after (h : m.Same n) (hm : m.Sound) (count : Nat) :
    (m.after count).Same (n.after count) := by
  induction count with
  | zero => exact h
  | succ count ih =>
    rw [after_succ', after_succ']
    exact ih.next (hm.after count).inRange

end Same
end Brainfuck.Machine
