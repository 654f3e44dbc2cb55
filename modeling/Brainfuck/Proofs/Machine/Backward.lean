import Brainfuck.Machine.Backward
import Brainfuck.Proofs.Machine.Trajectory

namespace Brainfuck

/-- One less than one more, with the carry from the greatest value to zero. -/
theorem Store.InRange.pred_succ {settings : Settings} {s : Store} (h : s.InRange settings) :
    (if (s.current + 1) % settings.modulus = 0 then settings.greatest
      else (s.current + 1) % settings.modulus - 1) = s.current := by
  have hc := h.current_le
  rw [h.succ_mod]
  split <;> split at * <;> omega

theorem Store.InRange.succ_pred {settings : Settings} {s : Store} (h : s.InRange settings) :
    (if settings.greatest ≤ (s.current + (settings.modulus - 1)) % settings.modulus then 0
      else (s.current + (settings.modulus - 1)) % settings.modulus + 1) = s.current := by
  have hc := h.current_le
  rw [h.pred_mod]
  split <;> split at * <;> omega

namespace Machine

theorem unjump_of_some {m : Machine} {origin : Nat} (h : m.undo.jump? m.steps = some origin) :
    m.unjump = { m with pc := origin, undo := m.undo.dropJump m.steps } := by
  rw [unjump, h]

theorem unjump_of_none {m : Machine} (h : m.undo.jump? m.steps = none) : m.unjump = m := by
  rw [unjump, h]

theorem unread_of_some {m : Machine} {entry : Read} (h : m.undo.read? m.steps = some entry) :
    m.unread =
      { m with
        pending := entry.consumed.toList ++ m.pending
        tape := m.tape.write entry.previous
        undo := m.undo.dropRead m.steps } := by
  rw [unread, h]

theorem unread_of_none {m : Machine} (h : m.undo.read? m.steps = none) : m.unread = m := by
  rw [unread, h]

theorem undone_of_simple {m : Machine} {c : Char} {i : Simple} (h : m.retreat.symbol? = some c)
    (hi : Simple.ofChar? c = some i) : m.undone = revert i.instruction m.retreat := by
  obtain rfl := Simple.toChar_of_ofChar? hi
  simp only [undone, h, Option.bind_some, Simple.toChar, Instruction.ofChar?_toChar]

theorem undone_of_bracket {m : Machine}
    (h : m.retreat.symbol? = some '[' ∨ m.retreat.symbol? = some ']') :
    m.undone = m.retreat.unjump := by
  rcases h with h | h <;> simp [undone, h, Instruction.ofChar?, revert]

theorem undone_of_other {m : Machine} {c : Char} (h : m.retreat.symbol? = some c)
    (hi : Instruction.ofChar? c = none) : m.undone = m.retreat := by
  simp [undone, h, hi]

/-- Taking back a symbol that neither jumped nor is a simple instruction only moves the counters. -/
theorem undone_of_idle {m : Machine} {c : Char} (h : m.retreat.symbol? = some c)
    (hi : Simple.ofChar? c = none) (hj : m.undo.jump? (m.steps - 1) = none) :
    m.undone = m.retreat := by
  by_cases hb : c = '[' ∨ c = ']'
  · have hb' : m.retreat.symbol? = some '[' ∨ m.retreat.symbol? = some ']' := by
      rcases hb with rfl | rfl
      · exact .inl h
      · exact .inr h
    rw [undone_of_bracket hb']
    exact unjump_of_none hj
  · apply undone_of_other h
    cases hc : Instruction.ofChar? c with
    | none => rfl
    | some i =>
      obtain rfl := Instruction.toChar_of_ofChar? hc
      cases i with
      | openLoop => exact absurd (Or.inl rfl) hb
      | closeLoop => exact absurd (Or.inr rfl) hb
      | _ => exact absurd hi (by decide)

theorem spans_revert (i : Instruction) (m : Machine) : m.tape.Spans (revert i m).tape := by
  cases i with
  | right => exact m.tape.spans_left
  | left => exact m.tape.spans_right
  | increment => exact m.tape.spans_decrement _
  | decrement => exact m.tape.spans_increment _
  | output => exact m.tape.spans_self
  | input =>
    show m.tape.Spans m.unread.tape
    unfold unread
    split
    · exact m.tape.spans_write _
    · exact m.tape.spans_self
  | openLoop =>
    show m.tape.Spans m.unjump.tape
    unfold unjump
    split <;> exact m.tape.spans_self
  | closeLoop =>
    show m.tape.Spans m.unjump.tape
    unfold unjump
    split <;> exact m.tape.spans_self

theorem spans_undone (m : Machine) : m.tape.Spans m.undone.tape := by
  dsimp only [undone]
  split
  · exact spans_revert _ m.retreat
  · exact m.tape.spans_self

theorem frame_revert {i : Simple} (hi : i ≠ .input) (m : Machine) :
    (revert i.instruction m).program = m.program ∧
      (revert i.instruction m).settings = m.settings ∧
      (revert i.instruction m).input = m.input ∧ (revert i.instruction m).pc = m.pc ∧
      (revert i.instruction m).steps = m.steps ∧ (revert i.instruction m).undo = m.undo := by
  cases i with
  | input => exact absurd rfl hi
  | _ => exact ⟨rfl, rfl, rfl, rfl, rfl, rfl⟩

theorem store_revert {i : Simple} (hi : i ≠ .input) {m : Machine} {s : Store}
    (hs : s.InRange m.settings) (h : m.store = s.apply m.settings i) :
    (revert i.instruction m).store = s := by
  have hc : m.tape.current = (s.apply m.settings i).current := congrArg Store.current h
  cases i with
  | right =>
    show { m.store with pointer := m.store.pointer - 1 } = s
    rw [h]
    ext <;> simp [Store.apply]
  | left =>
    show { m.store with pointer := m.store.pointer + 1 } = s
    rw [h]
    ext <;> simp [Store.apply]
  | increment =>
    show ({ m with tape := m.tape.decrement m.settings.greatest } : Machine).store = s
    rw [Tape.decrement_eq_write, store_write, h, hc, Store.apply, Store.current_write,
      hs.pred_succ, Store.write_write, Store.write_current]
  | decrement =>
    show ({ m with tape := m.tape.increment m.settings.greatest } : Machine).store = s
    rw [Tape.increment_eq_write m.settings.greatest_pos, store_write, h, hc, Store.apply,
      Store.current_write, hs.succ_pred, Store.write_write, Store.write_current]
  | output =>
    show { m.store with output := m.store.output.pop } = s
    rw [h]
    ext <;> simp [Store.apply]
  | input => exact absurd rfl hi

theorem store_unread (settings : Settings) (s : Store) :
    ({ (s.read settings).write s.current with
        pending := s.pending.head?.toList ++ (s.read settings).pending } : Store) = s := by
  unfold Store.read Store.fillAtEnd
  split
  · next c rest h => ext <;> simp [h, Store.write, Store.current]
  · next h => cases settings.endOfInput <;> ext <;> simp [h]

theorem exists_partner_of_jumps {m : Machine} {c : Char}
    (h : m.program.Sound m.settings.breakpoint) (hc : m.symbol? = some c) (hj : m.store.Jumps c) :
    ∃ j, m.program.partner? m.pc = some j ∧
      (m.program.symbol? j = some '[' ∨ m.program.symbol? j = some ']') := by
  rcases hj with ⟨rfl, -⟩ | ⟨rfl, -⟩
  · obtain ⟨j, hp, -, hs⟩ := h.exists_closing hc
    exact ⟨j, hp, .inr hs⟩
  · obtain ⟨j, hp, -, hs⟩ := h.exists_opening hc
    exact ⟨j, hp, .inl hs⟩

/-- The machine `n` has executed `c` where `m` has not, but its counter of steps is still that of
`m`, and its program counter still at the symbol it came from. -/
structure Executed (c : Char) (m n : Machine) : Prop where
  program : m.program = n.program
  settings : m.settings = n.settings
  input : m.input = n.input
  steps : m.steps = n.steps
  pc : n.pc = if m.store.Jumps c then (m.program.partner? m.pc).getD m.pc else m.pc
  store : n.store = m.store.execute m.settings c
  jump : ∀ s, n.undo.jump? s =
    if m.store.Jumps c ∧ m.steps = s then some m.pc else m.undo.jump? s
  read : ∀ s, n.undo.read? s =
    if c = ',' ∧ m.steps = s then
      some { previous := m.tape.current, consumed := m.pending.head? }
    else m.undo.read? s

theorem executed_retreat {m n : Machine} {c : Char} (hm : m.store.InRange m.settings)
    (hr : m.settings.recording = true) (h : (execute c m).Same n) : Executed c m n.retreat where
  program := (program_execute c m).symm.trans h.program
  settings := (settings_execute c m).symm.trans h.settings
  input := (input_execute c m).symm.trans h.input
  steps := by rw [retreat, ← h.steps, steps_execute, Nat.add_sub_cancel]
  pc := by rw [retreat, ← h.pc, pc_execute, Nat.add_sub_cancel]
  store := h.store.symm.trans (store_execute hm c)
  jump s := by
    show n.undo.jump? s = _
    simp [← h.jump, jump?_execute, hr]
  read s := by
    show n.undo.read? s = _
    simp [← h.read, read?_execute, hr]

namespace Executed

variable {m n : Machine} {c : Char} {i : Simple}

theorem store_of_idle (h : Executed c m n) (hi : Simple.ofChar? c = none) : m.store = n.store := by
  rw [h.store, Store.execute, hi]

theorem not_input (hi : Simple.ofChar? c = none) (s : Nat) : ¬(c = ',' ∧ m.steps = s) := by
  rintro ⟨rfl, -⟩
  exact absurd hi (by decide)

theorem idle (h : Executed c m n) (hj : ¬m.store.Jumps c) (hi : Simple.ofChar? c = none) :
    m.Same n where
  program := h.program
  settings := h.settings
  input := h.input
  store := h.store_of_idle hi
  pc := by rw [h.pc, if_neg hj]
  steps := h.steps
  jump s := by rw [h.jump, if_neg fun k => hj k.1]
  read s := by rw [h.read, if_neg (not_input hi s)]

theorem unjump (h : Executed c m n) (hm : m.Sound) (hj : m.store.Jumps c) : m.Same n.unjump := by
  have hi : Simple.ofChar? c = none := by
    rcases hj with ⟨rfl, -⟩ | ⟨rfl, -⟩ <;> rfl
  have hlog : n.undo.jump? n.steps = some m.pc := by rw [h.jump, if_pos ⟨hj, h.steps⟩]
  rw [unjump_of_some hlog]
  exact {
    program := h.program
    settings := h.settings
    input := h.input
    store := h.store_of_idle hi
    pc := rfl
    steps := h.steps
    jump := by
      intro s
      rw [UndoLog.jump?_dropJump, h.jump, ← h.steps]
      split
      · next hs => exact hm.jump_unlogged s (Nat.le_of_eq hs)
      · next hs => rw [if_neg fun k => hs k.2]
    read := by
      intro s
      show _ = n.undo.read? s
      rw [h.read, if_neg (not_input hi s)] }

theorem revert (h : Executed c m n) (hm : m.Sound) (hi : Simple.ofChar? c = some i)
    (hne : i ≠ .input) : m.Same (revert i.instruction n) := by
  obtain rfl := Simple.toChar_of_ofChar? hi
  obtain ⟨hprogram, hsettings, hinput, hpc, hsteps, hundo⟩ := frame_revert hne n
  have hstore : n.store = m.store.apply n.settings i := by
    rw [h.store, Store.execute, hi, h.settings]
  exact {
    program := h.program.trans hprogram.symm
    settings := h.settings.trans hsettings.symm
    input := h.input.trans hinput.symm
    store := (store_revert hne (h.settings ▸ hm.inRange) hstore).symm
    pc := by rw [hpc, h.pc, if_neg (Store.not_jumps i m.store)]
    steps := h.steps.trans hsteps.symm
    jump := by
      intro s
      rw [hundo, h.jump, if_neg fun k => Store.not_jumps i m.store k.1]
    read := by
      intro s
      have hc : i.toChar ≠ ',' := by
        cases i with
        | input => exact absurd rfl hne
        | _ => decide
      rw [hundo, h.read, if_neg fun k => hc k.1] }

theorem unread (h : Executed ',' m n) (hm : m.Sound) : m.Same n.unread := by
  have hlog : n.undo.read? n.steps =
      some { previous := m.tape.current, consumed := m.pending.head? } := by
    rw [h.read, if_pos ⟨rfl, h.steps⟩]
  have hstore : n.store = m.store.read m.settings := h.store
  have hj : ¬m.store.Jumps ',' := Store.not_jumps .input m.store
  rw [unread_of_some hlog]
  exact {
    program := h.program
    settings := h.settings
    input := h.input
    store := by
      -- the value from before the read is written back, and no other cell has changed
      rw [← store_unread m.settings m.store, ← hstore]
      have hw := congrArg Store.cell (n.store_write m.tape.current)
      ext j
      · exact (congrFun hw j).symm
      all_goals rfl
    pc := by rw [h.pc, if_neg hj]
    steps := h.steps
    jump := by
      intro s
      show _ = n.undo.jump? s
      rw [h.jump, if_neg fun k => hj k.1]
    read := by
      intro s
      rw [UndoLog.read?_dropRead, h.read, ← h.steps]
      split
      · next hs => exact hm.read_unlogged s (Nat.le_of_eq hs)
      · next hs => rw [if_neg fun k => hs k.2] }

end Executed

/-- Taking back a step gives the machine before it. -/
theorem same_undone {m n : Machine} {c : Char} (hm : m.Sound) (hc : m.symbol? = some c)
    (hr : m.settings.recording = true) (h : (execute c m).Same n) : m.Same n.undone := by
  have he := executed_retreat hm.inRange hr h
  -- The symbol before the counter is the one that was executed, except after a jump: there it is
  -- the partner, and the log of either bracket is the same.
  by_cases hj : m.store.Jumps c
  · have hb : n.retreat.symbol? = some '[' ∨ n.retreat.symbol? = some ']' := by
      obtain ⟨j, hp, hs⟩ := exists_partner_of_jumps hm.program hc hj
      rw [symbol?, he.pc, if_pos hj, hp, ← he.program]
      exact hs
    rw [undone_of_bracket hb]
    exact he.unjump hm hj
  · have hs : n.retreat.symbol? = some c := by
      rw [symbol?, he.pc, if_neg hj, ← he.program]
      exact hc
    cases hi : Simple.ofChar? c with
    | none =>
      have hlog : n.undo.jump? (n.steps - 1) = none := by
        show n.retreat.undo.jump? n.retreat.steps = none
        rw [he.jump, if_neg fun k => hj k.1]
        -- a record left behind by another step with this number would be taken for its own
        exact hm.jump_unlogged _ (Nat.le_of_eq he.steps)
      rw [undone_of_idle hs hi hlog]
      exact he.idle hj hi
    | some i =>
      rw [undone_of_simple hs hi]
      by_cases hin : i = .input
      · subst hin
        obtain rfl := Simple.toChar_of_ofChar? hi
        exact he.unread hm
      · exact he.revert hm hi hin

end Machine
end Brainfuck
