import Mathlib.Logic.Function.Iterate
import Brainfuck.Machine.Forward
import Brainfuck.Proofs.Program
import Brainfuck.Proofs.Span
import Brainfuck.Proofs.Store

namespace Brainfuck

theorem Simple.execute_toChar (i : Simple) (m : Machine) :
    Machine.execute i.toChar m = (Machine.perform i.instruction m).advance := by
  rw [Machine.execute, Simple.toChar, Instruction.ofChar?_toChar]

namespace Machine

inductive Effect (c : Char) (m : Machine) : Machine → Prop where
  | jump (jumps : m.store.Jumps c) : Effect c m m.jump.advance
  | idle (still : ¬m.store.Jumps c) (idle : Simple.ofChar? c = none) : Effect c m m.advance
  | simple (i : Simple) (still : ¬m.store.Jumps c) (simple : Simple.ofChar? c = some i) :
    Effect c m (perform i.instruction m).advance

theorem effect (c : Char) (m : Machine) : Effect c m (execute c m) := by
  by_cases hj : m.store.Jumps c
  · have he : execute c m = m.jump.advance := by
      rcases hj with ⟨rfl, h0⟩ | ⟨rfl, h0⟩ <;> rw [current_store] at h0 <;>
        simp [execute, Instruction.ofChar?, perform, h0]
    exact he ▸ .jump hj
  · cases hs : Simple.ofChar? c with
    | some i =>
      obtain rfl := Simple.toChar_of_ofChar? hs
      exact i.execute_toChar m ▸ .simple i hj hs
    | none =>
      -- a bracket that does not jump, or a breakpoint that is no instruction
      have he : execute c m = m.advance := by
        unfold execute
        split
        · next i hi =>
          obtain rfl := Instruction.toChar_of_ofChar? hi
          cases i with
          | openLoop => simp_all [Store.Jumps, Instruction.toChar, perform]
          | closeLoop => simp_all [Store.Jumps, Instruction.toChar, perform]
          | _ => simp [Simple.ofChar?, Simple.toChar, Simple.instruction] at hs
        · rfl
      exact he ▸ .idle hj hs

theorem frame_execute (c : Char) (m : Machine) :
    (execute c m).program = m.program ∧ (execute c m).settings = m.settings ∧
      (execute c m).input = m.input ∧ (execute c m).steps = m.steps + 1 := by
  have h := effect c m
  generalize execute c m = n at h ⊢
  cases h with
  | jump => exact ⟨rfl, rfl, rfl, rfl⟩
  | idle => exact ⟨rfl, rfl, rfl, rfl⟩
  | simple i => cases i <;> exact ⟨rfl, rfl, rfl, rfl⟩

@[simp]
theorem program_execute (c : Char) (m : Machine) : (execute c m).program = m.program :=
  (frame_execute c m).1

@[simp]
theorem settings_execute (c : Char) (m : Machine) : (execute c m).settings = m.settings :=
  (frame_execute c m).2.1

@[simp]
theorem input_execute (c : Char) (m : Machine) : (execute c m).input = m.input :=
  (frame_execute c m).2.2.1

@[simp]
theorem steps_execute (c : Char) (m : Machine) : (execute c m).steps = m.steps + 1 :=
  (frame_execute c m).2.2.2

theorem pc_execute (c : Char) (m : Machine) :
    (execute c m).pc =
      (if m.store.Jumps c then (m.program.partner? m.pc).getD m.pc else m.pc) + 1 := by
  have h := effect c m
  generalize execute c m = n at h ⊢
  cases h with
  | jump hj => rw [if_pos hj]; rfl
  | idle hj => rw [if_neg hj]; rfl
  | simple i hj => rw [if_neg hj]; cases i <;> rfl

theorem jump?_execute (c : Char) (m : Machine) (s : Nat) :
    (execute c m).undo.jump? s =
      if m.settings.recording ∧ m.store.Jumps c ∧ m.steps = s then some m.pc
      else m.undo.jump? s := by
  have h := effect c m
  generalize execute c m = n at h ⊢
  cases h with
  | jump hj =>
    unfold advance jump
    by_cases hr : m.settings.recording = true
    · simp [hr, hj, UndoLog.jump?_putJump]
    · simp [hr]
  | idle hj => simp [hj, advance]
  | simple i hj =>
    rw [if_neg fun h => hj h.2.1]
    cases i with
    | input =>
      show (read m).undo.jump? s = _
      unfold read
      by_cases hr : m.settings.recording = true
      · simp [hr, UndoLog.jump?, UndoLog.putRead]
      · simp [hr]
    | _ => rfl

theorem read?_execute (c : Char) (m : Machine) (s : Nat) :
    (execute c m).undo.read? s =
      if m.settings.recording ∧ c = ',' ∧ m.steps = s then
        some { previous := m.tape.current, consumed := m.pending.head? }
      else m.undo.read? s := by
  have h := effect c m
  generalize execute c m = n at h ⊢
  cases h with
  | jump hj =>
    have hc : c ≠ ',' := by
      rintro rfl
      simp [Store.Jumps] at hj
    rw [if_neg fun h => hc h.2.1]
    unfold advance jump
    by_cases hr : m.settings.recording = true
    · simp [hr, UndoLog.read?, UndoLog.putJump]
    · simp [hr]
  | idle hj hi =>
    have hc : c ≠ ',' := by
      rintro rfl
      exact absurd hi (by decide)
    rw [if_neg fun h => hc h.2.1]
    rfl
  | simple i hj hi =>
    obtain rfl := Simple.toChar_of_ofChar? hi
    cases i with
    | input =>
      show (read m).undo.read? s = if _ ∧ ',' = ',' ∧ _ then _ else _
      unfold read
      by_cases hr : m.settings.recording = true
      · simp [hr, UndoLog.read?_putRead]
      · simp [hr]
    | _ => rw [if_neg fun h => absurd h.2.1 (by decide)]; rfl

theorem spans_execute (c : Char) (m : Machine) : m.tape.Spans (execute c m).tape := by
  have h := effect c m
  generalize execute c m = n at h ⊢
  cases h with
  | jump => exact m.tape.spans_self
  | idle => exact m.tape.spans_self
  | simple i =>
    cases i with
    | right => exact m.tape.spans_right
    | left => exact m.tape.spans_left
    | increment => exact m.tape.spans_increment _
    | decrement => exact m.tape.spans_decrement _
    | output => exact m.tape.spans_self
    | input =>
      show m.tape.Spans (read m).tape
      unfold read
      split
      · exact m.tape.spans_write _
      · unfold fillAtEnd
        split
        · exact m.tape.spans_write _
        · exact m.tape.spans_self
        · exact m.tape.spans_write _

theorem output_prefix_execute (c : Char) (m : Machine) :
    m.output.toList <+: (execute c m).output.toList := by
  have h := effect c m
  generalize execute c m = n at h ⊢
  cases h with
  | jump => exact List.prefix_rfl
  | idle => exact List.prefix_rfl
  | simple i =>
    cases i with
    | output =>
      show m.output.toList <+: (m.output.push m.tape.current).toList
      rw [Array.toList_push]
      exact List.prefix_append _ _
    | _ => exact List.prefix_rfl

theorem incoming_eq_mod (settings : Settings) (c : Char) :
    incoming settings c = c.toNat % settings.modulus := by
  have hg : settings.greatest = 2 ^ settings.width.bits - 1 :=
    Nat.eq_sub_of_add_eq settings.greatest_add_one
  rw [incoming, hg]
  exact Nat.and_two_pow_sub_one_eq_mod c.toNat settings.width.bits

theorem store_fillAtEnd (m : Machine) :
    ({ m with tape := fillAtEnd m.settings m.tape } : Machine).store =
      m.store.fillAtEnd m.settings := by
  unfold fillAtEnd Store.fillAtEnd
  cases m.settings.endOfInput with
  | zero => exact m.store_write 0
  | unchanged => rfl
  | greatest =>
    rw [← m.settings.greatest_add_one, Nat.add_sub_cancel]
    exact m.store_write m.settings.greatest

theorem store_read (m : Machine) : m.read.store = m.store.read m.settings := by
  cases hp : m.pending with
  | nil =>
    have hr : m.store.read m.settings = m.store.fillAtEnd m.settings := by
      simp [Store.read, store, hp]
    rw [hr, ← store_fillAtEnd]
    simp [read, store, hp]
  | cons c rest =>
    have hr : m.store.read m.settings =
        { m.store.write (c.toNat % m.settings.modulus) with pending := rest } := by
      simp [Store.read, store, hp]
    rw [hr, ← incoming_eq_mod, ← store_write]
    simp [read, store, hp]

theorem store_perform {m : Machine} (h : m.store.InRange m.settings) (i : Simple) :
    (perform i.instruction m).store = m.store.apply m.settings i := by
  cases i with
  | right => rfl
  | left => rfl
  | increment =>
    show ({ m with tape := m.tape.increment m.settings.greatest } : Machine).store = _
    rw [Tape.increment_eq_write m.settings.greatest_pos, store_write, Store.apply, h.succ_mod]
    rfl
  | decrement =>
    show ({ m with tape := m.tape.decrement m.settings.greatest } : Machine).store = _
    rw [Tape.decrement_eq_write, store_write, Store.apply, h.pred_mod]
    rfl
  | output => rfl
  | input => exact m.store_read

theorem store_execute {m : Machine} (h : m.store.InRange m.settings) (c : Char) :
    (execute c m).store = m.store.execute m.settings c := by
  have he := effect c m
  generalize execute c m = n at he ⊢
  unfold Store.execute
  cases he with
  | jump hj =>
    rcases hj with ⟨rfl, -⟩ | ⟨rfl, -⟩ <;> rfl
  | idle _ hi => rw [hi]; rfl
  | simple i _ hi => rw [hi]; exact store_perform h i

theorem cell_execute_of_ne {m : Machine} (h : m.store.InRange m.settings) (c : Char) {i : Int}
    (hi : i ≠ m.tape.pointer) : (execute c m).tape.cell i = m.tape.cell i := by
  have hcell := congrFun (congrArg Store.cell (store_execute h c)) i
  exact hcell.trans (m.store.cell_execute_of_ne m.settings c hi)

end Machine
end Brainfuck
