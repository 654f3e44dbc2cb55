import Mathlib.Algebra.Group.Nat.Defs
import Mathlib.Logic.Function.Basic
import Brainfuck.Machine.Basic

namespace Brainfuck

def Settings.modulus (s : Settings) : Nat := 2 ^ s.width.bits

theorem Settings.greatest_add_one (s : Settings) : s.greatest + 1 = s.modulus := by
  unfold Settings.greatest Settings.modulus
  cases s.width <;> rfl

theorem Settings.greatest_pos (s : Settings) : 0 < s.greatest := by
  unfold Settings.greatest
  cases s.width <;> decide

theorem Settings.modulus_pos (s : Settings) : 0 < s.modulus :=
  s.greatest_add_one ▸ Nat.succ_pos _

inductive Simple where
  | right
  | left
  | increment
  | decrement
  | output
  | input
  deriving DecidableEq, Repr

namespace Simple

def instruction : Simple → Instruction
  | right => .right
  | left => .left
  | increment => .increment
  | decrement => .decrement
  | output => .output
  | input => .input

def toChar (i : Simple) : Char := i.instruction.toChar

def ofChar? (c : Char) : Option Simple :=
  [right, left, increment, decrement, output, input].find? fun i => i.toChar = c

theorem toChar_of_ofChar? {c : Char} {i : Simple} (h : ofChar? c = some i) : i.toChar = c := by
  simpa using List.find?_some h

theorem ofChar?_toChar (i : Simple) : ofChar? i.toChar = some i := by cases i <;> rfl

theorem toChar_ne_opening (i : Simple) : i.toChar ≠ '[' := by cases i <;> decide

theorem toChar_ne_closing (i : Simple) : i.toChar ≠ ']' := by cases i <;> decide

end Simple

/-- What the simple instructions work on, by modular arithmetic. -/
@[ext]
structure Store where
  cell : Int → Nat
  pointer : Int
  output : Array Nat
  pending : Text

namespace Store

def blank (input : Text) : Store :=
  { cell := fun _ => 0, pointer := 0, output := #[], pending := input }

def current (s : Store) : Nat := s.cell s.pointer

def write (s : Store) (value : Nat) : Store :=
  { s with cell := Function.update s.cell s.pointer value }

def fillAtEnd (settings : Settings) (s : Store) : Store :=
  match settings.endOfInput with
  | .zero => s.write 0
  | .unchanged => s
  | .greatest => s.write (settings.modulus - 1)

def read (settings : Settings) (s : Store) : Store :=
  match s.pending with
  | c :: rest => { s.write (c.toNat % settings.modulus) with pending := rest }
  | [] => s.fillAtEnd settings

def apply (settings : Settings) : Simple → Store → Store
  | .right, s => { s with pointer := s.pointer + 1 }
  | .left, s => { s with pointer := s.pointer - 1 }
  | .increment, s => s.write ((s.current + 1) % settings.modulus)
  | .decrement, s => s.write ((s.current + (settings.modulus - 1)) % settings.modulus)
  | .output, s => { s with output := s.output.push s.current }
  | .input, s => s.read settings

def execute (settings : Settings) (c : Char) (s : Store) : Store :=
  match Simple.ofChar? c with
  | some i => s.apply settings i
  | none => s

/-- Whether the execution of `c` takes the jump of a bracket. -/
def Jumps (c : Char) (s : Store) : Prop := c = '[' ∧ s.current = 0 ∨ c = ']' ∧ s.current ≠ 0

instance (c : Char) (s : Store) : Decidable (s.Jumps c) := inferInstanceAs (Decidable (_ ∨ _))

def InRange (settings : Settings) (s : Store) : Prop := ∀ i, s.cell i < settings.modulus

variable {settings : Settings} {s : Store}

@[simp]
theorem current_write (s : Store) (v : Nat) : (s.write v).current = v := by
  simp [write, current]

@[simp]
theorem write_write (s : Store) (v w : Nat) : (s.write v).write w = s.write w := by
  simp [write]

@[simp]
theorem write_current (s : Store) : s.write s.current = s := by
  simp [write, current]

@[simp]
theorem pointer_write (s : Store) (v : Nat) : (s.write v).pointer = s.pointer := rfl

@[simp]
theorem output_write (s : Store) (v : Nat) : (s.write v).output = s.output := rfl

@[simp]
theorem pending_write (s : Store) (v : Nat) : (s.write v).pending = s.pending := rfl

theorem not_jumps (i : Simple) (s : Store) : ¬s.Jumps i.toChar := by
  simp [Jumps, i.toChar_ne_opening, i.toChar_ne_closing]

theorem cell_write_of_ne (s : Store) (v : Nat) {i : Int} (h : i ≠ s.pointer) :
    (s.write v).cell i = s.cell i := by
  simp [write, Function.update_of_ne h]

theorem cell_read_of_ne (s : Store) (settings : Settings) {i : Int} (h : i ≠ s.pointer) :
    (s.read settings).cell i = s.cell i := by
  unfold Store.read
  split
  · exact s.cell_write_of_ne _ h
  · unfold fillAtEnd
    split
    · exact s.cell_write_of_ne _ h
    · rfl
    · exact s.cell_write_of_ne _ h

theorem cell_execute_of_ne (s : Store) (settings : Settings) (c : Char) {i : Int}
    (h : i ≠ s.pointer) : (s.execute settings c).cell i = s.cell i := by
  unfold Store.execute
  cases Simple.ofChar? c with
  | none => rfl
  | some x =>
    cases x with
    | right => rfl
    | left => rfl
    | increment => exact s.cell_write_of_ne _ h
    | decrement => exact s.cell_write_of_ne _ h
    | output => rfl
    | input => exact s.cell_read_of_ne settings h

theorem inRange_blank (settings : Settings) (input : Text) : (blank input).InRange settings :=
  fun _ => settings.modulus_pos

theorem InRange.write (h : s.InRange settings) {v : Nat} (hv : v < settings.modulus) :
    (s.write v).InRange settings := by
  intro i
  by_cases hi : i = s.pointer
  · simpa [Store.write, hi] using hv
  · simpa [Store.write, hi] using h i

theorem InRange.current_lt (h : s.InRange settings) : s.current < settings.modulus := h s.pointer

theorem InRange.current_le (h : s.InRange settings) : s.current ≤ settings.greatest := by
  have hc := h.current_lt
  rw [← settings.greatest_add_one] at hc
  omega

theorem InRange.succ_mod (h : s.InRange settings) :
    (s.current + 1) % settings.modulus =
      if settings.greatest ≤ s.current then 0 else s.current + 1 := by
  have hc := h.current_le
  rw [← settings.greatest_add_one]
  split
  · next hg => rw [Nat.le_antisymm hc hg, Nat.mod_self]
  · next hg => exact Nat.mod_eq_of_lt (by omega)

theorem InRange.pred_mod (h : s.InRange settings) :
    (s.current + (settings.modulus - 1)) % settings.modulus =
      if s.current = 0 then settings.greatest else s.current - 1 := by
  have hc := h.current_lt
  rw [← settings.greatest_add_one] at hc ⊢
  rw [Nat.add_sub_cancel]
  split
  · next hz => rw [hz, Nat.zero_add, Nat.mod_eq_of_lt (Nat.lt_succ_self _)]
  · next hz =>
    rw [show s.current + settings.greatest = s.current - 1 + (settings.greatest + 1) by omega,
      Nat.add_mod_right, Nat.mod_eq_of_lt (by omega)]

theorem InRange.read (h : s.InRange settings) : (s.read settings).InRange settings := by
  unfold Store.read
  split
  · next c rest _ =>
    have hv : c.toNat % settings.modulus < settings.modulus := Nat.mod_lt _ settings.modulus_pos
    exact h.write hv
  · unfold fillAtEnd
    split
    · exact h.write settings.modulus_pos
    · exact h
    · exact h.write (Nat.sub_lt settings.modulus_pos Nat.one_pos)

theorem InRange.apply (h : s.InRange settings) (i : Simple) :
    (s.apply settings i).InRange settings := by
  cases i with
  | right => exact h
  | left => exact h
  | increment => exact h.write (Nat.mod_lt _ settings.modulus_pos)
  | decrement => exact h.write (Nat.mod_lt _ settings.modulus_pos)
  | output => exact h
  | input => exact h.read

theorem InRange.execute (h : s.InRange settings) (c : Char) :
    (s.execute settings c).InRange settings := by
  unfold Store.execute
  split
  · exact h.apply _
  · exact h

end Store

def Machine.store (m : Machine) : Store :=
  { cell := m.tape.cell, pointer := m.tape.pointer, output := m.output, pending := m.pending }

namespace Machine

@[simp]
theorem current_store (m : Machine) : m.store.current = m.tape.current := rfl

theorem store_start (program : Program) (settings : Settings) (input : Text) :
    (start program settings input).store = .blank input := by
  ext
  · exact Tape.cell_empty _
  all_goals rfl

theorem store_write (m : Machine) (v : Nat) :
    ({ m with tape := m.tape.write v } : Machine).store = m.store.write v := by
  ext i
  · show (m.tape.write v).cell i = Function.update m.tape.cell m.tape.pointer v i
    rw [Tape.cell_write, Function.update_apply]
  all_goals rfl

end Machine
end Brainfuck
