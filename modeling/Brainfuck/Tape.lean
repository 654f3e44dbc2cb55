import Std.Data.HashMap

namespace Brainfuck

/-- A cell at every integer index. Cells that were never written read as zero, and `lowest` and
`highest` are the ends of what the pointer has visited. -/
structure Tape where
  written : Std.HashMap Int Nat := ∅
  pointer : Int := 0
  lowest : Int := 0
  highest : Int := 0
  lowest_le : lowest ≤ pointer := by decide
  le_highest : pointer ≤ highest := by decide

namespace Tape

def cell (t : Tape) (index : Int) : Nat := t.written.getD index 0

def current (t : Tape) : Nat := t.cell t.pointer

def write (t : Tape) (value : Nat) : Tape :=
  { t with written := t.written.insert t.pointer value }

def left (t : Tape) : Tape :=
  { t with
    pointer := t.pointer - 1
    lowest := if t.pointer = t.lowest then t.lowest - 1 else t.lowest
    lowest_le := by have := t.lowest_le; split <;> omega
    le_highest := by have := t.le_highest; omega }

def right (t : Tape) : Tape :=
  { t with
    pointer := t.pointer + 1
    highest := if t.pointer = t.highest then t.highest + 1 else t.highest
    lowest_le := by have := t.lowest_le; omega
    le_highest := by have := t.le_highest; split <;> omega }

/-- One more, and zero after `greatest`. A cell that was never written becomes one. -/
def increment (greatest : Nat) (t : Tape) : Tape :=
  match t.written[t.pointer]? with
  | none => t.write 1
  | some value => t.write (if greatest ≤ value then 0 else value + 1)

def decrement (greatest : Nat) (t : Tape) : Tape :=
  match t.current with
  | 0 => t.write greatest
  | value + 1 => t.write value

def span (t : Tape) : Nat := (t.highest - t.lowest + 1).toNat

def indices (t : Tape) : List Int := (List.range t.span).map fun (i : Nat) => t.lowest + i

def cells (t : Tape) : List Nat := t.indices.map t.cell

@[simp]
theorem cell_empty (i : Int) : ({} : Tape).cell i = 0 := by simp [cell]

theorem cell_write (t : Tape) (value : Nat) (i : Int) :
    (t.write value).cell i = if i = t.pointer then value else t.cell i := by
  by_cases h : i = t.pointer
  · simp [cell, write, h]
  · have h' : ¬t.pointer = i := fun e => h e.symm
    simp [cell, write, Std.HashMap.getD_insert, h, h']

@[simp]
theorem cell_left (t : Tape) (i : Int) : t.left.cell i = t.cell i := rfl

@[simp]
theorem cell_right (t : Tape) (i : Int) : t.right.cell i = t.cell i := rfl

/-- Where the greatest value is not zero, a cell that was never written counts as one at zero. -/
theorem increment_eq_write {greatest : Nat} (h : 0 < greatest) (t : Tape) :
    t.increment greatest = t.write (if greatest ≤ t.current then 0 else t.current + 1) := by
  unfold increment
  have hc : t.current = t.written.getD t.pointer 0 := rfl
  rw [Std.HashMap.getD_eq_getD_getElem?] at hc
  split
  · next hw =>
    have hz : t.current = 0 := by simpa [hw] using hc
    have hg : ¬greatest ≤ 0 := by omega
    rw [hz, if_neg hg]
  · next v hw =>
    have hv : t.current = v := by simpa [hw] using hc
    rw [hv]

theorem decrement_eq_write (greatest : Nat) (t : Tape) :
    t.decrement greatest = t.write (if t.current = 0 then greatest else t.current - 1) := by
  unfold decrement
  split
  · next h => simp [h]
  · next v h => simp [h]

@[simp]
theorem length_cells (t : Tape) : t.cells.length = t.span := by simp [cells, indices]

theorem getElem?_cells (t : Tape) {i : Nat} (h : i < t.span) :
    t.cells[i]? = some (t.cell (t.lowest + i)) := by
  simp [cells, indices, h]

end Tape
end Brainfuck
