import Brainfuck.Tape

namespace Brainfuck.Tape

/-- The span of `u` is that of `t`, together with the cell that `u` points to. -/
structure Spans (t u : Tape) : Prop where
  lowest : u.lowest = min t.lowest u.pointer
  highest : u.highest = max t.highest u.pointer

theorem spans_self (t : Tape) : t.Spans t where
  lowest := (Int.min_eq_left t.lowest_le).symm
  highest := (Int.max_eq_left t.le_highest).symm

theorem spans_write (t : Tape) (v : Nat) : t.Spans (t.write v) :=
  ⟨t.spans_self.lowest, t.spans_self.highest⟩

theorem spans_left (t : Tape) : t.Spans t.left := by
  have hl := t.lowest_le
  have hh := t.le_highest
  constructor
  · show (if t.pointer = t.lowest then t.lowest - 1 else t.lowest) = min t.lowest (t.pointer - 1)
    split <;> omega
  · show t.highest = max t.highest (t.pointer - 1)
    omega

theorem spans_right (t : Tape) : t.Spans t.right := by
  have hl := t.lowest_le
  have hh := t.le_highest
  constructor
  · show t.lowest = min t.lowest (t.pointer + 1)
    omega
  · show (if t.pointer = t.highest then t.highest + 1 else t.highest) =
      max t.highest (t.pointer + 1)
    split <;> omega

theorem spans_increment (greatest : Nat) (t : Tape) : t.Spans (t.increment greatest) := by
  unfold increment
  split <;> exact t.spans_write _

theorem spans_decrement (greatest : Nat) (t : Tape) : t.Spans (t.decrement greatest) := by
  unfold decrement
  split <;> exact t.spans_write _

/-- The visited span of `u` lies within that of `t`. -/
structure Covers (t u : Tape) : Prop where
  lowest : t.lowest ≤ u.lowest
  highest : u.highest ≤ t.highest

theorem Covers.refl (t : Tape) : t.Covers t := ⟨Int.le_refl _, Int.le_refl _⟩

theorem Covers.trans {t u v : Tape} (h : t.Covers u) (k : u.Covers v) : t.Covers v :=
  ⟨Int.le_trans h.lowest k.lowest, Int.le_trans k.highest h.highest⟩

theorem Spans.covers {t u : Tape} (h : t.Spans u) : u.Covers t where
  lowest := h.lowest ▸ Int.min_le_left _ _
  highest := h.highest ▸ Int.le_max_left _ _

/-- Two tapes whose spans grow by the same pointer keep one span within the other. -/
theorem Covers.spans {t t' u u' : Tape} (h : t.Covers u) (ht : t.Spans t') (hu : u.Spans u')
    (hp : t'.pointer = u'.pointer) : t'.Covers u' where
  lowest := by
    have := h.lowest
    rw [ht.lowest, hu.lowest]
    omega
  highest := by
    have := h.highest
    rw [ht.highest, hu.highest]
    omega

theorem Spans.eq_of_covers {t t' u : Tape} (h : t.Spans t') (hc : t.Covers u)
    (hp : t'.pointer = u.pointer) : t'.lowest = t.lowest ∧ t'.highest = t.highest := by
  have := u.lowest_le
  have := u.le_highest
  have := hc.lowest
  have := hc.highest
  rw [h.lowest, h.highest]
  omega

theorem cells_eq {t u : Tape} (hl : t.lowest = u.lowest) (hh : t.highest = u.highest)
    (hc : ∀ i, t.cell i = u.cell i) : t.cells = u.cells := by
  have hs : t.span = u.span := by rw [span, span, hl, hh]
  have hi : t.indices = u.indices := by rw [indices, indices, hs, hl]
  rw [cells, cells, hi]
  exact List.map_congr_left fun i _ => hc i

end Brainfuck.Tape
