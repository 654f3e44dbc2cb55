import Brainfuck.Proofs.Machine.Trajectory

namespace Brainfuck

@[ext]
structure Point where
  pc : Nat
  store : Store

namespace Point

def next (p : Program) (settings : Settings) (x : Point) : Point :=
  match p.symbol? x.pc with
  | none => x
  | some c =>
    { pc := (if x.store.Jumps c then (p.partner? x.pc).getD x.pc else x.pc) + 1
      store := x.store.execute settings c }

variable {p : Program} {settings : Settings} {pc : Nat} {s : Store}

theorem next_of_simple {i : Simple} (h : p.symbol? pc = some i.toChar) :
    next p settings ⟨pc, s⟩ = ⟨pc + 1, s.apply settings i⟩ := by
  simp only [next, h, if_neg (Store.not_jumps i s), Store.execute, Simple.ofChar?_toChar]

theorem iterate_of_simple {i : Simple} (h : p.symbol? pc = some i.toChar) (k : Nat) :
    (next p settings)^[k + 1] ⟨pc, s⟩ = (next p settings)^[k] ⟨pc + 1, s.apply settings i⟩ := by
  rw [Function.iterate_succ_apply, next_of_simple h]

theorem next_of_opening (h : p.symbol? pc = some '[') :
    next p settings ⟨pc, s⟩ =
      ⟨(if s.current = 0 then (p.partner? pc).getD pc else pc) + 1, s⟩ := by
  have hj : s.Jumps '[' ↔ s.current = 0 := by simp [Store.Jumps]
  have hs : s.execute settings '[' = s := rfl
  simp only [next, h, hj, hs]

theorem next_of_closing (h : p.symbol? pc = some ']') :
    next p settings ⟨pc, s⟩ =
      ⟨(if s.current = 0 then pc else (p.partner? pc).getD pc) + 1, s⟩ := by
  have hj : s.Jumps ']' ↔ ¬s.current = 0 := by simp [Store.Jumps]
  have hs : s.execute settings ']' = s := rfl
  simp only [next, h, hj, hs, ite_not]

end Point

namespace Machine

def point (m : Machine) : Point := { pc := m.pc, store := m.store }

theorem point_start (p : Program) (settings : Settings) (input : Text) :
    (start p settings input).point = ⟨0, .blank input⟩ := by
  rw [point, store_start]
  rfl

theorem point_next {m : Machine} (h : m.store.InRange m.settings) :
    m.next.point = m.point.next m.program m.settings := by
  have hsym : m.program.symbol? m.point.pc = m.symbol? := rfl
  cases hc : m.symbol? with
  | none =>
    rw [next_of_none hc, Point.next]
    simp only [hsym, hc]
  | some c =>
    rw [next_of_some hc, Point.next]
    simp only [hsym, hc]
    exact Point.ext (pc_execute c m) (store_execute h c)

theorem point_after {m : Machine} (h : m.Sound) (count : Nat) :
    (m.after count).point = (Point.next m.program m.settings)^[count] m.point := by
  induction count generalizing m with
  | zero => rfl
  | succ count ih =>
    rw [after_succ, Function.iterate_succ_apply, ← point_next h.inRange, ih h.next]
    have hf := frame_next m
    rw [hf.1, hf.2.1]

end Machine
end Brainfuck
