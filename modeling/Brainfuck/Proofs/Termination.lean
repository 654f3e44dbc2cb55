import Mathlib.Data.Nat.Count
import Brainfuck.Proofs.Machine.Point
import Brainfuck.Proofs.Machine.Timeline

namespace Brainfuck

def Point.Repeats (p : Program) (x : Point) : Prop :=
  p.symbol? x.pc = some ']' ∧ x.store.current ≠ 0

instance (p : Program) : DecidablePred (Point.Repeats p) := fun _ =>
  inferInstanceAs (Decidable (_ ∧ _))

namespace Machine

variable {origin m : Machine} {c : Char} {t fuel : Nat}

/-- The next step jumps back into a loop. -/
def Repeats (m : Machine) : Prop := m.symbol? = some ']' ∧ m.tape.current ≠ 0

instance : DecidablePred Repeats := fun _ => inferInstanceAs (Decidable (_ ∧ _))

/-- How many of the first `t` steps jump back into a loop. -/
def repeatCount (t : Nat) (m : Machine) : Nat := Nat.count (fun i => (m.after i).Repeats) t

def remaining (m : Machine) : Nat := m.program.size - m.pc

theorem halted_iff_remaining (m : Machine) : m.halted = true ↔ m.remaining = 0 := by
  rw [halted, decide_eq_true_iff, remaining, Nat.sub_eq_zero_iff_le]

theorem remaining_le (m : Machine) : m.remaining ≤ m.program.size := Nat.sub_le _ _

theorem repeatCount_succ (t : Nat) (m : Machine) :
    m.repeatCount (t + 1) = m.repeatCount t + if (m.after t).Repeats then 1 else 0 :=
  Nat.count_succ _ t

theorem repeats_iff_point (m : Machine) : m.Repeats ↔ m.point.Repeats m.program := Iff.rfl

theorem repeatCount_eq (hm : m.Sound) (t : Nat) :
    m.repeatCount t = Nat.count
      (fun i => ((Point.next m.program m.settings)^[i] m.point).Repeats m.program) t := by
  unfold repeatCount
  congr 1
  funext i
  rw [repeats_iff_point, point_after hm, (frame_after i m).1]

/-- Of the jumps, those out of a loop go on too: they lead behind its end. -/
theorem pc_lt_next (hm : m.program.Sound m.settings.breakpoint) (hc : m.symbol? = some c)
    (h : ¬m.Repeats) : m.pc < m.next.pc := by
  rw [next_of_some hc, pc_execute]
  by_cases hj : m.store.Jumps c
  · rcases hj with ⟨rfl, h0⟩ | ⟨rfl, h0⟩
    · obtain ⟨j, hp, hlt, -⟩ := hm.exists_closing hc
      rw [if_pos (.inl ⟨rfl, h0⟩), hp, Option.getD_some]
      exact Nat.lt_succ_of_lt hlt
    · exact absurd ⟨hc, h0⟩ h
  · rw [if_neg hj]
    exact Nat.lt_succ_self m.pc

/-- A jump back leads behind the beginning of the loop, which in an empty loop is where it is. -/
theorem Repeats.pc_next (h : m.Repeats) (hm : m.program.Sound m.settings.breakpoint) :
    0 < m.next.pc ∧ m.next.pc ≤ m.pc := by
  obtain ⟨hc, h0⟩ := h
  obtain ⟨i, hp, hlt, -⟩ := hm.exists_opening hc
  rw [next_of_some hc, pc_execute, if_pos (.inr ⟨rfl, h0⟩), hp, Option.getD_some]
  exact ⟨Nat.succ_pos i, hlt⟩

theorem pc_lt_next_iff (hm : m.program.Sound m.settings.breakpoint) (hc : m.symbol? = some c) :
    m.pc < m.next.pc ↔ ¬m.Repeats := by
  constructor
  · intro hlt h
    exact absurd (h.pc_next hm).2 (Nat.not_le_of_lt hlt)
  · exact pc_lt_next hm hc

/-- A step takes one from what remains, and a jump back gives at most the whole program. -/
theorem remaining_next (hm : m.program.Sound m.settings.breakpoint) (hc : m.symbol? = some c) :
    m.next.remaining + 1 ≤ m.remaining + if m.Repeats then m.program.size else 0 := by
  have hin : m.pc < m.program.size := Program.lt_size_of_symbol? hc
  have hprogram : m.next.program = m.program := (frame_next m).1
  unfold remaining
  rw [hprogram]
  by_cases h : m.Repeats
  · have hpc := (h.pc_next hm).1
    rw [if_pos h]
    omega
  · have hpc := pc_lt_next hm hc h
    rw [if_neg h]
    omega

/-- What remains, and what jumps back have added to it, pays for the steps. -/
theorem steps_add_remaining_after (hm : m.program.Sound m.settings.breakpoint) (t : Nat) :
    (m.after t).steps + (m.after t).remaining ≤
      m.steps + m.remaining + m.repeatCount t * m.program.size := by
  induction t with
  | zero => exact Nat.le_add_right _ _
  | succ t ih =>
    have hprogram : (m.after t).program = m.program := (frame_after t m).1
    rw [after_succ', repeatCount_succ]
    cases hc : (m.after t).symbol? with
    | none =>
      have hstill : ¬(m.after t).Repeats := by
        rintro ⟨hclosing, -⟩
        simp [hc] at hclosing
      rwa [next_of_none hc, if_neg hstill]
    | some c =>
      have hsteps : (m.after t).next.steps = (m.after t).steps + 1 := by
        rw [next_of_some hc, steps_execute]
      have hstep := remaining_next (sound_program_after hm t) hc
      rw [hprogram] at hstep
      rw [hsteps, Nat.add_mul, ite_mul, Nat.one_mul, Nat.zero_mul]
      omega

/-- `k` jumps back make room for `k + 1` passes through the program. -/
theorem steps_after_le_repeats (hm : m.program.Sound m.settings.breakpoint) (t : Nat) :
    (m.after t).steps ≤ m.steps + (m.repeatCount t + 1) * m.program.size := by
  have hpaid := steps_add_remaining_after hm t
  have hle := m.remaining_le
  rw [Nat.add_mul, Nat.one_mul]
  omega

theorem le_repeats_of_going (hm : m.program.Sound m.settings.breakpoint)
    (h : ∀ i < t, i ∉ m.endings) : t ≤ (m.repeatCount t + 1) * m.program.size := by
  have hle := steps_after_le_repeats hm t
  rw [steps_after_of_going h] at hle
  omega

/-- A machine that does not jump back ends within the size of its program. -/
theorem halted_or_exists_repeats (hm : m.program.Sound m.settings.breakpoint) :
    (m.after m.program.size).halted = true ∨ ∃ i < m.program.size, (m.after i).Repeats := by
  by_cases hend : (m.after m.program.size).halted = true
  · exact .inl hend
  · right
    have hgoing : ∀ i < m.program.size, i ∉ m.endings := by
      intro i hi he
      exact hend (mem_endings_of_le (Nat.le_of_lt hi) he)
    have hpaid := steps_add_remaining_after hm m.program.size
    have hleft := mt (m.after m.program.size).halted_iff_remaining.mpr hend
    have hle := m.remaining_le
    apply Nat.count_ne_iff_exists.mp
    -- without a jump back, what remains is less than the steps that have been taken
    intro hcount
    rw [steps_after_of_going hgoing, repeatCount, hcount, Nat.zero_mul] at hpaid
    omega

/-- A run that has used up its fuel has not come to the end on the way. -/
theorem going_of_supervise (hm : m.program.Sound m.settings.breakpoint) {s : Supervision}
    (h : m.supervise s fuel = none) : ∀ i < fuel, i ∉ m.endings := by
  intro i hi hend
  obtain ⟨k, r, hk⟩ := exists_pauses (s := s) ⟨i, .inl (.inr hend)⟩
  have hki : k ≤ i := hk.first.2 (.inl (.inr hend))
  obtain ⟨more, rfl⟩ := Nat.exists_eq_add_of_lt (Nat.lt_of_le_of_lt hki hi)
  rw [Nat.add_assoc, hk.supervise hm more] at h
  cases h

theorem going_of_run (hm : m.program.Sound m.settings.breakpoint) (h : m.run fuel = none) :
    ∀ i < fuel, i ∉ m.endings := by
  apply going_of_supervise hm (s := {})
  rw [supervise, superviseFrom_free, h]
  rfl

theorem run_of_going (hm : m.program.Sound m.settings.breakpoint)
    (hb : m.settings.breakpoint = none) (h : ∀ i < fuel, i ∉ m.endings) : m.run fuel = none := by
  have hquiet : ∀ i < fuel, i ∉ m.endings ∧ i ∉ ({} : Supervision).aborts ∧ i + 1 ∉ m.breaks := by
    intro i hi
    refine ⟨h i hi, ?_, ?_⟩
    · rintro ⟨a, ⟨⟩⟩
    · rw [succ_mem_breaks, hb]
      rintro ⟨c, -, ⟨⟩⟩
  have hnone : m.supervise {} fuel = none := superviseFrom_of_quiet hm hquiet 0
  rw [supervise, superviseFrom_free] at hnone
  exact Option.map_eq_none_iff.mp hnone

/-- Only jumps back into loops prolong a run. Wherever calls have led, every other step moves the
program counter on. A machine with `k` jumps back on its way has taken at most `k + 1` times as many
steps as its program has symbols. Without a jump back it ends within as many steps as there are
symbols, and a run that has gone on for longer, supervised or not, has jumped back accordingly. -/
theorem prolonged_by_repeats {source input : Text} {settings : Settings}
    {log : List (Call × Answer)} (hload : load source input settings = .ok origin)
    (h : Trace origin log m) :
    (∀ i, (m.after i).step = .ok (m.after (i + 1))) ∧
      (m.halted = false →
        ∃ n, m.step = .ok n ∧ n.steps = m.steps + 1 ∧ (m.pc < n.pc ↔ ¬m.Repeats)) ∧
      m.steps ≤ (origin.repeatCount m.steps + 1) * origin.program.size ∧
      ((m.after origin.program.size).halted = true ∨
        ∃ i < origin.program.size, (m.after i).Repeats) ∧
      ∀ fuel, m.run fuel = none ∨ (∃ s, m.supervise s fuel = none) →
        fuel ≤ (m.repeatCount fuel + 1) * origin.program.size := by
  have ho := fresh_load hload
  have ht := ho.tracks h
  have hm := (ht.sound ho).program
  rw [← ht.program]
  refine ⟨(ht.sound ho).step_after, ?_, ?_, halted_or_exists_repeats hm, ?_⟩
  · intro hgoing
    have h0 : 0 ∉ m.endings := Bool.eq_false_iff.mp hgoing
    obtain ⟨c, hc⟩ : ∃ c, m.symbol? = some c := exists_symbol?_of_going h0
    have hsteps : m.next.steps = m.steps + 1 := by rw [next_of_some hc, steps_execute]
    exact ⟨m.next, step_eq_next hm, hsteps, pc_lt_next_iff hm hc⟩
  · have hle := steps_after_le_repeats ho.sound.program m.steps
    rwa [ht.same.steps, ho.steps, Nat.zero_add, ← ht.program] at hle
  · rintro fuel (hrun | ⟨s, hrun⟩)
    · exact le_repeats_of_going hm (going_of_run hm hrun)
    · exact le_repeats_of_going hm (going_of_supervise hm hrun)

/-- A loop in a loop. The inner one is repeated each of the two times that it is come to, and the
outer one once: 13 steps lead to where it jumps back, and 25 steps to the end of the program. -/
theorem prolonged_by_repeats_nested :
    ∃ origin m n, load "++[>++[-]<-]".toList [] {} = .ok origin ∧
      Trace origin (List.replicate 13 (.step, .done)) m ∧ m.halted = false ∧ m.steps = 13 ∧
      m.Repeats ∧ m.step = .ok n ∧ n.steps = 14 ∧ ¬m.pc < n.pc ∧
      origin.repeatCount 13 = 1 ∧ 13 ≤ (1 + 1) * 12 ∧
      origin.run 25 = none ∧ origin.repeatCount 25 = 3 ∧ 25 ≤ (3 + 1) * 12 := by
  -- the program is run on points, whose cells can be evaluated
  obtain ⟨p, hp, hsize, hback, hlater, hcount, hwhole⟩ : ∃ p,
      Program.load none "++[>++[-]<-]".toList = .ok p ∧ p.size = 12 ∧
        ((Point.next p {})^[13] ⟨0, .blank []⟩).Repeats p ∧
        p.symbol? ((Point.next p {})^[24] ⟨0, .blank []⟩).pc = some ']' ∧
        Nat.count (fun i => ((Point.next p {})^[i] ⟨0, .blank []⟩).Repeats p) 13 = 1 ∧
        Nat.count (fun i => ((Point.next p {})^[i] ⟨0, .blank []⟩).Repeats p) 25 = 3 :=
    ⟨_, rfl, rfl, by decide +kernel, by decide +kernel, by decide +kernel, by decide +kernel⟩
  have hload : load "++[>++[-]<-]".toList [] {} = .ok (start p {} []) := by rw [load, hp]
  have hsound := sound_load hload
  have hpoint (i : Nat) :
      ((start p {} []).after i).point = (Point.next p {})^[i] ⟨0, .blank []⟩ := by
    rw [point_after hsound, point_start]
    rfl
  have hsymbol (i : Nat) : ((start p {} []).after i).symbol? =
      p.symbol? ((Point.next p {})^[i] ⟨0, .blank []⟩).pc := by
    rw [← hpoint, symbol?, (frame_after i _).1]
    rfl
  have hcounts (t : Nat) : (start p {} []).repeatCount t =
      Nat.count (fun i => ((Point.next p {})^[i] ⟨0, .blank []⟩).Repeats p) t := by
    rw [repeatCount_eq hsound, point_start]
    rfl
  have hgoing : ∀ i < 25, i ∉ (start p {} []).endings := by
    intro i hi hend
    have hlast := mem_endings.mp (mem_endings_of_le (Nat.le_of_lt_succ hi) hend)
    rw [hsymbol, hlater] at hlast
    cases hlast
  have hsteps : ((start p {} []).after 13).steps = 13 :=
    steps_after_of_going fun i hi => hgoing i (by omega)
  have hrepeats : ((start p {} []).after 13).Repeats := by
    rw [repeats_iff_point, hpoint, (frame_after 13 _).1]
    exact hback
  have hgoes : ((start p {} []).after 13).halted = false :=
    Bool.eq_false_iff.mpr (hgoing 13 (by decide))
  have hrun : (start p {} []).run 25 = none := run_of_going hsound.program rfl hgoing
  have hm := hsound.trace_steps 13
  obtain ⟨-, hstep, hbound, -⟩ := prolonged_by_repeats hload hm
  obtain ⟨n, hn, hcounted, hpc⟩ := hstep hgoes
  obtain ⟨-, -, -, -, hruns⟩ := prolonged_by_repeats hload .nil
  have hlast := hruns 25 (.inl hrun)
  have hwide : (start p {} []).program.size = 12 := hsize
  rw [hsteps, hcounts, hcount, hwide] at hbound
  rw [hcounts, hwhole, hwide] at hlast
  rw [hsteps] at hcounted
  exact ⟨start p {} [], (start p {} []).after 13, n, hload, hm, hgoes, hsteps, hrepeats, hn,
    hcounted, fun hlt => hpc.mp hlt hrepeats, (hcounts 13).trans hcount, hbound, hrun,
    (hcounts 25).trans hwhole, hlast⟩

end Machine
end Brainfuck
