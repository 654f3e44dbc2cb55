import Brainfuck.Machine.Run
import Brainfuck.Proofs.Machine.Trajectory

namespace Brainfuck.Machine

/-- Stepping `m` to the end of its program executes the breakpoint `hits` times and leaves `n`. -/
inductive Finishes : Machine → Nat → Machine → Prop where
  | halted {m : Machine} (h : m.symbol? = none) : Finishes m 0 m
  | step {m n : Machine} {c : Char} {hits : Nat} (h : m.symbol? = some c)
    (rest : Finishes (execute c m) hits n) :
    Finishes m (if m.isBreakpoint c then hits + 1 else hits) n

/-- Runs that follow on each other stop at a breakpoint `stops` times, then the last one halts. -/
inductive Resumes : Machine → Nat → Machine → Prop where
  | halted {m n : Machine} {fuel : Nat} (h : m.run fuel = some (.ok .halted, n)) : Resumes m 0 n
  | suspended {m k n : Machine} {fuel index stops : Nat}
    (h : m.run fuel = some (.ok (.breakpoint index), k)) (rest : Resumes k stops n) :
    Resumes m (stops + 1) n

namespace Finishes

variable {m n n' : Machine} {hits hits' : Nat} {c : Char}

theorem hit (hc : m.symbol? = some c) (hb : m.isBreakpoint c)
    (h : Finishes (execute c m) hits n) : Finishes m (hits + 1) n := by
  have hs := Finishes.step hc h
  rwa [if_pos hb] at hs

theorem pass (hc : m.symbol? = some c) (hb : ¬m.isBreakpoint c)
    (h : Finishes (execute c m) hits n) : Finishes m hits n := by
  have hs := Finishes.step hc h
  rwa [if_neg hb] at hs

theorem symbol? (h : Finishes m hits n) : n.symbol? = none := by
  induction h with
  | halted h => exact h
  | step _ _ ih => exact ih

theorem unique (h : Finishes m hits n) (h' : Finishes m hits' n') : hits = hits' ∧ n = n' := by
  induction h generalizing hits' with
  | halted h0 =>
    cases h' with
    | halted => exact ⟨rfl, rfl⟩
    | step hc => simp [h0] at hc
  | step hc _ ih =>
    cases h' with
    | halted h0 => simp [h0] at hc
    | step hc' rest' =>
      obtain rfl := Option.some.inj (hc.symm.trans hc')
      obtain ⟨rfl, rfl⟩ := ih rest'
      exact ⟨rfl, rfl⟩

theorem exists_after (h : Finishes m hits n) : ∃ k, m.after k = n := by
  induction h with
  | halted => exact ⟨0, rfl⟩
  | step hc _ ih =>
    obtain ⟨k, hk⟩ := ih
    refine ⟨k + 1, ?_⟩
    rwa [after_succ, next_of_some hc]

theorem hits_eq_zero (h : Finishes m hits n) (hb : m.settings.breakpoint = none) : hits = 0 := by
  induction h with
  | halted => rfl
  | step hc _ ih =>
    rw [settings_execute] at ih
    simp [isBreakpoint, hb, ih hb]

end Finishes

theorem exists_finishes {k : Nat} {m : Machine} (h : (m.after k).symbol? = none) :
    ∃ hits, Finishes m hits (m.after k) := by
  induction k generalizing m with
  | zero => exact ⟨0, .halted h⟩
  | succ k ih =>
    rw [after_succ] at h ⊢
    cases hc : m.symbol? with
    | none =>
      rw [next_of_none hc] at h ⊢
      exact ih h
    | some c =>
      rw [next_of_some hc] at h ⊢
      obtain ⟨hits, hf⟩ := ih h
      exact ⟨_, .step hc hf⟩

section

variable {m n k : Machine} {fuel : Nat}

theorem isBreakpoint_execute (c : Char) (m : Machine) :
    (execute c m).isBreakpoint c = m.isBreakpoint c := by
  rw [isBreakpoint, isBreakpoint, settings_execute]

theorem run_of_none (h : m.symbol? = none) : m.run (fuel + 1) = some (.ok .halted, m) := by
  rw [run]
  simp only [h]

theorem run_of_some (hm : m.program.Sound m.settings.breakpoint) {c : Char}
    (h : m.symbol? = some c) :
    m.run (fuel + 1) =
      if m.isBreakpoint c then some (.ok (.breakpoint ((execute c m).pc - 1)), execute c m)
      else (execute c m).run fuel := by
  rw [run]
  simp only [h, fault?_eq_none hm h, isBreakpoint_execute]

/-- A run is never refused, and it follows the steps of the machine to the end or a breakpoint. -/
theorem run_finishes (hm : m.program.Sound m.settings.breakpoint) {r : Except Fault Stop}
    (h : m.run fuel = some (r, n)) :
    n.program.Sound n.settings.breakpoint ∧
      (r = .ok .halted ∧ Finishes m 0 n ∨
        m.settings.breakpoint ≠ none ∧ (∃ index, r = .ok (.breakpoint index)) ∧
          ∀ hits e, Finishes n hits e → Finishes m (hits + 1) e) := by
  -- what the run does after its first step is a run of its own, with less fuel
  induction fuel generalizing m with
  | zero => simp [run] at h
  | succ fuel ih =>
    cases hc : m.symbol? with
    | none =>
      obtain ⟨rfl, rfl⟩ : .ok .halted = r ∧ m = n := by simpa [run_of_none hc] using h
      exact ⟨hm, .inl ⟨rfl, .halted hc⟩⟩
    | some c =>
      have hx := sound_program_execute hm c
      rw [run_of_some hm hc] at h
      by_cases hb : m.isBreakpoint c = true
      · rw [if_pos hb] at h
        obtain ⟨rfl, rfl⟩ := Prod.mk.inj (Option.some.inj h)
        refine ⟨hx, .inr ⟨?_, ⟨_, rfl⟩, ?_⟩⟩
        · intro h0
          simp [isBreakpoint, h0] at hb
        · intro hits e he
          exact he.hit hc hb
      · rw [if_neg hb] at h
        rcases ih hx h with ⟨hn, ⟨rfl, hf⟩ | ⟨h0, hr, hf⟩⟩
        · exact ⟨hn, .inl ⟨rfl, hf.pass hc hb⟩⟩
        · rw [settings_execute] at h0
          refine ⟨hn, .inr ⟨h0, hr, ?_⟩⟩
          intro hits e he
          exact (hf hits e he).pass hc hb

theorem Resumes.finishes (hm : m.program.Sound m.settings.breakpoint) {stops : Nat}
    (h : Resumes m stops n) : Finishes m stops n := by
  induction h with
  | halted h =>
    rcases run_finishes hm h with ⟨-, ⟨-, hf⟩ | ⟨-, ⟨index, hr⟩, -⟩⟩
    · exact hf
    · simp at hr
  | suspended h _ ih =>
    rcases run_finishes hm h with ⟨hn, ⟨hr, -⟩ | ⟨-, -, hf⟩⟩
    · simp at hr
    · exact hf _ _ (ih hn)

theorem Resumes.of_execute (hm : m.program.Sound m.settings.breakpoint) {c : Char}
    (hc : m.symbol? = some c) (hb : ¬m.isBreakpoint c) {stops : Nat}
    (h : Resumes (execute c m) stops n) : Resumes m stops n := by
  have hrun (fuel : Nat) : m.run (fuel + 1) = (execute c m).run fuel := by
    rw [run_of_some hm hc, if_neg hb]
  cases h with
  | halted h => exact .halted ((hrun _).trans h)
  | suspended h rest => exact .suspended ((hrun _).trans h) rest

theorem Finishes.resumes (hm : m.program.Sound m.settings.breakpoint) {hits : Nat}
    (h : Finishes m hits n) : Resumes m hits n := by
  induction h with
  | @halted m h =>
    have hrun : m.run 1 = some (.ok .halted, m) := run_of_none h
    exact .halted hrun
  | @step m n c hits hc rest ih =>
    have hr := ih (sound_program_execute hm c)
    split
    · next hb =>
      have hrun : m.run 1 = some (.ok (.breakpoint ((execute c m).pc - 1)), execute c m) := by
        rw [run_of_some hm hc, if_pos hb]
      exact .suspended hrun hr
    · next hb => exact hr.of_execute hm hc hb

/-- Without a breakpoint one run does it all. -/
theorem run_iff_finishes (hm : m.program.Sound m.settings.breakpoint)
    (hb : m.settings.breakpoint = none) {r : Except Fault Stop} :
    (∃ fuel, m.run fuel = some (r, n)) ↔ r = .ok .halted ∧ Finishes m 0 n := by
  constructor
  · rintro ⟨fuel, h⟩
    rcases run_finishes hm h with ⟨-, hf | ⟨h0, -⟩⟩
    · exact hf
    · exact absurd hb h0
  · rintro ⟨rfl, h⟩
    cases h.resumes hm with
    | halted h => exact ⟨_, h⟩

end
end Brainfuck.Machine
