import Mathlib.Order.Nat
import Brainfuck.Proofs.Machine.Calls
import Brainfuck.Proofs.Machine.Trajectory

namespace Brainfuck.Machine

/-- The numbers of steps after which the machine has ended. -/
def endings (m : Machine) : Set Nat := {k | (m.after k).halted = true}

/-- The numbers of steps the last of which is on the breakpoint. -/
def breaks (m : Machine) : Set Nat :=
  {k | ∃ i c, k = i + 1 ∧ (m.after i).symbol? = some c ∧ m.settings.breakpoint = some c}

/-- The numbers of steps after which a run may take no other. -/
def Supervision.aborts (s : Supervision) : Set Nat := {k | ∃ a, s.abort? k = some a}

/-- What a run answers that has paused after `k` steps. A breakpoint goes before the end, and the
end before an abort. -/
inductive PauseAnswer (s : Supervision) (m : Machine) (k : Nat) : Except Abort Stop → Prop where
  | breakpoint (hit : k ∈ m.breaks) :
    PauseAnswer s m k (.ok (.breakpoint ((m.after k).pc - 1)))
  | halted (miss : k ∉ m.breaks) (ended : k ∈ m.endings) : PauseAnswer s m k (.ok .halted)
  | abort {a : Abort} (miss : k ∉ m.breaks) (going : k ∉ m.endings) (h : s.abort? k = some a) :
    PauseAnswer s m k (.error a)

/-- A run from `m` takes `k` steps and answers `r`. -/
structure Pauses (s : Supervision) (m : Machine) (k : Nat) (r : Except Abort Stop) : Prop where
  first : IsLeast (m.breaks ∪ m.endings ∪ s.aborts) k
  answer : PauseAnswer s m k r

variable {s : Supervision} {m n : Machine} {k fuel taken : Nat} {r : Except Abort Stop}

theorem mem_endings : k ∈ m.endings ↔ (m.after k).symbol? = none := halted_iff (m.after k)

theorem exists_symbol?_of_going (h : k ∉ m.endings) : ∃ c, (m.after k).symbol? = some c :=
  Option.ne_none_iff_exists'.mp (mt mem_endings.mpr h)

theorem succ_mem_breaks :
    k + 1 ∈ m.breaks ↔
      ∃ c, (m.after k).symbol? = some c ∧ m.settings.breakpoint = some c := by
  constructor
  · rintro ⟨i, c, hi, h⟩
    obtain rfl : k = i := by omega
    exact ⟨c, h⟩
  · rintro ⟨c, h⟩
    exact ⟨k, c, rfl, h⟩

theorem abort?_maxSteps {maxSteps : Option Nat} {a : Abort} :
    ({ maxSteps } : Supervision).abort? k = some a ↔
      ∃ limit, maxSteps = some limit ∧ limit ≤ k ∧ a = .stepLimit limit := by
  cases maxSteps with
  | none => simp [Supervision.abort?]
  | some limit => simp [Supervision.abort?, eq_comm]

theorem mem_aborts_maxSteps {maxSteps : Option Nat} :
    k ∈ ({ maxSteps } : Supervision).aborts ↔ ∃ limit, maxSteps = some limit ∧ limit ≤ k := by
  constructor
  · rintro ⟨a, ha⟩
    obtain ⟨limit, hlimit, hk, -⟩ := abort?_maxSteps.mp ha
    exact ⟨limit, hlimit, hk⟩
  · rintro ⟨limit, hlimit, hk⟩
    exact ⟨_, abort?_maxSteps.mpr ⟨limit, hlimit, hk, rfl⟩⟩

theorem Supervision.abort?_eq_none (h : k ∉ s.aborts) : s.abort? k = none := by
  cases ha : s.abort? k with
  | none => rfl
  | some a => exact absurd ⟨a, ha⟩ h

/-- Before its end a machine counts every step. -/
theorem steps_after_of_going (h : ∀ i < k, i ∉ m.endings) : (m.after k).steps = m.steps + k := by
  induction k with
  | zero => rfl
  | succ k ih =>
    obtain ⟨c, hc⟩ := exists_symbol?_of_going (h k (Nat.lt_succ_self k))
    have hsteps := ih fun i hi => h i (by omega)
    rw [after_succ', next_of_some hc, steps_execute, hsteps, Nat.add_assoc]

theorem superviseFrom_of_none (h : m.symbol? = none) :
    superviseFrom s (fuel + 1) taken m = some (.ok .halted, m) := by
  rw [superviseFrom]
  simp only [h]

theorem superviseFrom_of_abort {c : Char} {a : Abort} (h : m.symbol? = some c)
    (ha : s.abort? taken = some a) :
    superviseFrom s (fuel + 1) taken m = some (.error a, m) := by
  rw [superviseFrom]
  simp only [h, ha]

theorem superviseFrom_of_some (hm : m.program.Sound m.settings.breakpoint) {c : Char}
    (h : m.symbol? = some c) (ha : s.abort? taken = none) :
    superviseFrom s (fuel + 1) taken m =
      if m.settings.breakpoint = some c then
        some (.ok (.breakpoint (m.next.pc - 1)), m.next)
      else superviseFrom s fuel (taken + 1) m.next := by
  have hb : (execute c m).isBreakpoint c = true ↔ m.settings.breakpoint = some c := by
    simp [isBreakpoint]
  rw [superviseFrom, next_of_some h]
  simp only [h, ha, fault?_eq_none hm h, hb]

/-- A run that has not come to a pause has only followed the path of its machine. -/
theorem superviseFrom_of_quiet (hm : m.program.Sound m.settings.breakpoint)
    (hquiet : ∀ i < k, i ∉ m.endings ∧ i ∉ s.aborts ∧ i + 1 ∉ m.breaks) (fuel : Nat) :
    m.supervise s (k + fuel) = superviseFrom s fuel k (m.after k) := by
  induction k generalizing fuel with
  | zero =>
    rw [Nat.zero_add]
    rfl
  | succ k ih =>
    have hbefore : ∀ i < k, i ∉ m.endings ∧ i ∉ s.aborts ∧ i + 1 ∉ m.breaks := by
      intro i hi
      exact hquiet i (by omega)
    obtain ⟨hgoing, hallowed, hmiss⟩ := hquiet k (Nat.lt_succ_self k)
    rw [show k + 1 + fuel = k + (fuel + 1) by omega, ih hbefore, after_succ']
    obtain ⟨c, hc⟩ := exists_symbol?_of_going hgoing
    have hb : m.settings.breakpoint ≠ some c := by
      intro hb
      exact hmiss (succ_mem_breaks.mpr ⟨c, hc, hb⟩)
    rw [superviseFrom_of_some (sound_program_after hm k) hc (s.abort?_eq_none hallowed),
      (frame_after k m).2.1, if_neg hb]

theorem Pauses.not_before (h : Pauses s m k r) {i : Nat} (hi : i < k) :
    i ∉ m.endings ∧ i ∉ s.aborts ∧ i ∉ m.breaks := by
  refine ⟨?_, ?_, ?_⟩
  · intro hj
    exact absurd (h.first.2 (.inl (.inr hj))) (by omega)
  · intro hj
    exact absurd (h.first.2 (.inr hj)) (by omega)
  · intro hj
    exact absurd (h.first.2 (.inl (.inl hj))) (by omega)

theorem Pauses.steps (h : Pauses s m k r) : (m.after k).steps = m.steps + k :=
  steps_after_of_going fun _ hi => (h.not_before hi).1

theorem Pauses.quiet (h : Pauses s m k r) {j : Nat} (hj : j ≤ k) (hmiss : j ∉ m.breaks) :
    ∀ i < j, i ∉ m.endings ∧ i ∉ s.aborts ∧ i + 1 ∉ m.breaks := by
  intro i hi
  obtain ⟨hgoing, hallowed, -⟩ := h.not_before (i := i) (by omega)
  refine ⟨hgoing, hallowed, ?_⟩
  rcases Nat.lt_or_ge (i + 1) j with hlt | hge
  · exact (h.not_before (by omega)).2.2
  · obtain rfl : j = i + 1 := by omega
    exact hmiss

theorem Pauses.supervise (hm : m.program.Sound m.settings.breakpoint) (h : Pauses s m k r)
    (fuel : Nat) : m.supervise s (k + (fuel + 1)) = some (r, m.after k) := by
  cases h.answer with
  | breakpoint hit =>
    -- the step on the breakpoint is the last one, and the run has come quietly to it
    obtain ⟨j, c, rfl, hc, hb⟩ := hit
    obtain ⟨-, hallowed, hmiss⟩ := h.not_before (Nat.lt_succ_self j)
    rw [show j + 1 + (fuel + 1) = j + (fuel + 1 + 1) by omega,
      superviseFrom_of_quiet hm (h.quiet (Nat.le_succ j) hmiss),
      superviseFrom_of_some (sound_program_after hm j) hc (s.abort?_eq_none hallowed),
      (frame_after j m).2.1, if_pos hb, after_succ']
  | halted miss ended =>
    rw [superviseFrom_of_quiet hm (h.quiet (Nat.le_refl k) miss)]
    exact superviseFrom_of_none (mem_endings.mp ended)
  | abort miss going ha =>
    obtain ⟨c, hc⟩ := exists_symbol?_of_going going
    rw [superviseFrom_of_quiet hm (h.quiet (Nat.le_refl k) miss)]
    exact superviseFrom_of_abort hc ha

theorem exists_pauses (h : (m.breaks ∪ m.endings ∪ s.aborts).Nonempty) :
    ∃ k r, Pauses s m k r := by
  classical
  obtain ⟨k, hk⟩ : ∃ k, IsLeast (m.breaks ∪ m.endings ∪ s.aborts) k := ⟨_, h.isLeast_natFind⟩
  by_cases hb : k ∈ m.breaks
  · exact ⟨k, _, hk, .breakpoint hb⟩
  · by_cases he : k ∈ m.endings
    · exact ⟨k, _, hk, .halted hb he⟩
    · obtain ⟨a, ha⟩ : k ∈ s.aborts := by
        rcases hk.1 with (h1 | h1) | h1
        · exact absurd h1 hb
        · exact absurd h1 he
        · exact h1
      exact ⟨k, _, hk, .abort hb he ha⟩

/-- The answers of a supervised run: it pauses where the first pause is, and only there. -/
theorem supervise_iff (hm : m.program.Sound m.settings.breakpoint) :
    (∃ fuel, m.supervise s fuel = some (r, n)) ↔ ∃ k, Pauses s m k r ∧ n = m.after k := by
  constructor
  · rintro ⟨fuel, h⟩
    -- a run without a pause uses up any fuel
    by_cases hp : (m.breaks ∪ m.endings ∪ s.aborts).Nonempty
    · obtain ⟨k, r', hk⟩ := exists_pauses hp
      obtain ⟨rfl, rfl⟩ := Prod.mk.inj (superviseFrom_unique h (hk.supervise hm 0))
      exact ⟨k, hk, rfl⟩
    · have hquiet : ∀ i < fuel, i ∉ m.endings ∧ i ∉ s.aborts ∧ i + 1 ∉ m.breaks := by
        intro i _
        exact ⟨fun hi => hp ⟨i, .inl (.inr hi)⟩, fun hi => hp ⟨i, .inr hi⟩,
          fun hi => hp ⟨i + 1, .inl (.inl hi)⟩⟩
      have hnone := superviseFrom_of_quiet hm hquiet 0
      rw [Nat.add_zero, h, superviseFrom] at hnone
      simp at hnone
  · rintro ⟨k, hk, rfl⟩
    exact ⟨_, hk.supervise hm 0⟩

end Brainfuck.Machine
