import Brainfuck.Proofs.Machine.Pausing
import Brainfuck.Proofs.Machine.Reachable

/-!
The states of a machine as points in time. A machine that calls have moved stands at the time that
it counts, and from there steps, steps back and runs lead to other times of the one machine that
they all came from.
-/

namespace Brainfuck.Machine

variable {origin m n : Machine} {limit : Option Nat} {k t u : Nat} {r : Except Abort Stop}

theorem after_of_none (h : m.symbol? = none) (count : Nat) : m.after count = m := by
  induction count with
  | zero => rfl
  | succ count ih => rw [after_succ, next_of_none h, ih]

/-- A machine that has ended does not go on. -/
theorem mem_endings_of_le (hkt : k ≤ t) (h : k ∈ m.endings) : t ∈ m.endings := by
  obtain ⟨more, rfl⟩ := Nat.exists_eq_add_of_le hkt
  show (m.after (k + more)).halted = true
  rw [after_add, after_of_none (mem_endings.mp h)]
  exact h

theorem stepUpTo_eq (hm : m.program.Sound m.settings.breakpoint) (count : Nat) :
    m.stepUpTo count = (m.after count, none) := by
  induction count generalizing m with
  | zero => rfl
  | succ count ih =>
    rw [stepUpTo, after_succ]
    cases hc : m.symbol? with
    | none =>
      rw [next_of_none hc, after_of_none hc]
    | some c =>
      simp only [fault?_eq_none hm hc]
      rw [next_of_some hc]
      exact ih (sound_program_execute hm c)

/-- A machine takes all the steps that it is told to take, or those to its end. -/
theorem isLeast_steps_after (h0 : m.steps = 0) (k : Nat) :
    IsLeast ({k} ∪ m.endings) (m.after k).steps := by
  -- the count follows `k` until the machine has ended, and then stays at the first ending
  induction k with
  | zero =>
    rw [show (m.after 0).steps = 0 from h0]
    exact ⟨.inl rfl, fun j _ => Nat.zero_le j⟩
  | succ k ih =>
    have hle := m.steps_after_le k
    rw [after_succ']
    cases hc : (m.after k).symbol? with
    | none =>
      rw [next_of_none hc]
      refine ⟨?_, ?_⟩
      · rcases ih.1 with hk | hk
        · exact .inr (by rwa [show (m.after k).steps = k from hk, mem_endings])
        · exact .inr hk
      · rintro j (rfl | hj)
        · omega
        · exact ih.2 (.inr hj)
    | some c =>
      -- a machine that had ended before would still be at its end
      have hgoing : ∀ i < k + 1, i ∉ m.endings := by
        intro i hi hend
        have hlast := mem_endings.mp (mem_endings_of_le (Nat.le_of_lt_succ hi) hend)
        rw [hc] at hlast
        cases hlast
      rw [← after_succ', steps_after_of_going hgoing, h0, Nat.zero_add]
      refine ⟨.inl rfl, ?_⟩
      rintro j (rfl | hj)
      · exact Nat.le_refl _
      · exact Nat.le_of_not_lt fun hlt => hgoing j hlt hj

theorem Tracks.steps_le (h0 : origin.steps = 0) (h : Tracks origin m) (hk : k ∈ origin.endings) :
    m.steps ≤ k := by
  have hleast := isLeast_steps_after h0 m.steps
  rw [h.same.steps] at hleast
  exact hleast.2 (.inr hk)

theorem Tracks.isLeast_steps (ho : origin.Fresh) (h : Tracks origin m) (count : Nat) :
    IsLeast ({m.steps + count} ∪ origin.endings) (m.after count).steps := by
  rw [← (h.same_after ho count).steps]
  exact isLeast_steps_after ho.steps _

theorem Tracks.backUpTo (ho : origin.Fresh) (hr : origin.settings.recording = true)
    (h : Tracks origin m) (count : Nat) :
    ∃ n, m.backUpTo count = (n, none) ∧ Tracks origin n ∧ n.steps = m.steps - count := by
  induction count generalizing m with
  | zero => exact ⟨m, rfl, h, rfl⟩
  | succ count ih =>
    have hrec : m.settings.recording = true := h.settings ▸ hr
    rw [Machine.backUpTo, hrec]
    by_cases h0 : m.steps = 0
    · exact ⟨m, if_pos h0, h, by omega⟩
    · obtain ⟨hu, hus, -, -⟩ := h.undone ho hrec (Nat.pos_of_ne_zero h0)
      obtain ⟨n, hn, hnt, hns⟩ := ih hu
      refine ⟨n, ?_, hnt, by omega⟩
      simpa [h0] using hn

/-- The times right after a breakpoint that is executed at the time `t` or later. -/
def breaksAfter (t : Nat) (m : Machine) : Set Nat := {k ∈ m.breaks | t < k}

/-- The time at which a run from the time `t` has taken all the steps that it may take. -/
def deadline (limit : Option Nat) (t : Nat) : Set Nat := {k | ∃ l, limit = some l ∧ k = t + l}

/-- The times at which something stops a run from the time `t`. -/
def stops (limit : Option Nat) (t : Nat) (m : Machine) : Set Nat :=
  m.breaksAfter t ∪ m.endings ∪ deadline limit t

/-- What a run from the time `t` answers at the time `u`. A breakpoint goes before the end, and the
end before the step limit. -/
inductive Ending (limit : Option Nat) (t u : Nat) (m : Machine) : Except Abort Stop → Prop where
  | breakpoint (hit : u ∈ m.breaksAfter t) :
    Ending limit t u m (.ok (.breakpoint ((m.after u).pc - 1)))
  | halted (miss : u ∉ m.breaksAfter t) (ended : u ∈ m.endings) : Ending limit t u m (.ok .halted)
  | stepLimit {l : Nat} (miss : u ∉ m.breaksAfter t) (going : u ∉ m.endings)
    (h : limit = some l) : Ending limit t u m (.error (.stepLimit l))

/-- A run from the time `t` leads to the time `u` and answers `r`. -/
structure Reaches (limit : Option Nat) (t u : Nat) (r : Except Abort Stop) (m : Machine) :
    Prop where
  first : IsLeast (m.stops limit t) u
  ending : Ending limit t u m r

namespace Tracks

theorem mem_endings_iff (ho : origin.Fresh) (h : Tracks origin m) :
    m.steps + k ∈ origin.endings ↔ k ∈ m.endings := by
  rw [mem_endings, mem_endings, (h.same_after ho k).symbol?]

theorem mem_breaksAfter_iff (ho : origin.Fresh) (h : Tracks origin m) :
    m.steps + k ∈ origin.breaksAfter m.steps ↔ k ∈ m.breaks := by
  cases k with
  | zero =>
    constructor
    · intro hk
      exact absurd hk.2 (Nat.lt_irrefl m.steps)
    · rintro ⟨i, c, hi, -⟩
      omega
  | succ k =>
    have hlt : m.steps < m.steps + (k + 1) := by omega
    have hmem : m.steps + (k + 1) ∈ origin.breaks ↔ k + 1 ∈ m.breaks := by
      rw [← Nat.add_assoc, succ_mem_breaks, succ_mem_breaks, (h.same_after ho k).symbol?,
        h.settings]
    exact (and_iff_left hlt).trans hmem

theorem le_of_mem_stops (h0 : origin.steps = 0) (h : Tracks origin m)
    (hu : u ∈ origin.stops limit m.steps) : m.steps ≤ u := by
  rcases hu with (hu | hu) | ⟨l, -, hul⟩
  · exact Nat.le_of_lt hu.2
  · exact h.steps_le h0 hu
  · omega

theorem mem_of_mem_stops (ho : origin.Fresh) (h : Tracks origin m)
    (hk : m.steps + k ∈ origin.stops limit m.steps) :
    k ∈ m.breaks ∪ m.endings ∪ ({ maxSteps := limit } : Supervision).aborts := by
  rcases hk with (hk | hk) | ⟨l, hl, hkl⟩
  · exact .inl (.inl ((h.mem_breaksAfter_iff ho).mp hk))
  · exact .inl (.inr ((h.mem_endings_iff ho).mp hk))
  · exact .inr (mem_aborts_maxSteps.mpr ⟨l, hl, by omega⟩)

/-- A run is given up at its deadline and at all times after it, so whatever stops it may have been
there before. -/
theorem exists_mem_stops (ho : origin.Fresh) (h : Tracks origin m)
    (hk : k ∈ m.breaks ∪ m.endings ∪ ({ maxSteps := limit } : Supervision).aborts) :
    ∃ j ≤ k, m.steps + j ∈ origin.stops limit m.steps := by
  rcases hk with (hk | hk) | hk
  · exact ⟨k, Nat.le_refl k, .inl (.inl ((h.mem_breaksAfter_iff ho).mpr hk))⟩
  · exact ⟨k, Nat.le_refl k, .inl (.inr ((h.mem_endings_iff ho).mpr hk))⟩
  · obtain ⟨l, hl, hlk⟩ := mem_aborts_maxSteps.mp hk
    exact ⟨l, hlk, .inr ⟨l, hl, rfl⟩⟩

/-- A run stops first where its origin says, less the steps that were taken before. -/
theorem isLeast_stops_iff (ho : origin.Fresh) (h : Tracks origin m) :
    IsLeast (origin.stops limit m.steps) (m.steps + k) ↔
      IsLeast (m.breaks ∪ m.endings ∪ ({ maxSteps := limit } : Supervision).aborts) k := by
  constructor
  · intro hk
    refine ⟨h.mem_of_mem_stops ho hk.1, ?_⟩
    intro i hi
    obtain ⟨j, hji, hj⟩ := h.exists_mem_stops ho hi
    have hle := hk.2 hj
    omega
  · intro hk
    constructor
    · obtain ⟨j, hjk, hj⟩ := h.exists_mem_stops ho hk.1
      have hkj := hk.2 (h.mem_of_mem_stops ho hj)
      rwa [Nat.le_antisymm hjk hkj] at hj
    · intro u hu
      obtain ⟨i, rfl⟩ := Nat.exists_eq_add_of_le (h.le_of_mem_stops ho.steps hu)
      have hle := hk.2 (h.mem_of_mem_stops ho hu)
      omega

theorem reaches_iff (ho : origin.Fresh) (h : Tracks origin m) :
    origin.Reaches limit m.steps (m.steps + k) r ↔ Pauses { maxSteps := limit } m k r := by
  have hpc := (h.same_after ho k).pc
  constructor
  · intro hr
    have hfirst := (h.isLeast_stops_iff ho).mp hr.first
    refine ⟨hfirst, ?_⟩
    cases hr.ending with
    | breakpoint hit =>
      rw [hpc]
      exact .breakpoint ((h.mem_breaksAfter_iff ho).mp hit)
    | halted miss ended =>
      exact .halted (mt (h.mem_breaksAfter_iff ho).mpr miss) ((h.mem_endings_iff ho).mp ended)
    | stepLimit miss going hlimit =>
      have hmiss := mt (h.mem_breaksAfter_iff ho).mpr miss
      have hgoing := mt (h.mem_endings_iff ho).mpr going
      -- of the reasons to stop only the limit is left
      rcases hfirst.1 with (hk | hk) | hk
      · exact absurd hk hmiss
      · exact absurd hk hgoing
      · obtain ⟨l, hl, hlk⟩ := mem_aborts_maxSteps.mp hk
        obtain rfl := Option.some.inj (hl.symm.trans hlimit)
        exact .abort hmiss hgoing (abort?_maxSteps.mpr ⟨l, hl, hlk, rfl⟩)
  · intro hp
    refine ⟨(h.isLeast_stops_iff ho).mpr hp.first, ?_⟩
    cases hp.answer with
    | breakpoint hit =>
      rw [← hpc]
      exact .breakpoint ((h.mem_breaksAfter_iff ho).mpr hit)
    | halted miss ended =>
      exact .halted (mt (h.mem_breaksAfter_iff ho).mp miss) ((h.mem_endings_iff ho).mpr ended)
    | abort miss going ha =>
      obtain ⟨l, hl, -, rfl⟩ := abort?_maxSteps.mp ha
      exact .stepLimit (mt (h.mem_breaksAfter_iff ho).mp miss)
        (mt (h.mem_endings_iff ho).mp going) hl

theorem reaches_of_supervise (ho : origin.Fresh) (h : Tracks origin m) {fuel : Nat}
    (hr : m.supervise { maxSteps := limit } fuel = some (r, n)) :
    Tracks origin n ∧ origin.Reaches limit m.steps n.steps r := by
  obtain ⟨k, hk, rfl⟩ := (supervise_iff (h.sound ho).program).mp ⟨fuel, hr⟩
  refine ⟨h.after ho k, ?_⟩
  rw [hk.steps]
  exact (h.reaches_iff ho).mpr hk

theorem exists_supervise (ho : origin.Fresh) (h : Tracks origin m)
    (hr : origin.Reaches limit m.steps u r) :
    ∃ fuel n, m.supervise { maxSteps := limit } fuel = some (r, n) := by
  obtain ⟨k, rfl⟩ := Nat.exists_eq_add_of_le (h.le_of_mem_stops ho.steps hr.first.1)
  exact ⟨_, _, ((h.reaches_iff ho).mp hr).supervise (h.sound ho).program 0⟩

end Tracks
end Brainfuck.Machine
