import Brainfuck.Proofs.Machine.Backward
import Brainfuck.Proofs.Machine.Calls

namespace Brainfuck.Machine

/-- A machine whose calls are to be followed: nothing has been executed on it yet. -/
structure Fresh (m : Machine) : Prop where
  sound : m.Sound
  steps : m.steps = 0
  restart : m.restart = m

theorem fresh_load {source input : Text} {settings : Settings} {m : Machine}
    (h : load source input settings = .ok m) : m.Fresh where
  sound := sound_load h
  steps := by
    obtain ⟨p, -, rfl⟩ := load_eq_ok h
    rfl
  restart := by
    obtain ⟨p, -, rfl⟩ := load_eq_ok h
    rfl

/-- A machine that has taken `t + 1` steps had not ended after `t` of them. -/
theorem exists_last_step {origin : Machine} {t : Nat} (h0 : origin.steps = 0)
    (h : (origin.after (t + 1)).steps = t + 1) :
    ∃ c, (origin.after t).symbol? = some c ∧ (origin.after t).steps = t ∧
      origin.after (t + 1) = execute c (origin.after t) := by
  have hle := origin.steps_after_le t
  rw [after_succ'] at h ⊢
  cases hc : (origin.after t).symbol? with
  | none =>
    rw [next_of_none hc] at h
    omega
  | some c =>
    rw [next_of_some hc] at h ⊢
    rw [steps_execute] at h
    exact ⟨c, rfl, by omega, rfl⟩

theorem steps_after_of_le {origin : Machine} {s t : Nat} (h0 : origin.steps = 0)
    (h : (origin.after t).steps = t) (hst : s ≤ t) : (origin.after s).steps = s := by
  -- downwards from `t`, since nothing is known of a machine that ends on the way
  induction t with
  | zero =>
    obtain rfl : s = 0 := by omega
    exact h
  | succ t ih =>
    by_cases he : s = t + 1
    · exact he ▸ h
    · obtain ⟨c, -, ht, -⟩ := exists_last_step h0 h
      exact ih ht (by omega)

/-- The invariant of all calls: `m` is where `m.steps` steps forward lead, and has seen at least the
cells that they visit. -/
structure Tracks (origin m : Machine) : Prop where
  same : (origin.after m.steps).Same m
  covers : m.tape.Covers (origin.after m.steps).tape

namespace Tracks

variable {origin m : Machine}

theorem self (h : origin.Fresh) : Tracks origin origin where
  same := by
    rw [h.steps]
    exact .refl _
  covers := by
    rw [h.steps]
    exact .refl _

theorem program (h : Tracks origin m) : m.program = origin.program :=
  h.same.program.symm.trans (frame_after m.steps origin).1

theorem settings (h : Tracks origin m) : m.settings = origin.settings :=
  h.same.settings.symm.trans (frame_after m.steps origin).2.1

theorem input (h : Tracks origin m) : m.input = origin.input :=
  h.same.input.symm.trans (frame_after m.steps origin).2.2

theorem sound (ho : origin.Fresh) (h : Tracks origin m) : m.Sound :=
  h.same.sound (ho.sound.after m.steps)

theorem restart (ho : origin.Fresh) (h : Tracks origin m) : m.restart = origin := by
  rw [Machine.restart, h.program, h.settings, h.input]
  exact ho.restart

theorem execute (ho : origin.Fresh) (h : Tracks origin m) {c : Char} (hc : m.symbol? = some c) :
    Tracks origin (execute c m) := by
  have hn : origin.after (m.steps + 1) = Machine.execute c (origin.after m.steps) := by
    rw [after_succ']
    exact next_of_some (h.same.symbol?.trans hc)
  have hs := h.same.execute (ho.sound.after m.steps).inRange c
  constructor
  · rwa [steps_execute, hn]
  · rw [steps_execute, hn]
    exact h.covers.spans (spans_execute c m) (spans_execute c _) hs.pointer.symm

/-- What a step back leaves: the forward machine one step earlier, in the span as it was. -/
theorem undone (ho : origin.Fresh) (h : Tracks origin m) (hr : m.settings.recording = true)
    (hpos : 0 < m.steps) :
    Tracks origin m.undone ∧ m.undone.steps = m.steps - 1 ∧
      m.undone.tape.lowest = m.tape.lowest ∧ m.undone.tape.highest = m.tape.highest := by
  obtain ⟨t, ht⟩ := Nat.exists_eq_add_one.mpr hpos
  have hsame := h.same
  have hcovers := h.covers
  rw [ht] at hsame hcovers
  obtain ⟨c, hc, hts, he⟩ := exists_last_step ho.steps (hsame.steps.trans ht)
  rw [he] at hsame hcovers
  have hrec : (origin.after t).settings.recording = true := by
    rw [(frame_after t origin).2.1, ← h.settings]
    exact hr
  have hu := same_undone (ho.sound.after t) hc hrec hsame
  have hsteps : m.undone.steps = t := hu.steps.symm.trans hts
  have hcov : m.tape.Covers (origin.after t).tape := hcovers.trans (spans_execute c _).covers
  -- the pointer goes back to a cell that it has come from, so the span does not grow
  have hspan := m.spans_undone.eq_of_covers hcov hu.pointer.symm
  refine ⟨⟨hsteps ▸ hu, ?_⟩, by omega, hspan⟩
  rw [hsteps]
  exact ⟨hspan.1 ▸ hcov.lowest, hspan.2 ▸ hcov.highest⟩

theorem trace (ho : origin.Fresh) {log : List (Call × Answer)} {n : Machine}
    (h : Tracks origin m) (ht : Trace m log n) : Tracks origin n := by
  refine ht.invariant (P := Tracks origin) ?_ ?_ ?_ h
  · intro m c hm hc _
    exact hm.execute ho hc
  · intro m hm hr hpos
    exact (hm.undone ho hr hpos).1
  · intro m hm
    rw [hm.restart ho]
    exact self ho

end Tracks

theorem Fresh.tracks {origin m : Machine} {log : List (Call × Answer)} (ho : origin.Fresh)
    (h : Trace origin log m) : Tracks origin m := (Tracks.self ho).trace ho h

theorem Sound.trace_steps {m : Machine} (h : m.Sound) (count : Nat) :
    Trace m (List.replicate count (.step, .done)) (m.after count) := by
  induction count generalizing m with
  | zero => exact .nil
  | succ count ih =>
    rw [List.replicate_succ, after_succ]
    exact .cons (.step (step_eq_next h.program)) (ih h.next)

theorem Tracks.after {origin m : Machine} (ho : origin.Fresh) (h : Tracks origin m) (count : Nat) :
    Tracks origin (m.after count) := h.trace ho ((h.sound ho).trace_steps count)

/-- Machines that were moved keep in step with the one that they came from. -/
theorem Tracks.same_after {origin m : Machine} (ho : origin.Fresh) (h : Tracks origin m)
    (count : Nat) : (origin.after (m.steps + count)).Same (m.after count) := by
  rw [after_add]
  exact h.same.after (ho.sound.after m.steps) count

end Brainfuck.Machine
