import Brainfuck.Proofs.Machine.Pausing
import Brainfuck.Proofs.Machine.Reachable

namespace Brainfuck

theorem Store.natAbs_pointer_execute (settings : Settings) (c : Char) (s : Store) :
    (s.execute settings c).pointer.natAbs ≤ s.pointer.natAbs + 1 := by
  unfold Store.execute
  cases Simple.ofChar? c with
  | none => exact Nat.le_succ _
  | some i =>
    cases i with
    | right =>
      show (s.pointer + 1).natAbs ≤ s.pointer.natAbs + 1
      omega
    | left =>
      show (s.pointer - 1).natAbs ≤ s.pointer.natAbs + 1
      omega
    | increment => exact Nat.le_succ _
    | decrement => exact Nat.le_succ _
    | output => exact Nat.le_succ _
    | input =>
      have hp : (s.read settings).pointer = s.pointer := by
        unfold Store.read Store.fillAtEnd
        split
        · rfl
        · split <;> rfl
      show (s.read settings).pointer.natAbs ≤ s.pointer.natAbs + 1
      omega

namespace Machine

structure Bounded (m : Machine) : Prop where
  inside : m.pc ≤ m.program.size
  started : 0 < m.steps → 0 < m.pc
  near : m.tape.pointer.natAbs ≤ m.steps

theorem Bounded.execute {m : Machine} (h : m.Bounded) (hm : m.Sound) {c : Char}
    (hc : m.symbol? = some c) : (execute c m).Bounded where
  inside := by
    rw [pc_execute, program_execute]
    by_cases hj : m.store.Jumps c
    · obtain ⟨j, hp, hs⟩ := exists_partner_of_jumps hm.program hc hj
      have hlt : j < m.program.size := by
        rcases hs with hs | hs <;> exact Program.lt_size_of_symbol? hs
      rw [if_pos hj, hp]
      exact hlt
    · rw [if_neg hj]
      exact Program.lt_size_of_symbol? hc
  started _ := by
    rw [pc_execute]
    exact Nat.succ_pos _
  near := by
    have hp : (Machine.execute c m).tape.pointer = (m.store.execute m.settings c).pointer :=
      congrArg Store.pointer (store_execute hm.inRange c)
    have hle := Store.natAbs_pointer_execute m.settings c m.store
    have hnear : m.store.pointer.natAbs ≤ m.steps := h.near
    rw [hp, steps_execute]
    omega

theorem Bounded.after {m : Machine} (h : m.Bounded) (hm : m.Sound) (count : Nat) :
    (m.after count).Bounded := by
  induction count with
  | zero => exact h
  | succ count ih =>
    rw [after_succ']
    cases hc : (m.after count).symbol? with
    | none => rwa [next_of_none hc]
    | some c =>
      rw [next_of_some hc]
      exact ih.execute (hm.after count) hc

theorem Same.bounded {m n : Machine} (h : m.Same n) (hm : m.Bounded) : n.Bounded where
  inside := h.pc ▸ h.program ▸ hm.inside
  started := h.pc ▸ h.steps ▸ hm.started
  near := h.pointer ▸ h.steps ▸ hm.near

theorem bounded_load {source input : Text} {settings : Settings} {m : Machine}
    (h : load source input settings = .ok m) : m.Bounded := by
  obtain ⟨p, -, rfl⟩ := load_eq_ok h
  exact ⟨Nat.zero_le _, fun h0 => absurd h0 (Nat.lt_irrefl 0), Nat.le_refl 0⟩

theorem Supervision.abort?_ne_fault (s : Supervision) (k : Nat) (f : Fault) :
    s.abort? k ≠ some (.fault f) := by
  unfold Supervision.abort?
  split
  · simp
  · split
    · split <;> simp
    · simp

theorem back_eq_error {m : Machine} {f : Fault} (h : m.back = .error f) : f = .notRecording := by
  unfold back at h
  split at h
  · exact (Except.error.inj h).symm
  · split at h <;> simp at h

theorem supervise_ne_fault {m n : Machine} (hm : m.program.Sound m.settings.breakpoint)
    {s : Supervision} {fuel : Nat} {f : Fault} :
    m.supervise s fuel ≠ some (.error (.fault f), n) := by
  intro h
  obtain ⟨k, hk, -⟩ := (supervise_iff hm).mp ⟨fuel, h⟩
  cases hk.answer with
  | abort _ _ ha => exact s.abort?_ne_fault k f ha

/-- No call is refused but a step back of a machine that does not record. -/
theorem eq_notRecording_of_returns {m n : Machine} (hm : m.program.Sound m.settings.breakpoint)
    {c : Call} {a : Answer} {f : Fault} (h : Returns c m a n)
    (ha : a = .refused f ∨ a = .stopped (.error (.fault f))) : f = .notRecording := by
  cases h with
  | step => simp at ha
  | stepRefused h => simp [step_eq_next hm] at h
  | back => simp at ha
  | backRefused h =>
    obtain rfl : _ = f := by simpa using ha
    exact back_eq_error h
  | run h =>
    have hs := supervise_of_run h
    obtain hr : Except.mapError Abort.fault _ = .error (.fault f) := by simpa using ha
    rw [hr] at hs
    exact absurd hs (supervise_ne_fault hm)
  | supervise h =>
    obtain rfl : _ = Except.error (Abort.fault f) := by simpa using ha
    exact absurd h (supervise_ne_fault hm)
  | restart => simp at ha

/-- Every look-up of a machine succeeds, no call is refused but a step back without a record, and no
counter goes below zero. -/
structure Safe (m : Machine) : Prop where
  step : ∃ n, m.step = .ok n
  fault : ∀ c a n f, Returns c m a n → a = .refused f ∨ a = .stopped (.error (.fault f)) →
    f = .notRecording
  partner : ∀ c, m.symbol? = some c → m.store.Jumps c → ∃ j, m.program.partner? m.pc = some j
  pc_le : m.pc ≤ m.program.size
  pc_pos : 0 < m.steps → 0 < m.pc
  retreat : 0 < m.steps → ∃ c, m.retreat.symbol? = some c
  pointer_le : m.tape.pointer.natAbs ≤ m.steps

/-- Every machine that calls lead to is safe. -/
theorem safe_of_trace {source input : Text} {settings : Settings} {origin m : Machine}
    {log : List (Call × Answer)} (hload : load source input settings = .ok origin)
    (h : Trace origin log m) : m.Safe := by
  have ho := fresh_load hload
  have ht := ho.tracks h
  have hm := ht.sound ho
  -- only steps forward need to keep the bounds, since every call leads to where some of them do
  have hb := ht.same.bounded ((bounded_load hload).after ho.sound m.steps)
  exact {
    step := ⟨m.next, step_eq_next hm.program⟩
    fault := fun c a n f hr ha => eq_notRecording_of_returns hm.program hr ha
    partner := by
      intro c hc hj
      obtain ⟨j, hp, -⟩ := exists_partner_of_jumps hm.program hc hj
      exact ⟨j, hp⟩
    pc_le := hb.inside
    pc_pos := hb.started
    retreat := by
      intro hpos
      have hin := hb.inside
      have hpc := hb.started hpos
      apply Option.ne_none_iff_exists'.mp
      rw [symbol?, ne_eq, Program.symbol?_eq_none_iff]
      show ¬m.program.size ≤ m.pc - 1
      omega
    pointer_le := hb.near }

/-- A loop to the left of the start, come to a second time, is about to be left by a jump. -/
theorem safe_of_trace_loop :
    ∃ origin m, load "<[+]".toList [] {} = .ok origin ∧
      Trace origin [(.step, .done), (.back, .done), (.step, .done)] m ∧ 0 < m.steps ∧
      m.symbol? = some '[' ∧ (∃ j, m.program.partner? m.pc = some j) ∧ 0 < m.pc ∧
      (∃ c, m.retreat.symbol? = some c) ∧ m.tape.pointer.natAbs ≤ m.steps := by
  obtain ⟨origin, m, hload, ht, hpos, hc, hj⟩ : ∃ origin m, load "<[+]".toList [] {} = .ok origin ∧
      Trace origin [(.step, .done), (.back, .done), (.step, .done)] m ∧ 0 < m.steps ∧
      m.symbol? = some '[' ∧ m.store.Jumps '[' := by
    refine ⟨_, _, rfl, .cons (.step rfl) (.cons (.back rfl) (.single (.step rfl))), ?_, ?_, ?_⟩
    · exact Nat.one_pos
    · rfl
    · exact .inl ⟨rfl, Tape.cell_empty _⟩
  have hsafe := safe_of_trace hload ht
  exact ⟨origin, m, hload, ht, hpos, hc, hsafe.partner '[' hc hj, hsafe.pc_pos hpos,
    hsafe.retreat hpos, hsafe.pointer_le⟩

end Machine
end Brainfuck
