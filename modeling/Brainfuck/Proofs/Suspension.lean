import Brainfuck.Proofs.Machine.Finishing
import Brainfuck.Proofs.Supervision

namespace Brainfuck.Machine

variable {origin m n : Machine} {c : Call} {x : Char} {index : Nat}

/-- The steps that lead from `m` to `n` end with one from `e`. -/
structure EndsWith (m e n : Machine) : Prop where
  steps : ∃ k, Trace m (List.replicate k (.step, .done)) e
  last : Returns .step e .done n
  counted : n.steps = e.steps + 1

theorem PauseAnswer.of_breakpoint {s : Supervision} {k : Nat}
    (h : PauseAnswer s m k (.ok (.breakpoint index))) :
    k ∈ m.breaks ∧ index = (m.after k).pc - 1 := by
  cases h with
  | breakpoint hit => exact ⟨hit, rfl⟩

/-- Whatever kind of run has stopped, it has come to its first pause. -/
theorem Returns.exists_pauses (hm : m.program.Sound m.settings.breakpoint)
    {r : Except Abort Stop} (h : Returns c m (.stopped r) n) :
    ∃ s k, Pauses s m k r ∧ n = m.after k := by
  obtain ⟨s, hs⟩ : ∃ s, Returns (.supervise s) m (.stopped r) n := by
    cases c with
    | run => exact ⟨{}, returns_free_iff.mpr h⟩
    | supervise s => exact ⟨s, h⟩
    | _ => cases h
  obtain ⟨k, r', hk, hr, hn⟩ := (returns_supervise_iff hm).mp hs
  cases hr
  exact ⟨s, k, hk, hn⟩

theorem Sound.endsWith (hm : m.Sound) {k : Nat} (hx : (m.after k).symbol? = some x) :
    EndsWith m (m.after k) (m.after (k + 1)) where
  steps := ⟨k, hm.trace_steps k⟩
  last := by
    rw [after_succ']
    exact .step (step_eq_next (hm.after k).program)
  counted := by rw [after_succ', next_of_some hx, steps_execute]

theorem partner_of_jumps (hm : m.program.Sound m.settings.breakpoint) (hx : m.symbol? = some x)
    (hj : m.store.Jumps x) :
    ∃ j, m.program.partner? m.pc = some j ∧ m.program.symbol? j ≠ some x := by
  rcases hj with ⟨rfl, -⟩ | ⟨rfl, -⟩
  · obtain ⟨j, hp, -, hs⟩ := hm.exists_closing hx
    exact ⟨j, hp, by simp [hs]⟩
  · obtain ⟨j, hp, -, hs⟩ := hm.exists_opening hx
    exact ⟨j, hp, by simp [hs]⟩

/-- A run that answers with a breakpoint has executed it last and goes on after the index in the
answer. There the breakpoint itself stands, or, if it was a bracket that jumped, its partner. -/
theorem suspended_after_breakpoint {source input : Text} {settings : Settings}
    {log : List (Call × Answer)} (hload : load source input settings = .ok origin)
    (h : Trace origin log m) (hr : Returns c m (.stopped (.ok (.breakpoint index))) n) :
    n.pc = index + 1 ∧
    ∃ e x, EndsWith m e n ∧ e.symbol? = some x ∧ settings.breakpoint = some x ∧
      (¬e.store.Jumps x → index = e.pc ∧ m.program.symbol? index = some x) ∧
      (e.store.Jumps x →
        m.program.partner? e.pc = some index ∧ m.program.symbol? index ≠ some x) := by
  have ho := fresh_load hload
  have ht := ho.tracks h
  have hm := ht.sound ho
  have hbreak : m.settings.breakpoint = settings.breakpoint := by
    obtain ⟨p, -, rfl⟩ := load_eq_ok hload
    exact congrArg Settings.breakpoint ht.settings
  obtain ⟨s, k, hk, rfl⟩ := hr.exists_pauses hm.program
  obtain ⟨⟨i, x, rfl, hx, hb⟩, rfl⟩ := hk.answer.of_breakpoint
  have hpc : (m.after (i + 1)).pc =
      (if (m.after i).store.Jumps x then
        ((m.after i).program.partner? (m.after i).pc).getD (m.after i).pc
      else (m.after i).pc) + 1 := by
    rw [after_succ', next_of_some hx, pc_execute]
  have hprogram : (m.after i).program = m.program := (frame_after i m).1
  rw [hpc, Nat.add_sub_cancel]
  refine ⟨rfl, m.after i, x, hm.endsWith hx, hx, hbreak.symm.trans hb, ?_, ?_⟩
  · intro hj
    rw [if_neg hj, ← hprogram]
    exact ⟨rfl, hx⟩
  · intro hj
    obtain ⟨j, hp, hne⟩ := partner_of_jumps (hm.after i).program hx hj
    rw [if_pos hj, hp, Option.getD_some, ← hprogram]
    exact ⟨hp, hne⟩

/-- The breakpoint is the last step that the limit allows, on a machine that has gone back. -/
theorem suspended_after_breakpoint_limited :
    ∃ origin m e n, load "+#".toList [] { breakpoint := some '#' } = .ok origin ∧
      Trace origin [(.step, .done), (.back, .done)] m ∧
      Returns (.supervise { maxSteps := some 2 }) m (.stopped (.ok (.breakpoint 1))) n ∧
      n.pc = 2 ∧ EndsWith m e n ∧ e.pc = 1 ∧ m.program.symbol? 1 = some '#' := by
  obtain ⟨origin, m, n, hload, ht, hr⟩ : ∃ origin m n,
      load "+#".toList [] { breakpoint := some '#' } = .ok origin ∧
        Trace origin [(.step, .done), (.back, .done)] m ∧
        Returns (.supervise { maxSteps := some 2 }) m (.stopped (.ok (.breakpoint 1))) n :=
    ⟨_, _, _, rfl, .cons (.step rfl) (.single (.back rfl)),
      .supervise (show supervise _ 2 _ = some (.ok (.breakpoint 1), _) from rfl)⟩
  obtain ⟨hpc, e, x, he, -, hx, hstay, -⟩ := suspended_after_breakpoint hload ht hr
  obtain rfl : '#' = x := Option.some.inj hx
  obtain ⟨hindex, hsymbol⟩ := hstay (by simp [Store.Jumps])
  exact ⟨origin, m, e, n, hload, ht, hr, hpc, he, hindex.symm, hsymbol⟩

/-- A bracket that is the breakpoint and jumps is not where the answer says: the loop is skipped,
and its end is named, which was not executed and is not the breakpoint. -/
theorem suspended_elsewhere_of_jump :
    ∃ origin n, load "[]".toList [] { breakpoint := some '[' } = .ok origin ∧
      Returns .run origin (.stopped (.ok (.breakpoint 1))) n ∧
      Returns (.supervise {}) origin (.stopped (.ok (.breakpoint 1))) n ∧ n.pc = 2 ∧
      ¬∃ e, EndsWith origin e n ∧ e.pc = 1 ∧
        origin.program.symbol? 1 = origin.settings.breakpoint := by
  obtain ⟨origin, hload, hx, hj, hp, hbreak, hsymbol⟩ : ∃ origin,
      load "[]".toList [] { breakpoint := some '[' } = .ok origin ∧ origin.symbol? = some '[' ∧
        origin.store.Jumps '[' ∧ origin.program.partner? origin.pc = some 1 ∧
        origin.isBreakpoint '[' = true ∧
        origin.program.symbol? 1 ≠ origin.settings.breakpoint :=
    ⟨_, rfl, rfl, .inl ⟨rfl, Tape.cell_empty _⟩, rfl, rfl, by decide⟩
  have hpc : (execute '[' origin).pc = 2 := by rw [pc_execute, if_pos hj, hp, Option.getD_some]
  have hrun : origin.run 1 = some (.ok (.breakpoint 1), execute '[' origin) := by
    rw [run_of_some (sound_load hload).program hx, if_pos hbreak, hpc]
  refine ⟨origin, _, hload, .run hrun, returns_free_iff.mpr (.run hrun), hpc, ?_⟩
  rintro ⟨e, -, -, h⟩
  exact hsymbol h

end Brainfuck.Machine
