import Brainfuck.Proofs.Machine.Reachable

namespace Brainfuck.Machine

variable {origin m n : Machine}

theorem back_eq_undone (hr : m.settings.recording = true) (hpos : 0 < m.steps) :
    m.back = .ok m.undone := by
  have h0 : m.steps ≠ 0 := Nat.ne_of_gt hpos
  simp [back, hr, h0]

theorem Tracks.rewind (ho : origin.Fresh) (hr : origin.settings.recording = true) {k : Nat}
    (h : Tracks origin m) (hk : k ≤ m.steps) :
    ∃ b, Trace m (List.replicate k (.back, .done)) b ∧ Tracks origin b ∧ b.steps = m.steps - k ∧
      b.tape.lowest = m.tape.lowest ∧ b.tape.highest = m.tape.highest := by
  induction k generalizing m with
  | zero => exact ⟨m, .nil, h, rfl, rfl, rfl⟩
  | succ k ih =>
    have hrec : m.settings.recording = true := h.settings ▸ hr
    have hpos : 0 < m.steps := by omega
    obtain ⟨hu, hus, hul, huh⟩ := h.undone ho hrec hpos
    obtain ⟨b, hb, hbt, hbs, hbl, hbh⟩ := ih hu (by omega)
    refine ⟨b, ?_, hbt, by omega, hbl.trans hul, hbh.trans huh⟩
    rw [List.replicate_succ]
    exact .cons (.back (back_eq_undone hrec hpos)) hb

/-- Steps that have been taken before lead to the same place and show no new cell. -/
theorem Tracks.replay (ho : origin.Fresh) {t count : Nat} (ht : (origin.after t).steps = t)
    (h : Tracks origin m) (hc : m.tape.Covers (origin.after t).tape) (hm : m.steps + count = t) :
    ∃ n, Trace m (List.replicate count (.step, .done)) n ∧ Tracks origin n ∧ n.steps = t ∧
      n.tape.lowest = m.tape.lowest ∧ n.tape.highest = m.tape.highest := by
  induction count generalizing m with
  | zero => exact ⟨m, .nil, h, hm, rfl, rfl⟩
  | succ count ih =>
    have hnext : (origin.after (m.steps + 1)).steps = m.steps + 1 :=
      steps_after_of_le ho.steps ht (by omega)
    obtain ⟨c, hsym, -, he⟩ := exists_last_step ho.steps hnext
    have hsymbol : m.symbol? = some c := h.same.symbol?.symm.trans hsym
    have hstep : m.step = .ok (Machine.execute c m) := by
      rw [step_eq_next (h.program ▸ h.settings ▸ ho.sound.program), next_of_some hsymbol]
    have hx := h.execute ho hsymbol
    have hsame := hx.same
    rw [steps_execute] at hsame
    -- the end of the path was covered from the beginning, and its next machine lies before that
    have hpath : m.tape.Covers (origin.after (m.steps + 1)).tape := by
      obtain rfl : m.steps + 1 + count = t := by omega
      exact hc.trans (origin.covers_after (m.steps + 1) count)
    have hspan := (spans_execute c m).eq_of_covers hpath hsame.pointer.symm
    obtain ⟨n, hn, hnt, hns, hnl, hnh⟩ := ih hx
      ⟨hspan.1 ▸ hc.lowest, hspan.2 ▸ hc.highest⟩ (by rw [steps_execute]; omega)
    refine ⟨n, ?_, hnt, hns, hnl.trans hspan.1, hnh.trans hspan.2⟩
    rw [List.replicate_succ]
    exact .cons (.step hstep) hn

theorem Same.observe (h : m.Same n) (hl : m.tape.lowest = n.tape.lowest)
    (hh : m.tape.highest = n.tape.highest) : m.observe = n.observe := by
  unfold Machine.observe
  rw [Tape.cells_eq hl hh h.cell, h.pointer, h.pc, h.steps, h.output]

/-- Whatever the calls were, the machine agrees with one that went forward as many steps from the
start, and a restart gives the start itself, its undo log and visited span included. -/
theorem trace_agrees_forward {source input : Text} {settings : Settings}
    {log : List (Call × Answer)} (hload : load source input settings = .ok origin)
    (h : Trace origin log m) :
    (∃ f, Trace origin (List.replicate m.steps (.step, .done)) f ∧ f.steps = m.steps ∧
      f.pc = m.pc ∧ f.tape.pointer = m.tape.pointer ∧ (∀ i, f.tape.cell i = m.tape.cell i) ∧
      f.output = m.output ∧ f.pending = m.pending) ∧
    ∀ a n, Returns .restart m a n ↔ a = .done ∧ n = origin := by
  have ho := fresh_load hload
  have ht := ho.tracks h
  refine ⟨?_, fun a n => ⟨?_, ?_⟩⟩
  · exact ⟨origin.after m.steps, ho.sound.trace_steps m.steps, ht.same.steps, ht.same.pc,
      ht.same.pointer, ht.same.cell, ht.same.output, ht.same.pending⟩
  · rintro ⟨⟩
    exact ⟨rfl, ht.restart ho⟩
  · rintro ⟨rfl, rfl⟩
    have hr : Returns .restart m .done m.restart := .restart
    rwa [ht.restart ho] at hr

theorem exists_successor :
    ∃ origin m, load ",+.".toList "h".toList {} = .ok origin ∧
      Trace origin [(.run, .stopped (.ok .halted))] m ∧ m.settings.recording = true ∧
      m.steps = 3 := by
  refine ⟨_, _, rfl, .single (.run (show run 4 _ = some (.ok .halted, _) from rfl)), ?_, ?_⟩
  · rfl
  · rfl

/-- The last step is taken back. -/
theorem trace_agrees_forward_run_back :
    ∃ origin m, load ",+.".toList "h".toList {} = .ok origin ∧
      Trace origin [(.run, .stopped (.ok .halted)), (.back, .done)] m ∧
      (∃ f, Trace origin (List.replicate m.steps (.step, .done)) f ∧ f.pc = m.pc ∧
        (∀ i, f.tape.cell i = m.tape.cell i) ∧ f.pending = m.pending) ∧
      Returns .restart m .done origin := by
  obtain ⟨origin, m, hload, hrun, hr, hs⟩ := exists_successor
  have hback : m.back = .ok m.undone := back_eq_undone hr (by omega)
  have ht := hrun.append (.single (.back hback))
  obtain ⟨⟨f, hf, -, hpc, -, hcell, -, hpending⟩, hrestart⟩ := trace_agrees_forward hload ht
  exact ⟨origin, m.undone, hload, ht, ⟨f, hf, hpc, hcell, hpending⟩, (hrestart _ _).mpr ⟨rfl, rfl⟩⟩

/-- Going back `k` steps and forward again restores all that can be observed, the pending input and
the undo log. -/
theorem rewind_replay {source input : Text} {settings : Settings} {log : List (Call × Answer)}
    (hload : load source input settings = .ok origin) (hr : settings.recording = true)
    (h : Trace origin log m) {k : Nat} (hk : k ≤ m.steps) :
    ∃ b, Trace m (List.replicate k (.back, .done)) b ∧ b.steps = m.steps - k ∧
    ∃ n, Trace b (List.replicate k (.step, .done)) n ∧ n.observe = m.observe ∧
      n.tape.lowest = m.tape.lowest ∧ n.tape.highest = m.tape.highest ∧ n.pending = m.pending ∧
      n.undo.jumps.Equiv m.undo.jumps ∧ n.undo.reads.Equiv m.undo.reads := by
  have ho := fresh_load hload
  have ht := ho.tracks h
  have hrec : origin.settings.recording = true := by
    obtain ⟨p, -, rfl⟩ := load_eq_ok hload
    exact hr
  obtain ⟨b, hb, hbt, hbs, hbl, hbh⟩ := ht.rewind ho hrec hk
  have hcov : b.tape.Covers (origin.after m.steps).tape :=
    ⟨hbl ▸ ht.covers.lowest, hbh ▸ ht.covers.highest⟩
  have hbk : b.steps + k = m.steps := by omega
  obtain ⟨n, hn, hnt, hns, hnl, hnh⟩ := hbt.replay ho ht.same.steps hcov hbk
  have hsame : n.Same m := (hns ▸ hnt.same).symm.trans ht.same
  have hlow : n.tape.lowest = m.tape.lowest := hnl.trans hbl
  have hhigh : n.tape.highest = m.tape.highest := hnh.trans hbh
  exact ⟨b, hb, hbs, n, hn, hsame.observe hlow hhigh, hlow, hhigh, hsame.pending,
    .of_forall_getElem?_eq hsame.jump, .of_forall_getElem?_eq hsame.read⟩

/-- Two of three steps, back and forth. -/
theorem rewind_replay_two :
    ∃ origin m b n, load ",+.".toList "h".toList {} = .ok origin ∧
      Trace origin [(.run, .stopped (.ok .halted))] m ∧
      Trace m (List.replicate 2 (.back, .done)) b ∧ b.steps = 1 ∧
      Trace b (List.replicate 2 (.step, .done)) n ∧ n.observe = m.observe ∧
      n.pending = m.pending := by
  obtain ⟨origin, m, hload, ht, -, hs⟩ := exists_successor
  have hk : 2 ≤ m.steps := by omega
  obtain ⟨b, hb, hbs, n, hn, hobserve, -, -, hpending, -⟩ := rewind_replay hload rfl ht hk
  exact ⟨origin, m, b, n, hload, ht, hb, by omega, hn, hobserve, hpending⟩

end Brainfuck.Machine
