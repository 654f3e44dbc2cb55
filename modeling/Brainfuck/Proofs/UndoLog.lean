import Brainfuck.Proofs.Conservation

namespace Brainfuck

/-- A map that has an entry for each number below a bound with a property has as many entries. -/
theorem size_eq_count {β : Type} {map : Std.HashMap Nat β} {p : Nat → Prop} [DecidablePred p]
    {f : Nat → β} {t : Nat} (h : ∀ s v, map[s]? = some v ↔ s < t ∧ p s ∧ v = f s) :
    map.size = Nat.count p t := by
  have hmem (s : Nat) : s ∈ map ↔ s < t ∧ p s := by
    rw [Std.HashMap.mem_iff_isSome_getElem?, Option.isSome_iff_exists]
    constructor
    · rintro ⟨v, hv⟩
      obtain ⟨hlt, hp, -⟩ := (h s v).mp hv
      exact ⟨hlt, hp⟩
    · rintro ⟨hlt, hp⟩
      exact ⟨f s, (h s (f s)).mpr ⟨hlt, hp, rfl⟩⟩
  have hperm : map.keys.Perm ((List.range t).filter fun s => p s) := by
    rw [List.perm_ext_iff_of_nodup Std.HashMap.nodup_keys (List.nodup_range.filter _)]
    intro s
    simp [Std.HashMap.mem_keys, hmem]
  calc map.size = map.keys.length := Std.HashMap.length_keys.symm
    _ = ((List.range t).filter fun s => p s).length := hperm.length_eq
    _ = Nat.count p t := List.countP_eq_length_filter.symm

namespace Machine

variable {origin m : Machine} {t : Nat}

def TakesJump (m : Machine) : Prop :=
  m.symbol? = some '[' ∧ m.tape.current = 0 ∨ m.symbol? = some ']' ∧ m.tape.current ≠ 0

instance : DecidablePred TakesJump := fun _ => inferInstanceAs (Decidable (_ ∨ _))

def jumpCount (t : Nat) (m : Machine) : Nat := Nat.count (fun i => (m.after i).TakesJump) t

theorem takesJump_iff {c : Char} (hc : m.symbol? = some c) : m.TakesJump ↔ m.store.Jumps c := by
  simp [TakesJump, Store.Jumps, hc]

/-- The undo log holds just the jumps among the steps. -/
theorem jump?_after (ho : origin.Fresh) (hr : origin.settings.recording = true)
    (ht : (origin.after t).steps = t) (s : Nat) :
    (origin.after t).undo.jump? s =
      if s < t ∧ (origin.after s).TakesJump then some (origin.after s).pc else none := by
  induction t with
  | zero =>
    rw [if_neg fun h => Nat.not_lt_zero s h.1]
    exact ho.sound.jump_unlogged s (ho.steps ▸ Nat.zero_le s)
  | succ t ih =>
    obtain ⟨c, hc, hts, he⟩ := exists_last_step ho.steps ht
    have hrec : (origin.after t).settings.recording = true := by rwa [(frame_after t origin).2.1]
    rw [he, jump?_execute, hts, ih hts]
    by_cases hs : t = s
    · subst hs
      simp [hrec, takesJump_iff hc]
    · have hlt : s < t + 1 ↔ s < t := by omega
      simp [hs, hlt]

theorem Tracks.jump?_eq_some_iff (ho : origin.Fresh) (hr : origin.settings.recording = true)
    (h : Tracks origin m) (s pc : Nat) :
    m.undo.jump? s = some pc ↔
      s < m.steps ∧ (origin.after s).TakesJump ∧ pc = (origin.after s).pc := by
  rw [← h.same.jump, jump?_after ho hr h.same.steps, Option.ite_none_right_eq_some, and_assoc,
    Option.some_inj, eq_comm (a := pc)]

theorem Tracks.read?_eq_some_iff (ho : origin.Fresh) (hr : origin.settings.recording = true)
    (h : Tracks origin m) (s : Nat) (entry : Read) :
    m.undo.read? s = some entry ↔
      s < m.steps ∧ (origin.after s).symbol? = some ',' ∧
        entry =
          { previous := (origin.after s).tape.current
            consumed := (origin.after s).pending.head? } := by
  rw [← h.same.read, read?_after ho hr h.same.steps, Option.ite_none_right_eq_some, and_assoc,
    Option.some_inj, eq_comm (a := entry)]

theorem Tracks.size_undo (ho : origin.Fresh) (hr : origin.settings.recording = true)
    (h : Tracks origin m) :
    m.undo.size = origin.jumpCount m.steps + origin.readCount m.steps := by
  have hjumps : m.undo.jumps.size = origin.jumpCount m.steps :=
    size_eq_count (h.jump?_eq_some_iff ho hr)
  have hreads : m.undo.reads.size = origin.readCount m.steps :=
    size_eq_count (h.read?_eq_some_iff ho hr)
  rw [UndoLog.size, hjumps, hreads]

/-- Whatever was called on a machine, its undo log holds the origin of each jump and what each read
replaced and took, among as many steps forward from the start, and nothing else. -/
theorem undo_log_exact {source input : Text} {settings : Settings} {log : List (Call × Answer)}
    (hload : load source input settings = .ok origin) (hr : settings.recording = true)
    (h : Trace origin log m) :
    (∀ i, (origin.after i).step = .ok (origin.after (i + 1))) ∧
      (∀ s pc, m.undo.jump? s = some pc ↔
        s < m.steps ∧ (origin.after s).TakesJump ∧ pc = (origin.after s).pc) ∧
      (∀ s entry, m.undo.read? s = some entry ↔
        s < m.steps ∧ (origin.after s).symbol? = some ',' ∧
          entry =
            { previous := (origin.after s).tape.current
              consumed := (origin.after s).pending.head? }) ∧
      m.undo.size = origin.jumpCount m.steps + origin.readCount m.steps ∧
      (m.steps = 0 → m.undo.isEmpty = true) := by
  have ho := fresh_load hload
  have ht := ho.tracks h
  have hrec : origin.settings.recording = true := settings_load hload ▸ hr
  refine ⟨ho.sound.step_after, ht.jump?_eq_some_iff ho hrec, ht.read?_eq_some_iff ho hrec,
    ht.size_undo ho hrec, ?_⟩
  intro h0
  have hsize : m.undo.jumps.size + m.undo.reads.size = 0 := by
    have hcount := ht.size_undo ho hrec
    rwa [h0] at hcount
  obtain ⟨hjumps, hreads⟩ := Nat.add_eq_zero_iff.mp hsize
  simp [UndoLog.isEmpty, Std.HashMap.isEmpty_eq_size_eq_zero, hjumps, hreads]

/-- A loop is skipped and a character is read. When the read is taken back, only the jump is left on
record. -/
theorem undo_log_exact_skip :
    ∃ origin b, load "[,],".toList "x".toList {} = .ok origin ∧
      Trace origin (List.replicate 2 (.step, .done) ++ List.replicate 1 (.back, .done)) b ∧
      b.undo.jump? 0 = some 0 ∧ b.undo.read? 1 = none ∧ b.undo.size = 1 := by
  obtain ⟨origin, hload, hopen, hzero, hpc, hp, hread⟩ : ∃ origin,
      load "[,],".toList "x".toList {} = .ok origin ∧ (origin.after 0).symbol? = some '[' ∧
        (origin.after 0).tape.current = 0 ∧ (origin.after 0).pc = 0 ∧
        origin.program.partner? 0 = some 2 ∧ origin.program.symbol? 3 = some ',' :=
    ⟨_, rfl, rfl, Tape.cell_empty _, rfl, rfl, rfl⟩
  have ho := fresh_load hload
  have hr : origin.settings.recording = true := settings_load hload ▸ rfl
  have hjump : (origin.after 0).TakesJump := .inl ⟨hopen, hzero⟩
  have hone : origin.after 1 = execute '[' (origin.after 0) := next_of_some hopen
  have hcomma : (origin.after 1).symbol? = some ',' := by
    rw [symbol?, hone, pc_execute, if_pos ((takesJump_iff hopen).mp hjump), program_execute, hpc]
    exact (congrArg (fun j => origin.program.symbol? (j.getD 0 + 1)) hp).trans hread
  have hsteps : (origin.after 2).steps = 2 := by
    rw [after_succ', next_of_some hcomma, steps_execute, hone, steps_execute]
    exact congrArg (· + 2) ho.steps
  have hcount : origin.jumpCount 1 + origin.readCount 1 = 1 := by
    simp [jumpCount, readCount, Nat.count_succ, hjump, hopen]
  have hforward := ho.sound.trace_steps 2
  obtain ⟨b, hback, -, hb, -⟩ := (ho.tracks hforward).rewind ho hr (k := 1) (by omega)
  have ht := hforward.append hback
  have hone' : b.steps = 1 := by omega
  obtain ⟨-, hjumps, hreads, hsize, -⟩ := undo_log_exact hload rfl ht
  rw [hone'] at hjumps hreads hsize
  have hlogged := (hjumps 0 0).mpr ⟨Nat.zero_lt_one, hjump, hpc.symm⟩
  refine ⟨origin, b, hload, ht, hlogged, ?_, hsize.trans hcount⟩
  apply Option.eq_none_iff_forall_ne_some.mpr
  intro entry hlog
  exact absurd ((hreads 1 entry).mp hlog).1 (Nat.lt_irrefl 1)

end Machine
end Brainfuck
