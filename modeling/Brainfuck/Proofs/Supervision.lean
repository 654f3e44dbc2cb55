import Brainfuck.Proofs.Machine.Pausing
import Brainfuck.Proofs.Machine.Reachable

namespace Brainfuck.Machine

variable {s : Supervision} {origin m n : Machine} {k limit : Nat} {r : Except Abort Stop}
  {a : Answer}

theorem returns_supervise_iff (hm : m.program.Sound m.settings.breakpoint) :
    Returns (.supervise s) m a n ↔ ∃ k r, Pauses s m k r ∧ a = .stopped r ∧ n = m.after k := by
  constructor
  · intro h
    cases h with
    | supervise h =>
      obtain ⟨k, hk, rfl⟩ := (supervise_iff hm).mp ⟨_, h⟩
      exact ⟨k, _, hk, rfl, rfl⟩
  · rintro ⟨k, r, hk, rfl, rfl⟩
    exact .supervise (hk.supervise hm 0)

theorem Pauses.returns_iff (hm : m.program.Sound m.settings.breakpoint) (h : Pauses s m k r) :
    Returns (.supervise s) m a n ↔ a = .stopped r ∧ n = m.after k := by
  constructor
  · intro h'
    exact h'.unique (.supervise (h.supervise hm 0))
  · rintro ⟨rfl, rfl⟩
    exact .supervise (h.supervise hm 0)

theorem mem_aborts_limit :
    k ∈ ({ maxSteps := some limit } : Supervision).aborts ↔ limit ≤ k := by
  rw [mem_aborts_maxSteps]
  constructor
  · rintro ⟨_, ⟨⟩, hk⟩
    exact hk
  · intro hk
    exact ⟨limit, rfl, hk⟩

/-- Without a limit a run pauses for a breakpoint or at the end. -/
theorem Pauses.mem_of_free (h : Pauses {} m k r) : k ∈ m.breaks ∪ m.endings := by
  rcases h.first.1 with hk | hk
  · exact hk
  · obtain ⟨limit, hlimit, -⟩ := mem_aborts_maxSteps.mp hk
    cases hlimit

theorem Pauses.exists_ok (h : Pauses {} m k r) : ∃ stop, r = .ok stop := by
  cases h.answer with
  | breakpoint => exact ⟨_, rfl⟩
  | halted => exact ⟨_, rfl⟩
  | abort miss going ha =>
    rcases h.mem_of_free with hk | hk
    · exact absurd hk miss
    · exact absurd hk going

/-- A run that stops of its own accord does so under any supervision that lets it come so far. -/
theorem Pauses.of_allowed {s' : Supervision} {stop : Stop} (h : Pauses s m k (.ok stop))
    (hallowed : ∀ j ∈ s'.aborts, k ≤ j) : Pauses s' m k (.ok stop) where
  first := by
    refine ⟨.inl ?_, fun j hj => hj.elim (fun hj => h.first.2 (.inl hj)) (hallowed j)⟩
    cases h.answer with
    | breakpoint hit => exact .inl hit
    | halted miss ended => exact .inr ended
  answer := by
    cases h.answer with
    | breakpoint hit => exact .breakpoint hit
    | halted miss ended => exact .halted miss ended

theorem Pauses.limited (h : Pauses {} m k r) (hk : k ≤ limit) :
    Pauses { maxSteps := some limit } m k r := by
  obtain ⟨stop, rfl⟩ := h.exists_ok
  exact h.of_allowed fun j hj => Nat.le_trans hk (mem_aborts_limit.mp hj)

/-- A run that comes to no pause within the limit is given up at the limit. -/
theorem pauses_at_limit (h : ∀ k ∈ m.breaks ∪ m.endings, limit < k) :
    Pauses { maxSteps := some limit } m limit (.error (.stepLimit limit)) where
  first := by
    refine ⟨.inr (mem_aborts_limit.mpr (Nat.le_refl limit)), ?_⟩
    rintro j (hj | hj)
    · exact Nat.le_of_lt (h j hj)
    · exact mem_aborts_limit.mp hj
  answer := by
    apply PauseAnswer.abort
    · intro hk
      exact absurd (h limit (.inl hk)) (Nat.lt_irrefl limit)
    · intro hk
      exact absurd (h limit (.inr hk)) (Nat.lt_irrefl limit)
    · exact abort?_maxSteps.mpr ⟨limit, rfl, Nat.le_refl limit, rfl⟩

theorem pauses_or_late (m : Machine) (limit : Nat) :
    (∃ k stop, k ≤ limit ∧ Pauses {} m k (.ok stop)) ∨ ∀ k ∈ m.breaks ∪ m.endings, limit < k := by
  by_cases h : ∃ k ∈ m.breaks ∪ m.endings, k ≤ limit
  · obtain ⟨k, hk, hle⟩ := h
    obtain ⟨j, r, hj⟩ := exists_pauses (s := {}) ⟨k, .inl hk⟩
    obtain ⟨stop, rfl⟩ := hj.exists_ok
    exact .inl ⟨j, stop, Nat.le_trans (hj.first.2 (.inl hk)) hle, hj⟩
  · refine .inr fun k hk => ?_
    exact Nat.lt_of_not_le fun hle => h ⟨k, hk, hle⟩

theorem exists_pauses_limited (m : Machine) (limit : Nat) :
    ∃ k r, Pauses { maxSteps := some limit } m k r :=
  exists_pauses ⟨limit, .inr (mem_aborts_limit.mpr (Nat.le_refl limit))⟩

theorem Pauses.le_limit (h : Pauses { maxSteps := some limit } m k r) : k ≤ limit :=
  h.first.2 (.inr (mem_aborts_limit.mpr (Nat.le_refl limit)))

theorem Pauses.supervise_limited (hm : m.program.Sound m.settings.breakpoint)
    (h : Pauses { maxSteps := some limit } m k r) {fuel : Nat} (hfuel : limit < fuel) :
    m.supervise { maxSteps := some limit } fuel = some (r, m.after k) := by
  have hle := h.le_limit
  have hrun := h.supervise hm (fuel - k - 1)
  rwa [show k + (fuel - k - 1 + 1) = fuel by omega] at hrun

theorem Pauses.raised {stop : Stop} {greater : Nat}
    (h : Pauses { maxSteps := some limit } m k (.ok stop)) (hle : limit ≤ greater) :
    Pauses { maxSteps := some greater } m k (.ok stop) :=
  h.of_allowed fun _ hj => Nat.le_trans h.le_limit (Nat.le_trans hle (mem_aborts_limit.mp hj))

theorem Pauses.le_of_limit_le {r' : Except Abort Stop} {j greater : Nat} (hle : limit ≤ greater)
    (h : Pauses { maxSteps := some limit } m k r)
    (h' : Pauses { maxSteps := some greater } m j r') : k ≤ j := by
  rcases h'.first.1 with hj | hj
  · exact h.first.2 (.inl hj)
  · exact Nat.le_trans h.le_limit (Nat.le_trans hle (mem_aborts_limit.mp hj))

/-- Steps before the first pause belong to the run that follows them. -/
theorem returns_run_after_iff (hm : m.program.Sound m.settings.breakpoint)
    (h : ∀ k ∈ m.breaks ∪ m.endings, limit < k) :
    Returns .run (m.after limit) a n ↔ Returns .run m a n := by
  have hquiet : ∀ i < limit, i ∉ m.endings ∧ i ∉ ({} : Supervision).aborts ∧ i + 1 ∉ m.breaks := by
    intro i hi
    refine ⟨?_, ?_, ?_⟩
    · intro hk
      exact absurd (h i (.inr hk)) (by omega)
    · intro hk
      obtain ⟨limit, hlimit, -⟩ := mem_aborts_maxSteps.mp hk
      cases hlimit
    · intro hk
      exact absurd (h (i + 1) (.inl hk)) (by omega)
  have hrest (fuel : Nat) : m.supervise {} (limit + fuel) = (m.after limit).supervise {} fuel := by
    rw [superviseFrom_of_quiet hm hquiet, supervise, superviseFrom_free, superviseFrom_free]
  rw [← returns_free_iff, ← returns_free_iff]
  constructor
  · intro h'
    cases h' with
    | supervise h' => exact .supervise ((hrest _).trans h')
  · intro h'
    obtain ⟨k, r, hk, rfl, rfl⟩ := (returns_supervise_iff hm).mp h'
    have hlt := h k hk.mem_of_free
    have hrun := hk.supervise hm 0
    rw [show k + (0 + 1) = limit + (k + 1 - limit) by omega, hrest] at hrun
    exact .supervise hrun

theorem Supervision.abort?_uncancelled (h : s.abort? k ≠ some .cancelled) :
    ({ maxSteps := s.maxSteps } : Supervision).abort? k = s.abort? k := by
  unfold abort? at h ⊢
  by_cases hc : s.cancelAfter.any (· ≤ k) = true
  · exact absurd (if_pos hc) h
  · rw [if_neg hc]
    rfl

theorem Pauses.uncancelled (h : Pauses s m k r) (hr : r ≠ .error .cancelled) :
    Pauses { maxSteps := s.maxSteps } m k r := by
  have hk : PauseAnswer { maxSteps := s.maxSteps } m k r := by
    cases h.answer with
    | breakpoint hit => exact .breakpoint hit
    | halted miss ended => exact .halted miss ended
    | abort miss going ha =>
      have hc : s.abort? k ≠ some .cancelled := by
        rintro hc
        obtain rfl := Option.some.inj (ha.symm.trans hc)
        exact hr rfl
      exact .abort miss going ((Supervision.abort?_uncancelled hc).trans ha)
  refine ⟨⟨?_, ?_⟩, hk⟩
  · cases hk with
    | breakpoint hit => exact .inl (.inl hit)
    | halted miss ended => exact .inl (.inr ended)
    | abort miss going ha => exact .inr ⟨_, ha⟩
  · rintro j (hj | ⟨b, hb⟩)
    · exact h.first.2 (.inl hj)
    · by_cases hc : s.abort? j = some .cancelled
      · exact h.first.2 (.inr ⟨_, hc⟩)
      · exact h.first.2 (.inr ⟨b, (Supervision.abort?_uncancelled hc).symm.trans hb⟩)

/-- With the request to cancel pending a run is given up before its first step, unless the program
has ended. -/
theorem pauses_cancelled (maxSteps : Option Nat) (m : Machine) :
    Pauses { maxSteps, cancelAfter := some 0 } m 0
      (if m.halted then .ok .halted else .error .cancelled) where
  first := ⟨.inr ⟨.cancelled, rfl⟩, fun k _ => Nat.zero_le k⟩
  answer := by
    have hmiss : 0 ∉ m.breaks := by
      rintro ⟨i, c, hi, -⟩
      omega
    split
    · next h => exact .halted hmiss h
    · next h => exact .abort hmiss h rfl

/-- A supervised run agrees with a plain one on every machine that calls lead to. -/
theorem supervise_agrees_run {source input : Text} {settings : Settings}
    {log : List (Call × Answer)} (hload : load source input settings = .ok origin)
    (h : Trace origin log m) :
    (∀ maxSteps a n, Returns (.supervise { maxSteps, cancelAfter := some 0 }) m a n ↔
      a = .stopped (if m.halted then .ok .halted else .error .cancelled) ∧ n = m) ∧
    (∀ a n, Returns (.supervise {}) m a n ↔ Returns .run m a n) ∧
    ∀ limit,
      (∀ a n, Returns .run m a n → n.steps ≤ m.steps + limit →
        ∀ a' n', Returns (.supervise { maxSteps := some limit }) m a' n' ↔ a' = a ∧ n' = n) ∧
      ((¬∃ a n, Returns .run m a n ∧ n.steps ≤ m.steps + limit) →
        ∃ k, Trace m (List.replicate limit (.step, .done)) k ∧ k.steps = m.steps + limit ∧
          (∀ a n, Returns (.supervise { maxSteps := some limit }) m a n ↔
            a = .stopped (.error (.stepLimit limit)) ∧ n = k) ∧
          ∀ a n, Returns .run k a n ↔ Returns .run m a n) := by
  have ho := fresh_load hload
  have hsound := (ho.tracks h).sound ho
  have hm := hsound.program
  refine ⟨?_, fun a n => returns_free_iff, fun limit => ⟨?_, ?_⟩⟩
  · intro maxSteps a n
    exact (pauses_cancelled maxSteps m).returns_iff hm
  · intro a n hr hn a' n'
    obtain ⟨k, r, hk, rfl, rfl⟩ := (returns_supervise_iff hm).mp (returns_free_iff.mpr hr)
    have hsteps := hk.steps
    exact (hk.limited (by omega)).returns_iff hm
  · intro hnone
    -- a pause within the limit would be one at which the plain run returns
    have hlate : ∀ k ∈ m.breaks ∪ m.endings, limit < k := by
      intro k hk
      by_contra hle
      obtain ⟨j, r, hj⟩ := exists_pauses (s := {}) ⟨k, .inl hk⟩
      have hjk := hj.first.2 (.inl hk)
      have hsteps := hj.steps
      have hreturns := returns_free_iff.mp ((hj.returns_iff hm).mpr ⟨rfl, rfl⟩)
      exact hnone ⟨_, _, hreturns, by omega⟩
    have hlimit := pauses_at_limit hlate
    exact ⟨m.after limit, hsound.trace_steps limit, hlimit.steps,
      fun a n => hlimit.returns_iff hm, fun a n => returns_run_after_iff hm hlate⟩

/-- After a rewind the breakpoint is two steps away: a limit of two steps allows it, and a limit of
one step only puts it off. -/
theorem supervise_agrees_run_tie :
    ∃ origin m n, load "+#-".toList [] { breakpoint := some '#' } = .ok origin ∧
      Trace origin [(.run, .stopped (.ok (.breakpoint 1))), (.back, .done), (.back, .done)] m ∧
      Returns .run m (.stopped (.ok (.breakpoint 1))) n ∧ n.steps = m.steps + 2 ∧
      Returns (.supervise { maxSteps := some 2 }) m (.stopped (.ok (.breakpoint 1))) n ∧
      ∃ k, Returns (.supervise { maxSteps := some 1 }) m (.stopped (.error (.stepLimit 1))) k ∧
        Returns .run k (.stopped (.ok (.breakpoint 1))) n := by
  obtain ⟨origin, m, n, hload, ht, hr, hn⟩ : ∃ origin m n,
      load "+#-".toList [] { breakpoint := some '#' } = .ok origin ∧
        Trace origin [(.run, .stopped (.ok (.breakpoint 1))), (.back, .done), (.back, .done)] m ∧
        Returns .run m (.stopped (.ok (.breakpoint 1))) n ∧ n.steps = m.steps + 2 :=
    ⟨_, _, _, rfl,
      .cons (.run (show run 2 _ = some (.ok (.breakpoint 1), _) from rfl))
        (.cons (.back (show back _ = .ok _ from rfl))
          (.single (.back (show back _ = .ok _ from rfl)))),
      .run (show run 2 _ = some (.ok (.breakpoint 1), _) from rfl), rfl⟩
  obtain ⟨-, -, hlimit⟩ := supervise_agrees_run hload ht
  have htwo := ((hlimit 2).1 _ n hr (Nat.le_of_eq hn) (.stopped (.ok (.breakpoint 1))) n).mpr
    ⟨rfl, rfl⟩
  have hnone : ¬∃ a e, Returns .run m a e ∧ e.steps ≤ m.steps + 1 := by
    rintro ⟨a, e, he, hle⟩
    obtain ⟨-, rfl⟩ := he.unique hr
    omega
  obtain ⟨k, -, -, hone, hrest⟩ := (hlimit 1).2 hnone
  exact ⟨origin, m, n, hload, ht, hr, hn, htwo, k, (hone _ k).mpr ⟨rfl, rfl⟩, (hrest _ n).mpr hr⟩

end Brainfuck.Machine
