import Brainfuck.Machine.Backward
import Brainfuck.Machine.Run

namespace Brainfuck

inductive Call where
  | step
  | back
  | run
  | supervise (supervision : Machine.Supervision)
  | restart
  deriving DecidableEq, Repr

inductive Answer where
  | done
  | refused (cause : Fault)
  | stopped (result : Except Abort Stop)

namespace Machine

/-- The call on `m` gives the answer and leaves `n`. For a run this means that it ends. -/
inductive Returns : Call → Machine → Answer → Machine → Prop where
  | step {m n : Machine} (h : m.step = .ok n) : Returns .step m .done n
  | stepRefused {m : Machine} {f : Fault} (h : m.step = .error f) : Returns .step m (.refused f) m
  | back {m n : Machine} (h : m.back = .ok n) : Returns .back m .done n
  | backRefused {m : Machine} {f : Fault} (h : m.back = .error f) : Returns .back m (.refused f) m
  | run {m n : Machine} {fuel : Nat} {r : Except Fault Stop} (h : m.run fuel = some (r, n)) :
    Returns .run m (.stopped (r.mapError .fault)) n
  | supervise {m n : Machine} {s : Supervision} {fuel : Nat} {r : Except Abort Stop}
    (h : m.supervise s fuel = some (r, n)) : Returns (.supervise s) m (.stopped r) n
  | restart {m : Machine} : Returns .restart m .done m.restart

/-- The calls, made one after another on `m`, give these answers and leave `n`. -/
inductive Trace : Machine → List (Call × Answer) → Machine → Prop where
  | nil {m : Machine} : Trace m [] m
  | cons {m k n : Machine} {c : Call} {a : Answer} {log : List (Call × Answer)}
    (first : Returns c m a k) (rest : Trace k log n) : Trace m ((c, a) :: log) n

theorem Trace.append {m k n : Machine} {log log' : List (Call × Answer)} (h : Trace m log k)
    (h' : Trace k log' n) : Trace m (log ++ log') n := by
  induction h with
  | nil => exact h'
  | cons first _ ih => exact .cons first (ih h')

theorem Trace.single {m n : Machine} {c : Call} {a : Answer} (h : Returns c m a n) :
    Trace m [(c, a)] n := .cons h .nil

section

variable {m n n' : Machine}

theorem superviseFrom_mono {s : Supervision} {fuel fuel' taken : Nat}
    {x : Except Abort Stop × Machine} (h : superviseFrom s fuel taken m = some x)
    (hle : fuel ≤ fuel') : superviseFrom s fuel' taken m = some x := by
  induction fuel generalizing fuel' taken m with
  | zero => simp [superviseFrom] at h
  | succ fuel ih =>
    -- both have a round to spend here, and go the same way in it
    obtain ⟨more, rfl⟩ := Nat.exists_eq_add_one_of_ne_zero (Nat.ne_zero_of_lt hle)
    rw [superviseFrom] at h ⊢
    cases hc : m.symbol? with
    | none =>
      simp only [hc] at h ⊢
      exact h
    | some c =>
      cases ha : s.abort? taken with
      | some a =>
        simp only [hc, ha] at h ⊢
        exact h
      | none =>
        cases hf : m.fault? c with
        | some f =>
          simp only [hc, ha, hf] at h ⊢
          exact h
        | none =>
          simp only [hc, ha, hf] at h ⊢
          by_cases hb : (execute c m).isBreakpoint c = true
          · rw [if_pos hb] at h ⊢
            exact h
          · rw [if_neg hb] at h ⊢
            exact ih h (Nat.le_of_succ_le_succ hle)

theorem superviseFrom_unique {s : Supervision} {fuel fuel' taken : Nat}
    {x y : Except Abort Stop × Machine} (h : superviseFrom s fuel taken m = some x)
    (h' : superviseFrom s fuel' taken m = some y) : x = y := by
  have hx := superviseFrom_mono h (Nat.le_max_left fuel fuel')
  have hy := superviseFrom_mono h' (Nat.le_max_right fuel fuel')
  exact Option.some.inj (hx.symm.trans hy)

/-- A run without supervision is one with a supervision that never interferes. -/
theorem superviseFrom_free (fuel taken : Nat) (m : Machine) :
    superviseFrom {} fuel taken m = (m.run fuel).map fun (r, n) => (r.mapError .fault, n) := by
  induction fuel generalizing taken m with
  | zero => rfl
  | succ fuel ih =>
    have ha : ({} : Supervision).abort? taken = none := rfl
    rw [superviseFrom, run]
    cases hc : m.symbol? with
    | none => rfl
    | some c =>
      cases hf : m.fault? c with
      | some f =>
        simp only [ha, hf]
        rfl
      | none =>
        simp only [ha, hf, ih]
        by_cases hb : (execute c m).isBreakpoint c = true
        · rw [if_pos hb, if_pos hb]
          rfl
        · rw [if_neg hb, if_neg hb]

theorem supervise_of_run {fuel : Nat} {r : Except Fault Stop} (h : m.run fuel = some (r, n)) :
    m.supervise {} fuel = some (r.mapError .fault, n) := by
  rw [supervise, superviseFrom_free, h]
  rfl

theorem returns_free_iff {a : Answer} : Returns (.supervise {}) m a n ↔ Returns .run m a n := by
  constructor
  · intro h
    cases h with
    | supervise h =>
      rw [supervise, superviseFrom_free] at h
      obtain ⟨⟨r, e⟩, hr, he⟩ := Option.map_eq_some_iff.mp h
      obtain ⟨rfl, rfl⟩ := Prod.mk.inj he
      exact .run hr
  · intro h
    cases h with
    | run h => exact .supervise (supervise_of_run h)

theorem Returns.unique {c : Call} {a a' : Answer} (h : Returns c m a n)
    (h' : Returns c m a' n') : a = a' ∧ n = n' := by
  cases h with
  | step h =>
    cases h' with
    | step h' => exact ⟨rfl, Except.ok.inj (h.symm.trans h')⟩
    | stepRefused h' => simp [h] at h'
  | stepRefused h =>
    cases h' with
    | step h' => simp [h] at h'
    | stepRefused h' => exact ⟨congrArg _ (Except.error.inj (h.symm.trans h')), rfl⟩
  | back h =>
    cases h' with
    | back h' => exact ⟨rfl, Except.ok.inj (h.symm.trans h')⟩
    | backRefused h' => simp [h] at h'
  | backRefused h =>
    cases h' with
    | back h' => simp [h] at h'
    | backRefused h' => exact ⟨congrArg _ (Except.error.inj (h.symm.trans h')), rfl⟩
  | run h =>
    cases h' with
    | run h' =>
      have he := superviseFrom_unique (supervise_of_run h) (supervise_of_run h')
      exact ⟨congrArg _ (Prod.mk.inj he).1, (Prod.mk.inj he).2⟩
  | supervise h =>
    cases h' with
    | supervise h' =>
      have he := superviseFrom_unique h h'
      exact ⟨congrArg _ (Prod.mk.inj he).1, (Prod.mk.inj he).2⟩
  | restart =>
    cases h' with
    | restart => exact ⟨rfl, rfl⟩

theorem Trace.unique {log log' : List (Call × Answer)} (h : Trace m log n)
    (h' : Trace m log' n') (hcalls : log.map Prod.fst = log'.map Prod.fst) :
    log = log' ∧ n = n' := by
  induction h generalizing log' with
  | nil =>
    obtain rfl : log' = [] := List.map_eq_nil_iff.mp hcalls.symm
    cases h' with
    | nil => exact ⟨rfl, rfl⟩
  | cons first _ ih =>
    cases h' with
    | nil => simp at hcalls
    | cons first' rest' =>
      obtain ⟨rfl, hrest⟩ := List.cons.inj hcalls
      obtain ⟨rfl, rfl⟩ := first.unique first'
      obtain ⟨rfl, rfl⟩ := ih rest' hrest
      exact ⟨rfl, rfl⟩

end

section

variable {P : Machine → Prop}

/-- What holds of a machine and outlasts every step holds where a run ends. -/
theorem run_invariant
    (hexecute : ∀ m c, P m → m.symbol? = some c → m.fault? c = none → P (execute c m))
    {fuel : Nat} {m n : Machine} {r : Except Fault Stop} (hm : P m)
    (h : m.run fuel = some (r, n)) : P n := by
  fun_induction run fuel m with
  | case1 => simp at h
  | case2 => simp_all
  | case3 => simp_all
  | case4 fuel m c hc hf next hb =>
    obtain ⟨-, rfl⟩ : _ ∧ next = n := by simpa using h
    exact hexecute m c hm hc hf
  | case5 fuel m c hc hf next hb ih => exact ih (hexecute m c hm hc hf) h

theorem superviseFrom_invariant
    (hexecute : ∀ m c, P m → m.symbol? = some c → m.fault? c = none → P (execute c m))
    {s : Supervision} {fuel taken : Nat} {m n : Machine} {r : Except Abort Stop} (hm : P m)
    (h : superviseFrom s fuel taken m = some (r, n)) : P n := by
  fun_induction superviseFrom s fuel taken m with
  | case1 => simp at h
  | case2 => simp_all
  | case3 => simp_all
  | case4 => simp_all
  | case5 fuel taken m c hc ha hf next hb =>
    obtain ⟨-, rfl⟩ : _ ∧ next = n := by simpa using h
    exact hexecute m c hm hc hf
  | case6 fuel taken m c hc ha hf next hb ih => exact ih (hexecute m c hm hc hf) h

theorem step_invariant
    (hexecute : ∀ m c, P m → m.symbol? = some c → m.fault? c = none → P (execute c m))
    {m n : Machine} (hm : P m) (h : m.step = .ok n) : P n := by
  unfold step at h
  split at h
  · simp_all
  · next c hc =>
    split at h
    · simp at h
    · next hf => exact Except.ok.inj h ▸ hexecute m c hm hc hf

theorem Returns.invariant
    (hexecute : ∀ m c, P m → m.symbol? = some c → m.fault? c = none → P (execute c m))
    (hundone : ∀ m, P m → m.settings.recording = true → 0 < m.steps → P m.undone)
    (hrestart : ∀ m, P m → P m.restart)
    {m n : Machine} {c : Call} {a : Answer} (h : Returns c m a n) (hm : P m) : P n := by
  cases h with
  | step h => exact step_invariant hexecute hm h
  | stepRefused => exact hm
  | back h =>
    unfold Machine.back at h
    split at h
    · simp at h
    · next hr =>
      split at h
      · exact Except.ok.inj h ▸ hm
      · next h0 =>
        exact Except.ok.inj h ▸ hundone m hm (by simpa using hr) (Nat.pos_of_ne_zero h0)
  | backRefused => exact hm
  | run h => exact run_invariant hexecute hm h
  | supervise h => exact superviseFrom_invariant hexecute hm h
  | restart => exact hrestart m hm

/-- What a step, a step back and a restart preserve is preserved by all calls. -/
theorem Trace.invariant
    (hexecute : ∀ m c, P m → m.symbol? = some c → m.fault? c = none → P (execute c m))
    (hundone : ∀ m, P m → m.settings.recording = true → 0 < m.steps → P m.undone)
    (hrestart : ∀ m, P m → P m.restart)
    {m n : Machine} {log : List (Call × Answer)} (h : Trace m log n) (hm : P m) : P n := by
  induction h with
  | nil => exact hm
  | cons first _ ih => exact ih (first.invariant hexecute hundone hrestart hm)

end
end Machine
end Brainfuck
