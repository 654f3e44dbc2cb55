import Brainfuck.Proofs.Machine.Calls
import Brainfuck.Proofs.Machine.Trajectory

namespace Brainfuck.Machine

/-- The machine without its undo log, which keeps none from now on. -/
def unrecorded (m : Machine) : Machine :=
  { m with settings := { m.settings with recording := false }, undo := {} }

variable {m n : Machine} {a : Answer} {c : Call} {log log' : List (Call × Answer)}

theorem jump_unrecorded (m : Machine) : m.unrecorded.jump = m.jump.unrecorded := rfl

theorem perform_unrecorded (i : Instruction) (m : Machine) :
    perform i m.unrecorded = (perform i m).unrecorded := by
  cases i with
  | openLoop =>
    show (if m.tape.current = 0 then m.unrecorded.jump else m.unrecorded) = _
    rw [jump_unrecorded]
    exact (apply_ite unrecorded (m.tape.current = 0) m.jump m).symm
  | closeLoop =>
    show (if m.tape.current = 0 then m.unrecorded else m.unrecorded.jump) = _
    rw [jump_unrecorded]
    exact (apply_ite unrecorded (m.tape.current = 0) m m.jump).symm
  | _ => rfl

theorem execute_unrecorded (x : Char) (m : Machine) :
    execute x m.unrecorded = (execute x m).unrecorded := by
  unfold execute
  cases Instruction.ofChar? x with
  | none => rfl
  | some i =>
    show (perform i m.unrecorded).advance = ((perform i m).advance).unrecorded
    rw [perform_unrecorded]
    rfl

theorem step_unrecorded (m : Machine) : m.unrecorded.step = m.step.map unrecorded := by
  have hs : m.unrecorded.symbol? = m.symbol? := rfl
  rw [step, step, hs]
  cases m.symbol? with
  | none => rfl
  | some x =>
    have hf : m.unrecorded.fault? x = m.fault? x := rfl
    simp only [hf]
    cases m.fault? x with
    | some f => rfl
    | none => exact congrArg Except.ok (execute_unrecorded x m)

theorem superviseFrom_unrecorded (s : Supervision) (fuel taken : Nat) (m : Machine) :
    superviseFrom s fuel taken m.unrecorded =
      (superviseFrom s fuel taken m).map fun (r, n) => (r, n.unrecorded) := by
  induction fuel generalizing taken m with
  | zero => rfl
  | succ fuel ih =>
    have hs : m.unrecorded.symbol? = m.symbol? := rfl
    rw [superviseFrom, superviseFrom, hs]
    cases m.symbol? with
    | none => rfl
    | some x =>
      cases s.abort? taken with
      | some a => rfl
      | none =>
        have hf : m.unrecorded.fault? x = m.fault? x := rfl
        simp only [hf]
        cases m.fault? x with
        | some f => rfl
        | none =>
          have hb : (execute x m).unrecorded.isBreakpoint x = (execute x m).isBreakpoint x := rfl
          simp only [execute_unrecorded, hb, ih]
          by_cases hit : (execute x m).isBreakpoint x = true
          · rw [if_pos hit, if_pos hit]
            rfl
          · rw [if_neg hit, if_neg hit]

theorem restart_unrecorded (m : Machine) : m.unrecorded.restart = m.restart.unrecorded := rfl

theorem returns_step_unrecorded :
    Returns .step m.unrecorded a n ↔ ∃ k, n = k.unrecorded ∧ Returns .step m a k := by
  have hstep := step_unrecorded m
  cases hm : m.step with
  | ok e =>
    rw [hm] at hstep
    constructor
    · intro h
      obtain ⟨rfl, rfl⟩ := h.unique (.step hstep)
      exact ⟨e, rfl, .step hm⟩
    · rintro ⟨k, rfl, h⟩
      obtain ⟨rfl, rfl⟩ := h.unique (.step hm)
      exact .step hstep
  | error f =>
    rw [hm] at hstep
    constructor
    · intro h
      obtain ⟨rfl, rfl⟩ := h.unique (.stepRefused hstep)
      exact ⟨m, rfl, .stepRefused hm⟩
    · rintro ⟨k, rfl, h⟩
      obtain ⟨rfl, rfl⟩ := h.unique (.stepRefused hm)
      exact .stepRefused hstep

theorem returns_supervise_unrecorded {s : Supervision} :
    Returns (.supervise s) m.unrecorded a n ↔
      ∃ k, n = k.unrecorded ∧ Returns (.supervise s) m a k := by
  constructor
  · intro h
    cases h with
    | supervise h =>
      rw [supervise, superviseFrom_unrecorded] at h
      obtain ⟨⟨r, k⟩, hk, he⟩ := Option.map_eq_some_iff.mp h
      obtain ⟨rfl, rfl⟩ := Prod.mk.inj he
      exact ⟨k, rfl, .supervise hk⟩
  · rintro ⟨k, rfl, h⟩
    cases h with
    | supervise h =>
      apply Returns.supervise
      rw [supervise, superviseFrom_unrecorded, ← supervise, h]
      rfl

/-- A call other than a step back does not notice whether there is a log. -/
theorem returns_unrecorded (hc : c ≠ .back) :
    Returns c m.unrecorded a n ↔ ∃ k, n = k.unrecorded ∧ Returns c m a k := by
  cases c with
  | step => exact returns_step_unrecorded
  | back => exact absurd rfl hc
  | run =>
    simp only [← returns_free_iff]
    exact returns_supervise_unrecorded
  | supervise s => exact returns_supervise_unrecorded
  | restart =>
    constructor
    · intro h
      cases h with
      | restart => exact ⟨m.restart, rfl, .restart⟩
    · rintro ⟨k, rfl, h⟩
      cases h with
      | restart => exact .restart

theorem trace_unrecorded (hlog : .back ∉ log.map Prod.fst) :
    Trace m.unrecorded log n ↔ ∃ k, n = k.unrecorded ∧ Trace m log k := by
  -- on the log and not on a trace, since the two traces are over different machines
  induction log generalizing m with
  | nil =>
    constructor
    · intro h
      cases h with
      | nil => exact ⟨m, rfl, .nil⟩
    · rintro ⟨k, rfl, h⟩
      cases h with
      | nil => exact .nil
  | cons entry log ih =>
    obtain ⟨hc, hrest⟩ : entry.1 ≠ .back ∧ .back ∉ log.map Prod.fst := by
      simpa [eq_comm] using hlog
    constructor
    · intro h
      cases h with
      | cons first rest =>
        obtain ⟨k, rfl, hk⟩ := (returns_unrecorded hc).mp first
        obtain ⟨e, rfl, he⟩ := (ih hrest).mp rest
        exact ⟨e, rfl, .cons hk he⟩
    · rintro ⟨e, rfl, h⟩
      cases h with
      | cons first rest =>
        exact .cons ((returns_unrecorded hc).mpr ⟨_, rfl, first⟩) ((ih hrest).mpr ⟨e, rfl, rest⟩)

theorem load_without_recording (source input : Text) (settings : Settings) :
    load source input { settings with recording := false } =
      (load source input settings).map unrecorded := by
  cases h : Program.load settings.breakpoint source with
  | ok p =>
    simp only [load, h]
    rfl
  | error f =>
    simp only [load, h]
    rfl

theorem load_unrecorded (source input : Text) (settings : Settings) :
    load source input { settings with recording := false } =
      (load source input { settings with recording := true }).map unrecorded :=
  load_without_recording source input { settings with recording := true }

theorem exists_load_recording {source input : Text} {settings : Settings}
    (h : load source input settings = .ok m) (recording : Bool) :
    ∃ n, load source input { settings with recording } = .ok n ∧ n.unrecorded = m.unrecorded := by
  obtain ⟨p, hp, rfl⟩ := load_eq_ok h
  exact ⟨start p { settings with recording } input, by rw [load, hp], rfl⟩

theorem load_recording_error {source input : Text} {settings : Settings} {f : Fault}
    (h : load source input settings = .error f) (recording : Bool) :
    load source input { settings with recording } = .error f := by
  unfold load at h ⊢
  split at h
  · cases h
  · next hp =>
    rw [hp]
    exact h

/-- A machine that does not record has nothing to forget, and neither has one that it becomes. -/
theorem Trace.unrecorded_eq (h : Trace m log n) (hm : m.unrecorded = m) : n.unrecorded = n := by
  apply h.invariant (P := fun m => m.unrecorded = m) _ _ _ hm
  · intro m x hm _ _
    rw [← execute_unrecorded, hm]
  · intro m hm hr _
    rw [← hm] at hr
    exact absurd hr Bool.false_ne_true
  · intro m hm
    rw [← restart_unrecorded, hm]

theorem returns_back_iff (hr : m.settings.recording = false) :
    Returns .back m a n ↔ a = .refused .notRecording ∧ n = m := by
  have hback : m.back = .error .notRecording := by simp [back, hr]
  constructor
  · intro h
    exact h.unique (.backRefused hback)
  · rintro ⟨rfl, rfl⟩
    exact .backRefused hback

/-- Two machines that differ only in whether they record load alike, give the same answers to all
calls but steps back, and cannot be told apart after any of them. One that does not record keeps an
empty log and refuses to step back. -/
theorem recording_unobservable (source input : Text) (settings : Settings) :
    (∀ f, load source input { settings with recording := true } = .error f ↔
      load source input { settings with recording := false } = .error f) ∧
    ∀ m n, load source input { settings with recording := true } = .ok m →
      load source input { settings with recording := false } = .ok n →
      (∀ calls : List Call, .back ∉ calls →
        ((∃ log m', log.map Prod.fst = calls ∧ Trace m log m') ↔
          ∃ log n', log.map Prod.fst = calls ∧ Trace n log n') ∧
        ∀ log log' m' n', log.map Prod.fst = calls → log'.map Prod.fst = calls →
          Trace m log m' → Trace n log' n' →
          log = log' ∧ m'.observe = n'.observe ∧ m'.tape.lowest = n'.tape.lowest ∧
            m'.tape.highest = n'.tape.highest ∧ m'.pending = n'.pending) ∧
      ∀ log n', Trace n log n' →
        n'.undo = {} ∧ ∀ a k, Returns .back n' a k ↔ a = .refused .notRecording ∧ k = n' := by
  have hload := load_unrecorded source input settings
  constructor
  · intro f
    rw [hload]
    cases load source input { settings with recording := true } <;> simp [Except.map]
  · intro m n hm hn
    obtain rfl : m.unrecorded = n := by
      rw [hm, hn] at hload
      exact (Except.ok.inj hload).symm
    constructor
    · intro calls hcalls
      constructor
      · constructor
        · rintro ⟨log, m', rfl, h⟩
          exact ⟨log, _, rfl, (trace_unrecorded hcalls).mpr ⟨m', rfl, h⟩⟩
        · rintro ⟨log, n', rfl, h⟩
          obtain ⟨m', -, h'⟩ := (trace_unrecorded hcalls).mp h
          exact ⟨log, m', rfl, h'⟩
      · rintro log log' m' n' rfl hlog h h'
        have hu := (trace_unrecorded hcalls).mpr ⟨m', rfl, h⟩
        obtain ⟨rfl, rfl⟩ := hu.unique h' hlog.symm
        exact ⟨rfl, rfl, rfl, rfl, rfl⟩
    · intro log n' h
      have hn' : n'.unrecorded = n' := h.unrecorded_eq rfl
      have hundo : n'.unrecorded.undo = {} := rfl
      have hrecording : n'.unrecorded.settings.recording = false := rfl
      rw [hn'] at hundo hrecording
      exact ⟨hundo, fun a k => returns_back_iff hrecording⟩

/-- A read is logged by one machine and not by the other. -/
theorem recording_unobservable_read :
    ∃ m n m' n', load ",+.".toList "h".toList { recording := true } = .ok m ∧
      load ",+.".toList "h".toList { recording := false } = .ok n ∧
      Trace m [(.run, .stopped (.ok .halted))] m' ∧ Trace n [(.run, .stopped (.ok .halted))] n' ∧
      m'.observe = n'.observe ∧ n'.undo = {} ∧ Returns .back n' (.refused .notRecording) n' := by
  obtain ⟨m, n, m', hm, hn, h⟩ : ∃ m n m',
      load ",+.".toList "h".toList { recording := true } = .ok m ∧
        load ",+.".toList "h".toList { recording := false } = .ok n ∧
        Trace m [(.run, .stopped (.ok .halted))] m' := by
    refine ⟨_, _, _, rfl, rfl, .single (.run (show run 4 _ = some (.ok .halted, _) from rfl))⟩
  obtain ⟨hcalls, hempty⟩ := (recording_unobservable ",+.".toList "h".toList {}).2 m n hm hn
  obtain ⟨hiff, hagree⟩ := hcalls [.run] (by decide)
  obtain ⟨log, n', hlog, h'⟩ := hiff.mp ⟨_, m', rfl, h⟩
  obtain ⟨rfl, hobserve, -⟩ := hagree _ log m' n' rfl hlog h h'
  obtain ⟨hundo, hback⟩ := hempty _ n' h'
  exact ⟨m, n, m', n', hm, hn, h, h', hobserve, hundo, (hback _ n').mpr ⟨rfl, rfl⟩⟩

end Brainfuck.Machine
