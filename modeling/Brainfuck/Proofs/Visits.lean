import Mathlib.Order.Bounds.Basic
import Brainfuck.Proofs.Suspension

namespace Brainfuck

namespace Tape

/-- The span reaches from the least of the values to the greatest. -/
structure Exact (held : Set Int) (t : Tape) : Prop where
  lowest : IsLeast held t.lowest
  highest : IsGreatest held t.highest

/-- All that lies outside the span is zero. -/
def Vacant (t : Tape) : Prop := ∀ i, i < t.lowest ∨ t.highest < i → t.cell i = 0

variable {t u : Tape} {held held' : Set Int}

theorem Exact.spans (h : t.Exact held) (hu : t.Spans u) : u.Exact (insert u.pointer held) where
  lowest := by
    rw [hu.lowest, min_comm]
    exact h.lowest.insert u.pointer
  highest := by
    rw [hu.highest, max_comm]
    exact h.highest.insert u.pointer

theorem Exact.mono (h : t.Exact held) (hsub : held ⊆ held')
    (hwithin : ∀ p ∈ held', t.lowest ≤ p ∧ p ≤ t.highest) : t.Exact held' where
  lowest := ⟨hsub h.lowest.1, fun p hp => (hwithin p hp).1⟩
  highest := ⟨hsub h.highest.1, fun p hp => (hwithin p hp).2⟩

theorem Exact.within (h : t.Exact held) {p : Int} (hp : p ∈ held) :
    t.lowest ≤ p ∧ p ≤ t.highest := ⟨h.lowest.2 hp, h.highest.2 hp⟩

theorem Covers.within (h : t.Covers u) : t.lowest ≤ u.pointer ∧ u.pointer ≤ t.highest :=
  ⟨h.lowest.trans u.lowest_le, u.le_highest.trans h.highest⟩

end Tape

namespace Machine

variable {origin m n x : Machine} {c : Call} {a : Answer} {held held' : Set Int}
  {log : List (Call × Answer)}

/-- Steps that lead from `m` to `n` pass `x`. -/
def Passes (m x n : Machine) : Prop :=
  ∃ i j, Trace m (List.replicate i (.step, .done)) x ∧ Trace x (List.replicate j (.step, .done)) n

/-- The values that the pointer has held after a call from `m` to `n`, if it has held the given ones
before. A run goes through all the machines on its way. -/
def heldAfter (c : Call) (m n : Machine) (held : Set Int) : Set Int :=
  match c with
  | .restart => {n.tape.pointer}
  | .back => insert n.tape.pointer held
  | .step | .run | .supervise _ => held ∪ {p | ∃ x, Passes m x n ∧ x.tape.pointer = p}

/-- The calls, made one after another, lead from one machine to the other, and the values that the
pointer has held since the start or the last restart from one set to the other. -/
inductive Roams : Set Int → Machine → List (Call × Answer) → Machine → Set Int → Prop where
  | nil {held : Set Int} {m : Machine} : Roams held m [] m held
  | cons {held held' : Set Int} {m k n : Machine} {c : Call} {a : Answer}
    {log : List (Call × Answer)} (first : Returns c m a k)
    (rest : Roams (heldAfter c m k held) k log n held') : Roams held m ((c, a) :: log) n held'

theorem trace_iff_roams (held : Set Int) :
    Trace m log n ↔ ∃ held', Roams held m log n held' := by
  constructor
  · intro h
    induction h generalizing held with
    | nil => exact ⟨held, .nil⟩
    | cons first _ ih =>
      obtain ⟨held', hrest⟩ := ih _
      exact ⟨held', .cons first hrest⟩
  · rintro ⟨held', h⟩
    induction h with
    | nil => exact .nil
    | cons first _ ih => exact .cons first ih

theorem Sound.eq_after (hm : m.Sound) {k : Nat}
    (h : Trace m (List.replicate k (.step, .done)) n) : n = m.after k :=
  (h.unique (hm.trace_steps k) rfl).2

theorem Passes.covers (hm : m.Sound) (h : Passes m x n) : n.tape.Covers x.tape := by
  obtain ⟨i, j, hx, hn⟩ := h
  obtain rfl := hm.eq_after hx
  obtain rfl := (hm.after i).eq_after hn
  rw [← after_add]
  exact m.covers_after i j

theorem Passes.next (hn : n.Sound) (h : Passes m x n) : Passes m x n.next := by
  obtain ⟨i, j, hx, hxn⟩ := h
  refine ⟨i, j + 1, hx, ?_⟩
  rw [List.replicate_succ']
  exact hxn.append (.single (.step (step_eq_next hn.program)))

theorem Sound.passes_after (hm : m.Sound) (k : Nat) : Passes m (m.after k) (m.after k) :=
  ⟨k, 0, hm.trace_steps k, .nil⟩

/-- Steps widen the span by just the values that the pointer takes. -/
theorem exact_after (hm : m.Sound) (h : m.tape.Exact held) (k : Nat) :
    (m.after k).tape.Exact (held ∪ {p | ∃ x, Passes m x (m.after k) ∧ x.tape.pointer = p}) := by
  have hwithin {k : Nat} {p : Int} (hp : ∃ x, Passes m x (m.after k) ∧ x.tape.pointer = p) :
      (m.after k).tape.lowest ≤ p ∧ p ≤ (m.after k).tape.highest := by
    obtain ⟨x, hx, rfl⟩ := hp
    exact (hx.covers hm).within
  induction k with
  | zero =>
    apply h.mono Set.subset_union_left
    rintro p (hp | hp)
    · exact h.within hp
    · exact hwithin hp
  | succ k ih =>
    have hspans : (m.after k).tape.Spans (m.after (k + 1)).tape :=
      after_succ' k m ▸ (m.after k).spans_next
    have hexact := ih.spans hspans
    apply hexact.mono
    · rintro p (rfl | hp | ⟨x, hx, rfl⟩)
      · exact .inr ⟨_, hm.passes_after (k + 1), rfl⟩
      · exact .inl hp
      · exact .inr ⟨x, after_succ' k m ▸ hx.next (hm.after k), rfl⟩
    · rintro p (hp | hp)
      · exact hexact.within (.inr (.inl hp))
      · exact hwithin hp

theorem vacant_next (hm : m.Sound) (h : m.tape.Vacant) : m.next.tape.Vacant := by
  intro i hi
  have hcovers := m.covers_next
  have hlow := hcovers.lowest
  have hhigh := hcovers.highest
  have houtside : i < m.tape.lowest ∨ m.tape.highest < i := by omega
  have hne : i ≠ m.tape.pointer := by
    have := m.tape.lowest_le
    have := m.tape.le_highest
    omega
  rw [cell_next_of_ne hm.inRange hne]
  exact h i houtside

theorem vacant_after (hm : m.Sound) (h : m.tape.Vacant) (k : Nat) : (m.after k).tape.Vacant := by
  induction k with
  | zero => exact h
  | succ k ih => exact after_succ' k m ▸ vacant_next (hm.after k) ih

theorem Returns.exists_after (hm : m.Sound) (h : Returns c m a n) (hback : c ≠ .back)
    (hrestart : c ≠ .restart) : ∃ k, n = m.after k := by
  cases h with
  | step h =>
    rw [step_eq_next hm.program] at h
    exact ⟨1, (Except.ok.inj h).symm⟩
  | stepRefused => exact ⟨0, rfl⟩
  | back => exact absurd rfl hback
  | backRefused => exact absurd rfl hback
  | run h =>
    obtain ⟨-, k, -, hn⟩ := (Returns.run h).exists_pauses hm.program
    exact ⟨k, hn⟩
  | supervise h =>
    obtain ⟨-, k, -, hn⟩ := (Returns.supervise h).exists_pauses hm.program
    exact ⟨k, hn⟩
  | restart => exact absurd rfl hrestart

theorem spans_of_returns_back (h : Returns .back m a n) : m.tape.Spans n.tape := by
  cases h with
  | back h =>
    unfold back at h
    split at h
    · cases h
    · split at h
      · exact Except.ok.inj h ▸ m.tape.spans_self
      · exact Except.ok.inj h ▸ m.spans_undone
  | backRefused => exact m.tape.spans_self

theorem exact_of_returns (hm : m.Sound) (h : Returns c m a n) (he : m.tape.Exact held) :
    n.tape.Exact (heldAfter c m n held) := by
  cases c with
  | back => exact he.spans (spans_of_returns_back h)
  | restart =>
    cases h with
    | restart => exact ⟨isLeast_singleton, isGreatest_singleton⟩
  | step | run | supervise =>
    obtain ⟨k, rfl⟩ := h.exists_after hm nofun nofun
    exact exact_after hm he k

theorem Roams.exact (ho : origin.Fresh) (ht : Tracks origin m) (he : m.tape.Exact held)
    (h : Roams held m log n held') : n.tape.Exact held' := by
  induction h with
  | nil => exact he
  | cons first _ ih =>
    exact ih (ht.trace ho (.single first)) (exact_of_returns (ht.sound ho) first he)

/-- A step back goes where the pointer has been. -/
theorem Tracks.span_of_returns_back (ho : origin.Fresh) (ht : Tracks origin m)
    (h : Returns .back m a n) :
    n.tape.lowest = m.tape.lowest ∧ n.tape.highest = m.tape.highest := by
  cases h with
  | back h =>
    unfold Machine.back at h
    split at h
    · cases h
    · next hr =>
      split at h
      · exact Except.ok.inj h ▸ ⟨rfl, rfl⟩
      · next h0 =>
        obtain ⟨-, -, hspan⟩ := ht.undone ho (by simpa using hr) (Nat.pos_of_ne_zero h0)
        exact Except.ok.inj h ▸ hspan
  | backRefused => exact ⟨rfl, rfl⟩

theorem Tracks.vacant (ho : origin.Fresh) (hv : origin.tape.Vacant) (ht : Tracks origin m) :
    m.tape.Vacant := by
  intro i hi
  have hlow := ht.covers.lowest
  have hhigh := ht.covers.highest
  rw [← ht.same.cell]
  exact vacant_after ho.sound hv m.steps i (by omega)

/-- Whatever was called on a machine, its span reaches from the least to the greatest value that the
pointer has held, no step back changes it, and outside it there are only zeros. -/
theorem span_exact {source input : Text} {settings : Settings}
    (hload : load source input settings = .ok origin) (h : Roams {0} origin log m held) :
    IsLeast held m.tape.lowest ∧ IsGreatest held m.tape.highest ∧
      (∀ a n, Returns .back m a n →
        n.tape.lowest = m.tape.lowest ∧ n.tape.highest = m.tape.highest) ∧
      (∀ i, i < m.tape.lowest ∨ m.tape.highest < i → m.tape.cell i = 0) ∧
      (m.tape.cells.length : Int) = m.tape.highest - m.tape.lowest + 1 ∧
      ∀ j < m.tape.cells.length, m.tape.cells[j]? = some (m.tape.cell (m.tape.lowest + j)) := by
  have ho := fresh_load hload
  have ht := ho.tracks ((trace_iff_roams _).mpr ⟨held, h⟩)
  obtain ⟨hstart, hvacant⟩ : origin.tape.Exact {0} ∧ origin.tape.Vacant := by
    obtain ⟨p, -, rfl⟩ := load_eq_ok hload
    exact ⟨⟨isLeast_singleton, isGreatest_singleton⟩, fun i _ => Tape.cell_empty i⟩
  have hexact := h.exact ho (Tracks.self ho) hstart
  refine ⟨hexact.lowest, hexact.highest, fun a n => ht.span_of_returns_back ho,
    ht.vacant ho hvacant, ?_, ?_⟩
  · have := m.tape.lowest_le
    have := m.tape.le_highest
    rw [Tape.length_cells, Tape.span]
    omega
  · intro j hj
    exact m.tape.getElem?_cells (m.tape.length_cells ▸ hj)

/-- A run that ends to the left of the start is started over and cut short after one step, which is
taken back. The span has forgotten the first run but not the step. -/
theorem span_exact_restarted :
    ∃ origin m held, load "><<".toList [] {} = .ok origin ∧
      Roams {0} origin
        [(.run, .stopped (.ok .halted)), (.restart, .done),
          (.supervise { maxSteps := some 1 }, .stopped (.error (.stepLimit 1))),
          (.back, .done)] m held ∧
      m.tape.pointer = 0 ∧ m.tape.lowest = 0 ∧ m.tape.highest = 1 ∧ IsLeast held 0 ∧
      IsGreatest held 1 ∧ m.tape.cell (-1) = 0 ∧ m.tape.cells.length = 2 := by
  obtain ⟨origin, m, held, hload, h, hp, hl, hh⟩ : ∃ origin m held,
      load "><<".toList [] {} = .ok origin ∧
        Roams {0} origin
          [(.run, .stopped (.ok .halted)), (.restart, .done),
            (.supervise { maxSteps := some 1 }, .stopped (.error (.stepLimit 1))),
            (.back, .done)] m held ∧
        m.tape.pointer = 0 ∧ m.tape.lowest = 0 ∧ m.tape.highest = 1 :=
    ⟨_, _, _, rfl,
      .cons (.run (show run 4 _ = some (.ok .halted, _) from rfl))
        (.cons .restart
          (.cons (.supervise (show supervise _ 2 _ = some (.error (.stepLimit 1), _) from rfl))
            (.cons (.back rfl) .nil))),
      rfl, rfl, rfl⟩
  obtain ⟨hleast, hgreatest, -, hzero, hlength, -⟩ := span_exact hload h
  rw [hl] at hleast hzero hlength
  rw [hh] at hgreatest hzero hlength
  exact ⟨origin, m, held, hload, h, hp, hl, hh, hleast, hgreatest, hzero (-1) (by decide),
    by omega⟩

end Machine
end Brainfuck
