import Brainfuck.Proofs.Machine.Reachable

namespace Brainfuck

namespace Store

variable {settings : Settings} {s : Store}

def OutputInRange (settings : Settings) (s : Store) : Prop :=
  ∀ v ∈ s.output, v < settings.modulus

theorem output_read (s : Store) (settings : Settings) : (s.read settings).output = s.output := by
  unfold Store.read
  split
  · rfl
  · unfold fillAtEnd
    split <;> rfl

theorem OutputInRange.execute (h : s.OutputInRange settings) (hs : s.InRange settings) (c : Char) :
    (s.execute settings c).OutputInRange settings := by
  unfold Store.execute
  cases Simple.ofChar? c with
  | none => exact h
  | some x =>
    cases x with
    | output =>
      intro v hv
      rcases Array.mem_push.mp hv with hv | rfl
      · exact h v hv
      · exact hs.current_lt
    | input =>
      show (s.read settings).OutputInRange settings
      rwa [OutputInRange, s.output_read settings]
    | _ => exact h

theorem cell_execute_of_still (s : Store) (settings : Settings) {c : Char} (hinc : c ≠ '+')
    (hdec : c ≠ '-') (hin : c ≠ ',') : (s.execute settings c).cell = s.cell := by
  unfold Store.execute
  cases hc : Simple.ofChar? c with
  | none => rfl
  | some x =>
    obtain rfl := Simple.toChar_of_ofChar? hc
    cases x with
    | increment => exact absurd rfl hinc
    | decrement => exact absurd rfl hdec
    | input => exact absurd rfl hin
    | _ => rfl

def filling (settings : Settings) (s : Store) : Nat :=
  match settings.endOfInput with
  | .zero => 0
  | .unchanged => s.current
  | .greatest => settings.modulus - 1

theorem cell_read_of_cons (s : Store) (settings : Settings) {c : Char} {rest : Text}
    (h : s.pending = c :: rest) :
    (s.read settings).cell s.pointer = c.toNat % settings.modulus := by
  have hread : s.read settings =
      { s.write (c.toNat % settings.modulus) with pending := rest } := by rw [Store.read, h]
  rw [hread]
  exact s.current_write (c.toNat % settings.modulus)

theorem cell_read_of_nil (s : Store) (settings : Settings) (h : s.pending = []) :
    (s.read settings).cell s.pointer = s.filling settings := by
  have hread : s.read settings = s.fillAtEnd settings := by rw [Store.read, h]
  rw [hread, fillAtEnd, filling]
  cases settings.endOfInput with
  | zero => exact s.current_write 0
  | unchanged => rfl
  | greatest => exact s.current_write _

end Store

namespace Machine

variable {origin m n : Machine} {settings : Settings}

/-- What a step from `m` to `n` does to the cells. -/
structure Alters (settings : Settings) (m n : Machine) : Prop where
  frame : ∀ i, i ≠ m.tape.pointer → n.tape.cell i = m.tape.cell i
  increment : m.symbol? = some '+' →
    n.tape.cell m.tape.pointer = (m.tape.current + 1) % settings.modulus
  decrement : m.symbol? = some '-' →
    (n.tape.cell m.tape.pointer : Int) = ((m.tape.current : Int) - 1) % settings.modulus
  input : ∀ x rest, m.symbol? = some ',' → m.pending = x :: rest →
    n.tape.cell m.tape.pointer = x.toNat % settings.modulus
  endOfInput : m.symbol? = some ',' → m.pending = [] →
    n.tape.cell m.tape.pointer = m.store.filling settings
  still : m.symbol? ≠ some '+' → m.symbol? ≠ some '-' → m.symbol? ≠ some ',' →
    ∀ i, n.tape.cell i = m.tape.cell i

theorem store_next_of_some (h : m.store.InRange m.settings) {c : Char} (hc : m.symbol? = some c) :
    m.next.store = m.store.execute m.settings c := by
  rw [next_of_some hc, store_execute h]

theorem cell_next_of_some (h : m.store.InRange m.settings) {c : Char} (hc : m.symbol? = some c)
    (i : Int) : m.next.tape.cell i = (m.store.execute m.settings c).cell i :=
  congrFun (congrArg Store.cell (store_next_of_some h hc)) i

theorem cast_pred_mod (settings : Settings) (v : Nat) :
    ((v + (settings.modulus - 1)) % settings.modulus : Nat) =
      ((v : Int) - 1) % settings.modulus := by
  have hpos := settings.modulus_pos
  have hsub : ((v + (settings.modulus - 1) : Nat) : Int) = (v : Int) - 1 + settings.modulus := by
    omega
  rw [Int.natCast_emod, hsub, Int.add_emod_right]

theorem Sound.alters (hm : m.Sound) : Alters m.settings m m.next where
  frame i hi := cell_next_of_ne hm.inRange hi
  increment hc := by
    rw [cell_next_of_some hm.inRange hc]
    exact m.store.current_write _
  decrement hc := by
    rw [cell_next_of_some hm.inRange hc, ← cast_pred_mod]
    exact congrArg Nat.cast (m.store.current_write _)
  input x rest hc hp := by
    rw [cell_next_of_some hm.inRange hc]
    exact m.store.cell_read_of_cons m.settings hp
  endOfInput hc hp := by
    rw [cell_next_of_some hm.inRange hc]
    exact m.store.cell_read_of_nil m.settings hp
  still hinc hdec hin i := by
    cases hc : m.symbol? with
    | none => rw [next_of_none hc]
    | some c =>
      have hstill := m.store.cell_execute_of_still m.settings (c := c)
        (by rintro rfl; exact hinc hc) (by rintro rfl; exact hdec hc) (by rintro rfl; exact hin hc)
      exact (cell_next_of_some hm.inRange hc i).trans (congrFun hstill i)

theorem outputInRange_after (hm : m.Sound) (h : m.store.OutputInRange m.settings) (k : Nat) :
    (m.after k).store.OutputInRange m.settings := by
  induction k with
  | zero => exact h
  | succ k ih =>
    rw [after_succ']
    have hk := hm.after k
    have hsettings := (frame_after k m).2.1
    cases hc : (m.after k).symbol? with
    | none => rwa [next_of_none hc]
    | some c =>
      rw [store_next_of_some hk.inRange hc, hsettings]
      exact ih.execute (hsettings ▸ hk.inRange) c

/-- Whatever was called on a machine, its cells and its output are below the modulus, and a step
changes the cells as modular arithmetic has it. -/
theorem cells_modular {source input : Text} {log : List (Call × Answer)}
    (hload : load source input settings = .ok origin) (h : Trace origin log m) :
    (∀ i, m.tape.cell i ≤ 2 ^ settings.width.bits - 1) ∧
      (∀ v ∈ m.output, v ≤ 2 ^ settings.width.bits - 1) ∧
      ∃ n, m.step = .ok n ∧ Alters settings m n := by
  have ho := fresh_load hload
  have ht := ho.tracks h
  have hm := ht.sound ho
  have hsettings : m.settings = settings := ht.settings.trans (settings_load hload)
  have houtput : m.store.OutputInRange settings := by
    have hstart : origin.store.OutputInRange origin.settings := by
      obtain ⟨p, -, rfl⟩ := load_eq_ok hload
      exact fun v hv => absurd hv (Array.not_mem_empty v)
    have hafter := outputInRange_after ho.sound hstart m.steps
    rwa [ht.same.store, ← ht.settings, hsettings] at hafter
  have hpos : 0 < 2 ^ settings.width.bits := settings.modulus_pos
  refine ⟨?_, ?_, m.next, step_eq_next hm.program, hsettings ▸ hm.alters⟩
  · intro i
    have hcell : m.tape.cell i < 2 ^ settings.width.bits := hsettings ▸ hm.inRange i
    omega
  · intro v hv
    have hvalue : v < 2 ^ settings.width.bits := houtput v hv
    omega

/-- A character one past the width is read as zero, and one less than that is the greatest value. -/
theorem cells_modular_wide :
    ∃ origin m n, load ",-".toList "Ā".toList {} = .ok origin ∧
      Trace origin [(.step, .done)] m ∧ m.tape.cell 0 = 0 ∧ m.step = .ok n ∧
      n.tape.cell 0 = 255 ∧ ∀ i, i ≠ 0 → n.tape.cell i = m.tape.cell i := by
  obtain ⟨origin, m, hload, hm, hc, hp, h0, hc', h0'⟩ : ∃ origin m,
      load ",-".toList "Ā".toList {} = .ok origin ∧ origin.step = .ok m ∧
        origin.symbol? = some ',' ∧ origin.pending = ['Ā'] ∧ origin.tape.pointer = 0 ∧
        m.symbol? = some '-' ∧ m.tape.pointer = 0 := ⟨_, _, rfl, rfl, rfl, rfl, rfl, rfl, rfl⟩
  obtain ⟨-, -, m', hm', hread⟩ := cells_modular hload .nil
  obtain rfl := Except.ok.inj (hm.symm.trans hm')
  have hzero : m.tape.cell 0 = 0 := h0 ▸ hread.input 'Ā' [] hc hp
  have ht : Trace origin [(.step, .done)] m := .single (.step hm)
  obtain ⟨-, -, n, hn, hpred⟩ := cells_modular hload ht
  have hless := hpred.decrement hc'
  have hframe := hpred.frame
  rw [Tape.current, h0', hzero] at hless
  rw [h0'] at hframe
  have hgreatest : (n.tape.cell 0 : Int) = 255 := hless
  exact ⟨origin, m, n, hload, ht, hzero, hn, by omega, hframe⟩

end Machine
end Brainfuck
