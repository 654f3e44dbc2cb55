import Brainfuck.Proofs.Machine.Finishing
import Brainfuck.Proofs.Machine.Point

/-!
Programs as syntax trees. A machine has symbols, a program counter and a table of jumps; a tree has
loops inside loops and no counter at all. Both do the same.
-/

namespace Brainfuck

inductive Code where
  | done
  | simple (i : Simple) (rest : Code)
  | loop (body rest : Code)
  deriving DecidableEq, Repr

namespace Code

def flatten : Code → List Char
  | done => []
  | simple i rest => i.toChar :: rest.flatten
  | loop body rest => '[' :: body.flatten ++ ']' :: rest.flatten

/-- From store `s` the code comes to its end and leaves `t`. A loop executes its body while the
current cell is not zero. -/
inductive Exec (settings : Settings) : Code → Store → Store → Prop where
  | done (s : Store) : Exec settings done s s
  | simple {i : Simple} {rest : Code} {s t : Store}
    (h : Exec settings rest (s.apply settings i) t) : Exec settings (simple i rest) s t
  | leave {body rest : Code} {s t : Store} (zero : s.current = 0) (h : Exec settings rest s t) :
    Exec settings (loop body rest) s t
  | enter {body rest : Code} {s u t : Store} (nonzero : s.current ≠ 0)
    (once : Exec settings body s u) (again : Exec settings (loop body rest) u t) :
    Exec settings (loop body rest) s t

theorem balanced_flatten (code : Code) : Source.Balanced code.flatten := by
  induction code with
  | done => exact Source.balanced_nil
  | simple i rest ih =>
    have hi := Source.Balanced.single i.toChar_ne_opening i.toChar_ne_closing
    exact hi.append ih
  | loop body rest ihb ihr =>
    have := ihb.enclosed.append ihr
    rwa [List.append_assoc] at this

end Code

/-- The symbols of `code` stand in the program from `pc` on. -/
def Program.Holds (p : Program) (pc : Nat) (code : Code) : Prop :=
  ∃ before after, p.symbols.toList = before ++ code.flatten ++ after ∧ before.length = pc

/-- The brackets of a loop at `pc` and `close`, where they lead, and the code around them. -/
structure Program.HoldsLoop (p : Program) (pc close : Nat) (body rest : Code) : Prop where
  opening : p.symbol? pc = some '['
  closing : p.symbol? close = some ']'
  forth : p.partner? pc = some close
  back : p.partner? close = some pc
  body : p.Holds (pc + 1) body
  rest : p.Holds (close + 1) rest

section

variable {breakpoint : Option Char} {settings : Settings} {p : Program} {pc : Nat} {s t : Store}
  {body rest code : Code}

theorem Program.Holds.simple {i : Simple} (h : p.Holds pc (.simple i rest)) :
    p.symbol? pc = some i.toChar ∧ p.Holds (pc + 1) rest := by
  obtain ⟨before, after, he, rfl⟩ := h
  constructor
  · rw [symbol?_eq, he]
    simp [Code.flatten]
  · exact ⟨before ++ [i.toChar], after, by simp [he, Code.flatten], by simp⟩

theorem Program.Holds.loop (hp : p.Sound breakpoint) (h : p.Holds pc (.loop body rest)) :
    p.HoldsLoop pc (pc + body.flatten.length + 1) body rest := by
  obtain ⟨before, after, he, rfl⟩ := h
  have hl : Source.Loop p.symbols.toList before.length
      (before.length + body.flatten.length + 1) := by
    refine ⟨before, body.flatten, rest.flatten ++ after, ?_, body.balanced_flatten, rfl, rfl⟩
    simp [he, Code.flatten]
  constructor
  · rw [symbol?_eq, hl.getElem?_opening]
  · rw [symbol?_eq, hl.getElem?_closing]
  · exact (hp.partner?_iff _ _).mpr (.inl hl)
  · exact (hp.partner?_iff _ _).mpr (.inr hl)
  · exact ⟨before ++ ['['], ']' :: rest.flatten ++ after, by simp [he, Code.flatten], by simp⟩
  · refine ⟨before ++ '[' :: body.flatten ++ [']'], after, by simp [he, Code.flatten], ?_⟩
    simp
    omega

namespace Program.HoldsLoop

variable {close : Nat}

theorem next_of_zero (h : p.HoldsLoop pc close body rest) (hs : s.current = 0) :
    Point.next p settings ⟨pc, s⟩ = ⟨close + 1, s⟩ := by
  rw [Point.next_of_opening h.opening, if_pos hs, h.forth, Option.getD_some]

theorem next_of_nonzero (h : p.HoldsLoop pc close body rest) (hs : s.current ≠ 0) :
    Point.next p settings ⟨pc, s⟩ = ⟨pc + 1, s⟩ := by
  rw [Point.next_of_opening h.opening, if_neg hs]

theorem iterate_of_zero (h : p.HoldsLoop pc close body rest) (hs : s.current = 0) (k : Nat) :
    (Point.next p settings)^[k + 1] ⟨pc, s⟩ = (Point.next p settings)^[k] ⟨close + 1, s⟩ := by
  rw [Function.iterate_succ_apply, h.next_of_zero hs]

theorem iterate_of_nonzero (h : p.HoldsLoop pc close body rest) (hs : s.current ≠ 0) (k : Nat) :
    (Point.next p settings)^[k + 1] ⟨pc, s⟩ = (Point.next p settings)^[k] ⟨pc + 1, s⟩ := by
  rw [Function.iterate_succ_apply, h.next_of_nonzero hs]

/-- Both ends of a loop test the current cell, and with the same result. -/
theorem next_closing (h : p.HoldsLoop pc close body rest) (s : Store) :
    Point.next p settings ⟨close, s⟩ = Point.next p settings ⟨pc, s⟩ := by
  rw [Point.next_of_closing h.closing, h.back, Option.getD_some]
  by_cases hs : s.current = 0
  · rw [if_pos hs, h.next_of_zero hs]
  · rw [if_neg hs, h.next_of_nonzero hs]

theorem iterate_closing (h : p.HoldsLoop pc close body rest) (s : Store) {k : Nat} (hk : k ≠ 0) :
    (Point.next p settings)^[k] ⟨close, s⟩ = (Point.next p settings)^[k] ⟨pc, s⟩ := by
  obtain ⟨k, rfl⟩ := Nat.exists_eq_succ_of_ne_zero hk
  rw [Function.iterate_succ_apply, Function.iterate_succ_apply, h.next_closing]

end Program.HoldsLoop

/-- The point reached after all symbols of `code`. -/
def Code.exit (code : Code) (pc : Nat) (t : Store) : Point := ⟨pc + code.flatten.length, t⟩

theorem Code.exit_simple (i : Simple) (rest : Code) (pc : Nat) (t : Store) :
    (Code.simple i rest).exit pc t = rest.exit (pc + 1) t := by
  simp [exit, flatten]
  omega

theorem Code.exit_loop (body rest : Code) (pc : Nat) (t : Store) :
    (Code.loop body rest).exit pc t = rest.exit (pc + body.flatten.length + 1 + 1) t := by
  simp [exit, flatten]
  omega

theorem Code.exit_loop_ne (body rest : Code) (pc : Nat) (s t : Store) :
    ⟨pc, s⟩ ≠ (Code.loop body rest).exit pc t := by
  intro h
  have hpc := congrArg Point.pc h
  simp [exit, flatten] at hpc

theorem Code.exit_body (body : Code) (pc : Nat) (t : Store) :
    body.exit (pc + 1) t = ⟨pc + body.flatten.length + 1, t⟩ := by
  simp [exit]
  omega

theorem Code.Exec.reaches (hp : p.Sound breakpoint) (h : Exec settings code s t)
    (hc : p.Holds pc code) : ∃ k, (Point.next p settings)^[k] ⟨pc, s⟩ = code.exit pc t := by
  induction h generalizing pc with
  | done s => exact ⟨0, rfl⟩
  | @simple i rest s t _ ih =>
    obtain ⟨hi, hr⟩ := hc.simple
    obtain ⟨k, hk⟩ := ih hr
    refine ⟨k + 1, ?_⟩
    rw [Point.iterate_of_simple hi, hk, Code.exit_simple]
  | @leave body rest s t hs _ ih =>
    have hl := hc.loop hp
    obtain ⟨k, hk⟩ := ih hl.rest
    refine ⟨k + 1, ?_⟩
    rw [hl.iterate_of_zero hs, hk, Code.exit_loop]
  | @enter body rest s u t hs _ _ iho iha =>
    have hl := hc.loop hp
    obtain ⟨j, hj⟩ := iho hl.body
    -- The other rounds begin at the opening bracket in `iha`, but at the closing one here.
    obtain ⟨k, hk⟩ := iha hc
    have hk0 : k ≠ 0 := by
      rintro rfl
      exact Code.exit_loop_ne body rest pc u t hk
    refine ⟨k + j + 1, ?_⟩
    rw [hl.iterate_of_nonzero hs, Function.iterate_add_apply, hj,
      Code.exit_body, hl.iterate_closing u hk0, hk]

/-- A machine that comes to the end of its program has come to the end of any code in its way. -/
theorem Code.exists_exec (hp : p.Sound breakpoint) {k : Nat} (hc : p.Holds pc code)
    (hk : p.symbol? ((Point.next p settings)^[k] ⟨pc, s⟩).pc = none) :
    ∃ j t, j ≤ k ∧ Exec settings code s t ∧
      (Point.next p settings)^[j] ⟨pc, s⟩ = code.exit pc t := by
  -- on the number of steps, as a round of a loop is followed by the same loop
  induction k using Nat.strongRecOn generalizing code pc s with
  | ind k ih =>
  -- a symbol is still ahead of the machine, so that its first step can be split off
  have hsplit {c : Char} (hsym : p.symbol? pc = some c) : ∃ k', k = k' + 1 := by
    apply Nat.exists_eq_succ_of_ne_zero
    rintro rfl
    rw [Function.iterate_zero_apply, hsym] at hk
    simp at hk
  cases code with
  | done => exact ⟨0, s, Nat.zero_le k, .done s, rfl⟩
  | simple i rest =>
    obtain ⟨hi, hr⟩ := hc.simple
    obtain ⟨k, rfl⟩ := hsplit hi
    rw [Point.iterate_of_simple hi] at hk
    obtain ⟨j, t, hjk, ht, hj⟩ := ih k (by omega) hr hk
    refine ⟨j + 1, t, by omega, .simple ht, ?_⟩
    rw [Point.iterate_of_simple hi, hj, Code.exit_simple]
  | loop body rest =>
    have hl := hc.loop hp
    obtain ⟨k, rfl⟩ := hsplit hl.opening
    by_cases hs : s.current = 0
    · rw [hl.iterate_of_zero hs] at hk
      obtain ⟨j, t, hjk, ht, hj⟩ := ih k (by omega) hl.rest hk
      refine ⟨j + 1, t, by omega, .leave hs ht, ?_⟩
      rw [hl.iterate_of_zero hs, hj, Code.exit_loop]
    · rw [hl.iterate_of_nonzero hs] at hk
      obtain ⟨i, u, hik, hu, hi⟩ := ih k (by omega) hl.body hk
      obtain ⟨k, rfl⟩ := Nat.exists_eq_add_of_le' hik
      rw [Function.iterate_add_apply, hi, Code.exit_body] at hk
      have hk0 : k ≠ 0 := by
        rintro rfl
        rw [Function.iterate_zero_apply, hl.closing] at hk
        simp at hk
      rw [hl.iterate_closing u hk0] at hk
      obtain ⟨j, t, hjk, ht, hj⟩ := ih k (by omega) hc hk
      have hj0 : j ≠ 0 := by
        rintro rfl
        exact Code.exit_loop_ne body rest pc u t hj
      refine ⟨j + i + 1, t, by omega, .enter hs hu ht, ?_⟩
      rw [hl.iterate_of_nonzero hs, Function.iterate_add_apply, hi,
        Code.exit_body, hl.iterate_closing u hj0, hj]

end

namespace Machine

/-- A machine without a breakpoint whose program is `code` and that stands at its beginning. -/
structure Begins (m : Machine) (code : Code) : Prop where
  sound : m.Sound
  breakpoint : m.settings.breakpoint = none
  symbols : m.program.symbols.toList = code.flatten
  pc : m.pc = 0

namespace Begins

variable {m n : Machine} {code : Code} {s : Store}

theorem holds (h : m.Begins code) : m.program.Holds m.pc code :=
  ⟨[], [], by simp [h.symbols], h.pc.symm⟩

theorem symbol?_exit (h : m.Begins code) (s : Store) :
    m.program.symbol? (code.exit m.pc s).pc = none := by
  have hsize : m.program.size = code.flatten.length := by
    rw [← h.symbols, Array.length_toList, Program.size]
  rw [Program.symbol?_eq_none_iff, Code.exit, h.pc, hsize]
  exact Nat.le_add_left code.flatten.length 0

theorem finishes_of_exit (h : m.Begins code) {k : Nat}
    (hk : (Point.next m.program m.settings)^[k] m.point = code.exit m.pc s) :
    ∃ n, Finishes m 0 n ∧ n.store = s := by
  rw [← point_after h.sound] at hk
  have hsym : (m.after k).symbol? = none := by
    have hpc : (m.after k).pc = (code.exit m.pc s).pc := congrArg Point.pc hk
    rw [symbol?, (frame_after k m).1, hpc]
    exact h.symbol?_exit s
  obtain ⟨hits, hf⟩ := exists_finishes hsym
  obtain rfl := hf.hits_eq_zero h.breakpoint
  exact ⟨m.after k, hf, congrArg Point.store hk⟩

theorem finishes_of_exec (h : m.Begins code) (he : Code.Exec m.settings code m.store s) :
    ∃ n, Finishes m 0 n ∧ n.store = s := by
  obtain ⟨k, hk⟩ := he.reaches h.sound.program h.holds
  exact h.finishes_of_exit hk

theorem exec_of_finishes (h : m.Begins code) (hf : Finishes m 0 n) :
    Code.Exec m.settings code m.store n.store := by
  obtain ⟨k, rfl⟩ := hf.exists_after
  have hsym := hf.symbol?
  rw [symbol?, (frame_after k m).1] at hsym
  change m.program.symbol? (m.after k).point.pc = none at hsym
  rw [point_after h.sound] at hsym
  obtain ⟨j, s, -, he, hj⟩ := Code.exists_exec h.sound.program h.holds hsym
  obtain ⟨n, hn, rfl⟩ := h.finishes_of_exit hj
  rwa [(hf.unique hn).2]

end Begins

/-- A run of a program without a breakpoint halts exactly if its syntax tree comes to an end, and
leaves the same store. -/
theorem run_iff_exec {source : Text} (input : Text) {settings : Settings} {code : Code}
    (hb : settings.breakpoint = none)
    (hsource : (Source.symbols none source).map Prod.fst = code.flatten) :
    ∃ m, load source input settings = .ok m ∧
      ((∃ fuel n, m.run fuel = some (.ok .halted, n)) ↔
        ∃ s, Code.Exec settings code (.blank input) s) ∧
      ∀ fuel r n s, m.run fuel = some (r, n) → Code.Exec settings code (.blank input) s →
        r = .ok .halted ∧ (∀ i, n.tape.cell i = s.cell i) ∧ n.tape.pointer = s.pointer ∧
          n.output = s.output ∧ n.pending = s.pending := by
  rw [Source.map_fst_symbols] at hsource
  obtain ⟨p, hp⟩ : ∃ p, Program.load settings.breakpoint source = .ok p := by
    rw [Program.exists_load_iff, ← Source.balanced_filter_iff none, hsource]
    exact code.balanced_flatten
  have hload : load source input settings = .ok (start p settings input) := by
    rw [load, hp]
  have hm : (start p settings input).Begins code := by
    refine ⟨sound_load hload, hb, ?_, rfl⟩
    rw [← hsource, ← hb]
    exact (Program.load_eq_ok hp).1
  have hstore := store_start p settings input
  refine ⟨start p settings input, hload, ⟨?_, ?_⟩, ?_⟩
  · rintro ⟨fuel, n, hr⟩
    obtain ⟨-, hf⟩ := (run_iff_finishes hm.sound.program hb).mp ⟨fuel, hr⟩
    exact ⟨n.store, hstore ▸ hm.exec_of_finishes hf⟩
  · rintro ⟨s, he⟩
    rw [← hstore] at he
    obtain ⟨n, hf, -⟩ := hm.finishes_of_exec he
    obtain ⟨fuel, hr⟩ := (run_iff_finishes hm.sound.program hb).mpr ⟨rfl, hf⟩
    exact ⟨fuel, n, hr⟩
  · intro fuel r n s hr he
    obtain ⟨rfl, hf⟩ := (run_iff_finishes hm.sound.program hb).mp ⟨fuel, hr⟩
    rw [← hstore] at he
    obtain ⟨n', hf', rfl⟩ := hm.finishes_of_exec he
    obtain rfl := (hf.unique hf').2
    exact ⟨rfl, fun _ => rfl, rfl, rfl, rfl⟩

/-- Copying two characters of input to the output. -/
theorem run_iff_exec_copy :
    let copy := Code.simple .input (.loop (.simple .output (.simple .input .done)) .done)
    ({} : Settings).breakpoint = none ∧
      (Source.symbols none ",[.,]".toList).map Prod.fst = copy.flatten ∧
      ∃ m fuel n, load ",[.,]".toList "hi".toList {} = .ok m ∧
        m.run fuel = some (.ok .halted, n) ∧ n.output = #[104, 105] := by
  intro copy
  have hb : ({} : Settings).breakpoint = none := rfl
  have hsource : (Source.symbols none ",[.,]".toList).map Prod.fst = copy.flatten := by decide
  obtain ⟨m, hm, hiff, hagree⟩ := run_iff_exec "hi".toList hb hsource
  have hone : ∀ s, Code.Exec {} (.simple .output (.simple .input .done)) s
      ((s.apply {} .output).apply {} .input) := fun s => .simple (.simple (.done _))
  have he : Code.Exec {} copy (.blank "hi".toList) _ :=
    .simple (.enter (by decide) (hone _) (.enter (by decide) (hone _) (.leave rfl (.done _))))
  obtain ⟨fuel, n, hr⟩ := hiff.mpr ⟨_, he⟩
  obtain ⟨-, -, -, hout, -⟩ := hagree fuel _ n _ hr he
  exact ⟨hb, hsource, m, fuel, n, hm, hr, hout.trans (by decide)⟩

end Machine
end Brainfuck
