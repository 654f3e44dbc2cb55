import Mathlib.Data.List.TakeWhile
import Brainfuck.Proofs.Cells
import Brainfuck.Proofs.Structured

namespace Brainfuck

namespace Settings

def values (settings : Settings) (input : Text) : List Nat :=
  input.map fun c => c.toNat &&& settings.greatest

/-- The values of an input up to the first zero. -/
def word (settings : Settings) (input : Text) : List Nat :=
  (settings.values input).takeWhile (· ≠ 0)

theorem ne_zero_of_mem_word {settings : Settings} {input : Text} {v : Nat}
    (h : v ∈ settings.word input) : v ≠ 0 := by
  simpa using List.mem_takeWhile_imp h

/-- With cells of eight bits a wide character can be read as zero. -/
example : ({} : Settings).word "hé\u2100x".toList = [0x68, 0xE9] := by decide

end Settings

namespace Store

variable {settings : Settings} {s : Store} {v : Nat} {values : List Nat}

theorem read_eq (heof : settings.endOfInput = .zero) (s : Store) :
    s.read settings =
      { s.write ((settings.values s.pending).headD 0) with pending := s.pending.tail } := by
  cases hp : s.pending with
  | nil =>
    have hread : s.read settings = s.fillAtEnd settings := by rw [Store.read, hp]
    rw [hread, fillAtEnd, heof]
    exact congrArg (fun t => { s.write 0 with pending := t }) hp
  | cons c rest =>
    have hread : s.read settings =
        { s.write (c.toNat % settings.modulus) with pending := rest } := by rw [Store.read, hp]
    rw [hread, ← Machine.incoming_eq_mod]
    rfl

theorem current_read (heof : settings.endOfInput = .zero) (s : Store) :
    (s.read settings).current = (settings.values s.pending).headD 0 := by
  rw [read_eq heof]
  exact current_write s ((settings.values s.pending).headD 0)

theorem pointer_read (heof : settings.endOfInput = .zero) (s : Store) :
    (s.read settings).pointer = s.pointer := by
  rw [read_eq heof]
  rfl

theorem pending_read (heof : settings.endOfInput = .zero) (s : Store) :
    (s.read settings).pending = s.pending.tail := by rw [read_eq heof]

def word (settings : Settings) (s : Store) : List Nat :=
  (s.current :: settings.values s.pending).takeWhile (· ≠ 0)

theorem word_eq_nil_iff : s.word settings = [] ↔ s.current = 0 := by
  simp [word, List.takeWhile_cons]

theorem word_eq_cons_iff :
    s.word settings = v :: values ↔
      s.current ≠ 0 ∧ s.current = v ∧ settings.word s.pending = values := by
  unfold word Settings.word
  rw [List.takeWhile_cons]
  split <;> simp_all

theorem word_read (heof : settings.endOfInput = .zero) (s : Store) :
    (s.read settings).word settings = settings.word s.pending := by
  rw [word, current_read heof, pending_read heof]
  cases s.pending <;> rfl

/-- From the pointer leftwards the cells hold these values, and then zeros. -/
def Leftward (s : Store) (values : List Nat) : Prop :=
  ∀ i : Nat, s.cell (s.pointer - i) = values[i]?.getD 0

theorem leftward_blank (input : Text) : (blank input).Leftward [] := fun _ => rfl

theorem Leftward.current_eq (h : s.Leftward values) : s.current = values.headD 0 := by
  have hcell := h 0
  rw [Int.natCast_zero, Int.sub_zero] at hcell
  rw [current, hcell]
  cases values <;> rfl

theorem Leftward.left (h : s.Leftward (v :: values)) :
    (s.apply settings .left).Leftward values := by
  intro i
  have hcell := h (i + 1)
  show s.cell (s.pointer - 1 - i) = _
  rw [show s.pointer - 1 - (i : Int) = s.pointer - ((i + 1 : Nat) : Int) by omega, hcell]
  rfl

theorem Leftward.read_right (heof : settings.endOfInput = .zero) (h : s.Leftward values) :
    ((s.apply settings .right).read settings).Leftward
      ((settings.values s.pending).headD 0 :: values) := by
  have hpointer := pointer_read heof (s.apply settings .right)
  intro i
  cases i with
  | zero =>
    rw [Int.natCast_zero, Int.sub_zero]
    exact current_read heof (s.apply settings .right)
  | succ i =>
    have hne : s.pointer - (i : Int) ≠ (s.apply settings .right).pointer := by
      show s.pointer - (i : Int) ≠ s.pointer + 1
      omega
    have hcell : ((s.apply settings .right).read settings).cell (s.pointer - i) =
        s.cell (s.pointer - i) := cell_read_of_ne _ settings hne
    rw [hpointer]
    show ((s.apply settings .right).read settings).cell (s.pointer + 1 - ((i + 1 : Nat) : Int)) = _
    rw [show s.pointer + 1 - ((i + 1 : Nat) : Int) = s.pointer - i by omega, hcell]
    exact h i

end Store

namespace Code

/-- Puts the current value out and reads the next one, as long as it is not zero. -/
def putting : Code := .loop (.simple .output (.simple .input .done)) .done

/-- Reads into one cell after another, up to a zero. -/
def collecting : Code := .loop (.simple .right (.simple .input .done)) .done

/-- Puts out one cell after another to the left, up to a zero. -/
def emptying : Code := .loop (.simple .output (.simple .left .done)) .done

variable {settings : Settings} {body rest : Code} {s t u : Store} {values : List Nat}

/-- What follows a loop goes on from where the loop has ended. -/
theorem Exec.followed (h : Exec settings (.loop body .done) s t) (hrest : Exec settings rest t u) :
    Exec settings (.loop body rest) s u := by
  generalize hcode : Code.loop body .done = code at h
  induction h with
  | done => cases hcode
  | simple => cases hcode
  | leave zero h =>
    obtain ⟨rfl, rfl⟩ := Code.loop.inj hcode
    cases h
    exact .leave zero hrest
  | enter nonzero once _ _ ih =>
    obtain ⟨rfl, rfl⟩ := Code.loop.inj hcode
    exact .enter nonzero once (ih hrest rfl)

theorem exec_putting (heof : settings.endOfInput = .zero) (s : Store) :
    ∃ t, Exec settings putting s t ∧ t.output.toList = s.output.toList ++ s.word settings ∧
      t.pending = s.pending.drop (s.word settings).length := by
  induction hw : s.word settings generalizing s with
  | nil => exact ⟨s, .leave (Store.word_eq_nil_iff.mp hw) (.done s), by simp, rfl⟩
  | cons v rest ih =>
    obtain ⟨hne, rfl, hrest⟩ := Store.word_eq_cons_iff.mp hw
    -- one round puts the current value out and reads the next one
    obtain ⟨t, ht, houtput, hpending⟩ := ih ((s.apply settings .output).read settings)
      ((Store.word_read heof _).trans hrest)
    rw [Store.output_read] at houtput
    rw [Store.pending_read heof] at hpending
    refine ⟨t, .enter hne (.simple (.simple (.done _))) ht, ?_, ?_⟩
    · rw [houtput]
      simp [Store.apply]
    · rw [hpending]
      simp [Store.apply]

/-- The values read are to the left of the zero on which the loop ends, the last one first. -/
theorem exec_collecting (heof : settings.endOfInput = .zero) (s : Store)
    (h : s.Leftward (s.current :: values)) :
    ∃ t, Exec settings collecting s t ∧ t.output = s.output ∧
      t.Leftward (0 :: ((s.word settings).reverse ++ values)) := by
  induction hw : s.word settings generalizing s values with
  | nil =>
    have hzero := Store.word_eq_nil_iff.mp hw
    rw [hzero] at h
    exact ⟨s, .leave hzero (.done s), rfl, h⟩
  | cons v rest ih =>
    obtain ⟨hne, rfl, hrest⟩ := Store.word_eq_cons_iff.mp hw
    -- after one round the value that was current is the first of those to the left
    have hnext := h.read_right heof
    have hcurrent : ((s.apply settings .right).read settings).current =
        (settings.values s.pending).headD 0 := hnext.current_eq
    rw [← hcurrent] at hnext
    obtain ⟨t, ht, houtput, hleft⟩ := ih ((s.apply settings .right).read settings) hnext
      ((Store.word_read heof _).trans hrest)
    rw [Store.output_read] at houtput
    refine ⟨t, .enter hne (.simple (.simple (.done _))) ht, houtput, ?_⟩
    simpa using hleft

theorem exec_emptying (s : Store) (h : s.Leftward values) (hne : ∀ v ∈ values, v ≠ 0) :
    ∃ t, Exec settings emptying s t ∧ t.output.toList = s.output.toList ++ values := by
  induction values generalizing s with
  | nil => exact ⟨s, .leave h.current_eq (.done s), by simp⟩
  | cons v rest ih =>
    obtain ⟨hv, hrest⟩ := List.forall_mem_cons.mp hne
    have hcurrent : s.current = v := h.current_eq
    have hput : (s.apply settings .output).Leftward (v :: rest) := h
    obtain ⟨t, ht, houtput⟩ := ih _ hput.left hrest
    refine ⟨t, .enter (hcurrent ▸ hv) (.simple (.simple (.done _))) ht, ?_⟩
    rw [houtput, ← hcurrent]
    simp [Store.apply]

/-- Reads once and then copies: `,[.,]`. -/
def copying : Code := .simple .input putting

/-- Collects the input to the right of the start and empties the cells: `>,[>,]<[.<]`. -/
def reversing : Code :=
  .simple .right (.simple .input
    (.loop (.simple .right (.simple .input .done)) (.simple .left emptying)))

theorem exec_copying (heof : settings.endOfInput = .zero) (input : Text) :
    ∃ t, Exec settings copying (.blank input) t ∧ t.output.toList = settings.word input ∧
      t.pending = input.drop ((settings.word input).length + 1) := by
  obtain ⟨t, ht, houtput, hpending⟩ := exec_putting heof ((Store.blank input).read settings)
  rw [Store.output_read, Store.word_read heof] at houtput
  rw [Store.pending_read heof, Store.word_read heof, List.drop_tail] at hpending
  exact ⟨t, .simple ht, houtput, hpending⟩

theorem exec_reversing (heof : settings.endOfInput = .zero) (input : Text) :
    ∃ t, Exec settings reversing (.blank input) t ∧
      t.output.toList = (settings.word input).reverse := by
  let s := ((Store.blank input).apply settings .right).read settings
  have hs : s.Leftward (s.current :: []) := by
    have hfirst := (Store.leftward_blank input).read_right heof
    have hcurrent : s.current = (settings.values input).headD 0 := hfirst.current_eq
    rw [hcurrent]
    exact hfirst
  have hword : s.word settings = settings.word input := Store.word_read heof _
  obtain ⟨t, ht, houtput, hleft⟩ := exec_collecting heof s hs
  rw [hword, List.append_nil] at hleft
  -- the pointer leaves the zero, and what is to the left of it is put out
  obtain ⟨u, hu, hput⟩ := exec_emptying (t.apply settings .left) hleft.left (by
    intro v hv
    exact Settings.ne_zero_of_mem_word (List.mem_reverse.mp hv))
  refine ⟨u, .simple (.simple (ht.followed (.simple hu))), ?_⟩
  have hempty : t.output = #[] := houtput.trans (Store.output_read _ settings)
  rw [hput]
  show t.output.toList ++ _ = _
  rw [hempty, List.nil_append]

end Code

namespace Machine

variable {settings : Settings} {source input : Text} {code : Code} {s : Store}

/-- Code that comes to an end is a program that loads and halts. -/
theorem exists_returns_of_exec (hb : settings.breakpoint = none)
    (hsource : (Source.symbols none source).map Prod.fst = code.flatten)
    (he : Code.Exec settings code (.blank input) s) :
    ∃ m n, load source input settings = .ok m ∧ Returns .run m (.stopped (.ok .halted)) n ∧
      n.store = s := by
  rw [Source.map_fst_symbols] at hsource
  obtain ⟨p, hp⟩ : ∃ p, Program.load settings.breakpoint source = .ok p := by
    rw [Program.exists_load_iff, ← Source.balanced_filter_iff none, hsource]
    exact code.balanced_flatten
  have hload : load source input settings = .ok (start p settings input) := by rw [load, hp]
  have hbegins : (start p settings input).Begins code := by
    refine ⟨sound_load hload, hb, ?_, rfl⟩
    rw [← hsource, ← hb]
    exact (Program.load_eq_ok hp).1
  rw [← store_start p settings input] at he
  obtain ⟨n, hfinishes, hstore⟩ := hbegins.finishes_of_exec he
  obtain ⟨fuel, hrun⟩ := (run_iff_finishes hbegins.sound.program hb).mpr ⟨rfl, hfinishes⟩
  exact ⟨_, n, hload, .run hrun, hstore⟩

/-- Let `v` be the values of the input, as many as come before the first zero. Copying puts out `v`
and reads one character more than that, if there is one; reversing puts out the reverse of `v`. -/
theorem copies_and_reverses (input : Text) (width : Width) (recording : Bool) :
    let settings : Settings := { endOfInput := .zero, width, breakpoint := none, recording }
    let v := (input.map fun c => c.toNat &&& width.greatest).takeWhile (· ≠ 0)
    (∃ m n, load ",[.,]".toList input settings = .ok m ∧
      Returns .run m (.stopped (.ok .halted)) n ∧ n.output.toList = v ∧
        n.pending = input.drop (v.length + 1)) ∧
    ∃ m n, load ">,[>,]<[.<]".toList input settings = .ok m ∧
      Returns .run m (.stopped (.ok .halted)) n ∧ n.output.toList = v.reverse := by
  intro settings v
  constructor
  · have hsource : (Source.symbols none ",[.,]".toList).map Prod.fst = Code.copying.flatten := by
      decide
    obtain ⟨s, he, houtput, hpending⟩ :=
      Code.exec_copying (show settings.endOfInput = .zero from rfl) input
    obtain ⟨m, n, hload, hrun, rfl⟩ := exists_returns_of_exec rfl hsource he
    exact ⟨m, n, hload, hrun, houtput, hpending⟩
  · have hsource : (Source.symbols none ">,[>,]<[.<]".toList).map Prod.fst =
        Code.reversing.flatten := by decide
    obtain ⟨s, he, houtput⟩ :=
      Code.exec_reversing (show settings.endOfInput = .zero from rfl) input
    obtain ⟨m, n, hload, hrun, rfl⟩ := exists_returns_of_exec rfl hsource he
    exact ⟨m, n, hload, hrun, houtput⟩

end Machine
end Brainfuck
