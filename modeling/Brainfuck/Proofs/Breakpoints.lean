import Brainfuck.Proofs.Machine.Finishing

namespace Brainfuck
namespace Source

/-- The index of the symbol at `i` among the instructions. -/
def rank (l : List Char) (i : Nat) : Nat := (l.take i).countP isInstruction

variable {l : List Char} {i j : Nat} {c : Char}

theorem rank_succ (h : l[i]? = some c) (hc : isInstruction c = true) :
    rank l (i + 1) = rank l i + 1 := by
  simp [rank, List.take_add_one, h, hc]

theorem rank_succ_of_other (h : l[i]? = some c) (hc : isInstruction c = false) :
    rank l (i + 1) = rank l i := by
  simp [rank, List.take_add_one, h, hc]

theorem rank_of_length_le (h : l.length ≤ i) : rank l i = (l.filter isInstruction).length := by
  rw [rank, List.take_of_length_le h, List.countP_eq_length_filter]

theorem rank_eq_self (h : ∀ c ∈ l, isInstruction c = true) (hi : i ≤ l.length) :
    rank l i = i := by
  rw [rank, List.countP_eq_length.mpr fun c hc => h c (List.mem_of_mem_take hc),
    List.length_take_of_le hi]

theorem getElem?_rank (h : l[i]? = some c) (hc : isInstruction c = true) :
    (l.filter isInstruction)[rank l i]? = some c := by
  obtain ⟨hi, rfl⟩ := List.getElem?_eq_some_iff.mp h
  have hsplit : l = l.take i ++ l[i] :: l.drop (i + 1) := by
    rw [← List.drop_eq_getElem_cons hi, List.take_append_drop]
  have hfilter : l.filter isInstruction =
      (l.take i).filter isInstruction ++ l[i] :: (l.drop (i + 1)).filter isInstruction := by
    rw [← List.filter_cons_of_pos hc, ← List.filter_append, ← hsplit]
  rw [hfilter, rank, List.countP_eq_length_filter, List.getElem?_append_right (Nat.le_refl _)]
  simp

theorem Loop.rank (h : Loop l i j) :
    Loop (l.filter isInstruction) (rank l i) (rank l j) := by
  obtain ⟨before, body, after, rfl, hb, rfl, rfl⟩ := h
  have ho : isInstruction '[' = true := rfl
  have hc : isInstruction ']' = true := rfl
  have hbody : Balanced (body.filter isInstruction) := (closes_filter ho hc 0 body).trans hb
  refine ⟨before.filter isInstruction, body.filter isInstruction, after.filter isInstruction,
    by simp [ho, hc], hbody, ?_, ?_⟩
  · simp [Source.rank, List.countP_eq_length_filter]
  · have htake : (before ++ '[' :: body ++ ']' :: after).take (before.length + body.length + 1) =
        before ++ '[' :: body := by
      have hl : before.length + body.length + 1 = (before ++ '[' :: body).length := by
        simp
        omega
      rw [hl, List.take_left]
    rw [Source.rank, Source.rank, htake, List.append_assoc, List.take_left]
    simp [List.countP_eq_length_filter, ho]
    omega

theorem Linked.rank (h : Linked l i j) :
    Linked (l.filter isInstruction) (Source.rank l i) (Source.rank l j) := h.imp Loop.rank Loop.rank

theorem Linked.isInstruction_right (h : Linked l i j) :
    ∃ c, l[j]? = some c ∧ isInstruction c = true := by
  rcases h with h | h
  · exact ⟨']', h.getElem?_closing, rfl⟩
  · exact ⟨'[', h.getElem?_opening, rfl⟩

theorem filter_isSymbol_none (breakpoint : Option Char) (source : Text) :
    source.filter (isSymbol none) =
      (source.filter (isSymbol breakpoint)).filter isInstruction := by
  rw [List.filter_filter]
  apply List.filter_congr
  intro c _
  cases hi : isInstruction c <;> simp [isSymbol, hi]

end Source

namespace Machine

theorem execute_of_other {c : Char} (h : isInstruction c = false) (m : Machine) :
    execute c m = m.advance := by
  have hi : Instruction.ofChar? c = none := by simpa [isInstruction] using h
  rw [execute, hi]

/-- The machine `m`, which may have a breakpoint, and `n`, which has none, are at the same place in
one source. All the steps that `n` has taken were taken by `m` too, and `extra` others. -/
structure Follows (extra : Nat) (m n : Machine) : Prop where
  watched : m.Sound
  plain : n.Sound
  settings : n.settings = { m.settings with breakpoint := none }
  symbols : n.program.symbols.toList = m.program.symbols.toList.filter isInstruction
  inside : m.pc ≤ m.program.size
  pc : n.pc = Source.rank m.program.symbols.toList m.pc
  store : n.store = m.store
  lowest : n.tape.lowest = m.tape.lowest
  highest : n.tape.highest = m.tape.highest
  steps : m.steps = n.steps + extra

namespace Follows

variable {extra hits : Nat} {m n e f : Machine} {c x : Char}

theorem breakpoint (h : Follows extra m n) : n.settings.breakpoint = none := by
  rw [h.settings]

theorem symbol?_of_instruction (h : Follows extra m n) (hc : m.symbol? = some x)
    (hx : isInstruction x = true) : n.symbol? = some x := by
  rw [symbol?, Program.symbol?_eq] at hc ⊢
  rw [h.symbols, h.pc]
  exact Source.getElem?_rank hc hx

theorem symbol?_of_none (h : Follows extra m n) (hc : m.symbol? = none) : n.symbol? = none := by
  rw [symbol?, Program.symbol?_eq_none_iff] at hc ⊢
  have hlen : m.program.symbols.toList.length ≤ m.pc := by
    rwa [Array.length_toList]
  rw [h.pc, Source.rank_of_length_le hlen, ← h.symbols, Array.length_toList]
  exact Nat.le_refl _

/-- Where a jump leads is among the instructions too. -/
theorem pc_instruction (h : Follows extra m n) (hc : m.symbol? = some x)
    (hx : isInstruction x = true) :
    (execute x m).pc ≤ m.program.size ∧
      (execute x n).pc = Source.rank m.program.symbols.toList (execute x m).pc := by
  have hl : m.program.symbols.toList[m.pc]? = some x := (Program.symbol?_eq _ _).symm.trans hc
  have hlt : m.pc < m.program.size := Program.lt_size_of_symbol? hc
  rw [pc_execute, pc_execute, h.store]
  by_cases hj : m.store.Jumps x
  · have hb : m.program.symbol? m.pc = some '[' ∨ m.program.symbol? m.pc = some ']' := by
      rcases hj with ⟨rfl, -⟩ | ⟨rfl, -⟩
      · exact .inl hc
      · exact .inr hc
    obtain ⟨j, hlink, hm⟩ := h.watched.program.exists_linked hb
    have hn : n.program.partner? n.pc = some (Source.rank m.program.symbols.toList j) := by
      rw [h.plain.program.partner?_iff, h.symbols, h.pc]
      exact hlink.rank
    obtain ⟨y, hy, hyi⟩ := hlink.isInstruction_right
    rw [if_pos hj, if_pos hj, hm, hn, Option.getD_some, Option.getD_some, Source.rank_succ hy hyi]
    have hjlt : j < m.program.size :=
      Program.lt_size_of_symbol? ((Program.symbol?_eq _ _).trans hy)
    exact ⟨hjlt, rfl⟩
  · rw [if_neg hj, if_neg hj, Source.rank_succ hl hx, h.pc]
    exact ⟨hlt, rfl⟩

/-- Both machines execute an instruction. -/
theorem instruction (h : Follows extra m n) (hc : m.symbol? = some x)
    (hx : isInstruction x = true) : Follows extra (execute x m) (execute x n) := by
  have hstore : (execute x n).store = (execute x m).store := by
    rw [store_execute h.watched.inRange, store_execute h.plain.inRange, h.store, h.settings]
    rfl
  have hp : (execute x n).tape.pointer = (execute x m).tape.pointer :=
    congrArg Store.pointer hstore
  obtain ⟨hinside, hpc⟩ := h.pc_instruction hc hx
  have hspan := spans_execute x m
  have hspan' := spans_execute x n
  exact
    { watched := h.watched.execute x
      plain := h.plain.execute x
      settings := by rw [settings_execute, settings_execute, h.settings]
      symbols := by rw [program_execute, program_execute, h.symbols]
      inside := by rwa [program_execute]
      pc := by rw [hpc, program_execute]
      store := hstore
      lowest := by rw [hspan.lowest, hspan'.lowest, hp, h.lowest]
      highest := by rw [hspan.highest, hspan'.highest, hp, h.highest]
      steps := by
        rw [steps_execute, steps_execute, h.steps]
        omega }

/-- Only the first machine has a symbol that is no instruction. -/
theorem other (h : Follows extra m n) (hc : m.symbol? = some x) (hx : isInstruction x = false) :
    Follows (extra + 1) (execute x m) n := by
  have hl : m.program.symbols.toList[m.pc]? = some x := (Program.symbol?_eq _ _).symm.trans hc
  have hlt : m.pc < m.program.size := Program.lt_size_of_symbol? hc
  have hsound := h.watched.execute x
  rw [execute_of_other hx] at hsound ⊢
  exact
    { watched := hsound
      plain := h.plain
      settings := h.settings
      symbols := h.symbols
      inside := hlt
      pc := h.pc.trans (Source.rank_succ_of_other hl hx).symm
      store := h.store
      lowest := h.lowest
      highest := h.highest
      steps := congrArg (· + 1) h.steps }

theorem eq_breakpoint (h : Follows extra m n) (hb : m.settings.breakpoint = some c)
    (hc : m.symbol? = some x) (hx : isInstruction x = false) : x = c := by
  have := h.watched.program.isSymbol_of_symbol? hc
  rw [hb] at this
  have hcx : c = x := by simpa [Source.isSymbol, hx] using this
  exact hcx.symm

theorem not_isBreakpoint (h : Follows extra m n) (x : Char) : ¬n.isBreakpoint x := by
  rw [isBreakpoint, h.breakpoint]
  simp

/-- Where the first machine finishes, so does the other, and the extra steps are those on a
breakpoint that is no instruction. -/
theorem finishes (h : Follows extra m n) (hb : m.settings.breakpoint = some c)
    (hm : Finishes m hits e) :
    ∃ f, Finishes n 0 f ∧ Follows (if isInstruction c then extra else extra + hits) e f := by
  induction hm generalizing extra n with
  | halted hc =>
    refine ⟨n, .halted (h.symbol?_of_none hc), ?_⟩
    simpa using h
  | @step m e x hits hc _ ih =>
    have hb' : (execute x m).settings.breakpoint = some c := by rwa [settings_execute]
    by_cases hx : isInstruction x = true
    · obtain ⟨f, hf, hef⟩ := ih (h.instruction hc hx) hb'
      refine ⟨f, hf.pass (h.symbol?_of_instruction hc hx) (h.not_isBreakpoint x), ?_⟩
      by_cases hi : isInstruction c = true
      · simpa [hi] using hef
      · have hne : ¬c = x := by
          rintro rfl
          exact hi hx
        simpa [hi, isBreakpoint, hb, hne] using hef
    · rw [Bool.not_eq_true] at hx
      -- no other symbol than a breakpoint is no instruction, and each of them is a stop
      obtain rfl := h.eq_breakpoint hb hc hx
      obtain ⟨f, hf, hef⟩ := ih (h.other hc hx) hb'
      refine ⟨f, hf, ?_⟩
      have hextra : extra + 1 + hits = extra + (hits + 1) := by omega
      simpa [hx, isBreakpoint, hb, hextra] using hef

/-- Past the symbols that are no instructions. -/
theorem catch_up (h : Follows extra m n) :
    ∃ extra' m', Follows extra' m' n ∧ (∀ x, m'.symbol? = some x → isInstruction x = true) ∧
      ∀ hits e, Finishes m' hits e → ∃ hits', Finishes m hits' e := by
  -- such symbols do not jump, so that each brings the end of the program nearer
  induction hk : m.program.size - m.pc generalizing m extra with
  | zero =>
    refine ⟨extra, m, h, ?_, fun hits e he => ⟨hits, he⟩⟩
    have hnone : m.symbol? = none := by
      rw [symbol?, Program.symbol?_eq_none_iff]
      omega
    simp [hnone]
  | succ k ih =>
    by_cases hall : ∀ x, m.symbol? = some x → isInstruction x = true
    · exact ⟨extra, m, h, hall, fun hits e he => ⟨hits, he⟩⟩
    · simp only [Classical.not_forall] at hall
      obtain ⟨x, hc, hx⟩ := hall
      rw [Bool.not_eq_true] at hx
      have hsize : (execute x m).program.size - (execute x m).pc = k := by
        rw [execute_of_other hx]
        show m.program.size - (m.pc + 1) = k
        omega
      obtain ⟨extra', m', hm', hall', hback⟩ := ih (h.other hc hx) hsize
      refine ⟨extra', m', hm', hall', ?_⟩
      intro hits e he
      obtain ⟨hits', he'⟩ := hback hits e he
      exact ⟨_, .step hc he'⟩

theorem exists_finishes (h : Follows extra m n) (hn : Finishes n hits f) :
    ∃ hits' e, Finishes m hits' e := by
  induction hn generalizing extra m with
  | halted hnone =>
    obtain ⟨extra', m', hm', hall, hback⟩ := h.catch_up
    -- caught up, a symbol that is left is an instruction, and the other machine has it as well
    have hend : m'.symbol? = none := by
      cases hc : m'.symbol? with
      | none => rfl
      | some x =>
        have := hm'.symbol?_of_instruction hc (hall x hc)
        simp [hnone] at this
    obtain ⟨hits', he⟩ := hback 0 m' (.halted hend)
    exact ⟨hits', m', he⟩
  | @step n f x hits hsome _ ih =>
    obtain ⟨extra', m', hm', hall, hback⟩ := h.catch_up
    have hc : m'.symbol? = some x := by
      cases hc : m'.symbol? with
      | none =>
        have := hm'.symbol?_of_none hc
        simp [hsome] at this
      | some y =>
        have := hm'.symbol?_of_instruction hc (hall y hc)
        exact this.symm.trans hsome
    obtain ⟨hits', e, he⟩ := ih (hm'.instruction hc (hall x hc))
    obtain ⟨hits', he⟩ := hback _ e (.step hc he)
    exact ⟨hits', e, he⟩

/-- All symbols are instructions if the breakpoint is one, so that none is dropped. -/
theorem pc_eq (h : Follows extra m n) (hb : m.settings.breakpoint = some c)
    (hc : isInstruction c = true) : n.pc = m.pc := by
  rw [h.pc]
  apply Source.rank_eq_self
  · intro x hx
    have := h.watched.program.isSymbol x (Array.mem_toList_iff.mp hx)
    rw [hb] at this
    by_cases hxc : c = x
    · exact hxc ▸ hc
    · simpa [Source.isSymbol, hxc] using this
  · rw [Array.length_toList]
    exact h.inside

end Follows

theorem follows_start {breakpoint : Option Char} {source : Text} {p q : Program}
    (hp : Program.load breakpoint source = .ok p) (hq : Program.load none source = .ok q)
    (settings : Settings) (input : Text) :
    Follows 0 (start p { settings with breakpoint } input)
      (start q { settings with breakpoint := none } input) where
  watched := sound_start (Program.sound_of_load hp) input
  plain := sound_start (Program.sound_of_load hq) input
  settings := rfl
  symbols := by
    show q.symbols.toList = p.symbols.toList.filter isInstruction
    rw [(Program.load_eq_ok hp).1, (Program.load_eq_ok hq).1]
    exact Source.filter_isSymbol_none breakpoint source
  inside := Nat.zero_le _
  pc := by simp [start, Source.rank]
  store := by rw [store_start, store_start]
  lowest := rfl
  highest := rfl
  steps := rfl

/-- A breakpoint changes neither which sources can be loaded nor what their runs compute. The runs
from breakpoint to breakpoint come to an end exactly if one run without it does, in the same store
and span, and a breakpoint that is no instruction costs a step each time. -/
theorem resumes_iff_run (source input : Text) (settings : Settings) (c : Char) :
    ((∃ m, load source input { settings with breakpoint := some c } = .ok m) ↔
      ∃ n, load source input { settings with breakpoint := none } = .ok n) ∧
    ∀ m n, load source input { settings with breakpoint := some c } = .ok m →
      load source input { settings with breakpoint := none } = .ok n →
      ((∃ stops e, Resumes m stops e) ↔ ∃ fuel f, n.run fuel = some (.ok .halted, f)) ∧
      ∀ stops e fuel r f, Resumes m stops e → n.run fuel = some (r, f) →
        r = .ok .halted ∧ (∀ i, e.tape.cell i = f.tape.cell i) ∧ e.tape.lowest = f.tape.lowest ∧
          e.tape.highest = f.tape.highest ∧ e.tape.pointer = f.tape.pointer ∧
          e.output = f.output ∧ e.pending = f.pending ∧
          (isInstruction c = false → e.steps = f.steps + stops) ∧
          (isInstruction c = true → e.steps = f.steps ∧ e.pc = f.pc) := by
  refine ⟨by rw [exists_load_iff, exists_load_iff], ?_⟩
  intro m n hm hn
  obtain ⟨p, hp, rfl⟩ := load_eq_ok hm
  obtain ⟨q, hq, rfl⟩ := load_eq_ok hn
  have h := follows_start hp hq settings input
  refine ⟨⟨?_, ?_⟩, ?_⟩
  · rintro ⟨stops, e, he⟩
    obtain ⟨f, hf, -⟩ := h.finishes rfl (he.finishes h.watched.program)
    obtain ⟨fuel, hr⟩ := (run_iff_finishes h.plain.program rfl).mpr ⟨rfl, hf⟩
    exact ⟨fuel, f, hr⟩
  · rintro ⟨fuel, f, hr⟩
    obtain ⟨-, hf⟩ := (run_iff_finishes h.plain.program rfl).mp ⟨fuel, hr⟩
    obtain ⟨stops, e, he⟩ := h.exists_finishes hf
    exact ⟨stops, e, he.resumes h.watched.program⟩
  · intro stops e fuel r f he hr
    obtain ⟨rfl, hf⟩ := (run_iff_finishes h.plain.program rfl).mp ⟨fuel, hr⟩
    obtain ⟨f', hf', hef⟩ := h.finishes rfl (he.finishes h.watched.program)
    obtain rfl := (hf.unique hf').2
    have hcell := congrArg Store.cell hef.store
    refine ⟨rfl, fun i => (congrFun hcell i).symm, hef.lowest.symm, hef.highest.symm,
      (congrArg Store.pointer hef.store).symm, (congrArg Store.output hef.store).symm,
      (congrArg Store.pending hef.store).symm, fun hc => ?_, fun hc => ⟨?_, ?_⟩⟩
    · simpa [hc] using hef.steps
    · simpa [hc] using hef.steps
    · have hb : e.settings.breakpoint = some c := by
        obtain ⟨k, rfl⟩ := (he.finishes h.watched.program).exists_after
        rw [(frame_after k _).2.1]
        rfl
      exact (hef.pc_eq hb hc).symm

/-- A breakpoint that stops the program twice. -/
theorem resumes_iff_run_two_stops :
    ∃ m n e f fuel, load "+#-#".toList [] { breakpoint := some '#' } = .ok m ∧
      load "+#-#".toList [] {} = .ok n ∧ Resumes m 2 e ∧ n.run fuel = some (.ok .halted, f) ∧
      (∀ i, e.tape.cell i = f.tape.cell i) ∧ e.steps = f.steps + 2 := by
  obtain ⟨m, e, hm, he⟩ : ∃ m e,
      load "+#-#".toList [] { breakpoint := some '#' } = .ok m ∧ Resumes m 2 e :=
    ⟨_, _, rfl, .suspended (show run 5 _ = some (.ok (.breakpoint 1), _) from rfl)
      (.suspended (show run 5 _ = some (.ok (.breakpoint 3), _) from rfl)
        (.halted (show run 5 _ = some (.ok .halted, _) from rfl)))⟩
  obtain ⟨n, f, hn, hf⟩ : ∃ n f,
      load "+#-#".toList [] {} = .ok n ∧ n.run 5 = some (.ok .halted, f) := ⟨_, _, rfl, rfl⟩
  obtain ⟨-, hagree⟩ := (resumes_iff_run "+#-#".toList [] {} '#').2 m n hm hn
  obtain ⟨-, hcell, -, -, -, -, -, hsteps, -⟩ := hagree 2 e 5 _ f he hf
  exact ⟨m, n, e, f, 5, hm, hn, he, hf, hcell, hsteps rfl⟩

end Machine
end Brainfuck
