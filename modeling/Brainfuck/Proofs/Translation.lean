import Brainfuck.Proofs.Machine.Point
import Brainfuck.Proofs.Pairing

namespace Brainfuck

def Fault.delayed (k : Nat) : Fault → Fault
  | unmatched bracket index => unmatched bracket (index + k)
  | invalidInstruction symbol index => invalidInstruction symbol (index + k)
  | notRecording => notRecording

namespace Source

/-- The moves from the start to the cell at `d`. -/
def lead (d : Int) : Text := List.replicate d.natAbs (if 0 ≤ d then '>' else '<')

def delayed (k : Nat) (table : Partners) : Partners :=
  Array.replicate k none ++ table.map (Option.map (· + k))

variable {k : Nat}

@[simp]
theorem size_delayed (table : Partners) : (delayed k table).size = table.size + k := by
  simp [delayed, Nat.add_comm]

theorem getElem?_delayed (table : Partners) (i : Nat) :
    (delayed k table)[i + k]? = table[i]?.map (Option.map (· + k)) := by
  rw [delayed, Array.getElem?_append_right (by simp)]
  simp

theorem push_delayed (table : Partners) (e : Option Nat) :
    (delayed k table).push (e.map (· + k)) = delayed k (table.push e) := by
  simp [delayed]

theorem setIfInBounds_delayed (table : Partners) (i j : Nat) :
    (delayed k table).setIfInBounds (i + k) (some (j + k)) =
      delayed k (table.setIfInBounds i (some j)) := by
  simp [delayed, Array.setIfInBounds_append_right]

/-- The scan goes on as it would without the symbols that come first. -/
theorem pairFrom_delayed (k : Nat) (table : Partners) (waiting : List Nat) (l : List Char) :
    pairFrom (delayed k table) (waiting.map (· + k)) l =
      ((pairFrom table waiting l).map (delayed k)).mapError (Fault.delayed k) := by
  fun_induction pairFrom table waiting l with
  | case1 => rfl
  | case2 => rfl
  | case3 table waiting rest ih =>
    rw [← ih, ← push_delayed]
    simp [pairFrom]
  | case4 table rest hne =>
    have hfault := congrArg (Fault.unmatched .closing) (size_delayed (k := k) table)
    exact congrArg Except.error hfault
  | case5 table rest hne innermost outer closed ih =>
    rw [← ih, ← push_delayed, ← setIfInBounds_delayed]
    simp [pairFrom]
  | case6 table waiting c rest ho hc ih =>
    rw [← ih, ← push_delayed]
    simp [pairFrom, ho, hc]

theorem pairFrom_replicate {c : Char} (ho : c ≠ '[') (hc : c ≠ ']') (k : Nat) (table : Partners)
    (waiting : List Nat) (l : List Char) :
    pairFrom table waiting (List.replicate k c ++ l) =
      pairFrom (table ++ Array.replicate k none) waiting l := by
  induction k generalizing table with
  | zero => simp
  | succ k ih =>
    have hpush : table.push none ++ Array.replicate k none =
        table ++ Array.replicate (k + 1) (none : Option Nat) := by
      rw [Array.push_eq_append, Array.append_assoc, Nat.add_comm k 1,
        ← Array.replicate_append_replicate]
      rfl
    rw [← hpush, ← ih]
    simp [List.replicate_succ, pairFrom, ho, hc]

theorem partners_lead (d : Int) (l : List Char) :
    partners (lead d ++ l) =
      ((partners l).map (delayed d.natAbs)).mapError (Fault.delayed d.natAbs) := by
  have hmove : (if 0 ≤ d then '>' else '<') ≠ '[' ∧ (if 0 ≤ d then '>' else '<') ≠ ']' := by
    split <;> decide
  have hstart : #[] ++ Array.replicate d.natAbs none = delayed d.natAbs #[] := by simp [delayed]
  rw [partners, lead, pairFrom_replicate hmove.1 hmove.2, hstart]
  exact pairFrom_delayed d.natAbs #[] [] l

theorem filter_lead (breakpoint : Option Char) (d : Int) (source : Text) :
    (lead d ++ source).filter (isSymbol breakpoint) =
      lead d ++ source.filter (isSymbol breakpoint) := by
  have hmove : isSymbol breakpoint (if 0 ≤ d then '>' else '<') = true := by
    split <;> simp [isSymbol, isInstruction, Instruction.ofChar?]
  rw [List.filter_append, lead, List.filter_replicate_of_pos hmove]

end Source

namespace Store

/-- The store with its cells and its pointer moved by `d`. -/
def shifted (d : Int) (s : Store) : Store :=
  { s with cell := fun i => s.cell (i - d), pointer := s.pointer + d }

variable {d : Int} {settings : Settings}

@[simp]
theorem current_shifted (d : Int) (s : Store) : (s.shifted d).current = s.current := by
  simp [current, shifted]

theorem write_shifted (d : Int) (s : Store) (v : Nat) :
    (s.shifted d).write v = (s.write v).shifted d := by
  ext i
  · show Function.update (fun i => s.cell (i - d)) (s.pointer + d) v i =
      Function.update s.cell s.pointer v (i - d)
    have hi : i = s.pointer + d ↔ i - d = s.pointer := by omega
    simp only [Function.update_apply, hi]
  all_goals rfl

theorem read_shifted (d : Int) (settings : Settings) (s : Store) :
    (s.shifted d).read settings = (s.read settings).shifted d := by
  have hpending : (s.shifted d).pending = s.pending := rfl
  unfold read
  rw [hpending]
  split
  · rw [write_shifted]
    rfl
  · unfold fillAtEnd
    split
    · exact s.write_shifted d 0
    · rfl
    · exact s.write_shifted d _

theorem apply_shifted (d : Int) (settings : Settings) (i : Simple) (s : Store) :
    (s.shifted d).apply settings i = (s.apply settings i).shifted d := by
  cases i with
  | right => simp only [apply, shifted, Int.add_right_comm]
  | left => simp only [apply, shifted, Int.sub_eq_add_neg, Int.add_right_comm]
  | increment => simp only [apply, current_shifted, write_shifted]
  | decrement => simp only [apply, current_shifted, write_shifted]
  | output =>
    exact congrArg (fun v => { s.shifted d with output := s.output.push v }) (s.current_shifted d)
  | input => exact s.read_shifted d settings

/-- No symbol tells where the pointer stands. -/
theorem execute_shifted (d : Int) (settings : Settings) (c : Char) (s : Store) :
    (s.shifted d).execute settings c = (s.execute settings c).shifted d := by
  unfold execute
  split
  · exact s.apply_shifted d settings _
  · rfl

@[simp]
theorem jumps_shifted (d : Int) (c : Char) (s : Store) : (s.shifted d).Jumps c ↔ s.Jumps c := by
  simp [Jumps]

theorem iterate_move {i : Simple} {e : Int}
    (h : ∀ s : Store, s.apply settings i = { s with pointer := s.pointer + e }) (k : Nat)
    (s : Store) : (apply settings i)^[k] s = { s with pointer := s.pointer + k * e } := by
  induction k with
  | zero => simp
  | succ k ih =>
    rw [Function.iterate_succ_apply', ih, h]
    simp only [Int.add_assoc, Int.natCast_succ, Int.add_mul, Int.one_mul]

theorem exists_moves (d : Int) (settings : Settings) :
    ∃ i : Simple, Source.lead d = List.replicate d.natAbs i.toChar ∧
      ∀ input, (apply settings i)^[d.natAbs] (blank input) = (blank input).shifted d := by
  by_cases hd : 0 ≤ d
  · refine ⟨.right, by rw [Source.lead, if_pos hd]; rfl, fun input => ?_⟩
    have hfar : (d.natAbs : Int) * 1 = d := by omega
    rw [iterate_move (e := 1) (fun _ => rfl), hfar]
    rfl
  · refine ⟨.left, by rw [Source.lead, if_neg hd]; rfl, fun input => ?_⟩
    have hfar : (d.natAbs : Int) * -1 = d := by omega
    rw [iterate_move (e := -1) (fun _ => rfl), hfar]
    rfl

end Store

/-- The program `q` is `p` with `k` symbols before it. -/
structure Program.Delays (k : Nat) (p q : Program) : Prop where
  symbol? : ∀ i, q.symbol? (i + k) = p.symbol? i
  partner? : ∀ i, q.partner? (i + k) = (p.partner? i).map (· + k)

namespace Point

/-- The point of a program that comes `k` symbols later and works on cells moved by `d`. -/
def shifted (k : Nat) (d : Int) (x : Point) : Point :=
  { pc := x.pc + k, store := x.store.shifted d }

variable {p q : Program} {settings : Settings} {k : Nat}

theorem next_shifted (h : p.Delays k q) (d : Int) (settings : Settings) :
    Function.Semiconj (shifted k d) (next p settings) (next q settings) := by
  intro x
  have hsymbol := h.symbol? x.pc
  have hpartner : (q.partner? (x.pc + k)).getD (x.pc + k) = (p.partner? x.pc).getD x.pc + k := by
    rw [h.partner?, Option.getD_map]
  simp only [next, shifted, hsymbol, hpartner]
  cases p.symbol? x.pc with
  | none => rfl
  | some c =>
    simp only [Store.jumps_shifted, Store.execute_shifted]
    split <;> simp only [Nat.add_right_comm]

theorem iterate_row {i : Simple} (h : ∀ j < k, q.symbol? j = some i.toChar) (s : Store) :
    (next q settings)^[k] ⟨0, s⟩ = ⟨k, (Store.apply settings i)^[k] s⟩ := by
  induction k with
  | zero => rfl
  | succ k ih =>
    rw [Function.iterate_succ_apply', ih fun j hj => h j (Nat.lt_succ_of_lt hj),
      next_of_simple (h k (Nat.lt_succ_self k)), Function.iterate_succ_apply']

end Point

theorem Program.load_lead_of_error {breakpoint : Option Char} {source : Text} {f : Fault}
    (h : load breakpoint source = .error f) (d : Int) :
    load breakpoint (Source.lead d ++ source) = .error (f.delayed d.natAbs) := by
  rw [load_eq_error_iff] at h ⊢
  rw [Source.filter_lead, Source.partners_lead, h]
  rfl

theorem Program.exists_load_lead {breakpoint : Option Char} {source : Text} {p : Program}
    (h : load breakpoint source = .ok p) (d : Int) :
    ∃ q, load breakpoint (Source.lead d ++ source) = .ok q ∧
      q.symbols.toList = Source.lead d ++ p.symbols.toList ∧ p.Delays d.natAbs q := by
  obtain ⟨hpsymbols, hppartners⟩ := load_eq_ok h
  have hpaired : Source.partners (Source.lead d ++ p.symbols.toList) =
      .ok (Source.delayed d.natAbs p.partners) := by
    rw [Source.partners_lead, hppartners]
    rfl
  cases hq : load breakpoint (Source.lead d ++ source) with
  | error f =>
    rw [load_eq_error_iff, Source.filter_lead, ← hpsymbols, hpaired] at hq
    cases hq
  | ok q =>
    obtain ⟨hqsymbols, hqpartners⟩ := load_eq_ok hq
    rw [Source.filter_lead, ← hpsymbols] at hqsymbols
    rw [hqsymbols, hpaired] at hqpartners
    have hpartners := Except.ok.inj hqpartners
    refine ⟨q, rfl, hqsymbols, ?_, ?_⟩
    · intro i
      rw [symbol?_eq, symbol?_eq, hqsymbols, List.getElem?_append_right (by simp [Source.lead])]
      simp [Source.lead]
    · intro i
      rw [partner?, partner?, ← hpartners, Source.getElem?_delayed]
      cases p.partners[i]? <;> rfl

namespace Machine

/-- Once the moves are executed, the machine is where the other starts, and stays with it. -/
theorem point_after_lead {p q : Program} {settings : Settings} {d : Int}
    (hp : p.Sound settings.breakpoint) (hq : q.Sound settings.breakpoint)
    (hsymbols : q.symbols.toList = Source.lead d ++ p.symbols.toList)
    (h : p.Delays d.natAbs q) (input : Text) (t : Nat) :
    ((start q settings input).after (d.natAbs + t)).point =
      ((start p settings input).after t).point.shifted d.natAbs d := by
  obtain ⟨i, hlead, hmoves⟩ := Store.exists_moves d settings
  have hrow (j : Nat) (hj : j < d.natAbs) : q.symbol? j = some i.toChar := by
    rw [Program.symbol?_eq, hsymbols, hlead, List.getElem?_append_left (by simpa using hj)]
    simp [hj]
  have hahead : (Point.next q settings)^[d.natAbs] ⟨0, .blank input⟩ =
      Point.shifted d.natAbs d ⟨0, .blank input⟩ := by
    rw [Point.iterate_row hrow, hmoves, Point.shifted, Nat.zero_add]
  have hsemiconj := (Point.next_shifted h d settings).iterate_right t
  rw [point_after (sound_start hq input), point_after (sound_start hp input), point_start,
    point_start, Nat.add_comm, Function.iterate_add_apply]
  show (Point.next q settings)^[t] ((Point.next q settings)^[d.natAbs] _) = _
  rw [hahead]
  exact (hsemiconj _).symm

/-- Moves in front of a source make no difference but where they lead. The source is refused for the
same bracket, or else the machine runs as it would without them once they are executed: it works on
cells that lie as far away as they lead. -/
theorem translated_by_lead (d : Int) (source input : Text) (settings : Settings) :
    (∀ f, load source input settings = .error f →
      ∃ b i, f = .unmatched b i ∧
        load (Source.lead d ++ source) input settings = .error (.unmatched b (i + d.natAbs))) ∧
    ∀ m, load source input settings = .ok m →
      ∃ n, load (Source.lead d ++ source) input settings = .ok n ∧
        (∀ i, (m.after i).step = .ok (m.after (i + 1))) ∧
        (∀ i, (n.after i).step = .ok (n.after (i + 1))) ∧
        ∀ t, (n.after (d.natAbs + t)).pc = (m.after t).pc + d.natAbs ∧
          (n.after (d.natAbs + t)).tape.pointer = (m.after t).tape.pointer + d ∧
          (∀ i, (n.after (d.natAbs + t)).tape.cell (i + d) = (m.after t).tape.cell i) ∧
          (n.after (d.natAbs + t)).output = (m.after t).output ∧
          (n.after (d.natAbs + t)).pending = (m.after t).pending ∧
          (n.after (d.natAbs + t)).halted = (m.after t).halted := by
  constructor
  · intro f hf
    rw [load_eq_error_iff] at hf
    have hblame := Source.blames_of_partners (Program.load_eq_error_iff.mp hf)
    obtain ⟨b, i, rfl, -⟩ := hblame.exists_bracket
    exact ⟨b, i, rfl, load_eq_error_iff.mpr (Program.load_lead_of_error hf d)⟩
  · intro m hm
    obtain ⟨p, hp, rfl⟩ := load_eq_ok hm
    obtain ⟨q, hq, hsymbols, hdelays⟩ := Program.exists_load_lead hp d
    have hn : load (Source.lead d ++ source) input settings = .ok (start q settings input) := by
      rw [load, hq]
    refine ⟨_, hn, (sound_load hm).step_after, (sound_load hn).step_after, fun t => ?_⟩
    have hpoint := point_after_lead (Program.sound_of_load hp) (Program.sound_of_load hq) hsymbols
      hdelays input t
    have hpc := congrArg Point.pc hpoint
    have hstore := congrArg Point.store hpoint
    refine ⟨hpc, congrArg Store.pointer hstore, fun i => ?_, congrArg Store.output hstore,
      congrArg Store.pending hstore, ?_⟩
    · have hcell := congrFun (congrArg Store.cell hstore) (i + d)
      have hback : i + d - d = i := Int.add_sub_cancel i d
      exact hcell.trans (congrArg ((start p settings input).after t).tape.cell hback)
    · have hsymbol := (congrArg q.symbol? hpc).trans (hdelays.symbol? _)
      rw [Bool.eq_iff_iff, halted_iff, halted_iff, symbol?, symbol?, (frame_after _ _).1,
        (frame_after _ _).1]
      exact hsymbol ▸ Iff.rfl

/-- Two moves to the left, and the same beyond them: a loop that is run, and a bracket that is
refused. -/
theorem translated_by_lead_left :
    ∃ m n, load ",[>.<-]".toList "x".toList {} = .ok m ∧
      load "<<,[>.<-]".toList "x".toList {} = .ok n ∧
      (n.after (2 + 3)).pc = (m.after 3).pc + 2 ∧
      (n.after (2 + 3)).tape.cell (-2) = (m.after 3).tape.cell 0 ∧
      (n.after (2 + 3)).tape.pointer = (m.after 3).tape.pointer - 2 ∧
      load "+]".toList "x".toList {} = .error (.unmatched .closing 1) ∧
      load "<<+]".toList "x".toList {} = .error (.unmatched .closing 3) := by
  have hloop : Source.lead (-2) ++ ",[>.<-]".toList = "<<,[>.<-]".toList := by decide
  have hbracket : Source.lead (-2) ++ "+]".toList = "<<+]".toList := by decide
  obtain ⟨m, hm⟩ : ∃ m, load ",[>.<-]".toList "x".toList {} = .ok m := ⟨_, rfl⟩
  obtain ⟨n, hn, -, -, hsame⟩ :=
    (translated_by_lead (-2) ",[>.<-]".toList "x".toList {}).2 m hm
  have htwo : (-2 : Int).natAbs = 2 := rfl
  rw [htwo] at hsame
  obtain ⟨hpc, hpointer, hcell, -⟩ := hsame 3
  have horigin := hcell 0
  rw [Int.zero_add] at horigin
  have hf : load "+]".toList "x".toList {} = .error (.unmatched .closing 1) := rfl
  obtain ⟨b, i, he, hrefused⟩ := (translated_by_lead (-2) "+]".toList "x".toList {}).1 _ hf
  cases he
  rw [hloop] at hn
  rw [hbracket] at hrefused
  exact ⟨m, n, hm, hn, hpc, horigin, hpointer, hf, hrefused⟩

end Machine
end Brainfuck
