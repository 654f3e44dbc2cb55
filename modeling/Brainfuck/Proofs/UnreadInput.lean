import Brainfuck.Proofs.Conservation

namespace Brainfuck.Machine

variable {m : Machine} {e : EndOfInput} {input rest : Text} {c : Char} {t : Nat}

/-- The machine with another input, of which `rest` is still to be read, and another way to go on at
its end. -/
def resupplied (e : EndOfInput) (input rest : Text) (m : Machine) : Machine :=
  { m with settings := { m.settings with endOfInput := e }, input, pending := rest }

theorem perform_resupplied {i : Instruction} (hi : i ≠ .input) (m : Machine) :
    perform i (m.resupplied e input rest) = (perform i m).resupplied e input rest := by
  cases i with
  | input => exact absurd rfl hi
  | openLoop =>
    exact (apply_ite (resupplied e input rest) (m.tape.current = 0) m.jump m).symm
  | closeLoop =>
    exact (apply_ite (resupplied e input rest) (m.tape.current = 0) m m.jump).symm
  | _ => rfl

theorem execute_resupplied_of_ne (hc : c ≠ ',') (m : Machine) :
    execute c (m.resupplied e input rest) = (execute c m).resupplied e input rest := by
  unfold execute
  cases hi : Instruction.ofChar? c with
  | none => rfl
  | some i =>
    have hne : i ≠ .input := by
      rintro rfl
      exact hc (Instruction.toChar_of_ofChar? hi).symm
    show (perform i (m.resupplied e input rest)).advance =
      ((perform i m).advance).resupplied e input rest
    rw [perform_resupplied hne]
    rfl

theorem execute_resupplied_input {x : Char} {more : Text} (hp : m.pending = x :: more) :
    execute ',' (m.resupplied e input (x :: rest)) = (execute ',' m).resupplied e input rest := by
  show (read (m.resupplied e input (x :: rest))).advance =
    ((read m).advance).resupplied e input rest
  simp only [read, hp]
  rfl

theorem readCount_succ (t : Nat) (m : Machine) :
    m.readCount (t + 1) = m.readCount t + if (m.after t).symbol? = some ',' then 1 else 0 :=
  Nat.count_succ _ t

/-- A machine that has another input after a common beginning is the same machine with that input,
as long as it has not read beyond the beginning. -/
theorem after_resupplied (hm : m.Sound) {common p q : Text} (hp : m.pending = common ++ p)
    (ht : m.readCount t ≤ common.length) :
    (m.resupplied e input (common ++ q)).after t =
      (m.after t).resupplied e input (common.drop (m.readCount t) ++ q) := by
  induction t with
  | zero => rfl
  | succ t ih =>
    rw [readCount_succ] at ht ⊢
    have hle : m.readCount t ≤ common.length := by omega
    rw [after_succ', ih hle, after_succ']
    have hsymbol (r : Text) :
        ((m.after t).resupplied e input r).symbol? = (m.after t).symbol? := rfl
    cases hc : (m.after t).symbol? with
    | none =>
      rw [next_of_none hc, next_of_none ((hsymbol _).trans hc), if_neg nofun]
      rfl
    | some c =>
      rw [next_of_some hc, next_of_some ((hsymbol _).trans hc)]
      by_cases hin : c = ','
      · subst hin
        rw [if_pos hc] at ht
        -- the count of reads leaves a character of the beginning to be read
        have hdrop := List.drop_eq_getElem_cons (show m.readCount t < common.length by omega)
        have hpending : (m.after t).pending = common.drop (m.readCount t) ++ p := by
          rw [pending_after hm, hp, List.drop_append_of_le_length hle]
        rw [hdrop, List.cons_append] at hpending ⊢
        rw [if_pos rfl, execute_resupplied_input hpending]
      · have hne : ¬some c = some ',' := fun h => hin (Option.some.inj h)
        rw [if_neg hne, execute_resupplied_of_ne hin]
        rfl

theorem load_resupplied (source u v : Text) (settings : Settings) (e : EndOfInput) :
    load source v { settings with endOfInput := e } =
      (load source u settings).map (resupplied e v v) := by
  cases h : Program.load settings.breakpoint source with
  | ok p =>
    simp only [load, h]
    rfl
  | error f =>
    simp only [load, h]
    rfl

/-- On two inputs a source is loaded alike. The machines cannot be told apart until they read beyond
what the inputs have in common at their beginning, whatever each of them would do at the end of its
input, and they have taken the same characters. -/
theorem unread_input_unobservable (source u v : Text) (settings : Settings) (e : EndOfInput) :
    (∀ f, load source u settings = .error f ↔
      load source v { settings with endOfInput := e } = .error f) ∧
    ∀ m n, load source u settings = .ok m →
      load source v { settings with endOfInput := e } = .ok n →
      (∀ i, (m.after i).step = .ok (m.after (i + 1))) ∧
      (∀ i, (n.after i).step = .ok (n.after (i + 1))) ∧
      ∀ common t, common <+: u → common <+: v → m.readCount t ≤ common.length →
        (n.after t).pc = (m.after t).pc ∧ (n.after t).steps = (m.after t).steps ∧
          (n.after t).tape.pointer = (m.after t).tape.pointer ∧
          (∀ i, (n.after t).tape.cell i = (m.after t).tape.cell i) ∧
          (n.after t).tape.lowest = (m.after t).tape.lowest ∧
          (n.after t).tape.highest = (m.after t).tape.highest ∧
          (n.after t).output = (m.after t).output ∧
          ∃ taken, taken.length = m.readCount t ∧ taken ++ (m.after t).pending = u ∧
            taken ++ (n.after t).pending = v := by
  have hload := load_resupplied source u v settings e
  refine ⟨?_, ?_⟩
  · intro f
    rw [hload]
    cases load source u settings <;> simp [Except.map]
  · intro m n hm hn
    obtain rfl : m.resupplied e v v = n := by
      rw [hm] at hload
      exact Except.ok.inj (hload.symm.trans hn)
    refine ⟨(sound_load hm).step_after, (sound_load hn).step_after, ?_⟩
    rintro common t ⟨p, rfl⟩ ⟨q, rfl⟩ ht
    have hpending : m.pending = common ++ p := by
      obtain ⟨program, -, rfl⟩ := load_eq_ok hm
      rfl
    rw [after_resupplied (sound_load hm) hpending ht]
    refine ⟨rfl, rfl, rfl, fun i => rfl, rfl, rfl, rfl, common.take (m.readCount t), ?_, ?_, ?_⟩
    · rw [List.length_take, Nat.min_eq_left ht]
    · rw [pending_after (sound_load hm), hpending, List.drop_append_of_le_length ht,
        ← List.append_assoc, List.take_append_drop]
    · show common.take (m.readCount t) ++ (common.drop (m.readCount t) ++ q) = common ++ q
      rw [← List.append_assoc, List.take_append_drop]

/-- One input goes on where the other ends. Until a second character is read, both are in the loop
that the first one has opened. -/
theorem unread_input_unobservable_loop :
    ∃ m n, load ",[.,]".toList "ab".toList {} = .ok m ∧
      load ",[.,]".toList "a".toList { endOfInput := .greatest } = .ok n ∧ m.readCount 2 ≤ 1 ∧
      (n.after 2).pc = (m.after 2).pc ∧ (n.after 2).output = (m.after 2).output ∧
      (m.after 2).pending = "b".toList ∧ (n.after 2).pending = [] := by
  obtain ⟨m, n, hm, hn, hcount⟩ : ∃ m n, load ",[.,]".toList "ab".toList {} = .ok m ∧
      load ",[.,]".toList "a".toList { endOfInput := .greatest } = .ok n ∧ m.readCount 2 = 1 :=
    ⟨_, _, rfl, rfl, rfl⟩
  obtain ⟨-, hagree⟩ := unread_input_unobservable ",[.,]".toList "ab".toList "a".toList {} .greatest
  obtain ⟨-, -, hsame⟩ := hagree m n hm hn
  obtain ⟨hpc, -, -, -, -, -, hout, taken, hlength, hu, hv⟩ := hsame "a".toList 2
    ⟨"b".toList, rfl⟩ ⟨[], rfl⟩ (Nat.le_of_eq hcount)
  have hlength : taken.length = "a".toList.length := hlength.trans hcount
  exact ⟨m, n, hm, hn, Nat.le_of_eq hcount, hpc, hout,
    (List.append_inj (hu.trans rfl : taken ++ _ = "a".toList ++ "b".toList) hlength).2,
    (List.append_inj (hv.trans rfl : taken ++ _ = "a".toList ++ []) hlength).2⟩

end Brainfuck.Machine
