import Brainfuck.Debugger.Session
import Brainfuck.Proofs.Text

namespace Brainfuck

namespace Text

/-- The text is as many rows, each with the line feed at its end and no other. -/
def Rows (count : Nat) (t : Text) : Prop :=
  ∃ rows : List Text, rows.length = count ∧ (∀ row ∈ rows, '\n' ∉ row) ∧ t = rows.flatMap line

namespace Rows

variable {j k : Nat} {t u row : Text}

theorem nil : Rows 0 [] := ⟨[], rfl, fun _ h => absurd h List.not_mem_nil, rfl⟩

theorem single (h : '\n' ∉ row) : Rows 1 (line row) := by
  refine ⟨[row], rfl, ?_, ?_⟩
  · intro r hr
    exact List.mem_singleton.mp hr ▸ h
  · rw [List.flatMap_singleton]

theorem append (h : Rows j t) (h' : Rows k u) : Rows (j + k) (t ++ u) := by
  obtain ⟨rows, rfl, hrows, rfl⟩ := h
  obtain ⟨rows', rfl, hrows', rfl⟩ := h'
  refine ⟨rows ++ rows', List.length_append, ?_, List.flatMap_append.symm⟩
  intro r hr
  exact (List.mem_append.mp hr).elim (hrows r) (hrows' r)

theorem page {rows : List String} (hk : rows.length = k) (h : ∀ row ∈ rows, '\n' ∉ row.toList) :
    Rows k (page rows) := by
  subst hk
  induction rows with
  | nil => exact nil
  | cons row rows ih =>
    rw [List.length_cons, Nat.add_comm]
    exact (single (h row (.head _))).append (ih fun r hr => h r (.tail _ hr))

theorem count_feed (h : Rows k t) : List.count '\n' t = k := by
  obtain ⟨rows, rfl, hrows, rfl⟩ := h
  induction rows with
  | nil => rfl
  | cons row rows ih =>
    rw [List.flatMap_cons, List.count_append, ih fun r hr => hrows r (.tail _ hr), line,
      List.count_append, List.count_eq_zero.mpr (hrows row (.head _))]
    simp [Nat.add_comm]

end Rows
end Text

theorem Abort.feed_not_mem_message {a : Abort} (h : ∀ f, a ≠ .fault f) : '\n' ∉ a.message := by
  cases a with
  | fault f => exact absurd rfl (h f)
  | stepLimit limit =>
    exact List.not_mem_append
      (List.not_mem_append (by decide +kernel) (Text.feed_not_mem_decimal limit)) (by decide)
  | cancelled => decide +kernel

theorem Style.feed_not_mem_sequence {codes : List Text} (h : ∀ t ∈ codes, '\n' ∉ t) :
    '\n' ∉ sequence codes := by
  apply List.not_mem_cons_of_ne_of_not_mem (by decide)
  apply List.not_mem_cons_of_ne_of_not_mem (by decide)
  exact List.not_mem_append (Text.feed_not_mem_intercalate (by decide) h) (by decide)

theorem Color.isDigit_of_mem_codes (c : Color) : ∀ t ∈ c.codes, ∀ d ∈ t, d.isDigit = true := by
  simp only [codes, List.forall_mem_cons]
  refine ⟨List.all_eq_true.mp (by decide), List.all_eq_true.mp (by decide), ?_, ?_, ?_,
    fun t ht => absurd ht List.not_mem_nil⟩
  all_goals exact fun d hd => Text.isDigit_of_mem_decimal hd

theorem Style.isDigit_of_mem_codes (s : Style) : ∀ t ∈ s.codes, ∀ d ∈ t, d.isDigit = true := by
  intro t ht
  rcases List.mem_append.mp ht with ht | ht
  · have hcode : t = "1".toList ∨ t = "4".toList := by
      rcases List.mem_append.mp ht with ht | ht
      · exact .inl (by simpa using List.mem_ite_nil_right.mp ht |>.2)
      · exact .inr (by simpa using List.mem_ite_nil_right.mp ht |>.2)
    rcases hcode with rfl | rfl <;> exact List.all_eq_true.mp (by decide)
  · cases hc : s.color with
    | none =>
      rw [hc] at ht
      cases ht
    | some c =>
      rw [hc] at ht
      exact c.isDigit_of_mem_codes t ht

theorem Style.feed_not_mem_codes (s : Style) : ∀ t ∈ s.codes, '\n' ∉ t := fun t ht hfeed =>
  absurd (s.isDigit_of_mem_codes t ht '\n' hfeed) (by decide)

theorem Style.feed_not_mem_paint (s : Style) {t : Text} (h : '\n' ∉ t) : '\n' ∉ s.paint t := by
  unfold paint
  split
  · exact h
  · exact List.not_mem_append (List.not_mem_append (feed_not_mem_sequence s.feed_not_mem_codes) h)
      (feed_not_mem_sequence (by decide))

/-- No line of a source is left in an excerpt, since blanks are shown as spaces. -/
theorem Source.feed_not_mem_excerpt (source : Text) (offset : Nat) :
    '\n' ∉ (excerpt source offset).line ∧ '\n' ∉ (excerpt source offset).caret := by
  constructor
  · intro h
    obtain ⟨c, -, hc⟩ := List.mem_map.mp h
    split at hc
    · cases hc
    · next hblank =>
      subst hc
      exact absurd (by decide) hblank
  · exact List.not_mem_append (fun h => absurd (List.eq_of_mem_replicate h) (by decide)) (by decide)

namespace Debugger

open Text (Rows)

def counters (m : Machine) : Text :=
  "step=".toList ++ Text.decimal m.steps
    ++ " pc=".toList ++ Text.decimal m.pc ++ "/".toList ++ Text.decimal m.program.size
    ++ " ptr=".toList ++ Text.integer m.tape.pointer
    ++ " cell=".toList ++ Text.decimal m.tape.current ++ " instr=".toList

theorem feed_not_mem_counters (m : Machine) : '\n' ∉ counters m := by
  unfold counters
  simp [Text.feed_not_mem_decimal, Text.feed_not_mem_integer]

/-- The symbol is all that can break a state. -/
theorem feed_not_mem_nextSymbol {m : Machine} (h : m.symbol? ≠ some '\n') :
    '\n' ∉ nextSymbol m := by
  unfold nextSymbol
  split
  · next c hc =>
    apply Text.feed_not_mem_quoted
    rintro hmem
    exact h (List.mem_singleton.mp hmem ▸ hc)
  · decide

/-- How many lines a state takes up. -/
def stateRows (m : Machine) : Nat := if m.symbol? = some '\n' then 2 else 1

theorem rows_stateText (m : Machine) : Rows (stateRows m) (stateText m) := by
  obtain ⟨out, hout, hstate⟩ : ∃ out, '\n' ∉ out ∧
      stateText m = Text.line (counters m ++ nextSymbol m ++ out) := by
    refine ⟨" out=".toList ++ Text.decimal m.output.size, ?_, ?_⟩
    · exact List.not_mem_append (by decide) (Text.feed_not_mem_decimal _)
    · unfold stateText counters
      rw [List.append_assoc _ " out=".toList]
  rw [hstate, stateRows]
  split
  · next h =>
    -- each of the two apostrophes around the line feed is on a row of its own
    have hfirst : '\n' ∉ counters m ++ ['\x27'] :=
      List.not_mem_append (feed_not_mem_counters m) (by decide)
    have hsecond : '\n' ∉ '\x27' :: out := List.not_mem_cons_of_ne_of_not_mem (by decide) hout
    have hbroken : Text.line (counters m ++ nextSymbol m ++ out) =
        Text.line (counters m ++ ['\x27']) ++ Text.line ('\x27' :: out) := by
      simp [nextSymbol, h, Text.line, Text.quoted]
    rw [hbroken]
    exact (Rows.single hfirst).append (.single hsecond)
  · next h =>
    exact .single (List.not_mem_append
      (List.not_mem_append (feed_not_mem_counters m) (feed_not_mem_nextSymbol h)) hout)

theorem feed_not_mem_cellText (format : CellFormat) (tape : Tape) (index : Int) :
    '\n' ∉ cellText format tape index := by
  have hvalue := Cell.feed_not_mem_display format [tape.cell index]
  dsimp only [cellText]
  split
  · exact List.not_mem_append (List.not_mem_cons_of_ne_of_not_mem (by decide) hvalue) (by decide)
  · exact hvalue

def cellTexts (format : CellFormat) (tape : Tape) : List Text :=
  tape.indices.map (cellText format tape)

theorem memoryText_eq (format : CellFormat) (tape : Tape) :
    memoryText format tape = Text.line
      ("cells ".toList ++ Text.integer tape.lowest ++ "..".toList ++ Text.integer tape.highest
        ++ ": ".toList ++ Text.spaced (cellTexts format tape)) := rfl

theorem feed_not_mem_cellTexts (format : CellFormat) (tape : Tape) :
    '\n' ∉ Text.spaced (cellTexts format tape) := by
  apply Text.feed_not_mem_spaced
  simpa [cellTexts] using fun i _ => feed_not_mem_cellText format tape i

theorem rows_memoryText (format : CellFormat) (tape : Tape) :
    Rows 1 (memoryText format tape) := by
  rw [memoryText_eq]
  apply Rows.single
  simp [Text.feed_not_mem_integer, feed_not_mem_cellTexts]

theorem rows_outputText (format : CellFormat) (m : Machine) : Rows 1 (outputText format m) :=
  .single (List.not_mem_append (by decide) (Cell.feed_not_mem_display format _))

theorem feed_not_mem_paintSource (breakpoint : Option Char) {t : Text} (h : '\n' ∉ t) :
    '\n' ∉ paintSource breakpoint t := by
  intro hmem
  obtain ⟨c, hc, hpaint⟩ := List.mem_flatMap.mp hmem
  refine (symbolStyle breakpoint c).feed_not_mem_paint (fun hfeed => ?_) hpaint
  exact h (List.mem_singleton.mp hfeed ▸ hc)

theorem rows_locationText (color : Bool) (source : Text) (m : Machine) :
    Rows 2 (locationText color source m) := by
  obtain ⟨hline, hcaret⟩ := Source.feed_not_mem_excerpt source (m.program.offset m.pc)
  refine (Rows.single (List.not_mem_append (by decide) ?_)).append
    (.single (List.not_mem_append (by decide) hcaret))
  split
  · exact feed_not_mem_paintSource _ hline
  · exact hline

theorem rows_helpText : Rows 11 helpText := by
  refine Rows.page rfl ?_
  simp only [List.forall_mem_cons]
  refine ⟨?_, ?_, ?_, ?_, ?_, ?_, ?_, ?_, ?_, ?_, ?_, fun row h => absurd h List.not_mem_nil⟩
  all_goals exact Text.feed_not_mem_toList rfl (by decide +kernel)

theorem rows_runText {r : Except Abort Stop} (h : ∀ f, r ≠ .error (.fault f)) :
    Rows 1 (runText r) := by
  cases r with
  | ok stop =>
    cases stop with
    | halted => exact Rows.single (show '\n' ∉ "halted".toList by decide)
    | breakpoint index =>
      exact .single (List.not_mem_append (by decide +kernel) (Text.feed_not_mem_decimal index))
  | error a =>
    have ha : '\n' ∉ a.message := Abort.feed_not_mem_message fun f hf => h f (hf ▸ rfl)
    cases a with
    | fault f => exact absurd rfl (h f)
    | stepLimit limit => exact .single ha
    | cancelled => exact .single ha

theorem rows_faultText {message : Text} (h : '\n' ∉ message) : Rows 1 (faultText message) :=
  .single (List.not_mem_append (by decide) h)

def CommandError.quotes : CommandError → List Text
  | .empty => []
  | .surplus word => [word]
  | .count word => [word]
  | .format cause => [cause.name]
  | .noArgument name word => [name, word]
  | .unknown name => [name]

theorem CommandError.feed_not_mem_message {e : CommandError} (h : ∀ t ∈ e.quotes, '\n' ∉ t) :
    '\n' ∉ e.message := by
  have hquoted {t : Text} (ht : t ∈ e.quotes) : '\n' ∉ Text.quoted t :=
    Text.feed_not_mem_quoted (h t ht)
  cases e with
  | empty => decide
  | surplus word =>
    exact List.not_mem_append (by decide +kernel) (hquoted (.head _))
  | count word =>
    exact List.not_mem_append (by decide +kernel) (hquoted (.head _))
  | format cause =>
    exact List.not_mem_append (List.not_mem_append (by decide +kernel) (hquoted (.head _)))
      (by decide +kernel)
  | noArgument name word =>
    exact List.not_mem_append (List.not_mem_append (hquoted (.head _)) (by decide +kernel))
      (hquoted (.tail _ (.head _)))
  | unknown name =>
    exact List.not_mem_append (List.not_mem_append (by decide +kernel) (hquoted (.head _)))
      (by decide +kernel)

theorem eq_error_of_map {α β : Type} {f : α → β} {x : Except CommandError α} {e : CommandError}
    (h : x.map f = .error e) : x = .error e := by
  cases x with
  | ok a => cases h
  | error e' => exact congrArg _ (Except.error.inj h)

theorem quotes_of_readCount {argument : Option Text} {e : CommandError}
    (h : readCount argument = .error e) : ∀ t ∈ e.quotes, argument = some t := by
  cases argument with
  | none => cases h
  | some word =>
    simp only [readCount] at h
    split at h
    · cases h
    · obtain rfl := Except.error.inj h
      simp [CommandError.quotes]

/-- A format is complained about as it was written, not as it was looked up. -/
theorem quotes_of_readFormat {argument : Option Text} {e : CommandError}
    (h : readFormat argument = .error e) : ∀ t ∈ e.quotes, argument = some t := by
  cases argument with
  | none => cases h
  | some word =>
    simp only [readFormat, CellFormat.read] at h
    split at h
    · cases h
    · next cause hcause =>
      split at hcause
      · cases hcause
      · obtain rfl := Except.error.inj hcause
        obtain rfl := Except.error.inj h
        simp [CommandError.quotes]

theorem quotes_of_alone {name : Text} {command : Command} {argument : Option Text}
    {e : CommandError} (h : alone name command argument = .error e) :
    ∀ t ∈ e.quotes, t = name ∨ argument = some t := by
  cases argument with
  | none => cases h
  | some word =>
    obtain rfl := Except.error.inj h
    simp [CommandError.quotes, eq_comm]

theorem Verb.quotes_of_command {v : Verb} {name : Text} {argument : Option Text}
    {e : CommandError} (h : v.command name argument = .error e) :
    ∀ t ∈ e.quotes, t = name ∨ argument = some t := by
  intro t ht
  cases v with
  | step | back =>
    exact .inr (quotes_of_readCount (eq_error_of_map h) t ht)
  | memory | output =>
    exact .inr (quotes_of_readFormat (eq_error_of_map h) t ht)
  | run | reset | location | state | help | quit => exact quotes_of_alone h t ht

theorem Command.quotes_of_ofWords {name : Text} {argument : Option Text} {e : CommandError}
    (h : ofWords name argument = .error e) :
    ∀ t ∈ e.quotes, t = name ∨ t = Text.lower name ∨ argument = some t := by
  intro t ht
  unfold ofWords at h
  split at h
  · rcases Verb.quotes_of_command h t ht with h | h
    · exact .inl h
    · exact .inr (.inr h)
  · obtain rfl := Except.error.inj h
    exact .inr (.inl (List.mem_singleton.mp ht))

/-- What is quoted are words of the line, and words have no blanks in them. -/
theorem Command.feed_not_mem_message {line : Text} {e : CommandError} (h : read line = .error e) :
    '\n' ∉ e.message := by
  have hword {t : Text} (ht : t ∈ Text.words line) : '\n' ∉ t := fun hfeed =>
    absurd (Text.not_isBlank_of_mem_words ht hfeed) (by decide)
  unfold read at h
  split at h
  · obtain rfl := Except.error.inj h
    decide
  · next name hwords =>
    apply CommandError.feed_not_mem_message
    intro t ht
    have hname : '\n' ∉ name := hword (by simp [hwords])
    rcases quotes_of_ofWords h t ht with rfl | rfl | hargument
    · exact hname
    · exact Text.feed_not_mem_lower hname
    · cases hargument
  · next name argument hwords =>
    apply CommandError.feed_not_mem_message
    intro t ht
    have hname : '\n' ∉ name := hword (by simp [hwords])
    rcases quotes_of_ofWords h t ht with rfl | rfl | hargument
    · exact hname
    · exact Text.feed_not_mem_lower hname
    · obtain rfl := Option.some.inj hargument
      exact hword (by simp [hwords])
  · next third rest hwords =>
    obtain rfl := Except.error.inj h
    apply CommandError.feed_not_mem_message
    intro t ht
    obtain rfl := List.mem_singleton.mp ht
    exact hword (by simp [hwords])

end Debugger
end Brainfuck
