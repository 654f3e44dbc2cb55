import Mathlib.Algebra.Group.Nat.Defs
import Brainfuck.Debugger.Command
import Brainfuck.Proofs.Text
import Brainfuck.Proofs.Words

namespace Brainfuck

namespace Text

/-- A count as it may be written: after a plus sign or none come one or more digits, leading zeros
among them, and their value has at most 64 bits. -/
def CountsTo (word : Text) (n : Nat) : Prop :=
  ∃ sign digits, word = sign ++ digits ∧ (sign = [] ∨ sign = ['+']) ∧ digits ≠ [] ∧
    (∀ c ∈ digits, c.isDigit = true) ∧ Nat.ofDigitChars 10 digits 0 = n ∧ n < 2 ^ 64

variable {total n : Nat} {digits word : Text}

theorem le_ofDigitChars (total : Nat) (digits : Text) :
    total ≤ Nat.ofDigitChars 10 digits total := by
  induction digits generalizing total with
  | nil => exact Nat.le_refl total
  | cons c digits ih =>
    rw [Nat.ofDigitChars_cons]
    exact Nat.le_trans (by omega) (ih _)

theorem not_isBlank_of_mem_decimal {c : Char} (h : c ∈ decimal n) : isBlank c = false := by
  have hdigits : ∀ d < 10, isBlank (Nat.digitChar d) = false := by decide
  obtain ⟨d, hd, rfl⟩ := exists_digitChar (by decide) h
  exact hdigits d hd

/-- Once over the bound a count stays over it, so stopping there refuses no count. -/
theorem countDigits_eq_ok_iff (htotal : total < countBound) :
    countDigits total digits = .ok n ↔
      (∀ c ∈ digits, c.isDigit = true) ∧ Nat.ofDigitChars 10 digits total = n ∧
        n < countBound := by
  induction digits generalizing total with
  | nil =>
    rw [countDigits, Except.ok.injEq, Nat.ofDigitChars_nil]
    constructor
    · rintro rfl
      exact ⟨fun c hc => absurd hc List.not_mem_nil, rfl, htotal⟩
    · exact fun h => h.2.1
  | cons c digits ih =>
    rw [countDigits, Nat.ofDigitChars_cons, List.forall_mem_cons]
    by_cases hc : c.isDigit = true
    · rw [if_pos hc]
      dsimp only
      split
      · next hnext =>
        rw [ih hnext]
        simp [hc]
      · next hnext =>
        -- refused at this digit, and the whole number is no less than what has been read
        have hle := le_ofDigitChars (10 * total + (c.toNat - '0'.toNat)) digits
        constructor
        · intro h
          cases h
        · rintro ⟨-, rfl, hlt⟩
          exact absurd (Nat.lt_of_le_of_lt hle hlt) hnext
    · rw [if_neg hc]
      simp [hc]

theorem count_eq_ok_iff : count word = .ok n ↔ word.CountsTo n := by
  have hzero : 0 < countBound := by decide
  have hbound : countBound = 2 ^ 64 := rfl
  constructor
  · intro h
    unfold count at h
    split at h
    · cases h
    · cases h
    · next digits hne =>
      obtain ⟨hdigits, hvalue, hlt⟩ := (countDigits_eq_ok_iff hzero).mp h
      exact ⟨['+'], digits, rfl, .inr rfl, hne, hdigits, hvalue, hlt⟩
    · next hne _ _ =>
      obtain ⟨hdigits, hvalue, hlt⟩ := (countDigits_eq_ok_iff hzero).mp h
      exact ⟨[], word, rfl, .inl rfl, hne, hdigits, hvalue, hlt⟩
  · rintro ⟨sign, digits, rfl, hsign, hne, hdigits, hvalue, hlt⟩
    have hcount := (countDigits_eq_ok_iff hzero).mpr ⟨hdigits, hvalue, hlt⟩
    obtain ⟨c, rest, rfl⟩ := List.exists_cons_of_ne_nil hne
    -- a word that begins with a digit is not read as one with a sign
    have hplus : c ≠ '+' := by
      rintro rfl
      exact absurd (hdigits _ List.mem_cons_self) (by decide)
    rcases hsign with rfl | rfl
    · rw [List.nil_append, count]
      · exact hcount
      · exact List.cons_ne_nil c rest
      · exact fun h => hplus (List.cons.inj h).1
      · exact fun digits h => hplus (List.cons.inj h).1
    · exact hcount

theorem countsTo_decimal (h : n < 2 ^ 64) : (decimal n).CountsTo n :=
  ⟨[], decimal n, rfl, .inl rfl, Nat.toDigits_ne_nil, fun _ hc => isDigit_of_mem_decimal hc,
    ofDigitChars_decimal n, h⟩

end Text

theorem CellFormat.read_eq_ok_iff {word : Text} (hword : ∀ c ∈ word, Text.isBlank c = false)
    {f : CellFormat} : read word = .ok f ↔ Text.lower word ∈ f.names := by
  have hnames : ∀ f : CellFormat, ∀ t ∈ f.names,
      [ascii, hexadecimal, decimal].find? (fun f => f.names.contains t) = some f := by
    intro f
    cases f <;> decide +kernel
  rw [read, Text.trim_of_not_blank hword]
  constructor
  · intro h
    split at h
    · next g hg =>
      obtain rfl := Except.ok.inj h
      simpa using List.find?_some hg
    · cases h
  · intro h
    rw [hnames f _ h]

namespace Debugger

variable {name word : Text} {argument : Option Text} {command : Command}

inductive Verb.Takes : Verb → List Text → Command → Prop where
  | stepOnce : Takes .step [] (.step 1)
  | step {word : Text} {n : Nat} (h : word.CountsTo n) : Takes .step [word] (.step n)
  | backOnce : Takes .back [] (.back 1)
  | back {word : Text} {n : Nat} (h : word.CountsTo n) : Takes .back [word] (.back n)
  | memory : Takes .memory [] (.memory none)
  | memoryAs {word : Text} {f : CellFormat} (h : Text.lower word ∈ f.names) :
    Takes .memory [word] (.memory (some f))
  | output : Takes .output [] (.output none)
  | outputAs {word : Text} {f : CellFormat} (h : Text.lower word ∈ f.names) :
    Takes .output [word] (.output (some f))
  | run : Takes .run [] .run
  | reset : Takes .reset [] .reset
  | location : Takes .location [] .location
  | state : Takes .state [] .state
  | help : Takes .help [] .help
  | quit : Takes .quit [] .quit

/-- The words are a name in any case and what its verb takes. -/
def Command.Spelled (words : List Text) (command : Command) : Prop :=
  ∃ name arguments v, words = name :: arguments ∧ Text.lower name ∈ Verb.names v ∧
    v.Takes arguments command

/-- No name is that of two verbs. -/
theorem Verb.find?_names : ∀ v : Verb, ∀ t ∈ v.names,
    all.find? (fun w => w.names.contains t) = some v := by
  intro v
  cases v <;> decide +kernel

theorem Verb.named?_eq_some_iff {v : Verb} : named? name = some v ↔ Text.lower name ∈ v.names := by
  constructor
  · intro h
    simpa using List.find?_some h
  · exact Verb.find?_names v _

theorem readCount_some_iff {n : Nat} : readCount (some word) = .ok n ↔ word.CountsTo n := by
  rw [← Text.count_eq_ok_iff, readCount]
  cases Text.count word <;> simp

theorem readFormat_some_iff (hword : ∀ c ∈ word, Text.isBlank c = false)
    {format : Option CellFormat} :
    readFormat (some word) = .ok format ↔ ∃ f, format = some f ∧ Text.lower word ∈ f.names := by
  simp only [← CellFormat.read_eq_ok_iff hword, readFormat]
  cases CellFormat.read word <;> simp [eq_comm]

theorem map_eq_ok_iff {α β ε : Type} {x : Except ε α} {g : α → β} {b : β} :
    x.map g = .ok b ↔ ∃ a, x = .ok a ∧ g a = b := by
  cases x <;> simp [Except.map]

/-- A verb is given its argument, if there is one, and makes the command of it. -/
theorem Verb.command_eq_ok_iff (v : Verb)
    (hwords : ∀ word ∈ argument, ∀ c ∈ word, Text.isBlank c = false) :
    v.command name argument = .ok command ↔ v.Takes argument.toList command := by
  cases argument with
  | none =>
    constructor
    · intro h
      cases v <;> obtain rfl := Except.ok.inj h <;> constructor
    · intro h
      cases h <;> rfl
  | some word =>
    have hword := hwords word rfl
    constructor
    · intro h
      cases v with
      | step =>
        obtain ⟨n, hn, rfl⟩ := map_eq_ok_iff.mp h
        exact .step (readCount_some_iff.mp hn)
      | back =>
        obtain ⟨n, hn, rfl⟩ := map_eq_ok_iff.mp h
        exact .back (readCount_some_iff.mp hn)
      | memory =>
        obtain ⟨_, hformat, rfl⟩ := map_eq_ok_iff.mp h
        obtain ⟨f, rfl, hf⟩ := (readFormat_some_iff hword).mp hformat
        exact .memoryAs hf
      | output =>
        obtain ⟨_, hformat, rfl⟩ := map_eq_ok_iff.mp h
        obtain ⟨f, rfl, hf⟩ := (readFormat_some_iff hword).mp hformat
        exact .outputAs hf
      | run | reset | location | state | help | quit => cases h
    · intro h
      cases h with
      | step h | back h => exact map_eq_ok_iff.mpr ⟨_, readCount_some_iff.mpr h, rfl⟩
      | memoryAs h | outputAs h =>
        exact map_eq_ok_iff.mpr ⟨_, (readFormat_some_iff hword).mpr ⟨_, rfl, h⟩, rfl⟩

theorem Command.ofWords_eq_ok_iff (argument : Option Text)
    (hwords : ∀ word ∈ argument, ∀ c ∈ word, Text.isBlank c = false) :
    ofWords name argument = .ok command ↔ Spelled (name :: argument.toList) command := by
  unfold ofWords
  constructor
  · intro h
    split at h
    · next v hv =>
      exact ⟨name, _, v, rfl, Verb.named?_eq_some_iff.mp hv, (v.command_eq_ok_iff hwords).mp h⟩
    · cases h
  · rintro ⟨_, _, v, ⟨rfl, rfl⟩, hname, htakes⟩
    rw [Verb.named?_eq_some_iff.mpr hname]
    exact (v.command_eq_ok_iff hwords).mpr htakes

theorem Verb.Takes.length_le {v : Verb} {arguments : List Text} (h : v.Takes arguments command) :
    arguments.length ≤ 1 := by
  cases h <;> simp

theorem Command.read_eq_ok_iff {line : Text} :
    read line = .ok command ↔ Spelled (Text.pieces line) command := by
  have hwords : ∀ word ∈ Text.words line, ∀ c ∈ word, Text.isBlank c = false :=
    fun word hword c hc => Text.not_isBlank_of_mem_words hword hc
  rw [← Text.words_eq_pieces, read]
  generalize Text.words line = words at hwords
  split
  · constructor
    · intro h
      cases h
    · rintro ⟨_, _, _, ⟨⟩, -⟩
  · next name =>
    apply ofWords_eq_ok_iff none
    rintro _ ⟨⟩
  · next name argument =>
    apply ofWords_eq_ok_iff (some argument)
    rintro _ ⟨⟩
    exact hwords argument (by simp)
  · next name word third rest =>
    constructor
    · intro h
      cases h
    · rintro ⟨_, _, v, ⟨rfl, rfl⟩, -, htakes⟩
      exact absurd htakes.length_le (by simp)

theorem Verb.word_of_mem_names : ∀ v : Verb, ∀ t ∈ v.names,
    t ≠ [] ∧ t.any Text.isBlank = false ∧ Text.lower t = t := by
  intro v
  cases v <;> decide +kernel

theorem pieces_counted {v : Verb} (hname : name ∈ v.names) (n : Nat) :
    Text.pieces (name ++ ' ' :: Text.decimal n) = [name, Text.decimal n] := by
  obtain ⟨hne, hblank, -⟩ := v.word_of_mem_names name hname
  have hdecimal : Text.decimal n ≠ [] := Nat.toDigits_ne_nil
  rw [Text.pieces_append_cons (by decide),
    Text.pieces_of_not_blank hne (by simpa using hblank),
    Text.pieces_of_not_blank hdecimal fun c hc => Text.not_isBlank_of_mem_decimal hc]
  rfl

/-- A line is a command exactly when its words spell one. Counts are read back from their numerals,
a third word is refused whatever the first one is, and it makes no difference how many blanks there
are around the words and between them. -/
theorem read_accepts_grammar :
    (∀ line command, Command.read line = .ok command ↔
      Command.Spelled (Text.pieces line) command) ∧
    (∀ n < 2 ^ 64,
      (∀ name ∈ Verb.step.names,
        Command.read (name ++ ' ' :: Text.decimal n) = .ok (.step n)) ∧
      ∀ name ∈ Verb.back.names,
        Command.read (name ++ ' ' :: Text.decimal n) = .ok (.back n)) ∧
    (∀ line first second third rest, Text.pieces line = first :: second :: third :: rest →
      Command.read line = .error (.surplus third)) ∧
    (∀ line blanks, Text.Blanks blanks →
      Command.read (blanks ++ line) = Command.read line ∧
        Command.read (line ++ blanks) = Command.read line) ∧
    ∀ t u blanks blanks', Text.Blanks blanks → Text.Blanks blanks' → blanks ≠ [] →
      blanks' ≠ [] → Command.read (t ++ blanks ++ u) = Command.read (t ++ blanks' ++ u) := by
  refine ⟨fun line command => Command.read_eq_ok_iff, ?_, ?_, ?_, ?_⟩
  · intro n hn
    have hcount := Text.countsTo_decimal hn
    constructor
    · intro name hname
      obtain ⟨-, -, hlower⟩ := Verb.step.word_of_mem_names name hname
      exact Command.read_eq_ok_iff.mpr
        ⟨name, [Text.decimal n], .step, pieces_counted hname n, hlower.symm ▸ hname, .step hcount⟩
    · intro name hname
      obtain ⟨-, -, hlower⟩ := Verb.back.word_of_mem_names name hname
      exact Command.read_eq_ok_iff.mpr
        ⟨name, [Text.decimal n], .back, pieces_counted hname n, hlower.symm ▸ hname, .back hcount⟩
  · intro line first second third rest h
    rw [Command.read, Text.words_eq_pieces, h]
  · intro line blanks hblanks
    exact ⟨Command.read_congr (Text.words_blanks_append hblanks line),
      Command.read_congr (Text.words_append_blanks line hblanks)⟩
  · intro t u blanks blanks' h h' hne hne'
    apply Command.read_congr
    rw [Text.words_separated hne h, Text.words_separated hne' h']

/-- A count in capitals with a sign, zeros and wide blanks, the greatest count, one that is too
large, and a third word after no name. -/
theorem read_accepts_grammar_counts :
    Command.read "\u2003NEXT\t+007 ".toList = .ok (.step 7) ∧
    Command.read "b 18446744073709551615".toList = .ok (.back 18446744073709551615) ∧
    (∀ command, Command.read "b 18446744073709551616".toList ≠ .ok command) ∧
    Command.read "what is this".toList = .error (.surplus "this".toList) ∧
    Command.read "s ".toList = Command.read "s".toList ∧
    Command.read "s \u2003 2".toList = Command.read "s\t2".toList := by
  obtain ⟨hread, hcount, hthird, haround, hbetween⟩ := read_accepts_grammar
  refine ⟨?_, ?_, ?_, ?_, ?_, ?_⟩
  · refine (hread _ _).mpr ⟨"NEXT".toList, ["+007".toList], .step, by decide +kernel,
      by decide +kernel, .step ?_⟩
    exact Text.count_eq_ok_iff.mp rfl
  · exact (hcount 18446744073709551615 (by decide)).2 "b".toList (by decide)
  · intro command h
    obtain ⟨name, arguments, v, hwords, hname, htakes⟩ := (hread _ _).mp h
    have hpieces : Text.pieces "b 18446744073709551616".toList =
        ["b".toList, "18446744073709551616".toList] := by decide +kernel
    obtain ⟨rfl, rfl⟩ := List.cons.inj (hwords.symm.trans hpieces)
    obtain rfl : v = .back :=
      Option.some.inj ((Verb.named?_eq_some_iff.mpr hname).symm.trans (by decide +kernel))
    cases htakes with
    | back hvalue =>
      have hlarge : Text.count "18446744073709551616".toList = .error .tooLarge := rfl
      exact nomatch hlarge.symm.trans (Text.count_eq_ok_iff.mpr hvalue)
  · exact hthird _ "what".toList "is".toList _ [] (by decide +kernel)
  · exact (haround "s".toList " ".toList (by decide)).2
  · exact hbetween "s".toList "2".toList " \u2003 ".toList "\t".toList (by decide) (by decide)
      (by decide) (by decide)

end Debugger
end Brainfuck
