import Brainfuck.Proofs.Debugger.Dialogue
import Brainfuck.Proofs.Debugger.Grammar
import Brainfuck.Proofs.Debugger.Rows

namespace Brainfuck

namespace Debugger

def Segment.unlessEmpty (style : Style) (text : Text) : List Segment :=
  if text = [] then [] else [⟨style, text⟩]

namespace Segment

theorem flatMap_unlessEmpty (style : Style) (text : Text) :
    (unlessEmpty style text).flatMap Segment.text = text := by
  unfold unlessEmpty
  split <;> simp_all

theorem text_ne_nil {style : Style} {text : Text} {segment : Segment}
    (h : segment ∈ unlessEmpty style text) : segment.text ≠ [] := by
  unfold unlessEmpty at h
  split at h <;> simp_all

theorem length_unlessEmpty_le (style : Style) (text : Text) :
    (unlessEmpty style text).length ≤ 1 := by
  unfold unlessEmpty
  split <;> simp

theorem filter_cons (style : Style) (text : Text) (segments : List Segment) :
    (⟨style, text⟩ :: segments).filter (! ·.text.isEmpty) =
      unlessEmpty style text ++ segments.filter (! ·.text.isEmpty) := by
  cases text <;> rfl

end Segment

/-- A line is the blanks in front of it, its first word and the rest. The word begins at the first
character that is not blank, and ends where the next blank comes. -/
structure Parts (line lead word rest : Text) : Prop where
  joined : line = lead ++ word ++ rest
  blank : Text.Blanks lead
  solid : ∀ c ∈ word, Text.isBlank c = false
  first : word = [] → rest = []
  apart : ∀ c ∈ rest.head?, Text.isBlank c = true

variable {line lead word rest message : Text} {style : Style} {s : Session} {command : Command}
  {reply : Reply} {fuel : Nat}

theorem exists_parts (line : Text) :
    ∃ lead word rest, Parts line lead word rest ∧
      segments line = Segment.unlessEmpty {} lead
        ++ Segment.unlessEmpty (if (Command.read line).isOk then knownStyle else unknownStyle) word
        ++ Segment.unlessEmpty argumentStyle rest := by
  refine ⟨line.takeWhile Text.isBlank, (Text.trimStart line).takeWhile (! Text.isBlank ·),
    (Text.trimStart line).dropWhile (! Text.isBlank ·), ⟨?_, ?_, ?_, ?_, ?_⟩, ?_⟩
  · rw [List.append_assoc, List.takeWhile_append_dropWhile, Text.trimStart,
      List.takeWhile_append_dropWhile]
  · exact Text.blanks_takeWhile line
  · intro c hc
    simpa using List.all_eq_true.mp List.all_takeWhile c hc
  · intro hword
    -- a body that is not empty begins with a character of the word
    cases hbody : Text.trimStart line with
    | nil => rfl
    | cons c body =>
      have hhead := List.head?_dropWhile_not Text.isBlank line
      rw [show line.dropWhile Text.isBlank = c :: body from hbody] at hhead
      have hc : (! Text.isBlank c) = true := by simpa using hhead
      rw [hbody, List.takeWhile_cons_of_pos (p := fun c => ! Text.isBlank c) hc] at hword
      cases hword
  · intro c hc
    have hhead := List.head?_dropWhile_not (! Text.isBlank ·) (Text.trimStart line)
    rw [Option.mem_def.mp hc] at hhead
    simpa using hhead
  · rw [segments, Segment.filter_cons, Segment.filter_cons, Segment.filter_cons, List.filter_nil,
      List.append_nil, List.append_assoc]

namespace Parts

theorem trim_eq_nil_iff (h : Parts line lead word rest) : Text.trim line = [] ↔ word = [] := by
  rw [Text.trim_eq_nil_iff, h.joined]
  constructor
  · intro hblank
    by_contra hne
    obtain ⟨c, tail, rfl⟩ := List.exists_cons_of_ne_nil hne
    have hc : Text.isBlank c = true := hblank c (by simp)
    rw [h.solid c List.mem_cons_self] at hc
    cases hc
  · rintro rfl
    rw [h.first rfl, List.append_nil, List.append_nil]
    exact h.blank

end Parts

/-- What is told of a move is the new state, perhaps after a line about how it ended. -/
theorem ne_faultText_of_told {before : Text} (h : before = [] ∨ ∃ row, before = Text.line row)
    (hm : '\n' ∉ message) (m : Machine) : before ++ stateText m ≠ faultText message := by
  intro he
  rcases h with rfl | ⟨row, rfl⟩
  · cases he
  · -- the complaint has only the line feed at its end
    have hcount := congrArg (List.count '\n') he
    have hstate := (rows_stateText m).count_feed
    have hpos : 0 < stateRows m := by
      unfold stateRows
      split <;> omega
    rw [(rows_faultText hm).count_feed, List.count_append, Text.line, List.count_append,
      List.count_singleton_self, hstate] at hcount
    omega

theorem stateText_ne_faultText (hm : '\n' ∉ message) (m : Machine) :
    stateText m ≠ faultText message := by
  have hne : [] ++ stateText m ≠ faultText message := ne_faultText_of_told (.inl rfl) hm m
  rwa [List.nil_append] at hne

theorem stepsText_eq (fault : Option Fault) :
    stepsText fault = [] ∨ ∃ row, stepsText fault = Text.line row := by
  cases fault with
  | none => exact .inl rfl
  | some fault => exact .inr ⟨_, rfl⟩

theorem forward_text (stop : Bool) (count : Nat) (m : Machine) :
    (forward stop count m).1 = [] ∨ ∃ row, (forward stop count m).1 = Text.line row := by
  unfold forward
  split
  · exact .inl rfl
  · split
    · exact .inr ⟨_, rfl⟩
    · exact stepsText_eq _

theorem backward_text (stop : Bool) (count : Nat) (m : Machine) :
    (backward stop count m).1 = [] ∨ ∃ row, (backward stop count m).1 = Text.line row := by
  unfold backward
  split
  · exact .inl rfl
  · split
    · exact .inr ⟨_, rfl⟩
    · exact stepsText_eq _

theorem runText_isLine (x : Except Abort Stop) : ∃ row, runText x = Text.line row := by
  unfold runText
  split <;> exact ⟨_, rfl⟩

namespace Session

/-- The line is answered by performing a command. -/
def Performs (s : Session) (line : Text) : Prop :=
  ∃ command, ∀ fuel, s.respond fuel line = s.perform fuel command

/-- The line is answered by a line about an error, and nothing else happens. -/
def Complains (s : Session) (line : Text) : Prop :=
  ∃ message, '\n' ∉ message ∧ ∀ fuel, s.respond fuel line = some (s.told (faultText message))

theorem ne_faultText_of_answer (h : s.answer fuel command = some reply) (hm : '\n' ∉ message) :
    reply.text ≠ faultText message := by
  cases command with
  | step count =>
    obtain rfl := Option.some.inj h
    exact ne_faultText_of_told (forward_text _ _ _) hm _
  | back count =>
    obtain rfl := Option.some.inj h
    exact ne_faultText_of_told (backward_text _ _ _) hm _
  | run =>
    obtain ⟨⟨x, m⟩, -, rfl⟩ := Option.map_eq_some_iff.mp h
    exact ne_faultText_of_told (.inr (runText_isLine x)) hm m
  | reset =>
    obtain rfl := Option.some.inj h
    exact ne_faultText_of_told (.inl rfl) hm _
  | state =>
    obtain rfl := Option.some.inj h
    exact stateText_ne_faultText hm s.machine
  | memory | output | location | help | quit =>
    obtain rfl := Option.some.inj h
    intro he
    cases he

theorem not_complains_of_performs (h : s.Performs line) : ¬s.Complains line := by
  rintro ⟨message, hm, hcomplaint⟩
  obtain ⟨command, hcommand⟩ := h
  have hreply := (hcommand 0).symm.trans (hcomplaint 0)
  rw [perform] at hreply
  obtain ⟨reply, ha, he⟩ := Option.map_eq_some_iff.mp hreply
  exact ne_faultText_of_answer ha hm (congrArg Reply.text he)

theorem performs_of_ok (s : Session) (h : Command.read line = .ok command) : s.Performs line :=
  ⟨command, respond_of_ok h⟩

theorem complains_of_error (s : Session) {e : CommandError} (h : Command.read line = .error e)
    (hline : Text.trim line ≠ []) : s.Complains line := by
  refine ⟨e.message, Command.feed_not_mem_message h, fun fuel => ?_⟩
  rw [respond, if_neg hline, Command.read_trim, h]

theorem respond_trim (s : Session) (fuel : Nat) (line : Text) :
    s.respond fuel (Text.trim line) = s.respond fuel line :=
  respond_congr (Text.words_trim line) s fuel

end Session

/-- A highlighted line loses nothing: its segments, of which none is empty, are the blanks in front,
the first word and the rest. The word is shown as known exactly when a session, which trims the
line, performs a command rather than complain, and a line without a word is not answered. -/
theorem segments_show_answer (s : Session) (line : Text) :
    (segments line).flatMap Segment.text = line ∧
    (∀ segment ∈ segments line, segment.text ≠ []) ∧
    (segments line).length ≤ 3 ∧
    (∀ fuel, s.respond fuel (Text.trim line) = s.respond fuel line) ∧
    ∃ lead word rest style, Parts line lead word rest ∧
      segments line = Segment.unlessEmpty {} lead ++ Segment.unlessEmpty style word
        ++ Segment.unlessEmpty argumentStyle rest ∧
      (word ≠ [] → (style = knownStyle ↔ s.Performs line) ∧
        (style = unknownStyle ↔ s.Complains line)) ∧
      (word = [] → ∀ fuel, s.respond fuel line = some (s.told [])) := by
  obtain ⟨lead, word, rest, hparts, hsegments⟩ := exists_parts line
  have hline := hparts.trim_eq_nil_iff
  refine ⟨?_, ?_, ?_, fun fuel => s.respond_trim fuel line, lead, word, rest, _, hparts, hsegments,
    ?_, ?_⟩
  · rw [hsegments, hparts.joined]
    simp only [List.flatMap_append, Segment.flatMap_unlessEmpty]
  · intro segment hmem
    rw [hsegments, List.mem_append, List.mem_append] at hmem
    rcases hmem with (hmem | hmem) | hmem <;> exact Segment.text_ne_nil hmem
  · rw [hsegments, List.length_append, List.length_append]
    have hlead := Segment.length_unlessEmpty_le {} lead
    have hword := Segment.length_unlessEmpty_le
      (if (Command.read line).isOk then knownStyle else unknownStyle) word
    have hrest := Segment.length_unlessEmpty_le argumentStyle rest
    omega
  · intro hword
    have hne : knownStyle ≠ unknownStyle := by decide
    cases hread : Command.read line with
    | ok command =>
      have hperforms := s.performs_of_ok hread
      exact ⟨iff_of_true rfl hperforms,
        iff_of_false hne (Session.not_complains_of_performs hperforms)⟩
    | error e =>
      have hcomplains := s.complains_of_error hread (mt hline.mp hword)
      exact ⟨iff_of_false hne.symm fun h => Session.not_complains_of_performs h hcomplains,
        iff_of_true rfl hcomplains⟩
  · intro hword fuel
    rw [Session.respond, if_pos (hline.mpr hword)]

/-- A command in capitals between wide blanks, and a word that is no command. -/
theorem segments_show_answer_wide :
    ∃ s, Session.load "+".toList [] {} = .ok s ∧
      segments "\u2003STEP\t3 ".toList = [⟨{}, "\u2003".toList⟩, ⟨knownStyle, "STEP".toList⟩,
        ⟨argumentStyle, "\t3 ".toList⟩] ∧
      s.Performs "\u2003STEP\t3 ".toList ∧
      segments "fly\u3000".toList = [⟨unknownStyle, "fly".toList⟩,
        ⟨argumentStyle, "\u3000".toList⟩] ∧
      s.Complains "fly\u3000".toList := by
  obtain ⟨s, hload⟩ : ∃ s, Session.load "+".toList [] {} = .ok s := ⟨_, rfl⟩
  have hknown : segments "\u2003STEP\t3 ".toList = [⟨{}, "\u2003".toList⟩,
      ⟨knownStyle, "STEP".toList⟩, ⟨argumentStyle, "\t3 ".toList⟩] := by decide +kernel
  have hunknown : segments "fly\u3000".toList = [⟨unknownStyle, "fly".toList⟩,
      ⟨argumentStyle, "\u3000".toList⟩] := by decide +kernel
  refine ⟨s, hload, hknown, ?_, hunknown, ?_⟩
  · obtain ⟨-, -, -, -, lead, word, rest, style, -, hsegments, hstyle, -⟩ :=
      segments_show_answer s "\u2003STEP\t3 ".toList
    rw [hknown] at hsegments
    have hword : word ≠ [] ∧ style = knownStyle := by
      unfold Segment.unlessEmpty at hsegments
      split at hsegments <;> split at hsegments <;> split at hsegments <;> simp_all
    exact (hstyle hword.1).1.mp hword.2
  · obtain ⟨-, -, -, -, lead, word, rest, style, -, hsegments, hstyle, -⟩ :=
      segments_show_answer s "fly\u3000".toList
    rw [hunknown] at hsegments
    have hword : word ≠ [] ∧ style = unknownStyle := by
      unfold Segment.unlessEmpty at hsegments
      split at hsegments <;> split at hsegments <;> split at hsegments <;>
        simp_all [unknownStyle]
    exact (hstyle hword.1).2.mp hword.2

end Debugger
end Brainfuck
