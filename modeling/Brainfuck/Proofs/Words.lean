import Brainfuck.Text.Blank

namespace Brainfuck.Text

variable {c : Char} {w blanks : Text}

def Blanks (t : Text) : Prop := ∀ c ∈ t, isBlank c = true

instance (t : Text) : Decidable (Blanks t) := List.decidableBAll _ t

/-- What stands between the blanks, where anything does. -/
def pieces (t : Text) : List Text := (t.splitOnP isBlank).filter (· ≠ [])

theorem pieces_append_cons (hc : isBlank c = true) (t u : Text) :
    pieces (t ++ c :: u) = pieces t ++ pieces u := by
  rw [pieces, List.splitOnP_append_cons t u hc, List.filter_append]
  rfl

theorem pieces_of_not_blank (hne : w ≠ []) (h : ∀ c ∈ w, isBlank c = false) :
    pieces w = [w] := by
  rw [pieces, List.splitOnP_eq_singleton h]
  simp [hne]

theorem pieces_cons (hc : isBlank c = true) (t : Text) : pieces (c :: t) = pieces t :=
  pieces_append_cons hc [] t

theorem words_eq_pieces (t : Text) : words t = pieces t := by
  fun_induction words t with
  | case1 => simp [pieces]
  | case2 c rest hblank ih => rw [ih, pieces_cons hblank]
  | case3 c rest hblank ih =>
    have hword : ∀ d ∈ c :: rest.takeWhile (! isBlank ·), isBlank d = false := by
      intro d hd
      rcases List.mem_cons.mp hd with rfl | hd
      · simpa using hblank
      · simpa using List.all_eq_true.mp List.all_takeWhile d hd
    have hsplit : c :: rest =
        c :: rest.takeWhile (! isBlank ·) ++ rest.dropWhile (! isBlank ·) := by
      rw [List.cons_append, List.takeWhile_append_dropWhile]
    rw [hsplit, ih]
    -- what is dropped is nothing, or begins with the blank that ends the word
    cases hdrop : rest.dropWhile (! isBlank ·) with
    | nil => rw [List.append_nil, pieces_of_not_blank (List.cons_ne_nil _ _) hword]; rfl
    | cons b tail =>
      have hb : isBlank b = true := by
        have hhead := List.head?_dropWhile_not (! isBlank ·) rest
        rw [hdrop] at hhead
        simpa using hhead
      rw [pieces_append_cons hb, pieces_of_not_blank (List.cons_ne_nil _ _) hword, pieces_cons hb]
      rfl

theorem words_append_blank (hc : isBlank c = true) (t u : Text) :
    words (t ++ c :: u) = words t ++ words u := by
  rw [words_eq_pieces, words_eq_pieces, words_eq_pieces, pieces_append_cons hc]

theorem words_blanks_append (h : Blanks blanks) (t : Text) : words (blanks ++ t) = words t := by
  induction blanks with
  | nil => rfl
  | cons b rest ih =>
    rw [List.cons_append, words, if_pos (h b List.mem_cons_self)]
    exact ih fun c hc => h c (List.mem_cons_of_mem b hc)

theorem words_append_blanks (t : Text) (h : Blanks blanks) : words (t ++ blanks) = words t := by
  cases blanks with
  | nil => rw [List.append_nil]
  | cons b rest =>
    have hrest : words rest = [] :=
      (words_eq_nil_iff rest).mpr fun c hc => h c (List.mem_cons_of_mem b hc)
    rw [words_append_blank (h b List.mem_cons_self), hrest, List.append_nil]

/-- Blanks keep words apart, however many they are. -/
theorem words_separated (hne : blanks ≠ []) (h : Blanks blanks) (t u : Text) :
    words (t ++ blanks ++ u) = words t ++ words u := by
  cases blanks with
  | nil => exact absurd rfl hne
  | cons b rest =>
    have hrest : Blanks rest := fun c hc => h c (List.mem_cons_of_mem b hc)
    rw [List.append_assoc, List.cons_append, words_append_blank (h b List.mem_cons_self),
      words_blanks_append hrest]

def Trimmed (t : Text) : Prop :=
  t.head?.any isBlank = false ∧ t.getLast?.any isBlank = false

instance (t : Text) : Decidable t.Trimmed := inferInstanceAs (Decidable (_ ∧ _))

theorem dropWhile_isBlank {t : Text} (h : t.head?.any isBlank = false) :
    t.dropWhile isBlank = t := by
  cases t with
  | nil => rfl
  | cons c t => exact List.dropWhile_cons_of_neg (Bool.eq_false_iff.mp h)

theorem trim_padded {t b b' : Text} (hb : Blanks b) (ht : t.Trimmed) (hb' : Blanks b') :
    trim (b ++ t ++ b') = t := by
  cases t with
  | nil =>
    rw [List.append_nil, trim_eq_nil_iff]
    intro c hc
    exact (List.mem_append.mp hc).elim (hb c) (hb' c)
  | cons c t =>
    have hstart : trimStart (b ++ c :: t ++ b') = c :: t ++ b' := by
      rw [trimStart, List.append_assoc, List.dropWhile_append_of_pos hb]
      exact dropWhile_isBlank ht.1
    rw [trim, hstart, trimEnd, List.reverse_append,
      List.dropWhile_append_of_pos fun c hc => hb' c (List.mem_reverse.mp hc),
      dropWhile_isBlank (List.head?_reverse ▸ ht.2), List.reverse_reverse]

theorem blanks_nil : Blanks [] := fun _ h => absurd h List.not_mem_nil

theorem Trimmed.trim {t : Text} (h : t.Trimmed) : trim t = t := by
  simpa using trim_padded blanks_nil h blanks_nil

theorem trimmed_enclosed {l r : Char} (hl : isBlank l = false) (hr : isBlank r = false)
    (t : Text) : Trimmed (l :: t ++ [r]) := by
  refine ⟨hl, ?_⟩
  rw [List.getLast?_concat]
  exact hr

theorem trim_of_not_blank (h : ∀ c ∈ w, isBlank c = false) : trim w = w := by
  have hany {o : Option Char} (ho : ∀ c ∈ o, c ∈ w) : o.any isBlank = false := by
    cases o with
    | none => rfl
    | some c => exact h c (ho c rfl)
  apply Trimmed.trim
  exact ⟨hany fun c hc => List.mem_of_head? hc, hany fun c hc => List.mem_of_getLast? hc⟩

theorem blanks_takeWhile (t : Text) : Blanks (t.takeWhile isBlank) := fun c hc =>
  List.all_eq_true.mp List.all_takeWhile c hc

/-- What is trimmed away are blanks on either side. -/
theorem exists_padding (t : Text) : ∃ b b', Blanks b ∧ Blanks b' ∧ t = b ++ trim t ++ b' := by
  refine ⟨t.takeWhile isBlank, ((trimStart t).reverse.takeWhile isBlank).reverse,
    blanks_takeWhile t, ?_, ?_⟩
  · intro c hc
    exact blanks_takeWhile _ c (List.mem_reverse.mp hc)
  · rw [List.append_assoc, trim, trimEnd, ← List.reverse_append, List.takeWhile_append_dropWhile,
      List.reverse_reverse, trimStart, List.takeWhile_append_dropWhile]

theorem words_trim (t : Text) : words (trim t) = words t := by
  obtain ⟨b, b', hb, hb', ht⟩ := exists_padding t
  calc words (trim t) = words (b ++ trim t) := (words_blanks_append hb _).symm
    _ = words (b ++ trim t ++ b') := (words_append_blanks _ hb').symm
    _ = words t := congrArg words ht.symm

theorem trim_eq_nil_iff_words (t : Text) : trim t = [] ↔ words t = [] := by
  rw [trim_eq_nil_iff, words_eq_nil_iff]

end Brainfuck.Text
