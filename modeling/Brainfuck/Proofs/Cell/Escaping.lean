import Brainfuck.Proofs.Cell.Rendering

namespace Brainfuck

namespace Text

variable {d n : Nat} {t : Text}

def capitalDigit (d : Nat) : Char := (Nat.digitChar d).toUpper

theorem withDigit?_capitalDigit (hd : d < 16) (total : Nat) :
    withDigit? 16 total (capitalDigit d) = some (16 * total + d) := by
  have hvalue : ∀ d < 16, digitValue? (capitalDigit d) = some d := by decide
  rw [withDigit?, hvalue d hd, Option.bind_some, if_pos hd]

theorem number?_twoDigits {a b : Nat} (ha : a < 16) (hb : b < 16) :
    number? 16 [capitalDigit a, capitalDigit b] = some (16 * a + b) := by
  rw [number?, if_neg (List.cons_ne_nil _ _)]
  simp [withDigit?_capitalDigit, ha, hb]

/-- Capital digits have the same values. -/
theorem foldlM_toUpper (h : ∀ c ∈ t, ∃ d < 16, c = Nat.digitChar d) (total : Nat) :
    (t.map Char.toUpper).foldlM (withDigit? 16) total = t.foldlM (withDigit? 16) total := by
  induction t generalizing total with
  | nil => rfl
  | cons c t ih =>
    obtain ⟨d, hd, rfl⟩ := h c List.mem_cons_self
    have hdigit : withDigit? 16 total (Nat.digitChar d).toUpper =
        withDigit? 16 total (Nat.digitChar d) :=
      (withDigit?_capitalDigit hd total).trans (withDigit?_digitChar (by decide) hd total).symm
    have hrest := ih fun c hc => h c (List.mem_cons_of_mem _ hc)
    simp only [List.map_cons, List.foldlM_cons, hdigit, hrest]

theorem number?_capitalHexadecimal (n : Nat) : number? 16 (capitalHexadecimal n) = some n := by
  have hne : hexadecimal n ≠ [] := Nat.toDigits_ne_nil
  have hread : number? 16 (hexadecimal n) = some n := number?_toDigits (by decide) (by decide) n
  have hdigits : ∀ c ∈ hexadecimal n, ∃ d < 16, c = Nat.digitChar d :=
    fun c hc => exists_digitChar (by decide) hc
  rw [number?, if_neg hne] at hread
  rw [number?, capitalHexadecimal, if_neg (mt List.map_eq_nil_iff.mp hne),
    foldlM_toUpper hdigits, hread]

theorem exists_capitalDigit {c : Char} (h : c ∈ capitalHexadecimal n) :
    ∃ d < 16, c = capitalDigit d := by
  obtain ⟨x, hx, rfl⟩ := List.mem_map.mp h
  obtain ⟨d, hd, rfl⟩ := exists_digitChar (by decide) hx
  exact ⟨d, hd, rfl⟩

theorem capitalHexadecimal_of_lt (h : n < 0x10) : capitalHexadecimal n = [capitalDigit n] := by
  rw [capitalHexadecimal, hexadecimal, Nat.toDigits_of_lt_base h]
  rfl

theorem capitalHexadecimal_of_le (h : 0x10 ≤ n) (hle : n ≤ 0xFF) :
    capitalHexadecimal n = [capitalDigit (n / 16), capitalDigit (n % 16)] := by
  rw [capitalHexadecimal, hexadecimal, Nat.toDigits_eq_if (by decide), if_neg (by omega),
    Nat.toDigits_of_lt_base (by omega)]
  rfl

end Text

namespace Cell

variable {v : Nat} {t : Text} {values values' : List Nat}

/-- The forms that a value can take among escapes. -/
inductive Form (v : Nat) : Text → Prop where
  | plain (h : 0x20 ≤ v ∧ v ≤ 0x7E) : Form v [Char.ofNat v]
  | letter {l : Char} (h : (v, l) ∈ [(0x0A, 'n'), (0x0D, 'r'), (0x09, 't')]) : Form v ['\\', l]
  | digits {a b : Nat} (ha : a < 16) (hb : b < 16) (h : 16 * a + b = v) :
    Form v ['\\', 'x', Text.capitalDigit a, Text.capitalDigit b]
  | braces : Form v ('\\' :: 'u' :: '\x7b' :: Text.capitalHexadecimal v ++ ['\x7d'])

theorem form_escapeOne (v : Nat) : Form v (escapeOne v) := by
  unfold escapeOne
  split
  · next h => exact .plain h
  · split
    · next h => exact h ▸ .letter (by decide)
    · split
      · next h => exact h ▸ .letter (by decide)
      · split
        · next h => exact h ▸ .letter (by decide)
        · split
          · next h =>
            rw [Text.capitalHexadecimal_of_lt h]
            exact .digits (a := 0) (by decide) h (by omega)
          · split
            · next hle =>
              rw [Text.capitalHexadecimal_of_le (by omega) hle]
              exact .digits (by omega) (by omega) (by omega)
            · exact .braces

theorem Form.printable (h : Form v t) {c : Char} (hc : c ∈ t) :
    0x20 ≤ c.toNat ∧ c.toNat ≤ 0x7E := by
  have hdigit : ∀ d < 16, 0x20 ≤ (Text.capitalDigit d).toNat ∧
      (Text.capitalDigit d).toNat ≤ 0x7E := by decide
  cases h with
  | plain h =>
    rw [List.mem_singleton.mp hc, toNat_ofNat (.inl (by omega))]
    exact h
  | letter h =>
    simp only [List.mem_cons, Prod.mk.injEq, List.not_mem_nil, or_false] at h hc
    rcases h with ⟨-, rfl⟩ | ⟨-, rfl⟩ | ⟨-, rfl⟩ <;> rcases hc with rfl | rfl <;> decide
  | digits ha hb =>
    simp only [List.mem_cons, List.not_mem_nil, or_false] at hc
    rcases hc with rfl | rfl | rfl | rfl
    · decide
    · decide
    · exact hdigit _ ha
    · exact hdigit _ hb
  | braces =>
    simp only [List.cons_append, List.mem_cons, List.mem_append, List.not_mem_nil, or_false] at hc
    rcases hc with rfl | rfl | rfl | hc | rfl
    · decide
    · decide
    · decide
    · obtain ⟨d, hd, rfl⟩ := Text.exists_capitalDigit hc
      exact hdigit d hd
    · decide

theorem printable_escape (values : List Nat) {c : Char} (hc : c ∈ escape values) :
    0x20 ≤ c.toNat ∧ c.toNat ≤ 0x7E := by
  obtain ⟨v, -, hv⟩ := List.mem_flatMap.mp hc
  exact (form_escapeOne v).printable hv

/-- The value that comes first in a text of escapes, with the text after it. -/
def readEscape : Text → Option (Nat × Text)
  | [] => none
  | '\\' :: 'n' :: rest => some (0x0A, rest)
  | '\\' :: 'r' :: rest => some (0x0D, rest)
  | '\\' :: 't' :: rest => some (0x09, rest)
  | '\\' :: 'x' :: a :: b :: rest => (Text.number? 16 [a, b]).map (·, rest)
  | '\\' :: 'u' :: '\x7b' :: rest =>
    (Text.cut? '\x7d' rest).bind fun cut => (Text.number? 16 cut.1).map (·, cut.2)
  | c :: rest => some (c.toNat, rest)

theorem readEscape_of_ne {c : Char} (h : c ≠ '\\') (rest : Text) :
    readEscape (c :: rest) = some (c.toNat, rest) := by
  unfold readEscape
  split <;> simp_all

/-- What comes after a form cannot be taken for a part of it. -/
theorem Form.readEscape_append (h : Form v t) (hv : v ≠ 0x5C) (rest : Text) :
    readEscape (t ++ rest) = some (v, rest) := by
  cases h with
  | plain h =>
    have hcode : (Char.ofNat v).toNat = v := toNat_ofNat (.inl (by omega))
    have hslash : Char.ofNat v ≠ '\\' := by
      intro he
      exact hv (hcode.symm.trans (congrArg Char.toNat he))
    rw [List.singleton_append, readEscape_of_ne hslash, hcode]
  | letter h =>
    simp only [List.mem_cons, Prod.mk.injEq, List.not_mem_nil, or_false] at h
    rcases h with ⟨rfl, rfl⟩ | ⟨rfl, rfl⟩ | ⟨rfl, rfl⟩ <;> rfl
  | digits ha hb h =>
    show (Text.number? 16 _).map (·, rest) = _
    rw [Text.number?_twoDigits ha hb, h, Option.map_some]
  | braces =>
    have hbrace : '\x7d' ∉ Text.capitalHexadecimal v := by
      intro hc
      obtain ⟨d, hd, he⟩ := Text.exists_capitalDigit hc
      have hdigit : ∀ d < 16, '\x7d' ≠ Text.capitalDigit d := by decide
      exact hdigit d hd he
    have hshape : '\\' :: 'u' :: '\x7b' :: Text.capitalHexadecimal v ++ ['\x7d'] ++ rest =
        '\\' :: 'u' :: '\x7b' :: (Text.capitalHexadecimal v ++ '\x7d' :: rest) := by simp
    rw [hshape, readEscape, Text.cut?_append_cons hbrace, Option.bind_some,
      Text.number?_capitalHexadecimal, Option.map_some]

theorem readEscape_escape_cons (hv : v ≠ 0x5C) (values : List Nat) :
    readEscape (escape (v :: values)) = some (v, escape values) := by
  rw [escape, List.flatMap_cons]
  exact (form_escapeOne v).readEscape_append hv (escape values)

/-- Values without a backslash are told by their escapes, one after the other. -/
theorem eq_of_escape_eq (h : 0x5C ∉ values) (h' : 0x5C ∉ values')
    (he : escape values = escape values') : values = values' := by
  induction values generalizing values' with
  | nil =>
    cases values' with
    | nil => rfl
    | cons w values' =>
      have hread := congrArg readEscape he
      rw [readEscape_escape_cons (List.ne_of_not_mem_cons h').symm] at hread
      cases hread
  | cons v values ih =>
    have hread := congrArg readEscape he
    rw [readEscape_escape_cons (List.ne_of_not_mem_cons h).symm] at hread
    cases values' with
    | nil => cases hread
    | cons w values' =>
      rw [readEscape_escape_cons (List.ne_of_not_mem_cons h').symm] at hread
      obtain ⟨rfl, hrest⟩ := Prod.mk.inj (Option.some.inj hread)
      rw [ih (List.not_mem_of_not_mem_cons h) (List.not_mem_of_not_mem_cons h') hrest]

/-- Escaped cells are printable ASCII, they follow one another as the cells do, and cells that are
escaped alike are the same unless there is a backslash among them. -/
theorem escape_unambiguous :
    (∀ values : List Nat, ∀ c ∈ escape values, 0x20 ≤ c.toNat ∧ c.toNat ≤ 0x7E) ∧
    (∀ values values' : List Nat, escape (values ++ values') = escape values ++ escape values') ∧
    ∀ values values' : List Nat, values ≠ values' → escape values = escape values' →
      0x5C ∈ values ∨ 0x5C ∈ values' := by
  refine ⟨fun values c hc => printable_escape values hc, fun _ _ => List.flatMap_append, ?_⟩
  intro values values' hne he
  by_contra hnone
  obtain ⟨h, h'⟩ := not_or.mp hnone
  exact hne (eq_of_escape_eq h h' he)

/-- The escapes of a line feed and of a character beyond a byte, and their spelling out. -/
theorem escape_unambiguous_spelled :
    let values := [0x41, 0x0A, 0x1F600]
    let spelled := "A\\n\\u\x7b1F600\x7d".toList.map Char.toNat
    values ≠ spelled ∧ escape values = escape spelled ∧ (0x5C ∈ values ∨ 0x5C ∈ spelled) := by
  have hne : [0x41, 0x0A, 0x1F600] ≠ "A\\n\\u\x7b1F600\x7d".toList.map Char.toNat := by decide
  have he : escape [0x41, 0x0A, 0x1F600] =
      escape ("A\\n\\u\x7b1F600\x7d".toList.map Char.toNat) := by decide +kernel
  exact ⟨hne, he, escape_unambiguous.2.2 _ _ hne he⟩

end Cell
end Brainfuck
