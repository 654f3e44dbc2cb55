import Brainfuck.Text.Basic

namespace Brainfuck.Text

/-- The code ranges of White_Space, both ends included. -/
def blankRanges : List (Nat × Nat) :=
  [(0x09, 0x0D), (0x20, 0x20), (0x85, 0x85), (0xA0, 0xA0), (0x1680, 0x1680), (0x2000, 0x200A),
    (0x2028, 0x2029), (0x202F, 0x202F), (0x205F, 0x205F), (0x3000, 0x3000)]

def isBlank (c : Char) : Bool :=
  blankRanges.any fun range => range.1 ≤ c.toNat && c.toNat ≤ range.2

def trimStart (t : Text) : Text := t.dropWhile isBlank

def trimEnd (t : Text) : Text := (t.reverse.dropWhile isBlank).reverse

def trim (t : Text) : Text := trimEnd (trimStart t)

def words : Text → List Text
  | [] => []
  | c :: rest =>
    if isBlank c then words rest
    else (c :: rest.takeWhile (! isBlank ·)) :: words (rest.dropWhile (! isBlank ·))
termination_by t => t.length
decreasing_by
  · simp
  · exact Nat.lt_succ_of_le ((List.dropWhile_suffix _).length_le)

theorem words_eq_nil_iff (t : Text) : words t = [] ↔ ∀ c ∈ t, isBlank c = true := by
  induction t with
  | nil => simp [words]
  | cons c rest ih =>
    rw [words]
    by_cases hc : isBlank c = true
    · simp [hc, ih]
    · simp [hc]

theorem trim_cons_of_blank {c : Char} (h : isBlank c = true) (t : Text) :
    trim (c :: t) = trim t := by
  rw [trim, trimStart, List.dropWhile_cons_of_pos h]
  rfl

theorem trim_cons_ne_nil {c : Char} (h : ¬isBlank c = true) (t : Text) : trim (c :: t) ≠ [] := by
  rw [trim, trimStart, List.dropWhile_cons_of_neg h, trimEnd, List.reverse_cons,
    List.dropWhile_append, List.dropWhile_cons_of_neg h]
  split <;> simp

theorem trim_eq_nil_iff (t : Text) : trim t = [] ↔ ∀ c ∈ t, isBlank c = true := by
  induction t with
  | nil => simp [trim, trimStart, trimEnd]
  | cons c rest ih =>
    by_cases hc : isBlank c = true
    · rw [trim_cons_of_blank hc, ih]
      simp [hc]
    · simp [hc, trim_cons_ne_nil hc]

end Brainfuck.Text
