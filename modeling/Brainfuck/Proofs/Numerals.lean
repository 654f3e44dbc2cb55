import Brainfuck.Text.Numeral

namespace Brainfuck.Text

variable {b d n : Nat} {c : Char}

/-- The value of a digit, in bases that go on with letters after nine. -/
def digitValue? (c : Char) : Option Nat :=
  if c.isDigit then some (c.toNat - '0'.toNat)
  else if c.isLower then some (c.toNat - 'a'.toNat + 10)
  else if c.isUpper then some (c.toNat - 'A'.toNat + 10)
  else none

def withDigit? (b total : Nat) (c : Char) : Option Nat :=
  (digitValue? c).bind fun d => if d < b then some (b * total + d) else none

/-- The number that one or more digits in base `b` stand for. -/
def number? (b : Nat) (t : Text) : Option Nat :=
  if t = [] then none else t.foldlM (withDigit? b) 0

def integer? : Text → Option Int
  | '-' :: digits => (number? 10 digits).map fun n => -(n : Int)
  | digits => (number? 10 digits).map fun n => (n : Int)

theorem exists_digitChar (hb : 1 < b) (h : c ∈ Nat.toDigits b n) :
    ∃ d < b, c = Nat.digitChar d := by
  induction n using Nat.strongRecOn with
  | ind n ih =>
    rw [Nat.toDigits_eq_if hb] at h
    split at h
    · next hn => exact ⟨n, hn, List.mem_singleton.mp h⟩
    · next hn =>
      rcases List.mem_append.mp h with h | h
      · exact ih (n / b) (Nat.div_lt_self (by omega) hb) h
      · exact ⟨n % b, Nat.mod_lt n (by omega), List.mem_singleton.mp h⟩

theorem digitValue?_digitChar (hd : d < 16) : digitValue? (Nat.digitChar d) = some d := by
  have hvalue : ∀ d < 16, digitValue? (Nat.digitChar d) = some d := by decide
  exact hvalue d hd

theorem withDigit?_digitChar (hb : b ≤ 16) (hd : d < b) (total : Nat) :
    withDigit? b total (Nat.digitChar d) = some (b * total + d) := by
  rw [withDigit?, digitValue?_digitChar (by omega), Option.bind_some, if_pos hd]

/-- Up to base sixteen each number has a digit of its own. -/
theorem number?_toDigits (hb : 1 < b) (hle : b ≤ 16) (n : Nat) :
    number? b (Nat.toDigits b n) = some n := by
  rw [number?, if_neg Nat.toDigits_ne_nil]
  induction n using Nat.strongRecOn with
  | ind n ih =>
    rw [Nat.toDigits_eq_if hb]
    split
    · next hn =>
      rw [List.foldlM_cons, withDigit?_digitChar hle hn]
      simp
    · next hn =>
      have hlast := withDigit?_digitChar hle (Nat.mod_lt n (by omega)) (n / b)
      rw [Nat.div_add_mod] at hlast
      rw [List.foldlM_append, ih (n / b) (Nat.div_lt_self (by omega) hb), Option.bind_eq_bind,
        Option.bind_some, List.foldlM_cons, hlast]
      rfl

theorem integer?_integer (i : Int) : integer? (integer i) = some i := by
  cases i with
  | negSucc n =>
    rw [integer, integer?, decimal, number?_toDigits (by decide) (by decide)]
    rfl
  | ofNat n =>
    have hminus : '-' ∉ decimal n := fun h => absurd (isDigit_of_mem_decimal h) (by decide)
    have hnumber : number? 10 (decimal n) = some n := number?_toDigits (by decide) (by decide) n
    rw [integer]
    unfold integer?
    split
    · next heq => exact absurd (heq ▸ List.mem_cons_self) hminus
    · rw [hnumber]
      rfl

theorem not_mem_toDigits (hb : 1 < b) (hle : b ≤ 16) (hc : digitValue? c = none) (n : Nat) :
    c ∉ Nat.toDigits b n := by
  intro h
  obtain ⟨d, hd, rfl⟩ := exists_digitChar hb h
  rw [digitValue?_digitChar (by omega)] at hc
  cases hc

theorem not_mem_integer (hminus : c ≠ '-') (hc : digitValue? c = none) (i : Int) :
    c ∉ integer i := by
  cases i with
  | ofNat n => exact not_mem_toDigits (by decide) (by decide) hc n
  | negSucc n =>
    exact List.not_mem_cons_of_ne_of_not_mem hminus
      (not_mem_toDigits (by decide) (by decide) hc _)

end Brainfuck.Text
