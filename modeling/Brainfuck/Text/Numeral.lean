import Brainfuck.Text.Basic

namespace Brainfuck.Text

def decimal (n : Nat) : Text := Nat.toDigits 10 n

def hexadecimal (n : Nat) : Text := Nat.toDigits 16 n

def capitalHexadecimal (n : Nat) : Text := (hexadecimal n).map Char.toUpper

def integer : Int → Text
  | .ofNat n => decimal n
  | .negSucc n => '-' :: decimal (n + 1)

def countBound : Nat := 0x10000000000000000

inductive CountError where
  | empty
  | invalidDigit
  | tooLarge
  deriving DecidableEq, Repr

def CountError.message : CountError → Text
  | .empty => "cannot parse integer from empty string".toList
  | .invalidDigit => "invalid digit found in string".toList
  | .tooLarge => "number too large to fit in target type".toList

/-- Digits are read from the left, and the first one that is none or goes over the bound decides. -/
def countDigits : Nat → Text → Except CountError Nat
  | total, [] => .ok total
  | total, c :: rest =>
    if c.isDigit then
      let next := 10 * total + (c.toNat - '0'.toNat)
      if next < countBound then countDigits next rest else .error .tooLarge
    else .error .invalidDigit

def count : Text → Except CountError Nat
  | [] => .error .empty
  | ['+'] => .error .invalidDigit
  | '+' :: digits => countDigits 0 digits
  | digits => countDigits 0 digits

theorem isDigit_of_mem_decimal {n : Nat} {c : Char} (h : c ∈ decimal n) : c.isDigit = true :=
  Nat.isDigit_of_mem_toDigits (by decide) (by decide) h

theorem ofDigitChars_decimal (n : Nat) : Nat.ofDigitChars 10 (decimal n) 0 = n :=
  Nat.ofDigitChars_ten_toDigits

theorem decimal_injective {m n : Nat} (h : decimal m = decimal n) : m = n := by
  rw [← ofDigitChars_decimal m, h, ofDigitChars_decimal]

theorem eq_of_countDigits {total n : Nat} {t : Text} (h : countDigits total t = .ok n) :
    n = Nat.ofDigitChars 10 t total := by
  induction t generalizing total with
  | nil => exact (Except.ok.inj h).symm
  | cons c rest ih =>
    rw [countDigits] at h
    split at h
    · dsimp only at h
      split at h
      · exact ih h
      · cases h
    · cases h

theorem eq_of_count_decimal {m n : Nat} (h : count (decimal m) = .ok n) : n = m := by
  have hplus : '+' ∉ decimal m := fun hc => absurd (isDigit_of_mem_decimal hc) (by decide)
  rw [← ofDigitChars_decimal m]
  generalize decimal m = t at h hplus
  unfold count at h
  split at h
  · cases h
  · cases h
  · exact absurd (List.mem_cons_self ..) hplus
  · exact eq_of_countDigits h

end Brainfuck.Text
