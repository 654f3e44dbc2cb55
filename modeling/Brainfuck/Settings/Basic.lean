import Brainfuck.Text.Blank
import Brainfuck.Text.Numeral

namespace Brainfuck

/-- What a read does to the cell once the input is over. -/
inductive EndOfInput where
  | zero
  | unchanged
  /-- The greatest value of a cell, which is minus one in two's complement. -/
  | greatest
  deriving DecidableEq, Repr

inductive Width where
  | eight
  | thirtyTwo
  deriving DecidableEq, Repr

def Width.bits : Width → Nat
  | .eight => 8
  | .thirtyTwo => 32

def Width.greatest : Width → Nat
  | .eight => 0xFF
  | .thirtyTwo => 0xFFFFFFFF

structure Settings where
  endOfInput : EndOfInput := .zero
  width : Width := .eight
  breakpoint : Option Char := none
  recording : Bool := true
  deriving DecidableEq, Repr

def Settings.greatest (s : Settings) : Nat := s.width.greatest

inductive SettingError where
  | endOfInput (value : Text)
  | width (value : Text)
  | breakpoint (value : Text)
  | flag (name value : Text)
  deriving DecidableEq, Repr

def SettingError.message : SettingError → Text
  | .endOfInput value =>
    "invalid EOF policy ".toList ++ Text.quoted value
      ++ ", expected one of: zero, unchanged, max".toList
  | .width value =>
    "invalid cell width ".toList ++ Text.quoted value ++ ", expected 8 or 32".toList
  | .breakpoint value =>
    "invalid breakpoint ".toList ++ Text.quoted value
      ++ ", expected exactly one character".toList
  | .flag name value =>
    "invalid boolean ".toList ++ Text.quoted value ++ " for ".toList ++ name
      ++ ", expected true or false".toList

namespace EndOfInput

def names : EndOfInput → List Text
  | zero => ["zero".toList, "0".toList]
  | unchanged => ["unchanged".toList, "leave".toList]
  | greatest => ["max".toList, "-1".toList, "minus-one".toList]

/-- Any of the names, whatever its case and the blanks around it. -/
def read (value : Text) : Except SettingError EndOfInput :=
  match [zero, unchanged, greatest].find? fun e =>
      e.names.contains (Text.lower (Text.trim value)) with
  | some e => .ok e
  | none => .error (.endOfInput value)

theorem find?_names (e : EndOfInput) : ∀ word ∈ e.names,
    [zero, unchanged, greatest].find? (·.names.contains word) = some e := by
  cases e <;> decide

theorem read_eq_ok_iff {value : Text} {e : EndOfInput} :
    read value = .ok e ↔ Text.lower (Text.trim value) ∈ e.names := by
  constructor
  · intro h
    unfold read at h
    split at h
    · next found =>
      obtain rfl := Except.ok.inj h
      simpa using List.find?_some found
    · cases h
  · intro h
    simp only [read, find?_names e _ h]

end EndOfInput

namespace Width

def name (w : Width) : Text := Text.decimal w.bits

def read (value : Text) : Except SettingError Width :=
  match [eight, thirtyTwo].find? fun w => w.name == Text.trim value with
  | some w => .ok w
  | none => .error (.width value)

theorem read_eq_ok_iff {value : Text} {w : Width} :
    read value = .ok w ↔ Text.trim value = w.name := by
  constructor
  · intro h
    unfold read at h
    split at h
    · next found =>
      obtain rfl := Except.ok.inj h
      have hname := List.find?_some found
      exact (beq_iff_eq.mp hname).symm
    · cases h
  · intro h
    rw [read, h]
    cases w <;> rfl

end Width

namespace Settings

/-- One character sets the breakpoint and an empty value clears it. -/
def readBreakpoint : Text → Except SettingError (Option Char)
  | [] => .ok none
  | [c] => .ok (some c)
  | value => .error (.breakpoint value)

theorem readBreakpoint_eq_ok_iff {value : Text} {b : Option Char} :
    readBreakpoint value = .ok b ↔ value = b.toList := by
  unfold readBreakpoint
  split <;> cases b <;> simp_all

def flagNames : Bool → List Text
  | true => ["true".toList, "1".toList, "yes".toList, "on".toList]
  | false => ["false".toList, "0".toList, "no".toList, "off".toList]

def readFlag (name value : Text) : Except SettingError Bool :=
  let word := Text.lower (Text.trim value)
  if (flagNames true).contains word then .ok true
  else if (flagNames false).contains word then .ok false
  else .error (.flag name value)

theorem not_mem_flagNames : ∀ word ∈ flagNames false, word ∉ flagNames true := by
  decide

theorem readFlag_eq_ok_iff {name value : Text} {flag : Bool} :
    readFlag name value = .ok flag ↔ Text.lower (Text.trim value) ∈ flagNames flag := by
  have hdisjoint := not_mem_flagNames (Text.lower (Text.trim value))
  simp only [readFlag, List.contains_iff_mem]
  split
  · cases flag <;> simp_all
  · split <;> cases flag <;> simp_all

end Settings
end Brainfuck
