import Mathlib.Data.List.Forall2
import Brainfuck.Text.Lines

namespace Brainfuck

namespace Bytes

variable {bytes : Bytes} {t : Text}

theorem ofText_eq_flatMap (t : Text) : ofText t = t.flatMap String.utf8EncodeChar := by
  rw [ofText, String.toUTF8_eq_toByteArray, String.toByteArray_ofList, List.utf8Encode,
    List.toList_data_toByteArray]

theorem ofText_append (t u : Text) : ofText (t ++ u) = ofText t ++ ofText u := by
  simp only [ofText_eq_flatMap, List.flatMap_append]

theorem ofText_carriageReturn : ofText ['\r'] = [13] := by
  rw [ofText_eq_flatMap]
  rfl

theorem text?_eq_some_iff : text? bytes = some t ↔ ofText t = bytes := by
  rw [text?, Option.map_eq_some_iff]
  constructor
  · rintro ⟨s, hs, rfl⟩
    unfold String.fromUTF8? at hs
    split at hs
    · obtain rfl := Option.some.inj hs
      rw [ofText, String.ofList_toList]
      rfl
    · cases hs
  · rintro rfl
    have hvalid : (String.ofList t).toUTF8.IsValidUTF8 := (String.ofList t).isValidUTF8
    exact ⟨String.ofList t, dif_pos hvalid, String.toList_ofList⟩

/-- Of the bytes that end a character only its own is a carriage return: the last of several is at
least 128. -/
theorem eq_carriageReturn {c : Char} (h : (String.utf8EncodeChar c).getLast? = some 13) :
    c = '\r' := by
  have hlast {n : Nat} : UInt8.ofNat (n % 64 + 128) ≠ 13 := by
    intro h
    have hvalue := congrArg UInt8.toNat h
    rw [UInt8.toNat_ofNat'] at hvalue
    have h13 : (13 : UInt8).toNat = 13 := rfl
    omega
  unfold String.utf8EncodeChar at h
  dsimp only at h
  split at h
  · next hsmall =>
    rw [List.getLast?_singleton] at h
    have hvalue := congrArg UInt8.toNat (Option.some.inj h)
    rw [UInt8.toNat_ofNat', Nat.mod_eq_of_lt (Nat.lt_of_le_of_lt hsmall (by decide))] at hvalue
    exact Char.ext (UInt32.toNat_inj.mp hvalue)
  · split at h
    · exact absurd (Option.some.inj h) hlast
    · split at h <;> exact absurd (Option.some.inj h) hlast

theorem text?_append_carriageReturn (bytes : Bytes) :
    text? (bytes ++ [13]) = (text? bytes).map (· ++ ['\r']) := by
  ext t
  rw [text?_eq_some_iff, Option.map_eq_some_iff]
  constructor
  · intro h
    rcases List.eq_nil_or_concat t with rfl | ⟨u, c, rfl⟩
    · rw [ofText_eq_flatMap] at h
      exact absurd h (by simp)
    · rw [List.concat_eq_append] at h ⊢
      rw [ofText_append] at h
      have hlast := congrArg List.getLast? h
      rw [ofText_eq_flatMap [c], List.flatMap_singleton,
        List.getLast?_append_of_ne_nil _ String.utf8EncodeChar_ne_nil,
        List.getLast?_concat] at hlast
      obtain rfl := eq_carriageReturn hlast
      rw [ofText_carriageReturn] at h
      exact ⟨u, text?_eq_some_iff.mpr (List.append_cancel_right h), rfl⟩
  · rintro ⟨u, hu, rfl⟩
    rw [ofText_append, ofText_carriageReturn, text?_eq_some_iff.mp hu]

theorem lines_append {a : Bytes} (ha : a = [] ∨ a.getLast? = some 10) (b : Bytes) :
    lines (a ++ b) = lines a ++ lines b := by
  rcases ha with rfl | ha
  · rfl
  · obtain ⟨a, rfl⟩ := List.getLast?_eq_some_iff.mp ha
    rw [List.append_assoc]
    exact linesBy_append a b

theorem lines_append_feed (bytes : Bytes) :
    lines (bytes ++ [10]) = lines bytes ∨ lines (bytes ++ [10]) = lines bytes ++ [[]] := by
  unfold lines
  induction bytes with
  | nil => exact .inr rfl
  | cons b rest ih =>
    simp only [List.cons_append, linesBy]
    by_cases hb : b = 10
    · simp only [if_pos hb]
      exact ih.imp (congrArg ([] :: ·)) (congrArg ([] :: ·))
    · simp only [if_neg hb]
      rcases ih with h | h
      · rw [h]
        exact .inl rfl
      · rw [h]
        cases linesBy 10 rest with
        | nil => exact .inl rfl
        | cons first others => exact .inr rfl

def crlf (bytes : Bytes) : Bytes := bytes.flatMap fun b => if b = 10 then [13, 10] else [b]

theorem lines_crlf (bytes : Bytes) :
    List.Forall₂ (fun l l' => l' = l ∨ l' = l ++ [13]) (lines bytes) (lines (crlf bytes)) := by
  induction bytes with
  | nil => exact .nil
  | cons b rest ih =>
    by_cases hb : b = 10
    · subst hb
      exact .cons (.inr rfl) ih
    · have hcrlf : crlf (b :: rest) = b :: crlf rest := by simp [crlf, hb]
      rw [hcrlf]
      simp only [lines, linesBy, if_neg hb] at ih ⊢
      generalize linesBy 10 rest = l, linesBy 10 (crlf rest) = l' at ih
      cases ih with
      | nil => exact .cons (.inl rfl) .nil
      | cons h hrest =>
        rcases h with rfl | rfl
        · exact .cons (.inl rfl) hrest
        · exact .cons (.inr rfl) hrest

end Bytes
end Brainfuck
