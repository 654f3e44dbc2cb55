import Mathlib.Data.List.Forall2
import Brainfuck.Cell.Rendering
import Brainfuck.Proofs.Numerals

namespace Brainfuck

namespace Text

variable {b : Nat} {values : List Nat}

/-- The numbers between the spaces of a text. The empty text has none. -/
def numbers? (b : Nat) (t : Text) : Option (List Nat) :=
  if t = [] then some [] else (t.splitOn ' ').mapM (number? b)

def spacedDigits (b : Nat) (values : List Nat) : Text := spaced (values.map (Nat.toDigits b))

theorem spaced_cons_cons (piece next : Text) (rest : List Text) :
    spaced (piece :: next :: rest) = piece ++ ' ' :: spaced (next :: rest) := by
  rw [spaced, List.intercalate_cons_cons, List.append_assoc]
  rfl

theorem prefix_spaced (pieces more : List Text) : spaced pieces <+: spaced (pieces ++ more) := by
  induction pieces with
  | nil => exact List.nil_prefix
  | cons piece rest ih =>
    cases rest with
    | nil =>
      cases more with
      | nil => exact List.prefix_rfl
      | cons next more =>
        rw [List.singleton_append, spaced_cons_cons, spaced, List.intercalate_singleton]
        exact List.prefix_append _ _
    | cons next rest =>
      rw [List.cons_append] at ih ⊢
      rw [List.cons_append, spaced_cons_cons, spaced_cons_cons, List.prefix_append_right_inj,
        List.prefix_cons_inj]
      exact ih

theorem spacedDigits_ne_nil (b v : Nat) (rest : List Nat) : spacedDigits b (v :: rest) ≠ [] := by
  cases rest with
  | nil => simp [spacedDigits, spaced, Nat.toDigits_ne_nil]
  | cons w rest =>
    rw [spacedDigits, List.map_cons, List.map_cons, spaced_cons_cons]
    exact List.append_ne_nil_of_right_ne_nil _ (List.cons_ne_nil _ _)

/-- A numeral has no space in it, so that the pieces between the spaces are the numerals. -/
theorem splitOn_spacedDigits (hb : 1 < b) (hle : b ≤ 16) (h : values ≠ []) :
    (spacedDigits b values).splitOn ' ' = values.map (Nat.toDigits b) := by
  apply List.splitOn_intercalate ' '
  · intro piece hpiece
    obtain ⟨v, -, rfl⟩ := List.mem_map.mp hpiece
    exact not_mem_toDigits hb hle (by decide) v
  · simpa using h

theorem mapM_number? (hb : 1 < b) (hle : b ≤ 16) (values : List Nat) :
    (values.map (Nat.toDigits b)).mapM (number? b) = some values := by
  induction values with
  | nil => rfl
  | cons v rest ih => simp [number?_toDigits hb hle, ih]

theorem numbers?_spacedDigits (hb : 1 < b) (hle : b ≤ 16) (values : List Nat) :
    numbers? b (spacedDigits b values) = some values := by
  cases values with
  | nil => rfl
  | cons v rest =>
    rw [numbers?, if_neg (spacedDigits_ne_nil b v rest),
      splitOn_spacedDigits hb hle (List.cons_ne_nil v rest), mapM_number? hb hle]

end Text

namespace Cell

/-- The character that a value is shown as: the one with this code, or else, where no character has
it, U+FFFD. -/
def ShownAs (value : Nat) (c : Char) : Prop :=
  c.toNat = value ∨ c = '\uFFFD' ∧ ∀ d : Char, d.toNat ≠ value

theorem toNat_ofNat {n : Nat} (h : n.isValidChar) : (Char.ofNat n).toNat = n := by
  rw [Char.ofNat, dif_pos h]
  rfl

theorem toChar_toNat (c : Char) : toChar c.toNat = c := by
  have hvalid : c.toNat.isValidChar := c.valid
  rw [toChar, if_pos hvalid, Char.ofNat_toNat]

theorem shownAs_toChar (value : Nat) : ShownAs value (toChar value) := by
  unfold toChar
  split
  · next h => exact .inl (toNat_ofNat h)
  · next h =>
    refine .inr ⟨rfl, ?_⟩
    rintro d rfl
    exact h d.valid

theorem prefix_render (format : CellFormat) {values values' : List Nat} (h : values <+: values') :
    render format values <+: render format values' := by
  obtain ⟨more, rfl⟩ := h
  cases format with
  | ascii => exact (List.prefix_append values more).map toChar
  | hexadecimal =>
    rw [render, render, List.map_append]
    exact Text.prefix_spaced _ _
  | decimal =>
    rw [render, render, List.map_append]
    exact Text.prefix_spaced _ _

theorem length_render_ascii (values : List Nat) : (render .ascii values).length = values.length :=
  List.length_map toChar

/-- Numbers are read back from between the spaces, and the empty text for no cells at all.
Characters stand one for each cell, and the codes of a text are rendered as that text. -/
theorem rendering_read_back :
    (∀ values : List Nat,
      Text.numbers? 10 (render .decimal values) = some values ∧
      Text.numbers? 16 (render .hexadecimal values) = some values ∧
      (render .ascii values).length = values.length ∧
      List.Forall₂ ShownAs values (render .ascii values)) ∧
    ∀ t : Text, render .ascii (t.map Char.toNat) = t := by
  refine ⟨fun values => ⟨?_, ?_, length_render_ascii values, ?_⟩, ?_⟩
  · exact Text.numbers?_spacedDigits (by decide) (by decide) values
  · exact Text.numbers?_spacedDigits (by decide) (by decide) values
  · exact List.forall₂_map_right_iff.mpr (List.forall₂_same.mpr fun v _ => shownAs_toChar v)
  · intro t
    rw [render, List.map_map]
    exact (List.map_congr_left fun c _ => toChar_toNat c).trans (List.map_id t)

end Cell
end Brainfuck
