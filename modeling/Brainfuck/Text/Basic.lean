namespace Brainfuck

/-- Unicode scalar values, so that every length, offset and cut counts characters. -/
abbrev Text := List Char

namespace Text

/-- Lower case for the letters A to Z; every other character stays as it is. -/
def lower (t : Text) : Text := t.map Char.toLower

def line (t : Text) : Text := t ++ ['\n']

def spaced (pieces : List Text) : Text := List.intercalate [' '] pieces

def quoted (t : Text) : Text := "'".toList ++ t ++ "'".toList

def enclosed? (left right : Char) : Text → Option Text
  | [] => none
  | c :: rest => if c = left ∧ rest.getLast? = some right then some rest.dropLast else none

def cut? (c : Char) (t : Text) : Option (Text × Text) :=
  match t.dropWhile (· ≠ c) with
  | [] => none
  | _ :: rest => some (t.takeWhile (· ≠ c), rest)

variable {l r c : Char} {t before after inner : Text}

theorem enclosed?_eq_some_iff : enclosed? l r t = some inner ↔ t = l :: inner ++ [r] := by
  cases t with
  | nil => simp [enclosed?]
  | cons a rest =>
    rw [enclosed?]
    split
    · next h =>
      obtain ⟨rfl, hlast⟩ := h
      obtain ⟨body, rfl⟩ := List.getLast?_eq_some_iff.mp hlast
      simp
    · next h =>
      constructor
      · intro he
        cases he
      · intro he
        obtain ⟨rfl, rfl⟩ := List.cons.inj he
        exact absurd ⟨rfl, List.getLast?_concat⟩ h

theorem enclosed?_concat_of_ne (h : c ≠ r) : enclosed? l r (t ++ [c]) = none := by
  apply Option.eq_none_iff_forall_ne_some.mpr
  intro inner hinner
  have hlast := congrArg List.getLast? (enclosed?_eq_some_iff.mp hinner)
  rw [List.getLast?_concat, List.getLast?_concat] at hlast
  exact h (Option.some.inj hlast)

theorem cut?_eq_some_iff :
    cut? c t = some (before, after) ↔ t = before ++ c :: after ∧ c ∉ before := by
  constructor
  · intro h
    rw [cut?] at h
    split at h
    · cases h
    · next d rest hdrop =>
      obtain ⟨rfl, rfl⟩ := Prod.mk.inj (Option.some.inj h)
      obtain rfl : d = c := by
        have hhead := List.head?_dropWhile_not (fun x => decide (x ≠ c)) t
        rw [hdrop] at hhead
        simpa using hhead
      refine ⟨?_, ?_⟩
      · rw [← hdrop, List.takeWhile_append_dropWhile]
      · intro hmem
        simpa using List.all_eq_true.mp List.all_takeWhile d hmem
  · rintro ⟨rfl, hnot⟩
    have hkept : ∀ x ∈ before, decide (x ≠ c) = true := by
      intro x hx
      exact decide_eq_true fun he => hnot (he ▸ hx)
    rw [cut?, List.dropWhile_append_of_pos hkept, List.takeWhile_append_of_pos hkept]
    simp

theorem cut?_append_cons (h : c ∉ before) (after : Text) :
    cut? c (before ++ c :: after) = some (before, after) :=
  cut?_eq_some_iff.mpr ⟨rfl, h⟩

theorem takeWhile_of_cut?_none (h : cut? c t = none) : t.takeWhile (· ≠ c) = t := by
  rw [cut?] at h
  split at h
  · next hdrop =>
    have hwhole := List.takeWhile_append_dropWhile (p := fun x => decide (x ≠ c)) (l := t)
    rwa [hdrop, List.append_nil] at hwhole
  · cases h

theorem takeWhile_of_cut? (h : cut? c t = some (before, after)) :
    t.takeWhile (· ≠ c) = before := by
  rw [cut?] at h
  split at h
  · cases h
  · exact (Prod.mk.inj (Option.some.inj h)).1

end Text
end Brainfuck
