import Brainfuck.Proofs.Cell.Escaping

namespace Brainfuck

namespace Text

/-- A literal is known by its characters, which takes less to check than decoding it. -/
theorem feed_not_mem_toList {s : String} {t : Text} (hs : s = String.ofList t) (h : '\n' ∉ t) :
    '\n' ∉ s.toList := by
  rwa [hs, String.toList_ofList]

theorem feed_not_mem_decimal (n : Nat) : '\n' ∉ decimal n :=
  not_mem_toDigits (by decide) (by decide) (by decide) n

theorem feed_not_mem_hexadecimal (n : Nat) : '\n' ∉ hexadecimal n :=
  not_mem_toDigits (by decide) (by decide) (by decide) n

theorem feed_not_mem_integer (i : Int) : '\n' ∉ integer i :=
  not_mem_integer (by decide) (by decide) i

theorem feed_not_mem_intercalate {sep : Text} (hsep : '\n' ∉ sep) {pieces : List Text}
    (h : ∀ t ∈ pieces, '\n' ∉ t) : '\n' ∉ List.intercalate sep pieces := by
  induction pieces with
  | nil => exact List.not_mem_nil
  | cons t rest ih =>
    have ht := h t (by simp)
    have hrest := ih fun u hu => h u (by simp [hu])
    cases rest with
    | nil => simpa using ht
    | cons u rest =>
      rw [List.intercalate_cons_cons]
      exact List.not_mem_append (List.not_mem_append ht hsep) hrest

theorem feed_not_mem_spaced {pieces : List Text} (h : ∀ t ∈ pieces, '\n' ∉ t) :
    '\n' ∉ spaced pieces := feed_not_mem_intercalate (by decide) h

theorem feed_not_mem_quoted {t : Text} (h : '\n' ∉ t) : '\n' ∉ quoted t :=
  List.not_mem_append (List.not_mem_append (by decide) h) (by decide)

theorem feed_not_mem_lower {t : Text} (h : '\n' ∉ t) : '\n' ∉ lower t := by
  intro hmem
  obtain ⟨c, hc, hlower⟩ := List.mem_map.mp hmem
  have hfeed : c = '\n' := by
    unfold Char.toLower at hlower
    split at hlower
    · next hcapital =>
      have hlow : 65 ≤ c.val.toNat := UInt32.le_iff_toNat_le.mp hcapital.1
      have hhigh : c.val.toNat ≤ 90 := UInt32.le_iff_toNat_le.mp hcapital.2
      have hsum : (c.val + 32).toNat = 10 := congrArg (fun x : Char => x.val.toNat) hlower
      rw [UInt32.toNat_add] at hsum
      have h32 : (32 : UInt32).toNat = 32 := rfl
      omega
    · exact hlower
  exact h (hfeed ▸ hc)

theorem not_isBlank_of_mem_words {t w : Text} (h : w ∈ words t) {c : Char} (hc : c ∈ w) :
    isBlank c = false := by
  fun_induction words t with
  | case1 => cases h
  | case2 c rest hblank ih => exact ih h
  | case3 d rest hblank ih =>
    rcases List.mem_cons.mp h with rfl | h
    · rcases List.mem_cons.mp hc with rfl | hc
      · simpa using hblank
      · simpa using List.all_eq_true.mp List.all_takeWhile c hc
    · exact ih h

theorem takeWhile_decimal (n : Nat) {c : Char} (hc : c.isDigit = false) (t : Text) :
    (decimal n ++ c :: t).takeWhile Char.isDigit = decimal n := by
  rw [List.takeWhile_append_of_pos fun _ h => isDigit_of_mem_decimal h,
    List.takeWhile_cons_of_neg (by simp [hc]), List.append_nil]

end Text

theorem Cell.feed_not_mem_display (format : CellFormat) (values : List Nat) :
    '\n' ∉ Cell.display format values := by
  cases format with
  | ascii =>
    intro h
    exact absurd (Cell.printable_escape values h).1 (by decide)
  | hexadecimal =>
    apply Text.feed_not_mem_spaced
    simpa using fun n _ => Text.feed_not_mem_hexadecimal n
  | decimal =>
    apply Text.feed_not_mem_spaced
    simpa using fun n _ => Text.feed_not_mem_decimal n

theorem Cell.display_eq_render {format : CellFormat} (h : format ≠ .ascii) (values : List Nat) :
    Cell.display format values = Cell.render format values := by
  cases format with
  | ascii => exact absurd rfl h
  | hexadecimal | decimal => rfl

end Brainfuck
