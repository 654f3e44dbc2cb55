import Brainfuck.Text.Basic

namespace Brainfuck

/-- Cuts at every `feed`, which belongs to no line; what follows the last one is a line only when
it is not empty. -/
def linesBy {α : Type} [DecidableEq α] (feed : α) : List α → List (List α)
  | [] => []
  | a :: rest =>
    if a = feed then [] :: linesBy feed rest
    else match linesBy feed rest with
      | [] => [[a]]
      | first :: others => (a :: first) :: others

section

variable {α : Type} [DecidableEq α] {feed : α}

theorem linesBy_ne_nil {t : List α} (h : t ≠ []) : linesBy feed t ≠ [] := by
  cases t with
  | nil => exact absurd rfl h
  | cons a rest =>
    rw [linesBy]
    split
    · exact List.cons_ne_nil _ _
    · split <;> exact List.cons_ne_nil _ _

theorem linesBy_append (t rest : List α) :
    linesBy feed (t ++ feed :: rest) = linesBy feed (t ++ [feed]) ++ linesBy feed rest := by
  induction t with
  | nil => simp [linesBy]
  | cons a t ih =>
    have hne : linesBy feed (t ++ [feed]) ≠ [] := linesBy_ne_nil (by simp)
    obtain ⟨first, others, hlines⟩ := List.exists_cons_of_ne_nil hne
    simp only [List.cons_append, linesBy, ih, hlines]
    split <;> rfl

theorem linesBy_of_not_mem {t : List α} (h : feed ∉ t) : linesBy feed (t ++ [feed]) = [t] := by
  induction t with
  | nil => simp [linesBy]
  | cons a t ih =>
    have ha : a ≠ feed := (List.ne_of_not_mem_cons h).symm
    have ht : feed ∉ t := List.not_mem_of_not_mem_cons h
    simp [linesBy, ih ht, ha]

theorem exists_linesBy {t : List α} (hne : t ≠ []) (h : feed ∉ t) (rest : List α) :
    ∃ tail others, linesBy feed (t ++ rest) = (t ++ tail) :: others := by
  induction t with
  | nil => exact absurd rfl hne
  | cons a t ih =>
    have ha : a ≠ feed := (List.ne_of_not_mem_cons h).symm
    have ht : feed ∉ t := List.not_mem_of_not_mem_cons h
    rw [List.cons_append, linesBy, if_neg ha]
    cases t with
    | nil =>
      rw [List.nil_append]
      cases linesBy feed rest with
      | nil => exact ⟨[], [], rfl⟩
      | cons first others => exact ⟨first, others, rfl⟩
    | cons b t =>
      obtain ⟨tail, others, hlines⟩ := ih (List.cons_ne_nil b t) ht
      rw [hlines]
      exact ⟨tail, others, rfl⟩

theorem not_mem_of_mem_linesBy {t line : List α} (h : line ∈ linesBy feed t) : feed ∉ line := by
  induction t generalizing line with
  | nil => cases h
  | cons a t ih =>
    rw [linesBy] at h
    split at h
    · rcases List.mem_cons.mp h with rfl | h
      · exact List.not_mem_nil
      · exact ih h
    · next ha =>
      have hfirst (rest : List α) (hrest : feed ∉ rest) : feed ∉ a :: rest := by
        simp [Ne.symm ha, hrest]
      split at h
      · rw [List.mem_singleton.mp h]
        exact hfirst [] List.not_mem_nil
      · next first others hlines =>
        rcases List.mem_cons.mp h with rfl | h
        · exact hfirst first (ih (hlines ▸ List.mem_cons_self))
        · exact ih (hlines ▸ List.mem_cons_of_mem first h)

theorem linesBy_flatMap {rows : List (List α)} (h : ∀ row ∈ rows, feed ∉ row) :
    linesBy feed (rows.flatMap (· ++ [feed])) = rows := by
  induction rows with
  | nil => rfl
  | cons row rows ih =>
    rw [List.flatMap_cons, List.append_assoc, List.singleton_append, linesBy_append,
      linesBy_of_not_mem (h row List.mem_cons_self),
      ih fun r hr => h r (List.mem_cons_of_mem row hr)]
    rfl

/-- The last line needs no line feed, unless it is empty. -/
theorem linesBy_eq_singleton {t : List α} (hne : t ≠ []) (h : feed ∉ t) :
    linesBy feed t = [t] := by
  induction t with
  | nil => exact absurd rfl hne
  | cons a t ih =>
    have ha : a ≠ feed := (List.ne_of_not_mem_cons h).symm
    have ht : feed ∉ t := List.not_mem_of_not_mem_cons h
    rw [linesBy, if_neg ha]
    cases t with
    | nil => rfl
    | cons b t => rw [ih (List.cons_ne_nil b t) ht]

theorem linesBy_intercalate {rows : List (List α)} (h : ∀ row ∈ rows, row ≠ [] ∧ feed ∉ row) :
    linesBy feed (List.intercalate [feed] rows) = rows := by
  induction rows with
  | nil => rfl
  | cons row rows ih =>
    obtain ⟨hne, hrow⟩ := h row List.mem_cons_self
    cases rows with
    | nil => rw [List.intercalate_singleton, linesBy_eq_singleton hne hrow]
    | cons next rows =>
      rw [List.intercalate_cons_cons, List.append_assoc, List.singleton_append, linesBy_append,
        linesBy_of_not_mem hrow, ih fun r hr => h r (List.mem_cons_of_mem row hr)]
      rfl

end

abbrev Bytes := List UInt8

namespace Bytes

def lines (bytes : Bytes) : List Bytes := linesBy 10 bytes

def text? (bytes : Bytes) : Option Text := (String.fromUTF8? ⟨bytes.toArray⟩).map String.toList

def ofText (t : Text) : Bytes := (String.ofList t).toUTF8.data.toList

end Bytes

namespace Text

def lines (t : Text) : List Text := linesBy '\n' t

/-- What stands before the first line feed, or before the carriage return and line feed that end the
first line together. -/
def firstLine : Text → Text
  | [] => []
  | '\n' :: _ => []
  | '\r' :: '\n' :: _ => []
  | c :: rest => c :: firstLine rest

def page (rows : List String) : Text := rows.flatMap fun row => line row.toList

end Text
end Brainfuck
