import Brainfuck.Proofs.Settings.Document
import Brainfuck.Proofs.Words

namespace Brainfuck.Document

variable {name key value other : Text} {given : List (Text × Text)}

def headerRow (name : Text) : Text := '[' :: name ++ [']']

def quotedRow (key value : Text) : Text := key ++ " = \"".toList ++ value ++ ['"']

def quotedRows (name : Text) (given : List (Text × Text)) : List Text :=
  headerRow name :: given.map fun p => quotedRow p.1 p.2

/-- The document is made of the rows, with or without a line feed after the last one. -/
def MadeOf (document : Text) (rows : List Text) : Prop :=
  document = rows.flatMap Text.line ∨ document = List.intercalate ['\n'] rows

/-- What can stand between the brackets of a header. -/
structure IsName (name : Text) : Prop where
  feed : '\n' ∉ name
  trimmed : name.Trimmed

/-- What can stand before the equals sign of an assignment. -/
structure IsKey (key : Text) : Prop where
  feed : '\n' ∉ key
  trimmed : key.Trimmed
  equals : '=' ∉ key
  comment : key.head? ≠ some '#'

instance (key : Text) : Decidable (IsKey key) :=
  decidable_of_iff ('\n' ∉ key ∧ key.Trimmed ∧ '=' ∉ key ∧ key.head? ≠ some '#')
    ⟨fun ⟨feed, trimmed, equals, comment⟩ => ⟨feed, trimmed, equals, comment⟩,
      fun h => ⟨h.feed, h.trimmed, h.equals, h.comment⟩⟩

theorem entry_headerRow (h : name.Trimmed) : entry (headerRow name) = .header name := by
  have hrow : (headerRow name).Trimmed := Text.trimmed_enclosed (by decide) (by decide) name
  exact entry_eq_header_iff.mpr ⟨name, hrow.trim, h.trim⟩

/-- An empty key leaves a blank at the beginning of its row, which trimming takes away. -/
theorem trim_quotedRow (hkey : IsKey key) (value : Text) :
    ∃ before, Text.trim (quotedRow key value) = before ++ '=' :: " \"".toList ++ value ++ ['"'] ∧
      Text.trim before = key ∧ '=' ∉ before ∧ before.head? ≠ some '#' := by
  cases key with
  | nil =>
    have hrow : Text.Trimmed ('=' :: " \"".toList ++ value ++ ['"']) :=
      Text.trimmed_enclosed (by decide) (by decide) (" \"".toList ++ value)
    refine ⟨[], ?_, rfl, List.not_mem_nil, by decide⟩
    exact (Text.trim_cons_of_blank (by decide) _).trans hrow.trim
  | cons c key =>
    have hc : Text.isBlank c = false := hkey.trimmed.1
    have hrow : (quotedRow (c :: key) value).Trimmed :=
      Text.trimmed_enclosed hc (by decide) (key ++ " = \"".toList ++ value)
    refine ⟨c :: key ++ [' '], ?_, ?_, ?_, hkey.comment⟩
    · rw [hrow.trim, quotedRow]
      simp
    · exact Text.trim_padded (b := []) Text.blanks_nil hkey.trimmed (by decide)
    · simpa using hkey.equals

theorem entry_quotedRow (hkey : IsKey key) (value : Text) :
    entry (quotedRow key value) = .assignment key value := by
  obtain ⟨before, hrow, hbefore, hequals, hcomment⟩ := trim_quotedRow hkey value
  have hcomment' : ¬(before ++ '=' :: " \"".toList ++ value ++ ['"']).head? = some '#' := by
    cases before with
    | nil => exact show ¬some '=' = some '#' by decide
    | cons c before => exact hcomment
  have hheader : Text.enclosed? '[' ']' (before ++ '=' :: " \"".toList ++ value ++ ['"']) = none :=
    Text.enclosed?_concat_of_ne (by decide)
  have hcut : Text.cut? '=' (before ++ '=' :: " \"".toList ++ value ++ ['"']) =
      some (before, " \"".toList ++ value ++ ['"']) :=
    Text.cut?_eq_some_iff.mpr ⟨by simp, hequals⟩
  have hquoted : Text.Trimmed ('"' :: value ++ ['"']) :=
    Text.trimmed_enclosed (by decide) (by decide) value
  have hvalue : Text.trim (" \"".toList ++ value ++ ['"']) = '"' :: value ++ ['"'] :=
    (Text.trim_cons_of_blank (by decide) _).trans hquoted.trim
  have hquotes : Text.enclosed? '"' '"' ('"' :: value ++ ['"']) = some value :=
    Text.enclosed?_eq_some_iff.mpr rfl
  unfold entry
  simp only [hrow, if_neg hcomment', hheader, hcut, hbefore, hvalue, unquote, hquotes]
  rfl

/-- Under its own header the pairs are all there is, and under any other there is none. -/
theorem assignments_quotedRows (hname : name.Trimmed) (hgiven : ∀ p ∈ given, IsKey p.1)
    (other : Text) :
    assignments other false ((quotedRows name given).map entry) =
      if name = other then given else [] := by
  have hrows (inside : Bool) : assignments other inside
      ((given.map fun p => quotedRow p.1 p.2).map entry) = if inside then given else [] := by
    induction given with
    | nil => exact (ite_self _).symm
    | cons p given ih =>
      have hp := entry_quotedRow (hgiven p List.mem_cons_self) p.2
      have hrest := ih fun q hq => hgiven q (List.mem_cons_of_mem p hq)
      rw [List.map_cons, List.map_cons, hp, assignments, hrest]
      cases inside <;> rfl
  rw [quotedRows, List.map_cons, entry_headerRow hname, assignments, hrows]
  simp

theorem lines_of_madeOf {document : Text} {rows : List Text} (h : MadeOf document rows)
    (hrows : ∀ row ∈ rows, row ≠ [] ∧ '\n' ∉ row) : Text.lines document = rows := by
  rcases h with rfl | rfl
  · exact linesBy_flatMap fun row hrow => (hrows row hrow).2
  · exact linesBy_intercalate hrows

theorem value?_eq_some_iff : value? given key = some value ↔
    ∃ before after, given = before ++ (key, value) :: after ∧ ∀ p ∈ after, p.1 ≠ key := by
  rw [value?, List.lookup_eq_some_iff]
  constructor
  · rintro ⟨after, before, hgiven, hafter⟩
    refine ⟨before.reverse, after.reverse, ?_, ?_⟩
    · simpa using congrArg List.reverse hgiven
    · intro p hp
      exact (bne_iff_ne.mp (hafter p (List.mem_reverse.mp hp))).symm
  · rintro ⟨before, after, rfl, hafter⟩
    refine ⟨after.reverse, before.reverse, by simp, ?_⟩
    intro p hp
    exact bne_iff_ne.mpr (hafter p (List.mem_reverse.mp hp)).symm

/-- What is written in quotes is read back as it was: the keys have the values that they were given
last, whatever characters these are made of, and only under their own header. -/
theorem quoted_read_back {document : Text} (hname : IsName name)
    (hgiven : ∀ p ∈ given, IsKey p.1 ∧ '\n' ∉ p.2)
    (hdocument : MadeOf document (quotedRows name given)) :
    pairs name document = given ∧
      (∀ key value, value? (pairs name document) key = some value ↔
        ∃ before after, given = before ++ (key, value) :: after ∧ ∀ p ∈ after, p.1 ≠ key) ∧
      ∀ other, other ≠ name → ∀ key, value? (pairs other document) key = none := by
  have hlines : Text.lines document = quotedRows name given := by
    apply lines_of_madeOf hdocument
    intro row hrow
    rcases List.mem_cons.mp hrow with rfl | hrow
    · exact ⟨by simp [headerRow], by simp [headerRow, hname.feed]⟩
    · obtain ⟨p, hp, rfl⟩ := List.mem_map.mp hrow
      obtain ⟨hkey, hvalue⟩ := hgiven p hp
      exact ⟨by simp [quotedRow], by simp [quotedRow, hkey.feed, hvalue]⟩
  have hpairs (other : Text) : pairs other document = if name = other then given else [] := by
    rw [pairs, hlines]
    exact assignments_quotedRows hname.trimmed (fun p hp => (hgiven p hp).1) other
  refine ⟨(hpairs name).trans (if_pos rfl), ?_, ?_⟩
  · intro key value
    rw [hpairs, if_pos rfl, value?_eq_some_iff]
  · intro other hother key
    rw [hpairs, if_neg hother.symm]
    rfl

/-- A name with brackets and a sharp in it, a key that begins like a header, an empty key given
twice, and values with blanks, quotes, an equals sign and a carriage return at their ends. -/
theorem quoted_read_back_twice :
    let name := "a # ]b".toList
    let given := [("[k".toList, " # \"= ".toList), ([], "a]".toList), ([], "\"\r".toList)]
    let document := "[a # ]b]\n[k = \" # \"= \"\n = \"a]\"\n = \"\"\r\"".toList
    pairs name document = given ∧ value? (pairs name document) [] = some "\"\r".toList ∧
      value? (pairs "engine".toList document) [] = none := by
  intro name given document
  have hname : IsName name := ⟨by decide +kernel, by decide +kernel⟩
  have hgiven : ∀ p ∈ given, IsKey p.1 ∧ '\n' ∉ p.2 := by decide +kernel
  have hdocument : MadeOf document (quotedRows name given) := .inr (by decide +kernel)
  obtain ⟨hpairs, hvalue, hother⟩ := quoted_read_back hname hgiven hdocument
  refine ⟨hpairs, (hvalue _ _).mpr ⟨given.take 2, [], rfl, ?_⟩, hother _ (by decide +kernel) _⟩
  exact fun p hp => absurd hp List.not_mem_nil

end Brainfuck.Document
