import Mathlib.Data.List.Induction
import Mathlib.Order.Bounds.Basic
import Brainfuck.Settings.Layers

namespace Brainfuck

namespace Document

variable {name key other line l : Text} {lines : List Text} {i : Nat}

/-- The line is a header: it has the name of a section between brackets. -/
def Heads (line name : Text) : Prop :=
  ∃ inner, Text.trim line = '[' :: inner ++ [']'] ∧ Text.trim inner = name

/-- The line is no comment and no header, and the key stands before its first equals sign. -/
def Assigns (line key : Text) : Prop :=
  (Text.trim line).head? ≠ some '#' ∧ (∀ name, ¬Heads line name) ∧
    ∃ before after, Text.trim line = before ++ '=' :: after ∧ '=' ∉ before ∧
      Text.trim before = key

/-- The nearest header among the lines, seen from their end, names the section. -/
def Under (name : Text) (lines : List Text) : Prop :=
  ∃ before header after, lines = before ++ header :: after ∧ Heads header name ∧
    ∀ line ∈ after, ∀ other, ¬Heads line other

def places (name key : Text) (lines : List Text) : Set Nat :=
  {i | ∃ line, lines[i]? = some line ∧ Under name (lines.take i) ∧ Assigns line key}

/-- The last line that assigns to the key in a section of the name. -/
def LastAssignment (name key : Text) (lines : List Text) (line : Text) : Prop :=
  ∃ i, IsGreatest (places name key lines) i ∧ lines[i]? = some line

theorem entry_eq_header_iff : entry line = .header name ↔ Heads line name := by
  unfold entry
  dsimp only
  constructor
  · intro h
    split at h
    · cases h
    · split at h
      · next inner hinner =>
        exact ⟨inner, Text.enclosed?_eq_some_iff.mp hinner, Entry.header.inj h⟩
      · split at h <;> cases h
  · rintro ⟨inner, hline, rfl⟩
    have hcomment : ¬(Text.trim line).head? = some '#' := by simp [hline]
    rw [if_neg hcomment, Text.enclosed?_eq_some_iff.mpr hline]

theorem exists_assignment_iff :
    (∃ value, entry line = .assignment key value) ↔ Assigns line key := by
  constructor
  · rintro ⟨value, h⟩
    have hheader : ∀ name, ¬Heads line name := by
      intro name hname
      rw [entry_eq_header_iff.mpr hname] at h
      cases h
    unfold entry at h
    dsimp only at h
    split at h
    · cases h
    · next hcomment =>
      split at h
      · cases h
      · split at h
        · next before after hcut =>
          obtain ⟨hline, hbefore⟩ := Text.cut?_eq_some_iff.mp hcut
          exact ⟨hcomment, hheader, before, after, hline, hbefore, (Entry.assignment.inj h).1⟩
        · cases h
  · rintro ⟨hcomment, hheader, before, after, hline, hbefore, rfl⟩
    -- a header is looked for before an assignment is
    have hnone : Text.enclosed? '[' ']' (Text.trim line) = none := by
      apply Option.eq_none_iff_forall_ne_some.mpr
      intro inner hinner
      exact hheader _ ⟨inner, Text.enclosed?_eq_some_iff.mp hinner, rfl⟩
    refine ⟨unquote (Text.trim after), ?_⟩
    unfold entry
    dsimp only
    rw [if_neg hcomment, hnone, Text.cut?_eq_some_iff.mpr ⟨hline, hbefore⟩]

instance (line key : Text) : Decidable (∃ value, entry line = .assignment key value) :=
  match entry line with
  | .header _ => .isFalse nofun
  | .nothing => .isFalse nofun
  | .assignment k value =>
    decidable_of_iff (k = key) ⟨fun h => ⟨value, congrArg (Entry.assignment · value) h⟩,
      fun h => h.elim fun _ h => (Entry.assignment.inj h).1⟩

instance (line key : Text) : Decidable (Assigns line key) :=
  decidable_of_iff _ exists_assignment_iff

theorem Assigns.unique {key' : Text} (h : Assigns line key) (h' : Assigns line key') :
    key = key' := by
  obtain ⟨value, h⟩ := exists_assignment_iff.mpr h
  obtain ⟨value', h'⟩ := exists_assignment_iff.mpr h'
  exact (Entry.assignment.inj (h.symm.trans h')).1

theorem not_under_nil : ¬Under name [] := by
  rintro ⟨before, header, after, h, -⟩
  simp at h

/-- A header begins a section, and any other line stays in the one there is. -/
theorem under_concat :
    Under name (lines ++ [l]) ↔ Heads l name ∨ Under name lines ∧ ∀ other, ¬Heads l other := by
  constructor
  · rintro ⟨before, header, after, h, hheader, hafter⟩
    rcases List.eq_nil_or_concat after with rfl | ⟨after, last, rfl⟩
    · obtain ⟨-, hl⟩ := List.append_inj' h rfl
      obtain rfl := List.singleton_inj.mp hl
      exact .inl hheader
    · rw [List.concat_eq_append] at h hafter
      have hsplit : lines ++ [l] = (before ++ header :: after) ++ [last] := by simpa using h
      obtain ⟨rfl, hl⟩ := List.append_inj' hsplit rfl
      obtain rfl := List.singleton_inj.mp hl
      refine .inr ⟨⟨before, header, after, rfl, hheader, ?_⟩, hafter l (by simp)⟩
      exact fun line hline => hafter line (by simp [hline])
  · rintro (h | ⟨⟨before, header, after, rfl, hheader, hafter⟩, hl⟩)
    · exact ⟨lines, l, [], rfl, h, fun line hline => absurd hline List.not_mem_nil⟩
    · refine ⟨before, header, after ++ [l], by simp, hheader, ?_⟩
      intro line hline
      rcases List.mem_append.mp hline with hline | hline
      · exact hafter line hline
      · exact List.mem_singleton.mp hline ▸ hl

def within (name : Text) (inside : Bool) (entries : List Entry) : Bool :=
  entries.foldl (fun inside e => match e with | .header other => other == name | _ => inside) inside

theorem assignments_append (name : Text) (inside : Bool) (entries more : List Entry) :
    assignments name inside (entries ++ more) =
      assignments name inside entries ++ assignments name (within name inside entries) more := by
  induction entries generalizing inside with
  | nil => rfl
  | cons e entries ih =>
    cases e with
    | header other => exact ih _
    | nothing => exact ih _
    | assignment key value =>
      cases inside with
      | false => exact ih _
      | true => exact congrArg ((key, value) :: ·) (ih true)

theorem within_iff (name : Text) (lines : List Text) :
    within name false (lines.map entry) = true ↔ Under name lines := by
  induction lines using List.reverseRecOn with
  | nil => exact iff_of_false Bool.false_ne_true not_under_nil
  | append_singleton lines l ih =>
    rw [under_concat, ← ih, List.map_append, within, List.foldl_append]
    simp only [← entry_eq_header_iff]
    cases hl : entry l <;> simp [within, hl]

instance (name : Text) (lines : List Text) : Decidable (Under name lines) :=
  decidable_of_iff _ (within_iff name lines)

theorem lt_length_of_mem_places (h : i ∈ places name key lines) : i < lines.length := by
  obtain ⟨line, hline, -⟩ := h
  exact (List.getElem?_eq_some_iff.mp hline).1

theorem mem_places_concat :
    i ∈ places name key (lines ++ [l]) ↔
      i ∈ places name key lines ∨ i = lines.length ∧ Under name lines ∧ Assigns l key := by
  rcases Nat.lt_trichotomy i lines.length with hi | rfl | hi
  · have hne : i ≠ lines.length := Nat.ne_of_lt hi
    have htake : (lines ++ [l]).take i = lines.take i :=
      List.take_append_of_le_length (Nat.le_of_lt hi)
    simp [places, List.getElem?_append_left hi, htake, hne]
  · simp [places]
  · have hne : i ≠ lines.length := (Nat.ne_of_lt hi).symm
    have hnone : lines[i]? = none := List.getElem?_eq_none (Nat.le_of_lt hi)
    have hnone' : (lines ++ [l])[i]? = none :=
      List.getElem?_eq_none (by rw [List.length_append]; exact hi)
    simp [places, hnone, hnone', hne]

theorem lastAssignment_concat_of (hunder : Under name lines) (hl : Assigns l key) :
    LastAssignment name key (lines ++ [l]) line ↔ l = line := by
  have hgreatest : IsGreatest (places name key (lines ++ [l])) lines.length := by
    refine ⟨mem_places_concat.mpr (.inr ⟨rfl, hunder, hl⟩), ?_⟩
    intro i hi
    exact Nat.le_of_lt_succ (by simpa using lt_length_of_mem_places hi)
  constructor
  · rintro ⟨i, hi, hline⟩
    rw [hi.unique hgreatest] at hline
    simpa using hline
  · rintro rfl
    exact ⟨_, hgreatest, by simp⟩

theorem lastAssignment_concat_of_not (h : ¬(Under name lines ∧ Assigns l key)) :
    LastAssignment name key (lines ++ [l]) line ↔ LastAssignment name key lines line := by
  have hplaces : places name key (lines ++ [l]) = places name key lines := by
    ext i
    rw [mem_places_concat]
    exact or_iff_left fun hi => h hi.2
  unfold LastAssignment
  rw [hplaces]
  refine exists_congr fun i => and_congr_right fun hi => ?_
  rw [List.getElem?_append_left (lt_length_of_mem_places hi.1)]

theorem LastAssignment.mem (h : LastAssignment name key lines line) : line ∈ lines := by
  obtain ⟨i, -, hline⟩ := h
  exact List.mem_of_getElem? hline

theorem LastAssignment.assigns (h : LastAssignment name key lines line) : Assigns line key := by
  obtain ⟨i, ⟨⟨line', hline', -, hassigns⟩, -⟩, hline⟩ := h
  rw [hline] at hline'
  exact Option.some.inj hline' ▸ hassigns

theorem not_lastAssignment_nil : ¬LastAssignment name key [] line :=
  fun h => List.not_mem_nil h.mem

/-- Under one header, of lines that assign to a key each and no two to the same, all are last. -/
theorem lastAssignment_cons_iff {header : Text} (hheader : Heads header name)
    (hrows : ∀ row ∈ lines, ∃ key, Assigns row key)
    (hone : ∀ row ∈ lines, ∀ row' ∈ lines, ∀ key, Assigns row key → Assigns row' key → row = row') :
    LastAssignment name key (header :: lines) line ↔ line ∈ lines ∧ Assigns line key := by
  -- from the end, where the last assignment is looked for
  induction lines using List.reverseRecOn with
  | nil =>
    rw [← List.nil_append [header], lastAssignment_concat_of_not fun h => not_under_nil h.1]
    exact iff_of_false not_lastAssignment_nil fun h => List.not_mem_nil h.1
  | append_singleton lines l ih =>
    have hrows' : ∀ row ∈ lines, ∃ key, Assigns row key :=
      fun row hrow => hrows row (List.mem_append_left _ hrow)
    have hl : l ∈ lines ++ [l] := by simp
    have hunder : Under name (header :: lines) := by
      refine ⟨[], header, lines, rfl, hheader, fun row hrow => ?_⟩
      obtain ⟨key, hrow⟩ := hrows' row hrow
      exact hrow.2.1
    rw [← List.cons_append]
    by_cases hkey : Assigns l key
    · rw [lastAssignment_concat_of hunder hkey]
      constructor
      · rintro rfl
        exact ⟨hl, hkey⟩
      · rintro ⟨hline, hassigns⟩
        exact hone l hl line hline key hkey hassigns
    · rw [lastAssignment_concat_of_not fun h => hkey h.2,
        ih hrows' fun row hrow row' hrow' =>
          hone row (List.mem_append_left _ hrow) row' (List.mem_append_left _ hrow')]
      refine and_congr_left fun hassigns => ?_
      have hne : line ≠ l := by
        rintro rfl
        exact hkey hassigns
      simp [hne]

def lastOfReversed? (name key : Text) : List Text → Option Text
  | [] => none
  | l :: before =>
    if Under name before.reverse ∧ Assigns l key then some l else lastOfReversed? name key before

def last? (name key : Text) (lines : List Text) : Option Text :=
  lastOfReversed? name key lines.reverse

theorem last?_concat :
    last? name key (lines ++ [l]) =
      if Under name lines ∧ Assigns l key then some l else last? name key lines := by
  simp [last?, lastOfReversed?]

theorem last?_eq_some_iff :
    last? name key lines = some line ↔ LastAssignment name key lines line := by
  induction lines using List.reverseRecOn with
  | nil => exact iff_of_false nofun not_lastAssignment_nil
  | append_singleton lines l ih =>
    rw [last?_concat]
    split
    · next h => rw [lastAssignment_concat_of h.1 h.2, Option.some.injEq]
    · next h => rw [lastAssignment_concat_of_not h, ih]

def assigned? (line : Text) : Option Text :=
  match entry line with
  | .assignment _ value => some value
  | _ => none

theorem value?_append (given more : List (Text × Text)) (key : Text) :
    value? (given ++ more) key = (value? more key).or (value? given key) := by
  rw [value?, List.reverse_append, List.lookup_append]
  rfl

theorem value?_assignments_of (h : Assigns l key) :
    value? (assignments name true [entry l]) key = assigned? l := by
  obtain ⟨value, hl⟩ := exists_assignment_iff.mpr h
  simp [assignments, value?, assigned?, hl]

theorem value?_assignments_of_not {inside : Bool} (h : ¬(inside = true ∧ Assigns l key)) :
    value? (assignments name inside [entry l]) key = none := by
  rw [← exists_assignment_iff] at h
  cases hl : entry l with
  | header other => rfl
  | nothing => rfl
  | assignment k value =>
    cases inside with
    | false => rfl
    | true =>
      have hk : key ≠ k := by
        rintro rfl
        exact h ⟨rfl, value, hl⟩
      simp [assignments, value?, hk]

/-- A document gives a key the value of its last assignment. -/
theorem value?_assignments (name key : Text) (lines : List Text) :
    value? (assignments name false (lines.map entry)) key =
      (last? name key lines).bind assigned? := by
  induction lines using List.reverseRecOn with
  | nil => rfl
  | append_singleton lines l ih =>
    rw [List.map_append, assignments_append, value?_append, ih, List.map_singleton, last?_concat]
    split
    · next h =>
      obtain ⟨value, hl⟩ := exists_assignment_iff.mpr h.2
      rw [(within_iff name lines).mpr h.1, value?_assignments_of h.2]
      simp [assigned?, hl]
    · next h =>
      rw [value?_assignments_of_not fun hin => h ⟨(within_iff name lines).mp hin.1, hin.2⟩]
      rfl

end Document

namespace Settings

open Document

variable {document document' : Text}

theorem Key.mem_all (key : Key) : key ∈ all := by cases key <;> decide

theorem Key.name_injective {key key' : Key} (h : key.name = key'.name) : key = key' := by
  revert h
  cases key <;> cases key' <;> decide +kernel

theorem overlay_congr {name : Key → Text} {lookup lookup' : Text → Option Text} {keys : List Key}
    (h : ∀ key, lookup (name key) = lookup' (name key)) (s : Settings) :
    overlay name lookup keys s = overlay name lookup' keys s := by
  induction keys generalizing s with
  | nil => rfl
  | cons key keys ih => simp only [overlay, h, ih]

def last? (document : Text) (key : Key) : Option Text :=
  Document.last? sectionName key.name (Text.lines document)

theorem ofDocument_congr (h : last? document = last? document') :
    ofDocument (some document) = ofDocument (some document') := by
  have hvalue (key : Key) : value? (pairs sectionName document) key.name =
      value? (pairs sectionName document') key.name := by
    rw [pairs, pairs, value?_assignments, value?_assignments]
    exact congrArg (Option.bind · assigned?) (congrFun h key)
  exact congrArg complete (overlay_congr hvalue {})

/-- The header alone on its line, and under it the lines in `rows`. -/
def normalForm (rows : List Text) : Text := ("[engine]".toList :: rows).flatMap Text.line

theorem lines_normalForm {rows : List Text} (h : ∀ row ∈ rows, '\n' ∉ row) :
    Text.lines (normalForm rows) = "[engine]".toList :: rows := by
  apply linesBy_flatMap
  intro row hrow
  rcases List.mem_cons.mp hrow with rfl | hrow
  · decide
  · exact h row hrow

theorem last?_normalForm {rows : List Text} (h : rows.Perm (Key.all.filterMap (last? document))) :
    last? (normalForm rows) = last? document := by
  have hmem (row : Text) : row ∈ rows ↔ ∃ key, last? document key = some row := by
    simp [h.mem_iff, Key.mem_all]
  have hassigns {key : Key} {row : Text} (h : last? document key = some row) :
      Assigns row key.name := (last?_eq_some_iff.mp h).assigns
  have hlines : Text.lines (normalForm rows) = "[engine]".toList :: rows := by
    apply lines_normalForm
    intro row hrow
    obtain ⟨key, hkey⟩ := (hmem row).mp hrow
    exact not_mem_of_mem_linesBy (last?_eq_some_iff.mp hkey).mem
  have hheader : Heads "[engine]".toList sectionName := entry_eq_header_iff.mp (by decide +kernel)
  have hrows : ∀ row ∈ rows, ∃ key, Assigns row key := by
    intro row hrow
    obtain ⟨key, hkey⟩ := (hmem row).mp hrow
    exact ⟨key.name, hassigns hkey⟩
  have hone : ∀ row ∈ rows, ∀ row' ∈ rows, ∀ key, Assigns row key → Assigns row' key →
      row = row' := by
    intro row hrow row' hrow' key h h'
    obtain ⟨k, hk⟩ := (hmem row).mp hrow
    obtain ⟨k', hk'⟩ := (hmem row').mp hrow'
    have hname : k.name = k'.name := ((hassigns hk).unique h).trans (h'.unique (hassigns hk'))
    rw [Key.name_injective hname, hk'] at hk
    exact (Option.some.inj hk).symm
  ext key line
  rw [last?, last?_eq_some_iff, hlines, lastAssignment_cons_iff hheader hrows hone, hmem]
  constructor
  · rintro ⟨⟨key', h⟩, hkey⟩
    rwa [← Key.name_injective ((hassigns h).unique hkey)]
  · intro h
    exact ⟨⟨key, h⟩, hassigns h⟩

/-- A document is as good as its normal form: the header and then, for each key that it sets, the
last line that assigns to the key, whatever the order of these lines. So documents that agree in
these lines give the same settings or the same error. -/
theorem ofDocument_normalForm :
    (∀ (document : Text) (key : Key) (line : Text),
      last? document key = some line ↔
        LastAssignment sectionName key.name (Text.lines document) line) ∧
    (∀ (document : Text) (rows : List Text), rows.Perm (Key.all.filterMap (last? document)) →
      ofDocument (some (normalForm rows)) = ofDocument (some document)) ∧
    ∀ document document' : Text, last? document = last? document' →
      ofDocument (some document) = ofDocument (some document') := by
  refine ⟨fun _ _ _ => last?_eq_some_iff, fun _ _ h => ?_, fun _ _ h => ofDocument_congr h⟩
  exact ofDocument_congr (last?_normalForm h)

/-- The bad width is the error wherever it stands: the flag before it is read after it. -/
theorem ofDocument_normalForm_overridden :
    let document := Text.page ["eof = 0", "[ engine ]", "eof = max", "history = maybe", "mode",
      "# eof = 0", "[colors]", "eof = 0", "", "[engine]", "cell_width=32", "cell_width = 33\r"]
    let rows := ["history = maybe".toList, "cell_width = 33\r".toList, "eof = max".toList]
    ofDocument (some (normalForm rows)) = ofDocument (some document) ∧
      ofDocument (some document) = .error (.width "33".toList) ∧
      ofDocument (some (normalForm rows.reverse)) = ofDocument (some document) :=
  ⟨ofDocument_normalForm.2.1 _ _ (by decide +kernel), by decide +kernel,
    ofDocument_normalForm.2.2 _ _ (funext fun key => by cases key <;> decide +kernel)⟩

end Settings
end Brainfuck
