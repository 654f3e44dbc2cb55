import Mathlib.Data.List.Find
import Brainfuck.Proofs.CommandLine.Options

namespace Brainfuck.CommandLine

variable {a b : Arguments} {o o' : Opt}

/-- An option that brings code or input, which it keeps as it was typed. -/
inductive Opt.Brings : Opt → Prop where
  | file : Brings .file
  | input : Brings .input
  | inputFile : Brings .inputFile

namespace Arguments

def placed (a : Arguments) (o : Opt) (value : Text) (given : List Opt) : Arguments :=
  match o with
  | .file => { a with file := some value, given }
  | .input => { a with input := some value, given }
  | .inputFile => { a with inputFile := some value, given }
  | _ => { a with given }

theorem withValue_map {ε α : Type} (o : Opt) (value : Text) (reason : ε → Text)
    (result : Except ε α) (use : α → Arguments) (f : Arguments → Arguments) :
    (withValue o value reason result use).map f =
      withValue o value reason result fun x => f (use x) := by
  cases result <;> rfl

/-- Another option is set alike with and without what was brought. -/
theorem set_placed (ho : o.Brings) (hne : o' ≠ o) (a : Arguments) (value value' : Text)
    (given : List Opt) :
    (a.placed o value given).set o' value' =
      (a.set o' value').map fun b => b.placed o value given := by
  cases o' with
  | endOfInput | cellWidth | format | timeout | maxSteps =>
    simp only [set, withValue_map]
    cases ho <;> rfl
  | breakpoint | noHistory | bare | editor | help => cases ho <;> rfl
  | file | input | inputFile => cases ho <;> first | rfl | exact absurd rfl hne

theorem give_placed (ho : o.Brings) (hne : o' ≠ o) {given : List Opt}
    (hgiven : given.contains o' = a.given.contains o') (value : Text) (value' : Option Text) :
    (a.placed o value given).give o' value' =
      (a.give o' value').map fun b => b.placed o value (given ++ [o']) := by
  have hplaced : (a.placed o value given).given = given := by cases ho <;> rfl
  have hnoted : { a.placed o value given with given := given ++ [o'] } =
      { a with given := a.given ++ [o'] }.placed o value (given ++ [o']) := by
    cases ho <;> rfl
  unfold give
  rw [hplaced, hgiven, hnoted, set_placed ho hne]
  split
  · rfl
  · split <;> rfl

structure Adds (os : List Opt) (a b : Arguments) : Prop where
  given : b.given = a.given ++ os
  code : b.code = a.code
  file : .file ∉ os → b.file = a.file
  input : .input ∉ os → b.input = a.input
  inputFile : .inputFile ∉ os → b.inputFile = a.inputFile

theorem adds_give {value : Option Text} (h : a.give o value = .ok b) : Adds [o] a b := by
  unfold give at h
  split at h
  · cases h
  · split at h
    · cases h
    · cases o with
      | endOfInput | cellWidth | format | timeout | maxSteps =>
        obtain ⟨_, -, rfl⟩ := exists_of_withValue_eq_ok h
        exact ⟨rfl, rfl, fun _ => rfl, fun _ => rfl, fun _ => rfl⟩
      | file | input | inputFile | breakpoint | noHistory | bare | editor | help =>
        obtain rfl := Except.ok.inj h
        constructor <;> simp

theorem Adds.trans {os os' : List Opt} {c : Arguments} (h : Adds os a b) (h' : Adds os' b c) :
    Adds (os ++ os') a c where
  given := by rw [h'.given, h.given, List.append_assoc]
  code := h'.code.trans h.code
  file hnot := by
    rw [h'.file fun hmem => hnot (List.mem_append_right _ hmem),
      h.file fun hmem => hnot (List.mem_append_left _ hmem)]
  input hnot := by
    rw [h'.input fun hmem => hnot (List.mem_append_right _ hmem),
      h.input fun hmem => hnot (List.mem_append_left _ hmem)]
  inputFile hnot := by
    rw [h'.inputFile fun hmem => hnot (List.mem_append_right _ hmem),
      h.inputFile fun hmem => hnot (List.mem_append_left _ hmem)]

theorem adds_giveAll {items : List Given} (h : a.giveAll items = .ok b) :
    Adds (items.map Prod.fst) a b := by
  induction items generalizing a with
  | nil =>
    obtain rfl := Except.ok.inj h
    exact ⟨by simp, rfl, fun _ => rfl, fun _ => rfl, fun _ => rfl⟩
  | cons item items ih =>
    obtain ⟨c, hgive, h⟩ := exists_of_bind_eq_ok h
    exact (adds_give hgive).trans (ih h)

theorem giveAll_placed {items : List Given} (ho : o.Brings) (hne : ∀ item ∈ items, item.1 ≠ o)
    {given : List Opt} (hgiven : ∀ o', o' ≠ o → given.contains o' = a.given.contains o')
    (value : Text) :
    (a.placed o value given).giveAll items =
      (a.giveAll items).map fun b => b.placed o value (given ++ items.map Prod.fst) := by
  induction items generalizing a given with
  | nil => simp [Except.map]
  | cons item items ih =>
    obtain ⟨o', value'⟩ := item
    obtain ⟨hne', hrest⟩ := List.forall_mem_cons.mp hne
    rw [giveAll_cons, giveAll_cons, give_placed ho hne' (hgiven o' hne')]
    cases hgive : a.give o' value' with
    | error refusal => rfl
    | ok b =>
      have hmore (o'' : Opt) (h : o'' ≠ o) :
          (given ++ [o']).contains o'' = b.given.contains o'' := by
        rw [(adds_give hgive).given, List.contains_append, List.contains_append, hgiven o'' h]
      show (b.placed o value (given ++ [o'])).giveAll items = _
      rw [ih hrest hmore, List.append_assoc]
      rfl

/-- One option more, anywhere among the others, is read as if it came last. -/
theorem giveAll_insert {before after : List Given} (ho : o.Brings)
    (hne : ∀ item ∈ before ++ after, item.1 ≠ o) (value : Text) :
    giveAll {} (before ++ (o, some value) :: after) =
      (giveAll {} (before ++ after)).map fun b =>
        b.placed o value (before.map Prod.fst ++ o :: after.map Prod.fst) := by
  rw [giveAll_append, giveAll_append]
  cases hbefore : giveAll {} before with
  | error refusal => rfl
  | ok a =>
    have hgiven : a.given = before.map Prod.fst := (adds_giveAll hbefore).given
    have hfree : a.given.contains o = false := by
      rw [hgiven]
      simpa using fun v hmem => hne (o, v) (List.mem_append_left _ hmem) rfl
    have hgive : a.give o (some value) = .ok (a.placed o value (a.given ++ [o])) := by
      unfold give
      rw [hfree]
      cases ho <;> rfl
    have hmore (o' : Opt) (h : o' ≠ o) : (a.given ++ [o]).contains o' = a.given.contains o' := by
      simp [h]
    show a.giveAll ((o, some value) :: after) = (a.giveAll after).map _
    rw [giveAll_cons, hgive]
    show (a.placed o value (a.given ++ [o])).giveAll after = _
    rw [giveAll_placed ho (fun item hmem => hne item (List.mem_append_right _ hmem)) hmore, hgiven,
      List.append_assoc]
    rfl

end Arguments

namespace Opt

theorem rival?_symm (h : o.rival? = some o') : o'.rival? = some o := by
  revert h
  cases o <;> cases o' <;> decide

def firstRivalled (given : List Opt) : Option Opt :=
  given.find? fun o => o.rival?.any given.contains

theorem firstRivalled_insert {before after : List Opt}
    (h : ∀ o', o.rival? = some o' → o' ∉ before ++ after) :
    firstRivalled (before ++ o :: after) = firstRivalled (before ++ after) := by
  have hothers (x : Opt) (hx : x ∈ before ++ after) :
      x.rival?.any (before ++ o :: after).contains = x.rival?.any (before ++ after).contains := by
    cases hrival : x.rival? with
    | none => rfl
    | some y =>
      have hy : y ≠ o := by
        rintro rfl
        exact h x (rival?_symm hrival) hx
      simp [hy]
  have hself : o.rival?.any (before ++ o :: after).contains = false := by
    cases hrival : o.rival? with
    | none => rfl
    | some y =>
      have hy : y ≠ o := by
        rintro rfl
        revert hrival
        cases y <;> decide
      simpa [hy] using h y hrival
  unfold firstRivalled
  rw [List.find?_append, List.find?_cons, hself, List.find?_append,
    List.find?_congr fun x hx => hothers x (List.mem_append_left _ hx),
    List.find?_congr fun x hx => hothers x (List.mem_append_right _ hx)]

end Opt

namespace Arguments

theorem checkRivals_eq (a : Arguments) :
    a.checkRivals = match Opt.firstRivalled a.given with
      | some o => .error (.rivals o (o.rival?.getD o))
      | none => .ok a := rfl

theorem takeCode_placed (ho : o.Brings) (a : Arguments) (value : Text) (given : List Opt)
    (rest : List Text) :
    (a.placed o value given).takeCode rest = (a.takeCode rest).placed o value given := by
  unfold takeCode
  split <;> cases ho <;> rfl

theorem input_takeCode (a : Arguments) (rest : List Text) :
    (a.takeCode rest).input = a.input ∧ (a.takeCode rest).inputFile = a.inputFile := by
  unfold takeCode
  split <;> exact ⟨rfl, rfl⟩

theorem given_takeCode (a : Arguments) (rest : List Text) : (a.takeCode rest).given = a.given := by
  unfold takeCode
  split <;> rfl

end Arguments

/-- Words that spell options and, anywhere among them, one more. -/
def SpellsWith (options : List Opt) (item : Given) (words : List Text) (items : List Given) :
    Prop :=
  ∃ before after, items = before ++ after ∧ Spells options words (before ++ item :: after)

section

variable {action : Action} {words words' : List Text} {items : List Given} {value : Text}

/-- One option more is read besides the others when neither it nor its rival is among them. -/
theorem read_of_spellsWith (ho : o.Brings) (h : Spells action.options words items)
    (h' : SpellsWith action.options (o, some value) words' items)
    (hne : ∀ item ∈ items, item.1 ≠ o ∧ o.rival? ≠ some item.1) {rest : List Text}
    (hrest : EndsOptions rest) :
    ∃ given, Arguments.read action (words' ++ rest) =
      (Arguments.read action (words ++ rest)).map fun a => a.placed o value given := by
  obtain ⟨before, after, rfl, h'⟩ := h'
  rw [Arguments.read_of_spells h hrest, Arguments.read_of_spells h' hrest,
    Arguments.giveAll_insert ho fun item hmem => (hne item hmem).1]
  generalize hgiven : before.map Prod.fst ++ o :: after.map Prod.fst = given
  refine ⟨given, ?_⟩
  cases hgive : Arguments.giveAll {} (before ++ after) with
  | error refusal => rfl
  | ok a =>
    have hrival (o' : Opt) (ho' : o.rival? = some o') :
        o' ∉ before.map Prod.fst ++ after.map Prod.fst := by
      rw [← List.map_append]
      intro hmem
      obtain ⟨item, hitem, rfl⟩ := List.mem_map.mp hmem
      exact (hne item hitem).2 ho'
    have hfirst : Opt.firstRivalled given = Opt.firstRivalled a.given := by
      rw [← hgiven, Opt.firstRivalled_insert hrival, ← List.map_append]
      exact congrArg _ (Arguments.adds_giveAll hgive).given.symm
    have hplaced : (a.placed o value given).given = given := by cases ho <;> rfl
    show ((a.placed o value given).takeCode rest).checkRivals =
      (a.takeCode rest).checkRivals.map fun a => a.placed o value given
    rw [Arguments.checkRivals_eq, Arguments.given_takeCode, hplaced, hfirst,
      Arguments.takeCode_placed ho, Arguments.checkRivals_eq, Arguments.given_takeCode]
    cases Opt.firstRivalled a.given <;> rfl

theorem read_append (h : Spells action.options words items) {rest : List Text}
    (hrest : EndsOptions rest) :
    Arguments.read action (words ++ rest) =
      (Arguments.read action words).map fun a => a.takeCode rest := by
  have hwords := Arguments.read_of_spells h endsOptions_nil
  rw [List.append_nil] at hwords
  rw [Arguments.read_of_spells h hrest, hwords]
  cases Arguments.giveAll {} items with
  | error refusal => rfl
  | ok a =>
    show (a.takeCode rest).checkRivals = a.checkRivals.map _
    rw [Arguments.checkRivals_eq, Arguments.given_takeCode, Arguments.checkRivals_eq]
    split <;> rfl

end
end Brainfuck.CommandLine
