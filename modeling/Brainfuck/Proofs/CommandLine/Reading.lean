import Brainfuck.CommandLine.Request

namespace Brainfuck.CommandLine

theorem exists_of_bind_eq_ok {ε α β : Type} {x : Except ε α} {f : α → Except ε β} {b : β}
    (h : x >>= f = .ok b) : ∃ a, x = .ok a ∧ f a = .ok b := by
  cases x with
  | error e => cases h
  | ok a => exact ⟨a, rfl, h⟩

namespace Opt

theorem long_injective {o o' : Opt} (h : o.long = o'.long) : o = o' := by
  revert h
  cases o <;> cases o' <;> decide

theorem short?_injective {o o' : Opt} {c : Char} (h : o.short? = some c) (h' : o'.short? = some c) :
    o = o' := by
  have heq := h.trans h'.symm
  clear h'
  cases o <;> cases o' <;> first | rfl | exact absurd heq (by decide) | cases h

theorem of_find?_long {options : List Opt} {name : Text} {o : Opt}
    (h : options.find? (fun o => o.long == name) = some o) : o ∈ options ∧ o.long = name :=
  ⟨List.mem_of_find?_eq_some h, by simpa using List.find?_some h⟩

theorem of_find?_short {options : List Opt} {c : Char} {o : Opt}
    (h : options.find? (fun o => o.short? == some c) = some o) : o ∈ options ∧ o.short? = some c :=
  ⟨List.mem_of_find?_eq_some h, by simpa using List.find?_some h⟩

end Opt

theorem exists_of_withValue_eq_ok {ε α : Type} {o : Opt} {value : Text} {reason : ε → Text}
    {result : Except ε α} {use : α → Arguments} {a : Arguments}
    (h : Arguments.withValue o value reason result use = .ok a) :
    ∃ x, result = .ok x ∧ use x = a := by
  cases result with
  | error e => cases h
  | ok x => exact ⟨x, rfl, Except.ok.inj h⟩

/-- The arguments of a run and of a bare debugger, with the same values of the options that both
know. The run has a step limit and a format, which can therefore not be given again. -/
structure Matched (limit : Nat) (format : CellFormat) (a b : Arguments) : Prop where
  file : a.file = b.file
  input : a.input = b.input
  inputFile : a.inputFile = b.inputFile
  endOfInput : a.endOfInput = b.endOfInput
  cellWidth : a.cellWidth = b.cellWidth
  breakpoint : a.breakpoint = b.breakpoint
  help : a.help = b.help
  code : a.code = b.code
  runLimit : a.maxSteps = some limit
  debugLimit : b.maxSteps = some limit
  limited : a.given.contains .maxSteps = true
  format : a.format = format
  formatted : a.given.contains .format = true
  bare : b.bare = true

variable {limit : Nat} {format : CellFormat} {a b a' b' : Arguments} {r q r' q' : Reading}

namespace Matched

theorem withCode (h : Matched limit format a b) (code : List Text) :
    Matched limit format { a with code } { b with code } :=
  { h with code := rfl }

theorem withGiven (h : Matched limit format a b) (o : Opt) :
    Matched limit format { a with given := a.given ++ [o] } { b with given := b.given ++ [o] } :=
  { h with
    limited := by simpa using .inl (by simpa using h.limited)
    formatted := by simpa using .inl (by simpa using h.formatted) }

theorem set (h : Matched limit format a b) {o : Opt} {value : Text} (hl : o ≠ .maxSteps)
    (hf : o ≠ .format) (ha : a.set o value = .ok a') (hb : b.set o value = .ok b') :
    Matched limit format a' b' := by
  cases o with
  | maxSteps => exact absurd rfl hl
  | format => exact absurd rfl hf
  | endOfInput =>
    obtain ⟨e, he, rfl⟩ := exists_of_withValue_eq_ok ha
    obtain ⟨e', he', rfl⟩ := exists_of_withValue_eq_ok hb
    obtain rfl := Except.ok.inj (he.symm.trans he')
    exact { h with endOfInput := rfl }
  | cellWidth =>
    obtain ⟨w, hw, rfl⟩ := exists_of_withValue_eq_ok ha
    obtain ⟨w', hw', rfl⟩ := exists_of_withValue_eq_ok hb
    obtain rfl := Except.ok.inj (hw.symm.trans hw')
    exact { h with cellWidth := rfl }
  | timeout =>
    obtain ⟨t, -, rfl⟩ := exists_of_withValue_eq_ok ha
    obtain ⟨t', -, rfl⟩ := exists_of_withValue_eq_ok hb
    exact { h with }
  | file | input | inputFile | breakpoint | noHistory | bare | editor | help =>
    obtain rfl := Except.ok.inj ha
    obtain rfl := Except.ok.inj hb
    cases h
    constructor <;> first | rfl | assumption

theorem give (h : Matched limit format a b) {o : Opt} {value : Option Text}
    (ha : a.give o value = .ok a') (hb : b.give o value = .ok b') :
    Matched limit format a' b' := by
  unfold Arguments.give at ha hb
  split at ha
  · cases ha
  · split at ha
    · cases ha
    · next hvalue hgiven =>
      rw [if_neg hvalue] at hb
      split at hb
      · cases hb
      · refine (h.withGiven o).set ?_ ?_ ha hb
        · rintro rfl
          exact hgiven h.limited
        · rintro rfl
          exact hgiven h.formatted

end Matched

def Dashed (word : Text) : Prop := ∃ c letters, word = '-' :: c :: letters

theorem not_dashed_of_ne {word : Text} (h : ∀ c letters, word = '-' :: c :: letters → False) :
    ¬Dashed word := fun ⟨c, letters, he⟩ => h c letters he

theorem not_dashed_decimal (n : Nat) : ¬Dashed (Text.decimal n) := by
  rintro ⟨c, letters, h⟩
  have hmem : '-' ∈ Text.decimal n := h ▸ List.mem_cons_self
  exact absurd (Text.isDigit_of_mem_decimal hmem) (by decide)

section

variable {options : List Opt} {word : Text} {rest : List Text}

theorem Reading.takeWords_of_waiting {o : Opt} (hword : ¬Dashed word)
    (h : r.waiting = some (o, none)) :
    r.takeWords options (word :: rest) =
      takeWords options rest { r with waiting := some (o, some word) } := by
  rw [takeWords, h]
  · exact fun he => hword ⟨'-', [], he⟩
  · exact fun body he => hword ⟨'-', body, he⟩
  · exact fun c letters he => hword ⟨c, letters, he⟩

theorem Reading.takeWords_of_free (hword : ¬Dashed word)
    (h : ∀ o, r.waiting ≠ some (o, none)) :
    r.takeWords options (word :: rest) =
      r.settle >>= fun a => .ok { a with code := word :: rest } := by
  rw [takeWords]
  · split
    · next o ho => exact absurd ho (h o)
    · rfl
  · exact fun he => hword ⟨'-', [], he⟩
  · exact fun body he => hword ⟨'-', body, he⟩
  · exact fun c letters he => hword ⟨c, letters, he⟩

end

/-- A letter that is taken is that of an option, which is a flag or ends the letters. -/
theorem Reading.exists_of_takeShort_cons {options : List Opt} {c : Char} {rest : Text} :
    r.takeShort options (c :: rest) = .ok q →
    ∃ o, options.find? (fun o => o.short? == some c) = some o ∧
      (if o.isFlag then r.take o none >>= takeShort options rest
        else match rest with
          | [] => r.await o
          | '=' :: value => r.take o (some value)
          | value => r.take o (some value)) = .ok q := by
  intro h
  rw [takeShort] at h
  split at h
  · cases h
  · next o ho => exact ⟨o, ho, h⟩

/-- Two readings of the same words, as far as they have come. What an option with its value comes to
is not known before it is settled. -/
inductive Reading.Alike (limit : Nat) (format : CellFormat) : Reading → Reading → Prop where
  | awaiting {a b : Arguments} (o : Opt) (h : Matched limit format a b) :
    Alike limit format ⟨a, some (o, none)⟩ ⟨b, some (o, none)⟩
  | settled {r r' : Reading} (free : ∀ o, r.waiting ≠ some (o, none))
    (free' : ∀ o, r'.waiting ≠ some (o, none))
    (h : ∀ a b, r.settle = .ok a → r'.settle = .ok b → Matched limit format a b) :
    Alike limit format r r'

namespace Reading.Alike

theorem settle (h : Alike limit format r r') (ha : r.settle = .ok a) (hb : r'.settle = .ok b) :
    Matched limit format a b := by
  cases h with
  | awaiting o h => exact h.give ha hb
  | settled _ _ h => exact h a b ha hb

theorem of_matched (h : Matched limit format a b) : Alike limit format { arguments := a }
    { arguments := b } := by
  refine .settled nofun nofun ?_
  rintro _ _ ⟨⟩ ⟨⟩
  exact h

theorem take (h : Alike limit format r r') {o : Opt} {value : Option Text}
    (hq : r.take o value = .ok q) (hq' : r'.take o value = .ok q') : Alike limit format q q' := by
  obtain ⟨s, hs, hq⟩ := exists_of_bind_eq_ok hq
  obtain ⟨a, ha, hq⟩ := exists_of_bind_eq_ok hq
  obtain ⟨s', hs', hq'⟩ := exists_of_bind_eq_ok hq'
  obtain ⟨b, hb, hq'⟩ := exists_of_bind_eq_ok hq'
  obtain rfl := Except.ok.inj hq
  obtain rfl := Except.ok.inj hq'
  exact .of_matched ((h.settle hs hs').give ha hb)

theorem await (h : Alike limit format r r') {o : Opt} (hq : r.await o = .ok q)
    (hq' : r'.await o = .ok q') : Alike limit format q q' := by
  obtain ⟨a, ha, hq⟩ := exists_of_bind_eq_ok hq
  obtain ⟨b, hb, hq'⟩ := exists_of_bind_eq_ok hq'
  obtain rfl := Except.ok.inj hq
  obtain rfl := Except.ok.inj hq'
  exact .awaiting o (h.settle ha hb)

variable {options options' : List Opt}

theorem takeLong (h : Alike limit format r r') {body : Text}
    (hq : r.takeLong options body = .ok q) (hq' : r'.takeLong options' body = .ok q') :
    Alike limit format q q' := by
  unfold Reading.takeLong at hq hq'
  dsimp only at hq hq'
  split at hq
  · cases hq
  · next o ho =>
    split at hq'
    · cases hq'
    · next o' ho' =>
      have hname := (Opt.of_find?_long ho).2
      obtain rfl := Opt.long_injective (hname.trans (Opt.of_find?_long ho').2.symm)
      split at hq
      · next hflag hvalue =>
        simp only [hflag, hvalue] at hq'
        exact h.take hq hq'
      · cases hq
      · next hflag hvalue =>
        simp only [hflag, hvalue] at hq'
        exact h.await hq hq'
      · next hflag hvalue =>
        simp only [hflag, hvalue] at hq'
        exact h.take hq hq'

theorem takeShort (h : Alike limit format r r') {letters : Text}
    (hq : r.takeShort options letters = .ok q) (hq' : r'.takeShort options' letters = .ok q') :
    Alike limit format q q' := by
  have hsame {c : Char} {o o' : Opt} (ho : options.find? (fun o => o.short? == some c) = some o)
      (ho' : options'.find? (fun o => o.short? == some c) = some o') : o' = o :=
    Opt.short?_injective (Opt.of_find?_short ho').2 (Opt.of_find?_short ho).2
  fun_induction Reading.takeShort options letters r generalizing r' with
  | case1 r =>
    obtain rfl := Except.ok.inj hq
    obtain rfl := Except.ok.inj hq'
    exact h
  | case2 => cases hq
  | case3 r c rest o ho hflag ih =>
    obtain ⟨o', ho', hq'⟩ := exists_of_takeShort_cons hq'
    rw [hsame ho ho', if_pos hflag] at hq'
    obtain ⟨p, hp, hq⟩ := exists_of_bind_eq_ok hq
    obtain ⟨p', hp', hq'⟩ := exists_of_bind_eq_ok hq'
    exact ih p (h.take hp hp') hq hq'
  | case4 r c o ho hflag =>
    obtain ⟨o', ho', hq'⟩ := exists_of_takeShort_cons hq'
    rw [hsame ho ho', if_neg hflag] at hq'
    exact h.await hq hq'
  | case5 r c o ho hflag value =>
    obtain ⟨o', ho', hq'⟩ := exists_of_takeShort_cons hq'
    rw [hsame ho ho', if_neg hflag] at hq'
    exact h.take hq hq'
  | case6 r c o ho hflag value hne hne' =>
    obtain ⟨o', ho', hq'⟩ := exists_of_takeShort_cons hq'
    rw [hsame ho ho', if_neg hflag] at hq'
    split at hq'
    · exact absurd rfl hne
    · exact absurd rfl (hne' _)
    · exact h.take hq hq'

theorem takeWords (h : Alike limit format r r') {words : List Text}
    (ha : r.takeWords options words = .ok a) (hb : r'.takeWords options' words = .ok b) :
    Matched limit format a b := by
  fun_induction Reading.takeWords options words r generalizing r' with
  | case1 r => exact h.settle ha hb
  | case2 r rest =>
    obtain ⟨s, hs, ha⟩ := exists_of_bind_eq_ok ha
    obtain ⟨s', hs', hb⟩ := exists_of_bind_eq_ok hb
    obtain rfl := Except.ok.inj ha
    obtain rfl := Except.ok.inj hb
    exact (h.settle hs hs').withCode _
  | case3 r rest body hbody ih =>
    rw [Reading.takeWords] at hb
    · obtain ⟨q, hq, ha⟩ := exists_of_bind_eq_ok ha
      obtain ⟨q', hq', hb⟩ := exists_of_bind_eq_ok hb
      exact ih q (h.takeLong hq hq') ha hb
    · exact hbody
  | case4 r rest c letters hdash hdash' ih =>
    rw [Reading.takeWords] at hb
    · obtain ⟨q, hq, ha⟩ := exists_of_bind_eq_ok ha
      obtain ⟨q', hq', hb⟩ := exists_of_bind_eq_ok hb
      exact ih q (h.takeShort hq hq') ha hb
    · exact hdash
    · exact hdash'
  | case5 word rest r o hwaiting _ _ hword ih =>
    -- one side waits for a value, so the other waits for the same, and both take the word as it
    cases h with
    | awaiting o' h =>
      rw [takeWords_of_waiting (not_dashed_of_ne hword) rfl] at hb
      obtain rfl := (Prod.mk.inj (Option.some.inj hwaiting)).1
      refine ih (.settled ?_ ?_ ?_) ha hb
      · rintro _ ⟨⟩
      · rintro _ ⟨⟩
      · intro s s' hs hs'
        exact h.give hs hs'
    | settled free => exact absurd hwaiting (free o)
  | case6 word rest r _ _ hword hwaiting =>
    -- with nothing awaited, the code begins at this word on both sides
    cases h with
    | awaiting o' h => exact absurd rfl (hwaiting o')
    | settled free free' h =>
      rw [takeWords_of_free (not_dashed_of_ne hword) free'] at hb
      obtain ⟨s, hs, ha⟩ := exists_of_bind_eq_ok ha
      obtain ⟨s', hs', hb⟩ := exists_of_bind_eq_ok hb
      obtain rfl := Except.ok.inj ha
      obtain rfl := Except.ok.inj hb
      exact (h _ _ hs hs').withCode _

end Reading.Alike

theorem eq_of_checkRivals_eq_ok (h : a.checkRivals = .ok b) : b = a := by
  unfold Arguments.checkRivals at h
  split at h
  · cases h
  · exact (Except.ok.inj h).symm

theorem Request.read_name (action : Action) (words : List Text) :
    Request.read (action.name :: words) =
      Arguments.read action words >>= fun a => .ok (.act action a) := by
  cases action <;> rfl

theorem takeWords_of_read (action : Action) {words : List Text}
    (h : Request.read (action.name :: words) = .ok (.act action a)) :
    Reading.takeWords action.options words {} = .ok a := by
  rw [Request.read_name] at h
  obtain ⟨b, hb, h⟩ := exists_of_bind_eq_ok h
  obtain ⟨-, rfl⟩ := Request.act.inj (Except.ok.inj h)
  obtain ⟨c, hc, hb⟩ := exists_of_bind_eq_ok hb
  exact eq_of_checkRivals_eq_ok hb ▸ hc

/-- An option by its name waits for its value once the one before it is settled. -/
theorem Reading.exists_of_takeWords_long {options : List Opt} {o : Opt} {body : Text}
    {rest : List Text} (hbody : body ≠ []) (ho : r.takeLong options body = r.await o)
    (h : r.takeWords options (('-' :: '-' :: body) :: rest) = .ok a) :
    ∃ s, r.settle = .ok s ∧ takeWords options rest ⟨s, some (o, none)⟩ = .ok a := by
  rw [takeWords, ho] at h
  · obtain ⟨q, hq, h⟩ := exists_of_bind_eq_ok h
    obtain ⟨s, hs, hq⟩ := exists_of_bind_eq_ok hq
    obtain rfl := Except.ok.inj hq
    exact ⟨s, hs, h⟩
  · exact hbody

/-- A run that is given a step limit and a format, and a bare debugger that is given the limit, are
matched by whatever else they are both given. -/
theorem matched_of_read {n : Nat} {name : Text} {rest : List Text}
    (hname : CellFormat.read name = .ok format)
    (hword : ¬Dashed name)
    (ha : Request.read ("run".toList :: "--max-steps".toList :: Text.decimal n ::
      "--format".toList :: name :: rest) = .ok (.act .run a))
    (hb : Request.read ("debug".toList :: "--bare".toList :: "--max-steps".toList ::
      Text.decimal n :: rest) = .ok (.act .debug b)) :
    Matched n format a b := by
  have hdecimal := not_dashed_decimal n
  replace ha := takeWords_of_read .run ha
  obtain ⟨_, ⟨⟩, ha⟩ := Reading.exists_of_takeWords_long (o := .maxSteps) (by simp) rfl ha
  rw [Reading.takeWords_of_waiting hdecimal rfl] at ha
  obtain ⟨s, hs, ha⟩ := Reading.exists_of_takeWords_long (o := .format) (by simp) rfl ha
  rw [Reading.takeWords_of_waiting hword rfl] at ha
  replace hb := takeWords_of_read .debug hb
  have hbare : Reading.takeWords Action.debug.options ("--bare".toList :: "--max-steps".toList ::
      Text.decimal n :: rest) {} =
      Reading.takeWords Action.debug.options ("--max-steps".toList :: Text.decimal n :: rest)
        { arguments := { bare := true, given := [.bare] } } := rfl
  rw [hbare] at hb
  obtain ⟨_, ⟨⟩, hb⟩ := Reading.exists_of_takeWords_long (o := .maxSteps) (by simp) rfl hb
  rw [Reading.takeWords_of_waiting hdecimal rfl] at hb
  -- each side still has its last option to settle: the format on one, the limit on the other
  refine Reading.Alike.takeWords (.settled ?_ ?_ ?_) ha hb
  · rintro _ ⟨⟩
  · rintro _ ⟨⟩
  · intro a b ha hb
    obtain ⟨k, hk, rfl⟩ := exists_of_withValue_eq_ok
      (show Arguments.set _ .maxSteps (Text.decimal n) = .ok _ from hs)
    obtain ⟨f, hf, rfl⟩ := exists_of_withValue_eq_ok
      (show Arguments.set _ .format name = .ok _ from ha)
    obtain ⟨k', hk', rfl⟩ := exists_of_withValue_eq_ok
      (show Arguments.set _ .maxSteps (Text.decimal n) = .ok _ from hb)
    obtain rfl := Text.eq_of_count_decimal hk
    obtain rfl := Text.eq_of_count_decimal hk'
    obtain rfl := Except.ok.inj (hf.symm.trans hname)
    constructor <;> rfl

end Brainfuck.CommandLine
