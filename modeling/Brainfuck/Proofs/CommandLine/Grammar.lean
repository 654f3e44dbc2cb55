import Brainfuck.Proofs.CommandLine.Options

namespace Brainfuck.CommandLine

variable {a b : Arguments} {r q : Reading} {options : List Opt} {o : Opt} {value : Option Text}
  {c : Char} {word body letters : Text} {words : List Text}

theorem isFlag_of_give_none (h : a.give o none = .ok b) : o.isFlag = true := by
  unfold Arguments.give at h
  split at h
  · cases h
  · next hflag => simpa using hflag

/-- Words that begin with options in full. -/
def Spelled (options : List Opt) (words : List Text) : Prop :=
  ∃ opts items rest, words = opts ++ rest ∧ Spells options opts items ∧ EndsOptions rest

def SpelledFrom (options : List Opt) (word : Text) (words : List Text) : Prop :=
  ∃ opts items rest, words = opts ++ rest ∧ Spells options (word :: opts) items ∧ EndsOptions rest

theorem SpelledFrom.spelled (h : SpelledFrom options word words) :
    Spelled options (word :: words) := by
  obtain ⟨opts, items, rest, rfl, hspells, hends⟩ := h
  exact ⟨_, items, rest, rfl, hspells, hends⟩

theorem spelled_of_ends (h : EndsOptions words) : Spelled options words :=
  ⟨[], [], words, rfl, .nil, h⟩

namespace Reading

/-- What the words must be for what is waiting: an option without its value takes the next word. -/
def Needs (options : List Opt) (words : List Text) : Option (Opt × Option Text) → Prop
  | some (o, none) =>
    o.isFlag = false → ∃ value more, words = value :: more ∧ ¬Dashed value ∧ Spelled options more
  | _ => Spelled options words

theorem needs_of_settle (hr : r.settle = .ok a) (h : Spelled options words) :
    Needs options words r.waiting := by
  unfold settle at hr
  split at hr
  · next hwaiting => rw [hwaiting]; exact h
  · next o value hwaiting =>
    rw [hwaiting]
    cases value with
    | none =>
      intro hflag
      rw [isFlag_of_give_none hr] at hflag
      cases hflag
    | some value => exact h

theorem spelledFrom_of_take (h : r.take o value = .ok q) (hq : Needs options words q.waiting)
    (hword : ∀ opts items, Spells options opts items →
      Spells options (word :: opts) ((o, value) :: items)) :
    (∃ a, r.settle = .ok a) ∧ SpelledFrom options word words := by
  obtain ⟨s, hs, h⟩ := exists_of_bind_eq_ok h
  obtain ⟨b, -, h⟩ := exists_of_bind_eq_ok h
  obtain rfl := Except.ok.inj h
  obtain ⟨opts, items, rest, rfl, hspells, hends⟩ := hq
  exact ⟨⟨s, hs⟩, opts, _, rest, rfl, hword _ _ hspells, hends⟩

theorem spelledFrom_of_await (h : r.await o = .ok q) (hq : Needs options words q.waiting)
    (hflag : o.isFlag = false)
    (hword : ∀ value opts items, ¬Dashed value → Spells options opts items →
      Spells options (word :: value :: opts) ((o, some value) :: items)) :
    (∃ a, r.settle = .ok a) ∧ SpelledFrom options word words := by
  obtain ⟨s, hs, h⟩ := exists_of_bind_eq_ok h
  obtain rfl := Except.ok.inj h
  obtain ⟨value, more, rfl, hvalue, opts, items, rest, rfl, hspells, hends⟩ := hq hflag
  exact ⟨⟨s, hs⟩, value :: opts, _, rest, rfl, hword _ _ _ hvalue hspells, hends⟩

theorem spelledFrom_of_takeLong (h : r.takeLong options body = .ok q)
    (hq : Needs options words q.waiting) :
    (∃ a, r.settle = .ok a) ∧ SpelledFrom options ('-' :: '-' :: body) words := by
  unfold takeLong at h
  dsimp only at h
  split at h
  · cases h
  · next o ho =>
    obtain ⟨hmem, hname⟩ := Opt.of_find?_long ho
    cases hcut : Text.cut? '=' body with
    | none =>
      rw [Text.takeWhile_of_cut?_none hcut] at hname
      subst hname
      rw [hcut] at h
      cases hflag : o.isFlag with
      | true =>
        simp only [hflag] at h
        exact spelledFrom_of_take h hq fun _ _ => .flag hmem hflag
      | false =>
        simp only [hflag] at h
        exact spelledFrom_of_await h hq hflag fun _ _ _ => .separate hmem hflag
    | some parts =>
      obtain ⟨before, value⟩ := parts
      rw [Text.takeWhile_of_cut? hcut] at hname
      obtain ⟨rfl, -⟩ := Text.cut?_eq_some_iff.mp hcut
      subst hname
      rw [hcut] at h
      cases hflag : o.isFlag with
      | true =>
        simp only [hflag] at h
        cases h
      | false =>
        simp only [hflag] at h
        exact spelledFrom_of_take h hq fun _ _ => .assigned hmem hflag

theorem spelledFrom_of_takeShort (h : r.takeShort options (c :: letters) = .ok q)
    (hq : Needs options words q.waiting) :
    (∃ a, r.settle = .ok a) ∧ SpelledFrom options ('-' :: c :: letters) words := by
  induction letters generalizing r c with
  | nil =>
    obtain ⟨o, ho, h⟩ := exists_of_takeShort_cons h
    obtain ⟨hmem, hshort⟩ := Opt.of_find?_short ho
    cases hflag : o.isFlag with
    | true =>
      rw [if_pos hflag] at h
      obtain ⟨q', hq', h⟩ := exists_of_bind_eq_ok h
      obtain rfl := Except.ok.inj h
      exact spelledFrom_of_take hq' hq fun _ _ => .letter hmem hshort hflag
    | false =>
      rw [hflag] at h
      exact spelledFrom_of_await h hq hflag fun _ _ _ => .letterSeparate hmem hshort hflag
  | cons d letters ih =>
    obtain ⟨o, ho, h⟩ := exists_of_takeShort_cons h
    obtain ⟨hmem, hshort⟩ := Opt.of_find?_short ho
    cases hflag : o.isFlag with
    | true =>
      rw [if_pos hflag] at h
      obtain ⟨q', hq', h⟩ := exists_of_bind_eq_ok h
      -- the next letter is that of an option, so it is no dash
      obtain ⟨o', ho', -⟩ := exists_of_takeShort_cons h
      obtain ⟨s, hs, -⟩ := exists_of_bind_eq_ok hq'
      obtain ⟨-, opts, items, rest, rfl, hspells, hends⟩ := ih h
      exact ⟨⟨s, hs⟩, opts, _, rest, rfl,
        .letters hmem hshort hflag (Opt.dash_ne_short (Opt.of_find?_short ho').2) hspells, hends⟩
    | false =>
      rw [hflag] at h
      simp only [Bool.false_eq_true, if_false] at h
      split at h
      · next he => cases he
      · next value he =>
        obtain ⟨rfl, rfl⟩ := List.cons.inj he
        exact spelledFrom_of_take h hq fun _ _ => .letterAssigned hmem hshort hflag
      · next hne =>
        refine spelledFrom_of_take h hq fun _ _ => .letterAttached hmem hshort hflag ?_
        rintro rfl
        exact hne _ rfl

/-- Words are only read when they begin with options in full. -/
theorem needs_of_takeWords (h : r.takeWords options words = .ok a) :
    Needs options words r.waiting := by
  fun_induction takeWords options words r with
  | case1 r => exact needs_of_settle h (spelled_of_ends endsOptions_nil)
  | case2 r rest =>
    obtain ⟨s, hs, -⟩ := exists_of_bind_eq_ok h
    exact needs_of_settle hs (spelled_of_ends (by rintro _ ⟨⟩ -; rfl))
  | case3 r rest body hbody ih =>
    obtain ⟨q, hq, h⟩ := exists_of_bind_eq_ok h
    obtain ⟨⟨s, hs⟩, hfrom⟩ := spelledFrom_of_takeLong hq (ih q h)
    exact needs_of_settle hs hfrom.spelled
  | case4 r rest c letters hdash hdash' ih =>
    obtain ⟨q, hq, h⟩ := exists_of_bind_eq_ok h
    obtain ⟨⟨s, hs⟩, hfrom⟩ := spelledFrom_of_takeShort hq (ih q h)
    exact needs_of_settle hs hfrom.spelled
  | case5 word rest r o hwaiting hdash hdash' hword ih =>
    rw [hwaiting]
    exact fun _ => ⟨word, rest, rfl, not_dashed_of_ne hword, ih h⟩
  | case6 word rest r hdash hdash' hword hwaiting =>
    obtain ⟨s, hs, -⟩ := exists_of_bind_eq_ok h
    exact needs_of_settle hs (spelled_of_ends (endsOptions_cons (not_dashed_of_ne hword) rest))

end Reading

/-- The words of an action are read just when they are options in full, which can be given one after
the other, and what may follow them. -/
theorem Arguments.read_eq_ok_iff {action : Action} :
    Arguments.read action words = .ok a ↔
      ∃ opts items rest b, words = opts ++ rest ∧ Spells action.options opts items ∧
        EndsOptions rest ∧ giveAll {} items = .ok b ∧ (b.takeCode rest).checkRivals = .ok a := by
  constructor
  · intro h
    obtain ⟨c, hc, -⟩ := exists_of_bind_eq_ok h
    obtain ⟨opts, items, rest, rfl, hspells, hends⟩ := Reading.needs_of_takeWords hc
    rw [Arguments.read_of_spells hspells hends] at h
    obtain ⟨b, hb, h⟩ := exists_of_bind_eq_ok h
    exact ⟨opts, items, rest, b, rfl, hspells, hends, hb, h⟩
  · rintro ⟨opts, items, rest, b, rfl, hspells, hends, hb, h⟩
    rw [Arguments.read_of_spells hspells hends, hb]
    exact h

end Brainfuck.CommandLine
