import Brainfuck.Proofs.CommandLine.Reading

namespace Brainfuck.CommandLine

/-- An option that is given, with its value unless it is a flag. -/
abbrev Given := Opt × Option Text

/-- Words that spell options, none of which is without its value. An option is spelled by its name
or by its letter. Its value is a word of its own, or stands in the same word after an equals sign,
which a letter does not need. A flag by its letter may have more letters after it. -/
inductive Spells (options : List Opt) : List Text → List Given → Prop where
  | nil : Spells options [] []
  | flag {o : Opt} {words : List Text} {items : List Given} (known : o ∈ options)
    (alone : o.isFlag = true) (rest : Spells options words items) :
    Spells options (('-' :: '-' :: o.long) :: words) ((o, none) :: items)
  | separate {o : Opt} {value : Text} {words : List Text} {items : List Given} (known : o ∈ options)
    (valued : o.isFlag = false) (plain : ¬Dashed value) (rest : Spells options words items) :
    Spells options (('-' :: '-' :: o.long) :: value :: words) ((o, some value) :: items)
  | assigned {o : Opt} {value : Text} {words : List Text} {items : List Given} (known : o ∈ options)
    (valued : o.isFlag = false) (rest : Spells options words items) :
    Spells options (('-' :: '-' :: (o.long ++ '=' :: value)) :: words) ((o, some value) :: items)
  | letter {o : Opt} {c : Char} {words : List Text} {items : List Given} (known : o ∈ options)
    (short : o.short? = some c) (alone : o.isFlag = true) (rest : Spells options words items) :
    Spells options (['-', c] :: words) ((o, none) :: items)
  | letters {o : Opt} {c d : Char} {more : Text} {words : List Text} {items : List Given}
    (known : o ∈ options) (short : o.short? = some c) (alone : o.isFlag = true) (next : d ≠ '-')
    (rest : Spells options (('-' :: d :: more) :: words) items) :
    Spells options (('-' :: c :: d :: more) :: words) ((o, none) :: items)
  | letterSeparate {o : Opt} {c : Char} {value : Text} {words : List Text} {items : List Given}
    (known : o ∈ options) (short : o.short? = some c) (valued : o.isFlag = false)
    (plain : ¬Dashed value) (rest : Spells options words items) :
    Spells options (['-', c] :: value :: words) ((o, some value) :: items)
  | letterAttached {o : Opt} {c d : Char} {value : Text} {words : List Text} {items : List Given}
    (known : o ∈ options) (short : o.short? = some c) (valued : o.isFlag = false) (first : d ≠ '=')
    (rest : Spells options words items) :
    Spells options (('-' :: c :: d :: value) :: words) ((o, some (d :: value)) :: items)
  | letterAssigned {o : Opt} {c : Char} {value : Text} {words : List Text} {items : List Given}
    (known : o ∈ options) (short : o.short? = some c) (valued : o.isFlag = false)
    (rest : Spells options words items) :
    Spells options (('-' :: c :: '=' :: value) :: words) ((o, some value) :: items)

/-- What may follow the options: nothing, or a word that is no option, or two dashes alone. -/
def EndsOptions (rest : List Text) : Prop := ∀ word ∈ rest.head?, Dashed word → word = ['-', '-']

theorem endsOptions_nil : EndsOptions [] := nofun

theorem endsOptions_cons {word : Text} (h : ¬Dashed word) (more : List Text) :
    EndsOptions (word :: more) := by
  rintro _ ⟨⟩ hword
  exact absurd hword h

namespace Arguments

def giveAll (a : Arguments) (items : List Given) : Except Refusal Arguments :=
  items.foldlM (fun a item => a.give item.1 item.2) a

def takeCode (a : Arguments) : List Text → Arguments
  | [] => a
  | ['-', '-'] :: code => { a with code }
  | code => { a with code }

variable {a : Arguments} {o : Opt} {value : Option Text} {items : List Given}

@[simp]
theorem giveAll_nil : a.giveAll [] = .ok a := rfl

@[simp]
theorem giveAll_cons :
    a.giveAll ((o, value) :: items) = a.give o value >>= fun b => b.giveAll items := rfl

theorem giveAll_append (items items' : List Given) :
    a.giveAll (items ++ items') = a.giveAll items >>= fun b => b.giveAll items' :=
  List.foldlM_append

theorem takeCode_cons {word : Text} (h : ¬Dashed word) (a : Arguments) (more : List Text) :
    a.takeCode (word :: more) = { a with code := word :: more } := by
  rw [takeCode]
  · exact nofun
  · exact fun _ he => h ⟨'-', [], (List.cons.inj he).1⟩

end Arguments

namespace Opt

variable {options : List Opt} {o : Opt} {c : Char}

theorem find?_of_mem {p : Opt → Bool} (h : o ∈ options) (hp : p o = true)
    (hunique : ∀ o', p o' = true → o' = o) : options.find? p = some o := by
  cases hfind : options.find? p with
  | none => exact absurd hp (List.find?_eq_none.mp hfind o h)
  | some o' => rw [hunique o' (List.find?_some hfind)]

theorem find?_long (h : o ∈ options) : options.find? (fun o' => o'.long == o.long) = some o :=
  find?_of_mem h (beq_self_eq_true _) fun _ h' => long_injective (beq_iff_eq.mp h')

theorem find?_short (h : o ∈ options) (hc : o.short? = some c) :
    options.find? (fun o' => o'.short? == some c) = some o :=
  find?_of_mem h (beq_iff_eq.mpr hc) fun _ h' => short?_injective (beq_iff_eq.mp h') hc

theorem equals_not_mem_long (o : Opt) : '=' ∉ o.long := by
  cases o <;> decide

theorem takeWhile_long (o : Opt) (rest : Text) :
    (o.long ++ rest).takeWhile (· ≠ '=') = o.long ++ rest.takeWhile (· ≠ '=') := by
  apply List.takeWhile_append_of_pos
  intro c hc
  exact decide_eq_true fun he => o.equals_not_mem_long (he ▸ hc)

theorem cut?_long (o : Opt) : Text.cut? '=' o.long = none := by
  apply Option.eq_none_iff_forall_ne_some.mpr
  rintro ⟨before, after⟩ h
  apply o.equals_not_mem_long
  rw [(Text.cut?_eq_some_iff.mp h).1]
  exact List.mem_append_right _ List.mem_cons_self

theorem dash_ne_short (h : o.short? = some c) : c ≠ '-' := by
  rintro rfl
  cases o <;> exact absurd h (by decide)

theorem long_ne_nil (o : Opt) : o.long ≠ [] := by
  cases o <;> decide

end Opt

namespace Reading

variable {options : List Opt} {o : Opt} {c d : Char} {value more : Text} {rest words : List Text}
  {items : List Given} {r : Reading} {β : Type}

theorem take_bind (r : Reading) (o : Opt) (value : Option Text) (f : Reading → Except Refusal β) :
    r.take o value >>= f =
      r.settle >>= fun s => s.give o value >>= fun arguments => f { arguments } := by
  simp only [take, bind_assoc]
  rfl

theorem await_bind (r : Reading) (o : Opt) (f : Reading → Except Refusal β) :
    r.await o >>= f = r.settle >>= fun arguments => f { arguments, waiting := some (o, none) } := by
  simp only [await, bind_assoc]
  rfl

theorem takeLong_name (h : o ∈ options) (r : Reading) :
    r.takeLong options o.long = if o.isFlag then r.take o none else r.await o := by
  have hname : o.long.takeWhile (· ≠ '=') = o.long := by simpa using o.takeWhile_long []
  rw [takeLong, hname, o.cut?_long, Opt.find?_long h]
  dsimp only
  cases o.isFlag <;> rfl

theorem takeLong_assigned (h : o ∈ options) (hflag : o.isFlag = false) (value : Text)
    (r : Reading) : r.takeLong options (o.long ++ '=' :: value) = r.take o (some value) := by
  have hname : (o.long ++ '=' :: value).takeWhile (· ≠ '=') = o.long := by
    simpa using o.takeWhile_long ('=' :: value)
  rw [takeLong, hname, Text.cut?_append_cons o.equals_not_mem_long, Opt.find?_long h]
  dsimp only
  rw [hflag]
  rfl

theorem takeWords_name (h : o ∈ options) (rest : List Text) (r : Reading) :
    r.takeWords options (('-' :: '-' :: o.long) :: rest) =
      (if o.isFlag then r.take o none else r.await o) >>= takeWords options rest := by
  rw [takeWords, takeLong_name h]
  exact o.long_ne_nil

theorem takeWords_assigned (h : o ∈ options) (hflag : o.isFlag = false) (value : Text)
    (rest : List Text) (r : Reading) :
    r.takeWords options (('-' :: '-' :: (o.long ++ '=' :: value)) :: rest) =
      r.take o (some value) >>= takeWords options rest := by
  rw [takeWords, takeLong_assigned h hflag]
  exact List.append_ne_nil_of_left_ne_nil o.long_ne_nil _

theorem takeWords_short (hc : c ≠ '-') (letters : Text) (rest : List Text) (r : Reading) :
    r.takeWords options (('-' :: c :: letters) :: rest) =
      r.takeShort options (c :: letters) >>= takeWords options rest := by
  rw [takeWords]
  · exact fun he => absurd he hc
  · exact fun he => absurd he hc

theorem takeWords_letter (h : o ∈ options) (hc : o.short? = some c) (letters : Text)
    (rest : List Text) (r : Reading) :
    r.takeWords options (('-' :: c :: letters) :: rest) =
      (if o.isFlag then r.take o none >>= takeShort options letters
        else match letters with
          | [] => r.await o
          | '=' :: value => r.take o (some value)
          | value => r.take o (some value)) >>= takeWords options rest := by
  rw [takeWords_short (Opt.dash_ne_short hc), takeShort, Opt.find?_short h hc]
  rfl

def Comes (options : List Opt) (words : List Text) (items : List Given) (rest : List Text) : Prop :=
  ∀ r : Reading, (∀ o, r.waiting ≠ some (o, none)) →
    r.takeWords options words =
      r.settle >>= fun a => a.giveAll items >>= fun b => .ok (b.takeCode rest)

theorem comes_rest (h : EndsOptions rest) : Comes options rest [] rest := by
  intro r hfree
  simp only [Arguments.giveAll_nil]
  cases rest with
  | nil =>
    show r.settle = r.settle >>= pure
    rw [bind_pure]
  | cons word code =>
    by_cases hword : Dashed word
    · obtain rfl := h word rfl hword
      rfl
    · simp only [takeWords_of_free hword hfree, Arguments.takeCode_cons hword]
      rfl

theorem Comes.take (h : Comes options words items rest) (r : Reading) (o : Opt)
    (value : Option Text) :
    r.take o value >>= takeWords options words =
      r.settle >>= fun a => a.giveAll ((o, value) :: items) >>= fun b => .ok (b.takeCode rest) := by
  have hnext (a : Arguments) : takeWords options words { arguments := a } =
      a.giveAll items >>= fun b => .ok (b.takeCode rest) := h { arguments := a } nofun
  simp only [take_bind, hnext, Arguments.giveAll_cons, bind_assoc]

theorem Comes.await (h : Comes options words items rest) (r : Reading) (o : Opt)
    (hvalue : ¬Dashed value) :
    r.await o >>= takeWords options (value :: words) =
      r.settle >>= fun a => a.giveAll ((o, some value) :: items) >>= fun b =>
        .ok (b.takeCode rest) := by
  have hnext (a : Arguments) :
      takeWords options (value :: words) { arguments := a, waiting := some (o, none) } =
        a.give o (some value) >>= fun b => b.giveAll items >>= fun b => .ok (b.takeCode rest) := by
    rw [takeWords_of_waiting hvalue rfl]
    exact h { arguments := a, waiting := some (o, some value) } nofun
  simp only [await_bind, hnext, Arguments.giveAll_cons, bind_assoc]

/-- Options that are spelled in full are given one after the other. -/
theorem comes_of_spells (h : Spells options words items) (hrest : EndsOptions rest) :
    Comes options (words ++ rest) items rest := by
  induction h with
  | nil => exact comes_rest hrest
  | flag known alone _ ih =>
    intro r _
    rw [List.cons_append, takeWords_name known, if_pos alone]
    exact ih.take r _ none
  | separate known valued plain _ ih =>
    intro r _
    rw [List.cons_append, takeWords_name known, valued]
    exact ih.await r _ plain
  | assigned known valued _ ih =>
    intro r _
    rw [List.cons_append, takeWords_assigned known valued]
    exact ih.take r _ _
  | letter known short alone _ ih =>
    intro r _
    rw [List.cons_append, takeWords_letter known short, if_pos alone]
    have hnone (r' : Reading) : r'.takeShort options [] = .ok r' := by rw [takeShort]
    simp only [hnone, bind_assoc]
    exact ih.take r _ none
  | letters known short alone next _ ih =>
    intro r _
    rw [List.cons_append, takeWords_letter known short, if_pos alone, bind_assoc]
    -- the letters that follow are read as a word of their own would be
    simp only [← takeWords_short next]
    exact ih.take r _ none
  | letterSeparate known short valued plain _ ih =>
    intro r _
    rw [List.cons_append, takeWords_letter known short, valued]
    exact ih.await r _ plain
  | letterAttached known short valued first _ ih =>
    intro r _
    rw [List.cons_append, takeWords_letter known short, valued]
    simp only [Bool.false_eq_true, if_false]
    split
    · next he => cases he
    · next he => exact absurd (List.cons.inj he).1 first
    · exact ih.take r _ _
  | letterAssigned known short valued _ ih =>
    intro r _
    rw [List.cons_append, takeWords_letter known short, valued]
    exact ih.take r _ _

end Reading

theorem Arguments.read_of_spells {action : Action} {words rest : List Text} {items : List Given}
    (h : Spells action.options words items) (hrest : EndsOptions rest) :
    Arguments.read action (words ++ rest) =
      giveAll {} items >>= fun a => (a.takeCode rest).checkRivals := by
  have hwords := Reading.comes_of_spells h hrest {} nofun
  rw [Arguments.read, hwords]
  simp only [bind_assoc]
  rfl

end Brainfuck.CommandLine
