import Brainfuck.Proofs.CommandLine.Reading
import Brainfuck.Proofs.Debugger.Grammar

namespace Brainfuck.CommandLine

/-- Both results are the same error, or they are related values. -/
inductive Parallel {ε α β : Type} (R : α → β → Prop) : Except ε α → Except ε β → Prop where
  | error (e : ε) : Parallel R (.error e) (.error e)
  | ok {a : α} {b : β} (h : R a b) : Parallel R (.ok a) (.ok b)

namespace Parallel

variable {ε α β γ δ : Type} {R : α → β → Prop} {S : γ → δ → Prop} {x : Except ε α} {y : Except ε β}

theorem bind {f : α → Except ε γ} {g : β → Except ε δ} (h : Parallel R x y)
    (hfg : ∀ a b, R a b → Parallel S (f a) (g b)) : Parallel S (x >>= f) (y >>= g) := by
  cases h with
  | error e => exact .error e
  | ok h => exact hfg _ _ h

theorem exists_ok {a : α} (h : Parallel R (.ok a) y) : ∃ b, y = .ok b ∧ R a b := by
  cases h with
  | ok h => exact ⟨_, rfl, h⟩

theorem withValue {o : Opt} {value : Text} {reason : γ → Text} {result : Except γ δ}
    {use use' : δ → Arguments} {R : Arguments → Arguments → Prop} (h : ∀ a, R (use a) (use' a)) :
    Parallel R (Arguments.withValue o value reason result use)
      (Arguments.withValue o value reason result use') := by
  cases result with
  | error e => exact .error _
  | ok a => exact .ok (h a)

end Parallel

variable {N M : Nat} {a b : Arguments} {r q : Reading}

/-- Arguments with a step limit, and the same arguments with another one. The limit cannot be given
again. -/
structure Relimited (N M : Nat) (a b : Arguments) : Prop where
  limit : a.maxSteps = some N
  given : a.given.contains .maxSteps = true
  other : b = { a with maxSteps := some M }

namespace Relimited

theorem given_eq (h : Relimited N M a b) : b.given = a.given := by rw [h.other]

theorem withCode (h : Relimited N M a b) (code : List Text) :
    Relimited N M { a with code } { b with code } where
  limit := h.limit
  given := h.given
  other := by rw [h.other]

theorem withGiven (h : Relimited N M a b) (o : Opt) :
    Relimited N M { a with given := a.given ++ [o] } { b with given := b.given ++ [o] } where
  limit := h.limit
  given := by simpa using .inl (by simpa using h.given)
  other := by rw [h.other]

theorem set (h : Relimited N M a b) {o : Opt} (ho : o ≠ .maxSteps) (value : Text) :
    Parallel (Relimited N M) (a.set o value) (b.set o value) := by
  obtain ⟨hlimit, hgiven, rfl⟩ := h
  cases o with
  | maxSteps => exact absurd rfl ho
  | endOfInput | cellWidth | format | timeout =>
    exact .withValue fun _ => ⟨hlimit, hgiven, rfl⟩
  | _ => exact .ok ⟨hlimit, hgiven, rfl⟩

theorem give (h : Relimited N M a b) (o : Opt) (value : Option Text) :
    Parallel (Relimited N M) (a.give o value) (b.give o value) := by
  have hsame := h.given_eq
  unfold Arguments.give
  rw [hsame]
  split
  · exact .error _
  · split
    · exact .error _
    · next hnew =>
      -- the limit itself was given before, on both sides
      have ho : o ≠ .maxSteps := by
        rintro rfl
        exact hnew h.given
      exact hsame ▸ (h.withGiven o).set ho _

theorem checkRivals (h : Relimited N M a b) :
    Parallel (Relimited N M) a.checkRivals b.checkRivals := by
  have hsame := h.given_eq
  unfold Arguments.checkRivals
  rw [hsame]
  split
  · exact .error _
  · exact .ok h

end Relimited

inductive Reading.Relimited (N M : Nat) : Reading → Reading → Prop where
  | awaiting {a b : Arguments} (o : Opt) (h : CommandLine.Relimited N M a b) :
    Relimited N M ⟨a, some (o, none)⟩ ⟨b, some (o, none)⟩
  | settled {r q : Reading} (free : ∀ o, r.waiting ≠ some (o, none))
    (free' : ∀ o, q.waiting ≠ some (o, none))
    (h : Parallel (CommandLine.Relimited N M) r.settle q.settle) : Relimited N M r q

namespace Reading.Relimited

theorem settle (h : Relimited N M r q) :
    Parallel (CommandLine.Relimited N M) r.settle q.settle := by
  cases h with
  | awaiting o h => exact h.give o none
  | settled _ _ h => exact h

theorem of_relimited (h : CommandLine.Relimited N M a b) :
    Relimited N M { arguments := a } { arguments := b } :=
  .settled (by rintro _ ⟨⟩) (by rintro _ ⟨⟩) (.ok h)

theorem take (h : Relimited N M r q) (o : Opt) (value : Option Text) :
    Parallel (Relimited N M) (r.take o value) (q.take o value) :=
  h.settle.bind fun _ _ hs => (hs.give o value).bind fun _ _ ha => .ok (.of_relimited ha)

theorem await (h : Relimited N M r q) (o : Opt) :
    Parallel (Relimited N M) (r.await o) (q.await o) :=
  h.settle.bind fun _ _ hs => .ok (.awaiting o hs)

variable {options : List Opt}

theorem takeLong (h : Relimited N M r q) (body : Text) :
    Parallel (Relimited N M) (r.takeLong options body) (q.takeLong options body) := by
  unfold Reading.takeLong
  dsimp only
  split
  · exact .error _
  · split
    · exact h.take _ _
    · exact .error _
    · exact h.await _
    · exact h.take _ _

theorem takeShort (h : Relimited N M r q) (letters : Text) :
    Parallel (Relimited N M) (r.takeShort options letters) (q.takeShort options letters) := by
  induction letters generalizing r q with
  | nil => exact .ok h
  | cons c rest ih =>
    rw [Reading.takeShort, Reading.takeShort]
    split
    · exact .error _
    · split
      · exact (h.take _ _).bind fun _ _ hs => ih hs
      · split
        · exact h.await _
        · exact h.take _ _
        · exact h.take _ _

theorem takeWords (h : Relimited N M r q) (options : List Opt) (words : List Text) :
    Parallel (CommandLine.Relimited N M) (r.takeWords options words)
      (q.takeWords options words) := by
  fun_induction Reading.takeWords options words r generalizing q with
  | case1 r => exact h.settle
  | case2 r rest => exact h.settle.bind fun _ _ hs => .ok (hs.withCode _)
  | case3 r rest body hbody ih =>
    rw [Reading.takeWords]
    · exact (h.takeLong body).bind fun p _ hp => ih p hp
    · exact hbody
  | case4 r rest c letters hdash hdash' ih =>
    rw [Reading.takeWords]
    · exact (h.takeShort (c :: letters)).bind fun p _ hp => ih p hp
    · exact hdash
    · exact hdash'
  | case5 word rest r o hwaiting _ _ hword ih =>
    cases h with
    | awaiting o' h =>
      -- the word completes the same option on both sides, which may still be refused
      rw [takeWords_of_waiting (not_dashed_of_ne hword) rfl]
      obtain rfl := (Prod.mk.inj (Option.some.inj hwaiting)).1
      exact ih (.settled (by rintro _ ⟨⟩) (by rintro _ ⟨⟩) (h.give _ _))
    | settled free => exact absurd hwaiting (free o)
  | case6 word rest r _ _ hword hwaiting =>
    cases h with
    | awaiting o' h => exact absurd rfl (hwaiting o')
    | settled free free' h =>
      rw [takeWords_of_free (not_dashed_of_ne hword) free']
      exact h.bind fun _ _ hs => .ok (hs.withCode _)

end Reading.Relimited

def limitedWords (limit : Nat) (rest : List Text) : List Text :=
  "run".toList :: "--max-steps".toList :: Text.decimal limit :: rest

theorem read_limitedWords (limit : Nat) (rest : List Text) :
    Request.read (limitedWords limit rest) =
      (Reading.takeWords Action.run.options rest
        { waiting := some (.maxSteps, some (Text.decimal limit)) } >>= Arguments.checkRivals) >>=
        fun a => .ok (.act .run a) := by
  have hread (words : List Text) : Request.read ("run".toList :: words) =
      Arguments.read .run words >>= fun a => .ok (.act .run a) := rfl
  have hword (words : List Text) :
      Reading.takeWords Action.run.options ("--max-steps".toList :: words) {} =
        Reading.takeWords Action.run.options words { waiting := some (.maxSteps, none) } := rfl
  rw [limitedWords, hread, Arguments.read, hword,
    Reading.takeWords_of_waiting (not_dashed_decimal limit) rfl]

/-- Nothing but the limit is read differently. -/
theorem read_relimited (hN : N < Text.countBound) (hM : M < Text.countBound) {rest : List Text}
    (h : Request.read (limitedWords N rest) = .ok (.act .run a)) :
    a.maxSteps = some N ∧
      Request.read (limitedWords M rest) = .ok (.act .run { a with maxSteps := some M }) := by
  have hcount {n : Nat} (hn : n < Text.countBound) : Text.count (Text.decimal n) = .ok n :=
    Text.count_eq_ok_iff.mpr (Text.countsTo_decimal hn)
  have hsettle {n : Nat} (hn : n < Text.countBound) :
      Reading.settle { waiting := some (.maxSteps, some (Text.decimal n)) } =
        .ok { maxSteps := some n, given := [.maxSteps] } := by
    show Arguments.withValue .maxSteps (Text.decimal n) _ (Text.count (Text.decimal n)) _ = _
    rw [hcount hn]
    rfl
  -- what is left to read are the same words, while the limits are not settled yet
  have hstart : Reading.Relimited N M { waiting := some (.maxSteps, some (Text.decimal N)) }
      { waiting := some (.maxSteps, some (Text.decimal M)) } := by
    refine .settled (by rintro _ ⟨⟩) (by rintro _ ⟨⟩) ?_
    rw [hsettle hN, hsettle hM]
    exact .ok ⟨rfl, rfl, rfl⟩
  have hread := (hstart.takeWords Action.run.options rest).bind
    fun _ _ ha => ha.checkRivals
  rw [read_limitedWords] at h ⊢
  obtain ⟨b, hb, h⟩ := exists_of_bind_eq_ok h
  obtain ⟨-, rfl⟩ := Request.act.inj (Except.ok.inj h)
  rw [hb] at hread
  obtain ⟨c, hc, hlimit⟩ := hread.exists_ok
  rw [hc, hlimit.other]
  exact ⟨hlimit.limit, rfl⟩

end Brainfuck.CommandLine
