import Brainfuck.Debugger.Transcript
import Brainfuck.Proofs.Bytes
import Brainfuck.Proofs.Debugger.Dialogue
import Brainfuck.Proofs.Machine.Calls
import Brainfuck.Proofs.Words

namespace Brainfuck.Debugger

def isQuit (line : Text) : Bool := (Command.read line).toOption == some .quit

/-- The lines before the first one that is not UTF-8. -/
def decoded (lines : List Bytes) : List Text :=
  ((lines.map Bytes.text?).takeWhile Option.isSome).filterMap id

/-- The items up to and including the first for which `p` holds. -/
def through {α : Type} (p : α → Bool) : List α → List α
  | [] => []
  | a :: rest => if p a then [a] else a :: through p rest

def heard (lines : List Bytes) : List Text := through isQuit (decoded lines)

/-- Whether more lines are heard after this one. -/
def GoesOn (line : Bytes) : Prop := ∃ l, line.text? = some l ∧ isQuit l = false

def Transcript.after (text : Text) (t : Transcript) : Transcript :=
  { t with text := text ++ t.text }

theorem Transcript.after_after (text text' : Text) (t : Transcript) :
    (t.after text').after text = t.after (text ++ text') := by
  rw [after, after, after, List.append_assoc]

namespace Session

variable {s : Session} {fuel fuel' : Nat} {line : Bytes} {l l' : Text} {lines : List Bytes}
  {t : Transcript} {reply : Reply}

/-- The session writes the transcript when it is fed the stream. Only a run that does not end leaves
it without one. -/
def Transcribes (s : Session) (stream : Bytes) (t : Transcript) : Prop :=
  ∃ fuel, s.transcript fuel stream = some t

/-- Every run that is reached when the session is fed the lines comes to an end. -/
def RunsReturn (s : Session) (lines : List Bytes) : Prop :=
  ∀ (log : List Exchange) (e : Session) (l : Text), Feeds s log e →
    (∀ x ∈ log, x.raised = false) → log.map (·.line) ++ [l] <+: heard lines →
    Command.read l = .ok .run → ∃ reply, e.Replies l reply

/-- The transcript is what was replied to the lines that were heard. It breaks off where a line is
not UTF-8, unless a `quit` comes before. -/
structure Records (s : Session) (lines : List Bytes) (log : List Exchange) (t : Transcript) :
    Prop where
  feeds : Feeds s log t.session
  unraised : ∀ x ∈ log, x.raised = false
  heard : log.map (·.line) = heard lines
  text : t.text = log.flatMap (·.reply.text)
  undecodable : t.undecodable = true ↔
    (∃ line ∈ lines, line.text? = none) ∧ ∀ l ∈ decoded lines, isQuit l = false

theorem isQuit_iff : isQuit l = true ↔ Command.read l = .ok .quit := by
  unfold isQuit
  cases Command.read l <;> simp [Except.toOption]

theorem raise_false (s : Session) : s.raise false = s := by
  rw [raise, Bool.or_false]

/-! ### One line -/

/-- Of all commands only `quit` ends the conversation. -/
theorem flow_of_answer {command : Command} (h : s.answer fuel command = some reply) :
    reply.flow = .quit ↔ command = .quit := by
  cases command with
  | run =>
    obtain ⟨x, -, rfl⟩ := Option.map_eq_some_iff.mp h
    exact iff_of_false nofun nofun
  | quit =>
    obtain rfl := Option.some.inj h
    exact iff_of_true rfl rfl
  | _ =>
    obtain rfl := Option.some.inj h
    exact iff_of_false nofun nofun

theorem flow_of_respond (h : s.respond fuel l = some reply) :
    reply.flow = .quit ↔ isQuit l = true := by
  rw [isQuit_iff]
  cases hread : Command.read l with
  | error e =>
    obtain rfl := (replies_of_error hread).mp ⟨fuel, h⟩
    exact iff_of_false nofun nofun
  | ok command =>
    rw [respond_of_ok hread, perform] at h
    obtain ⟨answer, hanswer, rfl⟩ := Option.map_eq_some_iff.mp h
    have hflow := flow_of_answer hanswer
    rw [Except.ok.injEq]
    exact hflow

theorem respond_mono (h : s.respond fuel l = some reply) (hle : fuel ≤ fuel') :
    s.respond fuel' l = some reply := by
  unfold respond at h ⊢
  split at h
  · next hblank => rw [if_pos hblank, h]
  · next hblank =>
    rw [if_neg hblank]
    split at h
    · next command hread =>
      obtain ⟨answer, hanswer, rfl⟩ := Option.map_eq_some_iff.mp h
      apply Option.map_eq_some_iff.mpr
      refine ⟨answer, ?_, rfl⟩
      cases command with
      | run =>
        obtain ⟨x, hx, rfl⟩ := Option.map_eq_some_iff.mp hanswer
        exact Option.map_eq_some_iff.mpr ⟨x, Machine.superviseFrom_mono hx hle, rfl⟩
      | _ => exact hanswer
    · exact h

/-! ### The lines of a stream -/

theorem feed_cons_of_none (h : line.text? = none) :
    s.feed fuel (line :: lines) = some { text := [], session := s, undecodable := true } := by
  rw [feed, h]

theorem feed_cons_of_quit (h : line.text? = some l) (hq : isQuit l = true) :
    s.feed fuel (line :: lines) =
      (s.respond fuel l).map fun reply =>
        { text := reply.text, session := reply.session, undecodable := false } := by
  cases hr : s.respond fuel l with
  | none => simp only [feed, h, hr, Option.map_none]
  | some reply => simp only [feed, h, hr, (flow_of_respond hr).mpr hq, Option.map_some]

theorem feed_cons_of_more (h : line.text? = some l) (hq : isQuit l = false) :
    s.feed fuel (line :: lines) =
      (s.respond fuel l).bind fun reply =>
        (feed fuel reply.session lines).map (Transcript.after reply.text) := by
  cases hr : s.respond fuel l with
  | none => simp only [feed, h, hr, Option.bind_none]
  | some reply =>
    cases hflow : reply.flow with
    | quit =>
      rw [(flow_of_respond hr).mp hflow] at hq
      cases hq
    | more =>
      simp only [feed, h, hr, hflow, Option.bind_some]
      rfl

theorem feed_mono (h : s.feed fuel lines = some t) (hle : fuel ≤ fuel') :
    s.feed fuel' lines = some t := by
  induction lines generalizing s t with
  | nil => exact h
  | cons line lines ih =>
    cases hl : line.text? with
    | none =>
      rw [feed_cons_of_none hl] at h ⊢
      exact h
    | some l =>
      cases hq : isQuit l with
      | true =>
        rw [feed_cons_of_quit hl hq] at h ⊢
        obtain ⟨reply, hr, rfl⟩ := Option.map_eq_some_iff.mp h
        rw [respond_mono hr hle, Option.map_some]
      | false =>
        rw [feed_cons_of_more hl hq] at h ⊢
        obtain ⟨reply, hr, h⟩ := Option.bind_eq_some_iff.mp h
        obtain ⟨u, hu, rfl⟩ := Option.map_eq_some_iff.mp h
        rw [respond_mono hr hle, Option.bind_some, ih hu, Option.map_some]

/-- After lines that are all heard a session goes on with those that follow. -/
theorem feed_append (h : ∀ line ∈ lines, GoesOn line) (more : List Bytes) :
    s.feed fuel (lines ++ more) =
      (s.feed fuel lines).bind fun u =>
        (u.session.feed fuel more).map (Transcript.after u.text) := by
  induction lines generalizing s with
  | nil =>
    show s.feed fuel more = (s.feed fuel more).map fun v => v
    rw [Option.map_id']
  | cons line lines ih =>
    obtain ⟨l, hl, hq⟩ := h line List.mem_cons_self
    have hlines := fun line hline => h line (List.mem_cons_of_mem _ hline)
    rw [List.cons_append, feed_cons_of_more hl hq, feed_cons_of_more hl hq]
    cases s.respond fuel l with
    | none => rfl
    | some reply =>
      rw [Option.bind_some, Option.bind_some, ih hlines]
      cases reply.session.feed fuel lines with
      | none => rfl
      | some u =>
        simp only [Option.map_some, Option.bind_some, Option.map_map]
        congr 1
        funext v
        exact Transcript.after_after reply.text u.text v

theorem undecodable_of_feed (h : ∀ line ∈ lines, GoesOn line) (ht : s.feed fuel lines = some t) :
    t.undecodable = false := by
  induction lines generalizing s t with
  | nil =>
    obtain rfl := Option.some.inj ht
    rfl
  | cons line lines ih =>
    obtain ⟨l, hl, hq⟩ := h line List.mem_cons_self
    rw [feed_cons_of_more hl hq] at ht
    obtain ⟨reply, hr, ht⟩ := Option.bind_eq_some_iff.mp ht
    obtain ⟨u, hu, rfl⟩ := Option.map_eq_some_iff.mp ht
    have hlines := ih (fun line hline => h line (List.mem_cons_of_mem _ hline)) hu
    exact hlines

/-- Behind a line that ends the conversation nothing is heard. -/
theorem feed_append_of_end (h : ∃ line ∈ lines, ¬GoesOn line) (more : List Bytes) :
    s.feed fuel (lines ++ more) = s.feed fuel lines := by
  induction lines generalizing s with
  | nil =>
    obtain ⟨_, hmem, -⟩ := h
    cases hmem
  | cons line lines ih =>
    rw [List.cons_append]
    cases hl : line.text? with
    | none => rw [feed_cons_of_none hl, feed_cons_of_none hl]
    | some l =>
      cases hq : isQuit l with
      | true => rw [feed_cons_of_quit hl hq, feed_cons_of_quit hl hq]
      | false =>
        have hlines : ∃ line ∈ lines, ¬GoesOn line := by
          obtain ⟨line', hmem, hend⟩ := h
          rcases List.mem_cons.mp hmem with rfl | hmem
          · exact absurd ⟨l, hl, hq⟩ hend
          · exact ⟨line', hmem, hend⟩
        simp only [feed_cons_of_more hl hq, ih hlines]

/-- Lines are heard alike that have the same words, or are both not UTF-8. -/
theorem feed_congr {lines' : List Bytes}
    (h : List.Forall₂ (fun line line' => line.text?.map Text.words = line'.text?.map Text.words)
      lines lines') : s.feed fuel lines = s.feed fuel lines' := by
  induction h generalizing s with
  | nil => rfl
  | @cons line line' lines lines' hline _ ih =>
    cases hl : line.text? with
    | none =>
      rw [hl, Option.map_none, eq_comm, Option.map_eq_none_iff] at hline
      rw [feed_cons_of_none hl, feed_cons_of_none hline]
    | some l =>
      rw [hl, Option.map_some, eq_comm, Option.map_eq_some_iff] at hline
      obtain ⟨l', hl', hwords⟩ := hline
      simp only [feed, hl, hl', respond_congr hwords, ih]

theorem feed_append_nil (s : Session) (fuel : Nat) (lines : List Bytes) :
    s.feed fuel (lines ++ [[]]) = s.feed fuel lines := by
  induction lines generalizing s with
  | nil =>
    have hempty : Bytes.text? [] = some [] := by decide +kernel
    rw [List.nil_append, feed_cons_of_more hempty (by decide +kernel)]
    rfl
  | cons line lines ih => simp only [List.cons_append, feed, ih]

/-! ### What is heard -/

theorem decoded_cons_of_none (h : line.text? = none) : decoded (line :: lines) = [] := by
  simp [decoded, h]

theorem decoded_cons_of_some (h : line.text? = some l) :
    decoded (line :: lines) = l :: decoded lines := by
  simp [decoded, h]

theorem heard_cons_of_none (h : line.text? = none) : heard (line :: lines) = [] := by
  rw [heard, decoded_cons_of_none h, through]

theorem heard_cons_of_quit (h : line.text? = some l) (hq : isQuit l = true) :
    heard (line :: lines) = [l] := by
  rw [heard, decoded_cons_of_some h, through, if_pos hq]

theorem heard_cons_of_more (h : line.text? = some l) (hq : isQuit l = false) :
    heard (line :: lines) = l :: heard lines := by
  rw [heard, decoded_cons_of_some h, through, hq]
  rfl

namespace Records

variable {log : List Exchange}

theorem of_nil (s : Session) :
    Records s [] [] { text := [], session := s, undecodable := false } where
  feeds := .nil
  unraised _ hx := absurd hx List.not_mem_nil
  heard := rfl
  text := rfl
  undecodable := by simp

theorem of_none (h : line.text? = none) :
    Records s (line :: lines) [] { text := [], session := s, undecodable := true } where
  feeds := .nil
  unraised _ hx := absurd hx List.not_mem_nil
  heard := (heard_cons_of_none h).symm
  text := rfl
  undecodable := by simp [h, decoded_cons_of_none h]

theorem of_quit (h : line.text? = some l) (hq : isQuit l = true) (hr : s.Replies l reply) :
    Records s (line :: lines) [{ raised := false, line := l, reply }]
      { text := reply.text, session := reply.session, undecodable := false } where
  feeds := .cons false (s.raise_false.symm ▸ hr) .nil
  unraised x hx := by rw [List.mem_singleton.mp hx]
  heard := (heard_cons_of_quit h hq).symm
  text := by simp
  undecodable := by simp [decoded_cons_of_some h, hq]

theorem of_more (h : line.text? = some l) (hq : isQuit l = false) (hr : s.Replies l reply)
    (ht : Records reply.session lines log t) :
    Records s (line :: lines) ({ raised := false, line := l, reply } :: log)
      (t.after reply.text) where
  feeds := .cons false (s.raise_false.symm ▸ hr) ht.feeds
  unraised := List.forall_mem_cons.mpr ⟨rfl, ht.unraised⟩
  heard := by rw [heard_cons_of_more h hq, List.map_cons, ht.heard]
  text := by rw [List.flatMap_cons, ← ht.text]; rfl
  undecodable := by
    have hline : (Transcript.after reply.text t).undecodable = t.undecodable := rfl
    rw [hline, ht.undecodable, decoded_cons_of_some h]
    simp [h, hq]

end Records

theorem exists_records (h : s.feed fuel lines = some t) : ∃ log, Records s lines log t := by
  induction lines generalizing s t with
  | nil =>
    obtain rfl := Option.some.inj h
    exact ⟨[], .of_nil s⟩
  | cons line lines ih =>
    cases hl : line.text? with
    | none =>
      rw [feed_cons_of_none hl] at h
      obtain rfl := Option.some.inj h
      exact ⟨[], .of_none hl⟩
    | some l =>
      cases hq : isQuit l with
      | true =>
        rw [feed_cons_of_quit hl hq] at h
        obtain ⟨reply, hr, rfl⟩ := Option.map_eq_some_iff.mp h
        exact ⟨_, .of_quit hl hq ⟨fuel, hr⟩⟩
      | false =>
        rw [feed_cons_of_more hl hq] at h
        obtain ⟨reply, hr, h⟩ := Option.bind_eq_some_iff.mp h
        obtain ⟨u, hu, rfl⟩ := Option.map_eq_some_iff.mp h
        obtain ⟨log, hlog⟩ := ih hu
        exact ⟨_, .of_more hl hq ⟨fuel, hr⟩ hlog⟩

theorem exists_of_feeds_cons {log : List Exchange} {e : Session} {others : List Text}
    (h : Feeds s log e) (hraised : ∀ x ∈ log, x.raised = false)
    (hheard : log.map (·.line) = l :: others) :
    ∃ reply rest, log = { raised := false, line := l, reply } :: rest ∧ s.Replies l reply ∧
      Feeds reply.session rest e ∧ rest.map (·.line) = others := by
  cases h with
  | nil => cases hheard
  | @cons _ _ raised line reply rest first hrest =>
    obtain ⟨rfl, hothers⟩ := List.cons.inj hheard
    obtain rfl : raised = false := hraised _ List.mem_cons_self
    rw [raise_false] at first
    exact ⟨reply, rest, rfl, first, hrest, hothers⟩

theorem Records.exists_feed {log : List Exchange} (h : Records s lines log t) :
    ∃ fuel, s.feed fuel lines = some t := by
  obtain ⟨text, e, broken⟩ := t
  obtain ⟨hfeeds, hraised, hheard, rfl, hbroken⟩ := h
  dsimp only at hfeeds hbroken
  induction lines generalizing s log with
  | nil =>
    obtain rfl : log = [] := List.map_eq_nil_iff.mp hheard
    cases hfeeds
    obtain rfl : broken = false := by simpa using hbroken
    exact ⟨0, rfl⟩
  | cons line lines ih =>
    cases hl : line.text? with
    | none =>
      rw [heard_cons_of_none hl] at hheard
      obtain rfl : log = [] := List.map_eq_nil_iff.mp hheard
      cases hfeeds
      obtain rfl : broken = true := by simpa [hl, decoded_cons_of_none hl] using hbroken
      exact ⟨0, feed_cons_of_none hl⟩
    | some l =>
      cases hq : isQuit l with
      | true =>
        rw [heard_cons_of_quit hl hq] at hheard
        obtain ⟨reply, rest, rfl, ⟨fuel, hr⟩, hrest, hnil⟩ :=
          exists_of_feeds_cons hfeeds hraised hheard
        obtain rfl : rest = [] := List.map_eq_nil_iff.mp hnil
        cases hrest
        obtain rfl : broken = false := by simpa [decoded_cons_of_some hl, hq] using hbroken
        refine ⟨fuel, ?_⟩
        rw [feed_cons_of_quit hl hq, hr]
        simp
      | false =>
        rw [heard_cons_of_more hl hq] at hheard
        obtain ⟨reply, rest, rfl, ⟨fuel, hr⟩, hrest, hothers⟩ :=
          exists_of_feeds_cons hfeeds hraised hheard
        have hbroken' : broken = true ↔
            (∃ line ∈ lines, line.text? = none) ∧ ∀ l ∈ decoded lines, isQuit l = false := by
          simpa [decoded_cons_of_some hl, hl, hq] using hbroken
        -- what the rest needs is enough for the rest alone, so the two amounts of fuel are made one
        obtain ⟨fuel', hu⟩ :=
          ih (fun x hx => hraised x (List.mem_cons_of_mem _ hx)) hothers hrest hbroken'
        refine ⟨max fuel fuel', ?_⟩
        rw [feed_cons_of_more hl hq, respond_mono hr (Nat.le_max_left _ _), Option.bind_some,
          feed_mono hu (Nat.le_max_right _ _)]
        rfl

theorem transcribes_iff {stream : Bytes} :
    s.Transcribes stream t ↔ ∃ log, Records s stream.lines log t :=
  ⟨fun ⟨_, h⟩ => exists_records h, fun ⟨_, h⟩ => h.exists_feed⟩

theorem Transcribes.unique {stream : Bytes} {t' : Transcript} (h : s.Transcribes stream t)
    (h' : s.Transcribes stream t') : t = t' := by
  obtain ⟨fuel, h⟩ := h
  obtain ⟨fuel', h'⟩ := h'
  have ht := feed_mono h (Nat.le_max_left fuel fuel')
  have ht' := feed_mono h' (Nat.le_max_right fuel fuel')
  exact Option.some.inj (ht.symm.trans ht')

/-- Where every run ends there is a transcript. -/
theorem RunsReturn.exists_records (h : s.RunsReturn lines) :
    ∃ log t, Records s lines log t := by
  induction lines generalizing s with
  | nil => exact ⟨_, _, .of_nil s⟩
  | cons line lines ih =>
    cases hl : line.text? with
    | none => exact ⟨_, _, .of_none hl⟩
    | some l =>
      have hreply : (∃ rest, heard (line :: lines) = l :: rest) → ∃ reply, s.Replies l reply := by
        rintro ⟨rest, hheard⟩
        by_cases hrun : Command.read l = .ok .run
        · exact h [] s l .nil (fun x hx => absurd hx List.not_mem_nil) ⟨rest, hheard.symm⟩ hrun
        · exact exists_replies s hrun
      cases hq : isQuit l with
      | true =>
        obtain ⟨reply, hr⟩ := hreply ⟨_, heard_cons_of_quit hl hq⟩
        exact ⟨_, _, .of_quit hl hq hr⟩
      | false =>
        obtain ⟨reply, hr⟩ := hreply ⟨_, heard_cons_of_more hl hq⟩
        -- a later run is one of the whole conversation, behind the exchange over the first line
        have hrest : reply.session.RunsReturn lines := by
          intro log e l' hfeeds hraised hheard
          apply h ({ raised := false, line := l, reply } :: log) e l'
          · exact .cons false (s.raise_false.symm ▸ hr) hfeeds
          · exact List.forall_mem_cons.mpr ⟨rfl, hraised⟩
          · rw [heard_cons_of_more hl hq]
            exact List.prefix_cons_inj l |>.mpr hheard
        obtain ⟨log, t, ht⟩ := ih hrest
        exact ⟨_, _, .of_more hl hq hr ht⟩

theorem transcribes_append {a b : Bytes} (ha : a = [] ∨ a.getLast? = some 10)
    (h : ∀ line ∈ a.lines, GoesOn line) :
    s.Transcribes (a ++ b) t ↔
      ∃ u v, s.Transcribes a u ∧ u.undecodable = false ∧ u.session.Transcribes b v ∧
        t = v.after u.text := by
  unfold Transcribes transcript
  rw [Bytes.lines_append ha]
  constructor
  · rintro ⟨fuel, ht⟩
    rw [feed_append h] at ht
    obtain ⟨u, hu, ht⟩ := Option.bind_eq_some_iff.mp ht
    obtain ⟨v, hv, rfl⟩ := Option.map_eq_some_iff.mp ht
    exact ⟨u, v, ⟨fuel, hu⟩, undecodable_of_feed h hu, ⟨fuel, hv⟩, rfl⟩
  · rintro ⟨u, v, ⟨fuel, hu⟩, -, ⟨fuel', hv⟩, rfl⟩
    refine ⟨max fuel fuel', ?_⟩
    rw [feed_append h, feed_mono hu (Nat.le_max_left _ _), Option.bind_some,
      feed_mono hv (Nat.le_max_right _ _), Option.map_some]

/-- A carriage return is a blank, so it belongs to no word. -/
theorem feed_crlf (s : Session) (fuel : Nat) (stream : Bytes) :
    s.feed fuel stream.crlf.lines = s.feed fuel stream.lines := by
  refine (feed_congr ((Bytes.lines_crlf stream).imp ?_)).symm
  rintro line _ (rfl | rfl)
  · rfl
  · rw [Bytes.text?_append_carriageReturn, Option.map_map]
    congr 1
    funext l
    exact (Text.words_append_blanks l (by decide)).symm

/-- A session writes what it replies to the lines that it hears, and it does write something where
the runs among them end. A stream that is cut behind a line is written in two parts, of which the
second is left out when a `quit` or a line that is not UTF-8 comes in the first. Carriage returns
before the line feeds and a line feed at the end make no difference. -/
theorem transcribes_by_lines (s : Session) :
    (∀ stream : Bytes, s.RunsReturn stream.lines → ∃! t, s.Transcribes stream t) ∧
    (∀ (stream : Bytes) (t : Transcript),
      s.Transcribes stream t ↔ ∃ log, Records s stream.lines log t) ∧
    (∀ (a b : Bytes) (t : Transcript), (a = [] ∨ a.getLast? = some 10) →
      ((∀ line ∈ a.lines, GoesOn line) →
        (s.Transcribes (a ++ b) t ↔
          ∃ u v, s.Transcribes a u ∧ u.undecodable = false ∧ u.session.Transcribes b v ∧
            t = v.after u.text)) ∧
      ((∃ line ∈ a.lines, ¬GoesOn line) →
        (s.Transcribes (a ++ b) t ↔ s.Transcribes a t))) ∧
    ∀ (stream : Bytes) (t : Transcript),
      (s.Transcribes stream.crlf t ↔ s.Transcribes stream t) ∧
        (s.Transcribes (stream ++ [10]) t ↔ s.Transcribes stream t) := by
  refine ⟨?_, ?_, ?_, ?_⟩
  · intro stream h
    obtain ⟨log, t, ht⟩ := h.exists_records
    have hstream : s.Transcribes stream t := transcribes_iff.mpr ⟨log, ht⟩
    exact ⟨t, hstream, fun t' h' => h'.unique hstream⟩
  · exact fun stream t => transcribes_iff
  · intro a b t ha
    refine ⟨transcribes_append ha, ?_⟩
    intro h
    unfold Transcribes transcript
    simp only [Bytes.lines_append ha, feed_append_of_end h]
  · intro stream t
    unfold Transcribes transcript
    constructor
    · simp only [feed_crlf]
    · rcases Bytes.lines_append_feed stream with h | h
      · rw [h]
      · simp only [h, feed_append_nil]

/-- A blank line is passed over, and what follows a `quit` or bytes that are no text is not
heard. -/
theorem transcribes_by_lines_quit :
    ∃ s t, ∃ a b : Bytes, Session.load "+++".toList [] {} = .ok s ∧
      a = Bytes.ofText "s\n\n".toList ∧ b = Bytes.ofText "q\ns\n".toList ∧
      t.text = "step=1 pc=1/3 ptr=0 cell=1 instr='+' out=0\n".toList ∧
      s.Transcribes (a ++ b) t ∧ (∃! t', s.Transcribes (a ++ b) t') ∧
      (∃ log, Records s [[115], [], [113], [115]] log t ∧
        log.map (·.line) = ["s".toList, [], "q".toList]) ∧
      (∃ u v, s.Transcribes a u ∧ u.session.Transcribes b v ∧ t = v.after u.text) ∧
      s.Transcribes (a ++ b).crlf t ∧
      ∀ t', s.Transcribes ([255, 10] ++ b) t' ↔ s.Transcribes [255, 10] t' := by
  obtain ⟨a, ha⟩ : ∃ a, a = Bytes.ofText "s\n\n".toList := ⟨_, rfl⟩
  obtain ⟨b, hb⟩ : ∃ b, b = Bytes.ofText "q\ns\n".toList := ⟨_, rfl⟩
  obtain ⟨s, hload⟩ : ∃ s, Session.load "+++".toList [] {} = .ok s := ⟨_, rfl⟩
  obtain ⟨hends, hrecords, hcut, hsame⟩ := transcribes_by_lines s
  have hrun : ((Session.load "+++".toList [] {}).toOption.bind fun s =>
      (s.transcript 0 (a ++ b)).map (·.text)) =
        some "step=1 pc=1/3 ptr=0 cell=1 instr='+' out=0\n".toList := by
    subst ha hb
    decide +kernel
  rw [hload] at hrun
  obtain ⟨t, ht, htext⟩ := Option.map_eq_some_iff.mp hrun
  have hab : s.Transcribes (a ++ b) t := ⟨0, ht⟩
  have hlines : Bytes.lines a = [[115], []] ∧ Bytes.lines (a ++ b) = [[115], [], [113], [115]] := by
    subst ha hb
    decide +kernel
  have hheard : heard [[115], [], [113], [115]] = ["s".toList, [], "q".toList] := by decide +kernel
  have hreturn : s.RunsReturn (Bytes.lines (a ++ b)) := by
    intro log e l _ _ hprefix hread
    have hmem : l ∈ ["s".toList, [], "q".toList] := by
      rw [hlines.2, hheard] at hprefix
      exact hprefix.subset (by simp)
    have hno : ∀ l ∈ ["s".toList, [], "q".toList], Command.read l ≠ .ok .run := by decide +kernel
    exact absurd hread (hno l hmem)
  have hgo : ∀ line ∈ Bytes.lines a, GoesOn line := by
    rw [hlines.1]
    simp only [List.forall_mem_cons]
    exact ⟨⟨"s".toList, by decide +kernel, by decide +kernel⟩,
      ⟨[], by decide +kernel, by decide +kernel⟩, fun x hx => absurd hx List.not_mem_nil⟩
  have hbad : ∃ line ∈ Bytes.lines [255, 10], ¬GoesOn line := by
    have hnone : Bytes.text? [255] = none := by decide +kernel
    refine ⟨[255], by decide, ?_⟩
    rintro ⟨l, hl, -⟩
    exact nomatch hnone.symm.trans hl
  obtain ⟨log, hlog⟩ := (hrecords _ t).mp hab
  rw [hlines.2] at hlog
  have hend : a.getLast? = some 10 := by
    subst ha
    decide +kernel
  obtain ⟨u, v, hu, -, hv, huv⟩ := ((hcut a b t (.inr hend)).1 hgo).mp hab
  exact ⟨s, t, a, b, hload, ha, hb, htext, hab, hends _ hreturn,
    ⟨log, hlog, hlog.heard.trans hheard⟩, ⟨u, v, hu, hv, huv⟩, (hsame _ t).1.mpr hab,
    fun t' => (hcut [255, 10] b t' (.inr (by decide))).2 hbad⟩

end Session
end Brainfuck.Debugger
