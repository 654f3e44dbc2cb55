import Brainfuck.Proofs.Caret

namespace Brainfuck

namespace Style

def isParameter (c : Char) : Bool := c.isDigit || c == ';'

/-- The parameters of the style sequence that a text begins with, and what comes after it. -/
def cutSequence? : Text → Option (Text × Text)
  | c :: '[' :: body =>
    if c = escape then
      match body.dropWhile isParameter with
      | 'm' :: after => some (body.takeWhile isParameter, after)
      | _ => none
    else none
  | _ => none

variable {c : Char} {s : Style} {t ps after : Text}

theorem cutSequence?_eq_some_iff :
    cutSequence? t = some (ps, after) ↔
      t = escape :: '[' :: ps ++ 'm' :: after ∧ ∀ d ∈ ps, isParameter d = true := by
  constructor
  · intro h
    unfold cutSequence? at h
    split at h
    · next c body =>
      split at h
      · next hc =>
        split at h
        · next rest hrest =>
          obtain ⟨rfl, rfl⟩ := Prod.mk.inj (Option.some.inj h)
          refine ⟨?_, fun d hd => List.all_eq_true.mp List.all_takeWhile d hd⟩
          rw [hc, ← hrest, List.cons_append, List.cons_append, List.takeWhile_append_dropWhile]
        · cases h
      · cases h
    · cases h
  · rintro ⟨rfl, h⟩
    have hm : ¬isParameter 'm' = true := by decide
    simp only [cutSequence?, List.cons_append, if_true, List.dropWhile_append_of_pos h,
      List.takeWhile_append_of_pos h, List.dropWhile_cons_of_neg hm, List.takeWhile_cons_of_neg hm,
      List.append_nil]

theorem cutSequence?_cons_of_ne (h : c ≠ escape) (t : Text) : cutSequence? (c :: t) = none := by
  apply Option.eq_none_iff_forall_ne_some.mpr
  rintro ⟨ps, after⟩ hcut
  exact h (List.cons.inj (cutSequence?_eq_some_iff.mp hcut).1).1

theorem length_lt_of_cutSequence? (h : cutSequence? t = some (ps, after)) :
    after.length < t.length := by
  rw [(cutSequence?_eq_some_iff.mp h).1]
  simp
  omega

inductive Piece where
  | sequence (parameters : Text)
  | char (c : Char)
  deriving DecidableEq, Repr

def Piece.text : Piece → Text
  | sequence _ => []
  | char c => [c]

/-- A text in pieces: the style sequences in it, and the characters around them. -/
def pieces (t : Text) : List Piece :=
  match _ : cutSequence? t with
  | some (parameters, after) => .sequence parameters :: pieces after
  | none =>
    match t with
    | [] => []
    | c :: rest => .char c :: pieces rest
termination_by t.length
decreasing_by
  · exact length_lt_of_cutSequence? (by assumption)
  · simp

def erase (t : Text) : Text := (pieces t).flatMap Piece.text

/-- What a terminal shows of some pieces: each character with the parameters in force for it. A
sequence adds its parameters to those in force, but the parameter 0 takes them all back. -/
def shown (inForce : List Text) : List Piece → List (Char × List Text)
  | [] => []
  | .sequence parameters :: rest =>
    shown (if parameters = ['0'] then [] else inForce ++ [parameters]) rest
  | .char c :: rest => (c, inForce) :: shown inForce rest

/-! ### Pieces -/

theorem pieces_nil : pieces [] = [] := by
  rw [pieces.eq_def]
  rfl

theorem pieces_cons (h : c ≠ escape) (t : Text) : pieces (c :: t) = .char c :: pieces t := by
  rw [pieces.eq_def]
  split
  · next hcut =>
    rw [cutSequence?_cons_of_ne h] at hcut
    cases hcut
  · rfl

theorem pieces_sequence (h : ∀ d ∈ ps, isParameter d = true) (t : Text) :
    pieces (escape :: '[' :: ps ++ 'm' :: t) = .sequence ps :: pieces t := by
  have hcut : cutSequence? (escape :: '[' :: ps ++ 'm' :: t) = some (ps, t) :=
    cutSequence?_eq_some_iff.mpr ⟨rfl, h⟩
  rw [pieces.eq_def]
  split
  · next hcut' =>
    obtain ⟨rfl, rfl⟩ := Prod.mk.inj (Option.some.inj (hcut'.symm.trans hcut))
    rfl
  · next hcut' =>
    rw [hcut'] at hcut
    cases hcut

theorem pieces_append (h : escape ∉ t) (u : Text) :
    pieces (t ++ u) = t.map .char ++ pieces u := by
  induction t with
  | nil => rfl
  | cons c t ih =>
    have hc : c ≠ escape := (List.ne_of_not_mem_cons h).symm
    rw [List.cons_append, pieces_cons hc, ih (List.not_mem_of_not_mem_cons h)]
    rfl

theorem pieces_eq_map (h : escape ∉ t) : pieces t = t.map .char := by
  have hpieces := pieces_append h []
  rwa [pieces_nil, List.append_nil, List.append_nil] at hpieces

/-! ### Painted text -/

def parameters (s : Style) : Text := List.intercalate [';'] s.codes

def opening (parameters : Text) : Text := escape :: '[' :: parameters ++ ['m']

def reset : Text := opening ['0']

theorem sequence_codes (s : Style) : sequence s.codes = opening s.parameters := rfl

theorem paint_eq (h : s.codes ≠ []) (t : Text) :
    s.paint t = opening s.parameters ++ t ++ reset := by
  rw [paint, if_neg h, sequence_codes]
  rfl

theorem pieces_opening (h : ∀ d ∈ ps, isParameter d = true) (t : Text) :
    pieces (opening ps ++ t) = .sequence ps :: pieces t := by
  rw [opening, List.append_assoc]
  exact pieces_sequence h t

theorem pieces_reset (t : Text) : pieces (reset ++ t) = .sequence ['0'] :: pieces t :=
  pieces_opening (List.all_eq_true.mp (by decide)) t

theorem isParameter_of_mem_intercalate {codes : List Text}
    (h : ∀ t ∈ codes, ∀ d ∈ t, d.isDigit = true) :
    ∀ d ∈ List.intercalate [';'] codes, isParameter d = true := by
  induction codes with
  | nil => exact fun d hd => absurd hd List.not_mem_nil
  | cons t codes ih =>
    have hdigits : ∀ d ∈ t, isParameter d = true := by
      intro d hd
      rw [isParameter, h t List.mem_cons_self d hd, Bool.true_or]
    have hrest := ih fun u hu => h u (List.mem_cons_of_mem t hu)
    cases codes with
    | nil => simpa using hdigits
    | cons u codes =>
      intro d hd
      rw [List.intercalate_cons_cons, List.mem_append, List.mem_append] at hd
      rcases hd with (hd | hd) | hd
      · exact hdigits d hd
      · rw [List.mem_singleton.mp hd]
        rfl
      · exact hrest d hd

theorem isParameter_of_mem_parameters (s : Style) : ∀ d ∈ s.parameters, isParameter d = true :=
  isParameter_of_mem_intercalate s.isDigit_of_mem_codes

/-! ### What is left and what is shown -/

theorem flatMap_text_char (t : Text) : (t.map Piece.char).flatMap Piece.text = t := by
  rw [List.flatMap_map]
  exact List.flatMap_singleton' t

theorem shown_char_append (inForce : List Text) (t : Text) (rest : List Piece) :
    shown inForce (t.map .char ++ rest) = t.map (·, inForce) ++ shown inForce rest := by
  induction t with
  | nil => rfl
  | cons c t ih => rw [List.map_cons, List.cons_append, shown, ih, List.map_cons, List.cons_append]

def wrapped (start : Char → Text) (c : Char) : List Piece :=
  [.sequence (start c), .char c, .sequence ['0']]

variable {start : Char → Text}

theorem flatMap_text_wrapped (start : Char → Text) (t : Text) :
    (t.flatMap (wrapped start)).flatMap Piece.text = t := by
  induction t with
  | nil => rfl
  | cons c t ih =>
    rw [List.flatMap_cons, List.flatMap_append, ih]
    rfl

/-- Each character is shown in its own style and none in that of another one. -/
theorem shown_wrapped_append (h : ∀ c, start c ≠ ['0']) (t : Text) (rest : List Piece) :
    shown [] (t.flatMap (wrapped start) ++ rest) =
      t.map (fun c => (c, [start c])) ++ shown [] rest := by
  induction t with
  | nil => rfl
  | cons c t ih =>
    rw [List.flatMap_cons, List.append_assoc, wrapped, List.cons_append, List.cons_append,
      List.cons_append, List.nil_append, shown, if_neg (h c), shown, shown, if_pos rfl, ih]
    rfl

end Style

namespace Debugger

open Style

variable {breakpoint : Option Char} {line : Text}

theorem codes_symbolStyle_ne_nil (breakpoint : Option Char) (c : Char) :
    (symbolStyle breakpoint c).codes ≠ [] := by
  unfold symbolStyle
  split
  · decide
  · split <;> decide

def startOf (breakpoint : Option Char) (c : Char) : Text := (symbolStyle breakpoint c).parameters

theorem startOf_ne (breakpoint : Option Char) (c : Char) : startOf breakpoint c ≠ ['0'] := by
  unfold startOf symbolStyle
  split
  · decide
  · split <;> decide

theorem isParameter_of_mem_startOf (breakpoint : Option Char) (c : Char) :
    ∀ d ∈ startOf breakpoint c, isParameter d = true :=
  (symbolStyle breakpoint c).isParameter_of_mem_parameters

theorem paintSource_eq (breakpoint : Option Char) (line : Text) :
    paintSource breakpoint line =
      line.flatMap fun c => opening (startOf breakpoint c) ++ [c] ++ reset := by
  unfold paintSource
  congr 1
  funext c
  exact paint_eq (codes_symbolStyle_ne_nil breakpoint c) [c]

theorem pieces_paintSource_append (h : escape ∉ line) (u : Text) :
    pieces (paintSource breakpoint line ++ u) =
      line.flatMap (wrapped (startOf breakpoint)) ++ pieces u := by
  rw [paintSource_eq]
  induction line with
  | nil => rfl
  | cons c line ih =>
    have hc : c ≠ escape := (List.ne_of_not_mem_cons h).symm
    have hstart := isParameter_of_mem_startOf breakpoint c
    rw [List.flatMap_cons, List.append_assoc, List.append_assoc, List.append_assoc,
      pieces_opening hstart, List.singleton_append, pieces_cons hc, pieces_reset,
      ih (List.not_mem_of_not_mem_cons h)]
    rfl

/-! ### The excerpt -/

theorem escape_not_mem_excerpt {source : Text} (h : escape ∉ source) (offset : Nat) :
    escape ∉ (Source.excerpt source offset).line ∧
      escape ∉ (Source.excerpt source offset).caret := by
  constructor
  · intro hmem
    obtain ⟨c, hc, hshown⟩ := List.mem_map.mp hmem
    split at hshown
    · cases hshown
    · exact h (hshown ▸ List.mem_of_mem_drop (List.mem_of_mem_take hc))
  · exact List.not_mem_append (fun hmem => absurd (List.eq_of_mem_replicate hmem) (by decide))
      (by decide)

theorem pieces_printed {x : Source.Excerpt} (hline : escape ∉ x.line) (hcaret : escape ∉ x.caret)
    (breakpoint : Option Char) :
    pieces (x.printed true breakpoint) =
      "  ".toList.map .char ++ (x.line.flatMap (wrapped (startOf breakpoint))
        ++ ("\n  ".toList ++ x.caret ++ ['\n']).map .char) := by
  have hafter : escape ∉ "\n  ".toList ++ x.caret ++ ['\n'] :=
    List.not_mem_append (List.not_mem_append (by decide) hcaret) (by decide)
  have hprinted : x.printed true breakpoint = "  ".toList ++ (paintSource breakpoint x.line
      ++ ("\n  ".toList ++ x.caret ++ ['\n'])) := by
    simp [Source.Excerpt.printed, Text.line]
  rw [hprinted, pieces_append (by decide), pieces_paintSource_append hline, pieces_eq_map hafter]

/-- An excerpt as it is printed in colour and without. Each of its characters stands between the
start of its own style and a reset, and nothing else is shown in any style. -/
structure Painted (breakpoint : Option Char) (x : Source.Excerpt) (painted plain : Text) :
    Prop where
  withoutColor : plain = Text.line ("  ".toList ++ x.line) ++ Text.line ("  ".toList ++ x.caret)
  withColor : painted =
    Text.line ("  ".toList ++
      x.line.flatMap fun c => opening (startOf breakpoint c) ++ [c] ++ reset)
      ++ Text.line ("  ".toList ++ x.caret)
  starts : ∀ c, startOf breakpoint c ≠ ['0'] ∧ ∀ d ∈ startOf breakpoint c, isParameter d = true
  erased : erase painted = plain
  shows : shown [] (pieces painted) =
    "  ".toList.map (·, []) ++ x.line.map (fun c => (c, [startOf breakpoint c]))
      ++ ("\n  ".toList ++ x.caret ++ ['\n']).map (·, [])

theorem painted_printed {x : Source.Excerpt} (hline : escape ∉ x.line) (hcaret : escape ∉ x.caret)
    (breakpoint : Option Char) :
    Painted breakpoint x (x.printed true breakpoint) (x.printed false breakpoint) where
  withoutColor := rfl
  withColor := by
    rw [← paintSource_eq]
    rfl
  starts c := ⟨startOf_ne breakpoint c, isParameter_of_mem_startOf breakpoint c⟩
  erased := by
    rw [erase, pieces_printed hline hcaret, List.flatMap_append, List.flatMap_append,
      flatMap_text_char, flatMap_text_wrapped, flatMap_text_char]
    simp [Source.Excerpt.printed, Text.line]
  shows := by
    have hlast := shown_char_append [] ("\n  ".toList ++ x.caret ++ ['\n']) []
    rw [List.append_nil, shown, List.append_nil] at hlast
    rw [pieces_printed hline hcaret, shown_char_append,
      shown_wrapped_append (startOf_ne breakpoint), hlast, ← List.append_assoc]

/-! ### Sessions with colour and without -/

namespace Session

variable {s e : Session} {command : Command} {reply : Reply} {fuel : Nat}

def colored (color : Bool) (s : Session) : Session := { s with color }

/-- Only what is told depends on colour. -/
theorem answer_colored (color : Bool) (h : s.answer fuel command = some reply) :
    ∃ text, (s.colored color).answer fuel command =
      some { reply with text, session := reply.session.colored color } := by
  cases command with
  | run =>
    obtain ⟨x, hx, rfl⟩ := Option.map_eq_some_iff.mp h
    exact ⟨_, Option.map_eq_some_iff.mpr ⟨x, hx, rfl⟩⟩
  | _ =>
    obtain rfl := Option.some.inj h
    exact ⟨_, rfl⟩

theorem replies_colored (color : Bool) (h : s.Replies line reply) :
    ∃ text, (s.colored color).Replies line
      { reply with text, session := reply.session.colored color } := by
  cases hread : Command.read line with
  | error e =>
    obtain rfl := (replies_of_error hread).mp h
    exact ⟨_, (replies_of_error hread).mpr rfl⟩
  | ok command =>
    obtain ⟨fuel, answer, ha, rfl⟩ := (replies_of_ok hread).mp h
    obtain ⟨text, ha'⟩ := answer_colored color ha
    exact ⟨text, (replies_of_ok hread).mpr ⟨fuel, _, ha', rfl⟩⟩

/-- The same lines lead to the same session. -/
theorem feeds_colored (color : Bool) {log : List Exchange} (h : Feeds s log e) :
    ∃ log', Feeds (s.colored color) log' (e.colored color) ∧
      log'.map (fun x => (x.raised, x.line)) = log.map fun x => (x.raised, x.line) := by
  induction h with
  | nil => exact ⟨[], .nil, rfl⟩
  | cons raised first _ ih =>
    obtain ⟨text, hreply⟩ := replies_colored color first
    obtain ⟨log', hfeeds, hlines⟩ := ih
    refine ⟨_, .cons raised hreply hfeeds, ?_⟩
    rw [List.map_cons, List.map_cons, hlines]

theorem replies_of_location (hread : Command.read line = .ok .location) :
    s.Replies line reply ↔ reply =
      { text := locationText s.color s.source s.machine, flow := .more,
        session := { s with interrupted := false } } := by
  rw [replies_of_ok hread]
  constructor
  · rintro ⟨fuel, answer, ha, rfl⟩
    obtain rfl := Option.some.inj ha
    rfl
  · rintro rfl
    exact ⟨0, _, rfl, rfl⟩

end Session

/-- Whatever lines a session was fed, colour plays no part in where they lead. Asked for the place
in a source without escapes, it tells with colour what it tells without, once the style sequences
are taken out, and every character of the excerpt is painted on its own. -/
theorem location_painted {source input : Text} {settings : Settings} {color : Bool}
    {limit : Option Nat} {log : List Exchange} {s e : Session} {line : Text}
    (hsource : escape ∉ source) (hload : Session.load source input settings = .ok s)
    (hfeeds : Session.Feeds { s with color, maxSteps := limit } log e)
    (hread : Command.read line = .ok .location) (raised : Bool) :
    (∀ color', ∃ log',
      Session.Feeds { s with color := color', maxSteps := limit } log' (e.colored color') ∧
        log'.map (fun x => (x.raised, x.line)) = log.map fun x => (x.raised, x.line)) ∧
    ∃ painted plain, ∃ x : Source.Excerpt,
      (∀ reply, ((e.colored true).raise raised).Replies line reply ↔ reply = painted) ∧
      (∀ reply, ((e.colored false).raise raised).Replies line reply ↔ reply = plain) ∧
      Painted settings.breakpoint x painted.text plain.text := by
  have hcolored (color' : Bool) := Session.feeds_colored color' hfeeds
  refine ⟨hcolored, _, _, Source.excerpt source (e.machine.program.offset e.machine.pc),
    fun reply => Session.replies_of_location hread, fun reply => Session.replies_of_location hread,
    ?_⟩
  have htext (color' : Bool) :
      locationText color' e.source e.machine =
        (Source.excerpt source (e.machine.program.offset e.machine.pc)).printed color'
          settings.breakpoint := by
    obtain ⟨log', hfeeds', -⟩ := hcolored color'
    exact (Session.text_of_location hload hfeeds' hread raised).2 _
      ((Session.replies_of_location hread).mpr rfl)
  obtain ⟨hline, hcaret⟩ :=
    escape_not_mem_excerpt hsource (e.machine.program.offset e.machine.pc)
  have hpainted := painted_printed hline hcaret settings.breakpoint
  rw [← htext true, ← htext false] at hpainted
  exact hpainted

/-- A source that looks like the end of a sequence, with a breakpoint that may stand in one. -/
theorem location_painted_alike :
    ∃ s log e painted plain, ∃ x : Source.Excerpt,
      Session.load "+[1;0m]".toList [] { breakpoint := some ';' } = .ok s ∧
      Session.Feeds { s with color := true, maxSteps := none } log e ∧
      log.map (·.line) = ["s".toList] ∧
      ((e.colored true).raise false).Replies "where".toList painted ∧
      ((e.colored false).raise false).Replies "where".toList plain ∧
      plain.text = "  +[1;0m]\n   ^\n".toList ∧ Painted (some ';') x painted.text plain.text := by
  have hstep : Command.read "s".toList = .ok (.step 1) := by
    rw [Command.read, show Text.words "s".toList = ["s".toList] by decide +kernel]
    rfl
  have hread : Command.read "where".toList = .ok .location := by
    rw [Command.read, show Text.words "where".toList = ["where".toList] by decide +kernel]
    rfl
  obtain ⟨s, log, e, hload, hfeeds, hlines, hplain⟩ : ∃ s log e,
      Session.load "+[1;0m]".toList [] { breakpoint := some ';' } = .ok s ∧
        Session.Feeds { s with color := true, maxSteps := none } log e ∧
        log.map (·.line) = ["s".toList] ∧
        locationText false e.source e.machine = "  +[1;0m]\n   ^\n".toList :=
    ⟨_, _, _, rfl, .cons false ((Session.replies_of_ok hstep).mpr ⟨0, _, rfl, rfl⟩) .nil, rfl, rfl⟩
  obtain ⟨-, painted, plain, x, hpainted, hdull, hx⟩ :=
    location_painted (by decide) hload hfeeds hread false
  obtain rfl := (hdull _).mp ((Session.replies_of_location hread).mpr rfl)
  exact ⟨s, log, e, painted, _, x, hload, hfeeds, hlines, (hpainted painted).mpr rfl,
    (hdull _).mpr rfl, hplain, hx⟩

end Debugger
end Brainfuck
