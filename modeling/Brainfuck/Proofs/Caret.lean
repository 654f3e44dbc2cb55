import Brainfuck.Proofs.CommandLine.Agreement
import Brainfuck.Proofs.Debugger.Answers
import Brainfuck.Proofs.Excerpt
import Brainfuck.Proofs.Pairing

namespace Brainfuck

open CommandLine Debugger

/-- The lines of an excerpt as they are printed, the first in colour where that is asked for. -/
def Source.Excerpt.printed (color : Bool) (breakpoint : Option Char) (x : Excerpt) : Text :=
  Text.line ("  ".toList ++ if color then paintSource breakpoint x.line else x.line)
    ++ Text.line ("  ".toList ++ x.caret)

variable {source input : Text} {settings : Settings}

namespace Machine

variable {m : Machine}

/-- The excerpt at the next symbol points at it, and past the end of the source if there is none. -/
theorem points_at_next (h : Program.load settings.breakpoint source = .ok m.program) :
    (m.halted = false → ∃ c p, m.symbol? = some c ∧
      Source.StandsAt settings.breakpoint source m.pc c p ∧
      (Source.excerpt source (m.program.offset m.pc)).PointsAt source p c) ∧
    (m.halted = true → (Source.excerpt source (m.program.offset m.pc)).PointsPast source) := by
  have hsymbol : (source.filter (Source.isSymbol settings.breakpoint))[m.pc]? = m.symbol? := by
    rw [symbol?, Program.symbol?_eq, (Program.load_eq_ok h).1]
  have hoffset := Program.offset_of_load h m.pc
  constructor
  · intro hgoing
    cases hc : m.symbol? with
    | none =>
      rw [← halted_iff, hgoing] at hc
      cases hc
    | some c =>
      have hp := Source.standsAt_offset (hsymbol.trans hc)
      rw [← hoffset] at hp
      exact ⟨c, _, rfl, hp, Source.pointsAt_excerpt hp.char⟩
  · intro hhalted
    rw [halted_iff, ← hsymbol] at hhalted
    rw [hoffset, Source.offset_eq_length hhalted]
    exact Source.pointsPast_excerpt source

end Machine

namespace Debugger.Session

variable {s e : Session} {reply : Reply} {line : Text} {command : Command} {fuel : Nat}

theorem frame_of_answer (h : s.answer fuel command = some reply) :
    reply.session.source = s.source ∧ reply.session.color = s.color := by
  cases command with
  | run =>
    obtain ⟨x, -, rfl⟩ := Option.map_eq_some_iff.mp h
    exact ⟨rfl, rfl⟩
  | _ =>
    obtain rfl := Option.some.inj h
    exact ⟨rfl, rfl⟩

theorem frame_of_replies (h : s.Replies line reply) :
    reply.session.source = s.source ∧ reply.session.color = s.color := by
  cases hread : Command.read line with
  | error e =>
    obtain rfl := (replies_of_error hread).mp h
    exact ⟨rfl, rfl⟩
  | ok command =>
    obtain ⟨fuel, answer, ha, rfl⟩ := (replies_of_ok hread).mp h
    have hframe := frame_of_answer ha
    exact hframe

theorem Feeds.frame {log : List Exchange} (h : Feeds s log e) :
    e.source = s.source ∧ e.color = s.color := by
  induction h with
  | nil => exact ⟨rfl, rfl⟩
  | @cons s _ raised _ _ _ first _ ih =>
    obtain ⟨hsource, hcolor⟩ := frame_of_replies first
    exact ⟨ih.1.trans hsource, ih.2.trans hcolor⟩

/-- However the session got there, the location that it tells is that of its next symbol in the
source that was loaded. -/
theorem text_of_location {color : Bool} {limit : Option Nat} {log : List Exchange}
    (hload : load source input settings = .ok s)
    (hfeeds : Feeds { s with color, maxSteps := limit } log e)
    (hread : Command.read line = .ok .location) (raised : Bool) :
    Program.load settings.breakpoint source = .ok e.machine.program ∧
      ∀ reply, (e.raise raised).Replies line reply →
        reply.text = (Source.excerpt source (e.machine.program.offset e.machine.pc)).printed color
          settings.breakpoint := by
  obtain ⟨m, hm, rfl⟩ := load_eq_ok hload
  have ho := Machine.fresh_load hm
  have he := hfeeds.tracks ho (Machine.Tracks.self ho)
  have hsource : e.source = source := hfeeds.frame.1
  have hcolor : e.color = color := hfeeds.frame.2
  have hsettings : e.machine.settings = settings := he.settings.trans (Machine.settings_load hm)
  constructor
  · obtain ⟨p, hp, rfl⟩ := Machine.load_eq_ok hm
    exact he.program ▸ hp
  · intro reply hreply
    obtain ⟨fuel, answer, ha, rfl⟩ := (replies_of_ok hread).mp hreply
    obtain rfl := Option.some.inj ha
    rw [← hsource, ← hcolor, ← hsettings]
    rfl

end Debugger.Session

theorem Fault.report_unmatched (program : Option Text) (breakpoint : Option Char) (source : Text)
    (b : Bracket) (i : Nat) :
    (unmatched b i).report program breakpoint source =
      Text.line
          (Text.signed program
              ("Parse error: unmatched bracket ".toList ++ Text.quoted [b.toChar])
            ++ " at instruction ".toList ++ Text.decimal i)
        ++ (Source.excerpt source (Source.offset breakpoint source i)).printed false
            breakpoint := by
  simp [report, Source.report, Source.Excerpt.lines, Source.Excerpt.printed]

/-- A source that is not well bracketed is refused for one of its brackets. -/
theorem Machine.exists_load_eq_error (h : ¬Source.WellBracketed source) (input : Text)
    (settings : Settings) :
    ∃ b i, load source input settings = .error (.unmatched b i) ∧
      Source.StandsAt settings.breakpoint source i b.toChar
        (Source.offset settings.breakpoint source i) := by
  cases hload : load source input settings with
  | ok m =>
    have hbalanced := (exists_load_iff source input settings).mp ⟨m, hload⟩
    exact absurd ((Source.balanced_iff source).mp hbalanced) h
  | error f =>
    have hpartners := Program.load_eq_error_iff.mp (load_eq_error_iff.mp hload)
    obtain ⟨b, i, rfl, hb⟩ := (Source.blames_of_partners hpartners).exists_bracket
    exact ⟨b, i, rfl, Source.standsAt_offset hb⟩

theorem CommandLine.prints_fault {f : Fault} (h : Machine.load source input settings = .error f)
    (a : Arguments) (host : Host) :
    (Run.launch a host source input settings).stderr =
        f.report (some programName) settings.breakpoint source ∧
      Debug.session a source input settings = .error
        { code := 1, stderr := f.report (some programName) settings.breakpoint source } := by
  obtain ⟨recording, hsession⟩ := session_eq a source input settings
  rw [launch_eq, h, hsession, Machine.load_recording_error h]
  exact ⟨rfl, rfl⟩

/-- A symbol of a source stands where its program has it and where a second reading of the source
finds it, and an excerpt made there points at it. So the debugger points at the symbol to be
executed next, or past the end of the source, and a source that is not well bracketed is reported
with the caret below a bracket of the kind that is named. -/
theorem caret_below_symbol (source : Text) (settings : Settings) :
    (∀ i c, (source.filter (Source.isSymbol settings.breakpoint))[i]? = some c →
      ∃ p, Source.StandsAt settings.breakpoint source i c p ∧
        Source.offset settings.breakpoint source i = p ∧
        (∀ q, Program.load settings.breakpoint source = .ok q → q.offset i = p) ∧
        (Source.excerpt source p).PointsAt source p c) ∧
    (∀ input color limit s log e raised line,
      Session.load source input settings = .ok s →
      Session.Feeds { s with color, maxSteps := limit } log e →
      Command.read line = .ok .location →
      (∃ reply, (e.raise raised).Replies line reply) ∧
      ∃ x : Source.Excerpt,
        (∀ reply, (e.raise raised).Replies line reply →
          reply.text = x.printed color settings.breakpoint) ∧
        (e.machine.halted = false →
          ∃ c p, e.machine.symbol? = some c ∧
            Source.StandsAt settings.breakpoint source e.machine.pc c p ∧ x.PointsAt source p c) ∧
        (e.machine.halted = true → x.PointsPast source)) ∧
    (¬Source.WellBracketed source → ∀ input, ∃ f b i p, ∃ x : Source.Excerpt,
      Machine.load source input settings = .error f ∧ f = .unmatched b i ∧
      Source.StandsAt settings.breakpoint source i b.toChar p ∧ x.PointsAt source p b.toChar ∧
      (∀ program, f.report program settings.breakpoint source =
        Text.line
            (Text.signed program
                ("Parse error: unmatched bracket ".toList ++ Text.quoted [b.toChar])
              ++ " at instruction ".toList ++ Text.decimal i)
          ++ x.printed false settings.breakpoint) ∧
      ∀ a host,
        (Run.launch a host source input settings).stderr =
            f.report (some programName) settings.breakpoint source ∧
          Debug.session a source input settings = .error
            { code := 1, stderr := f.report (some programName) settings.breakpoint source }) := by
  refine ⟨?_, ?_, ?_⟩
  · intro i c hc
    have hp := Source.standsAt_offset hc
    exact ⟨_, hp, rfl, fun q hq => Program.offset_of_load hq i, Source.pointsAt_excerpt hp.char⟩
  · intro input color limit s log e raised line hload hfeeds hread
    obtain ⟨hprogram, htext⟩ := Session.text_of_location hload hfeeds hread raised
    have hrun : Command.read line ≠ .ok .run := fun h => nomatch hread.symm.trans h
    exact ⟨Session.exists_replies _ hrun, _, htext, Machine.points_at_next hprogram⟩
  · intro h input
    obtain ⟨b, i, hload, hp⟩ := Machine.exists_load_eq_error h input settings
    exact ⟨_, b, i, _, _, hload, rfl, hp, Source.pointsAt_excerpt hp.char,
      fun program => Fault.report_unmatched program settings.breakpoint source b i,
      prints_fault hload⟩

/-- Between comments the debugger points at the first symbol, a breakpoint that is a line feed is
shown as a space, and a bracket too many is pointed at where it stands. -/
theorem caret_below_symbol_commented :
    ∃ s e reply p, ∃ x : Source.Excerpt,
      Session.load "hi +\n-".toList [] { breakpoint := some '\n' } = .ok s ∧
      Session.Feeds { s with color := true, maxSteps := none } [] e ∧
      (e.raise false).Replies "where".toList reply ∧ reply.text = x.printed true (some '\n') ∧
      "hi +\n-".toList[p]? = some '+' ∧ x.PointsAt "hi +\n-".toList p '+' ∧
      (Source.excerpt "hi +\n-".toList 4).PointsAt "hi +\n-".toList 4 '\n' ∧
      ∃ b i q, ∃ y : Source.Excerpt,
        Machine.load "[ok]]".toList [] {} = .error (.unmatched b i) ∧
        y.PointsAt "[ok]]".toList q b.toChar := by
  have hread : Command.read "where".toList = .ok .location := by
    rw [Command.read, show Text.words "where".toList = ["where".toList] by decide +kernel]
    rfl
  obtain ⟨s, hload, hgoing, hnext⟩ : ∃ s,
      Session.load "hi +\n-".toList [] { breakpoint := some '\n' } = .ok s ∧
        s.machine.halted = false ∧ s.machine.symbol? = some '+' :=
    ⟨_, rfl, rfl, rfl⟩
  obtain ⟨hsymbol, hlocation, -⟩ := caret_below_symbol "hi +\n-".toList { breakpoint := some '\n' }
  obtain ⟨⟨reply, hreply⟩, x, htext, hpoints, -⟩ :=
    hlocation [] true none s [] _ false "where".toList hload .nil hread
  obtain ⟨c, p, hc, hp, hx⟩ := hpoints hgoing
  obtain rfl : '+' = c := Option.some.inj (hnext.symm.trans hc)
  obtain ⟨_, -, rfl, -, hblank⟩ := hsymbol 1 '\n' rfl
  have hexcess : ¬Source.WellBracketed "[ok]]".toList := fun h => absurd h.total (by decide)
  obtain ⟨-, -, hreport⟩ := caret_below_symbol "[ok]]".toList {}
  obtain ⟨_, b, i, q, y, hrefused, rfl, -, hy, -⟩ := hreport hexcess []
  exact ⟨s, _, reply, p, x, hload, .nil, hreply, htext reply hreply, hp.char, hx, hblank,
    b, i, q, y, hrefused, hy⟩

end Brainfuck
