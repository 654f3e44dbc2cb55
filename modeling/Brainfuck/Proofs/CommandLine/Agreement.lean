import Brainfuck.CommandLine.Call
import Brainfuck.Proofs.CommandLine.Reading
import Brainfuck.Proofs.CommandLine.Report
import Brainfuck.Proofs.Debugger.Dialogue
import Brainfuck.Proofs.Supervision

namespace Brainfuck.CommandLine

open Debugger

variable {limit : Nat} {x : Except Abort Stop} {format : CellFormat}

/-- Commands that run the program and ask for its output. -/
def script (name : Text) : Text := "run\nout ".toList ++ name ++ ['\n']

inductive Named : Text → CellFormat → Prop where
  | hexadecimal : Named "hex".toList .hexadecimal
  | decimal : Named "dec".toList .decimal

theorem Named.read {name : Text} (h : Named name format) : CellFormat.read name = .ok format := by
  cases h <;> decide +kernel

theorem Named.ne_ascii {name : Text} (h : Named name format) : format ≠ .ascii := by
  cases h <;> decide

theorem Named.not_dashed {name : Text} (h : Named name format) : ¬Dashed name := by
  cases h <;> rintro ⟨c, letters, ⟨⟩⟩

theorem exists_script_lines {name : Text} (h : Named name format) :
    ∃ first second line, (Bytes.ofText (script name)).lines = [first, second] ∧
      Bytes.text? first = some "run".toList ∧ Bytes.text? second = some line ∧
      Command.read line = .ok (.output (some format)) := by
  cases h with
  | hexadecimal =>
    refine ⟨Bytes.ofText "run".toList, Bytes.ofText "out hex".toList, "out hex".toList, ?_⟩
    decide +kernel
  | decimal =>
    refine ⟨Bytes.ofText "run".toList, Bytes.ofText "out dec".toList, "out dec".toList, ?_⟩
    decide +kernel

theorem converse_script {name : Text} (hname : Named name format) {host : Host}
    (hstdin : host.stdin = .ok (Bytes.ofText (script name))) {m e : Machine} {fuel : Nat}
    {source : Text}
    (h : m.supervise { maxSteps := some limit } fuel = some (x, e)) :
    Debug.converse fuel host { source, machine := m, maxSteps := some limit } =
      some { code := 0, stdout := runText x ++ stateText e ++ outputText format e } := by
  obtain ⟨first, second, line, hlines, hfirst, hsecond, hline⟩ := exists_script_lines hname
  have hread : Command.read "run".toList = .ok .run := by decide +kernel
  have hrun : Session.respond fuel { source, machine := m, maxSteps := some limit } "run".toList =
      some (Session.moved { source, machine := m, maxSteps := some limit } (runText x) e) := by
    rw [Session.respond_of_ok hread, Session.perform, Session.answer]
    show Option.map _ (Option.map _ (m.supervise { maxSteps := some limit } fuel)) = _
    rw [h]
    rfl
  have hout : Session.respond fuel { source, machine := e, maxSteps := some limit } line =
      some (Session.told
        { source, machine := e, maxSteps := some limit, outputFormat := format }
        (outputText format e)) := by
    rw [Session.respond_of_ok hline]
    rfl
  rw [Debug.converse, hstdin]
  simp only [Session.transcript, hlines, Session.feed, hfirst, hsecond, hrun, Session.moved, hout,
    Session.told, Option.map_some, Debug.conclude, List.append_nil, Bool.false_eq_true, if_false]

section

open Machine

variable {m e : Machine}

/-- A run with a step limit ends when the limit is reached, or before. -/
theorem exists_supervise_limited (hm : m.program.Sound m.settings.breakpoint) (limit : Nat) :
    ∃ x e, Ends limit x ∧
      ∀ fuel, limit < fuel → m.supervise { maxSteps := some limit } fuel = some (x, e) := by
  obtain ⟨k, x, hk⟩ := exists_pauses_limited m limit
  refine ⟨x, m.after k, ?_, fun fuel hfuel => hk.supervise_limited hm hfuel⟩
  cases hk.answer with
  | breakpoint => exact .breakpoint _
  | halted => exact .halted
  | abort miss going ha =>
    obtain ⟨_, ⟨⟩, -, rfl⟩ := abort?_maxSteps.mp ha
    exact .stepLimit

theorem supervise_unrecorded_eq (hm : m.program.Sound m.settings.breakpoint)
    {cancelAfter : Option Nat} {fuel : Nat} {y : Except Abort Stop} {e' : Machine}
    (h : m.unrecorded.supervise { maxSteps := some limit, cancelAfter } fuel = some (y, e'))
    (hy : y ≠ .error .cancelled)
    (hx : ∀ fuel, limit < fuel → m.supervise { maxSteps := some limit } fuel = some (x, e)) :
    y = x ∧ e' = e.unrecorded := by
  rw [supervise, superviseFrom_unrecorded] at h
  obtain ⟨⟨y, n⟩, hn, he⟩ := Option.map_eq_some_iff.mp h
  obtain ⟨rfl, rfl⟩ := Prod.mk.inj he
  obtain ⟨k, hk, rfl⟩ := (supervise_iff hm).mp ⟨fuel, hn⟩
  have hfree := (hk.uncancelled hy).supervise hm 0
  obtain ⟨rfl, rfl⟩ := Prod.mk.inj (superviseFrom_unique hfree (hx _ (Nat.lt_succ_self limit)))
  exact ⟨rfl, rfl⟩

end

/-- The arguments of a run that has code, an input and settings. -/
structure Gives (a : Arguments) (host : Host) (source input : Text) (settings : Settings) :
    Prop where
  help : a.help = false
  checkSource : a.checkSource .run = .ok ()
  source : a.source .run host = .ok source
  input : a.input = some input
  settings : a.settings host = .ok settings

structure Run.Starts (a : Arguments) (host : Host) (source input : Text) (settings : Settings) :
    Prop where
  help : a.help = false
  checkSource : a.checkSource .run = .ok ()
  source : a.source .run host = .ok source
  input : a.inputText .run host = .ok input
  settings : a.settings host = .ok settings

namespace Matched

variable {n : Nat} {a b : Arguments} {host : Host} {stdin : Except ReadFailure Bytes}
  {source : Text}

theorem checkSource_debug (h : Matched n format a b) (ha : a.checkSource .run = .ok ()) :
    b.checkSource .debug = .ok () := by
  unfold Arguments.checkSource at ha ⊢
  rw [← h.file, ← h.code]
  split at ha
  · cases ha
  · next hnone => rw [if_neg hnone]

theorem source_debug (h : Matched n format a b) (ha : a.source .run host = .ok source) :
    b.source .debug { host with stdin } = .ok source := by
  unfold Arguments.source at ha ⊢
  rw [← h.file, ← h.code]
  split at ha
  · exact ha
  · cases ha
  · exact ha

theorem settings_debug (h : Matched n format a b) :
    b.settings { host with stdin } = a.settings host := by
  have hoverlay : b.overlay = a.overlay := by
    funext s
    unfold Arguments.overlay
    rw [h.endOfInput, h.cellWidth, h.breakpoint]
  unfold Arguments.settings
  rw [hoverlay]
  rfl

end Matched

section

variable {n : Nat} {a b : Arguments} {host : Host} {stdin : Except ReadFailure Bytes}
  {source input : Text}
  {settings : Settings}

theorem Gives.starts (h : Gives a host source input settings) :
    Run.Starts a host source input settings where
  help := h.help
  checkSource := h.checkSource
  source := h.source
  input := by rw [Arguments.inputText, h.input]
  settings := h.settings

theorem Run.respond_of_starts (h : Run.Starts a host source input settings) :
    Run.respond a host = .ok (Run.launch a host source input settings) := by
  rw [Run.respond, h.help, h.checkSource, h.source, h.input, h.settings]
  rfl

theorem respond_of_gives (h : Gives a host source input settings) :
    Run.respond a host = .ok (Run.launch a host source input settings) :=
  Run.respond_of_starts h.starts

theorem session_eq (b : Arguments) (source input : Text) (settings : Settings) :
    ∃ recording, Debug.session b source input settings =
      match Machine.load source input { settings with recording } with
      | .ok machine => .ok { source, machine, maxSteps := b.maxSteps }
      | .error fault => .error
        { code := 1, stderr := fault.report (some programName) settings.breakpoint source } := by
  unfold Debug.session Session.load
  cases b.noHistory with
  | true =>
    refine ⟨false, ?_⟩
    simp only [if_true]
    cases Machine.load source input { settings with recording := false } <;> rfl
  | false =>
    refine ⟨settings.recording, ?_⟩
    simp only [Bool.false_eq_true, if_false]
    cases Machine.load source input settings <;> rfl

/-- The debugger loads its machine just when a run does, and whether it records is all that they may
differ in. -/
theorem session_of_load (h : b.maxSteps = some limit) (source input : Text)
    (settings : Settings) :
    (∀ fault, Machine.load source input settings = .error fault →
      Debug.session b source input settings = .error
        { code := 1, stderr := fault.report (some programName) settings.breakpoint source }) ∧
    ∀ m, Machine.load source input settings = .ok m →
      ∃ m', Debug.session b source input settings =
          .ok { source, machine := m', maxSteps := some limit } ∧
        m'.unrecorded = m.unrecorded ∧ m'.Sound := by
  obtain ⟨recording, hsession⟩ := session_eq b source input settings
  constructor
  · intro fault hload
    rw [hsession, Machine.load_recording_error hload]
  · intro m hload
    obtain ⟨m', hm', he⟩ := Machine.exists_load_recording hload recording
    refine ⟨m', ?_, he, Machine.sound_load hm'⟩
    rw [hsession, hm', h]

/-- What a run is given the debugger is given too. -/
theorem prepare_of_gives (h : Matched n format a b) (hg : Gives a host source input settings) :
    Debug.prepare b { host with stdin } =
      (Debug.session b source input settings).map fun s => (.bare, s) := by
  have htext : b.inputText .debug { host with stdin } = .ok input := by
    rw [Arguments.inputText, ← h.input, hg.input]
  have hmode : Debug.mode b { host with stdin } = .ok .bare := by
    rw [Debug.mode, Debug.modeOption, h.bare]
    rfl
  rw [Debug.prepare, ← h.help, hg.help, h.checkSource_debug hg.checkSource, hmode,
    h.source_debug hg.source, htext, h.settings_debug, hg.settings]
  show (Debug.session b source input settings >>= fun s => .ok (Mode.bare, s)) = _
  cases Debug.session b source input settings <;> rfl

end

theorem launch_eq (a : Arguments) (host : Host) (source input : Text) (settings : Settings) :
    Run.launch a host source input settings =
      match Machine.load source input settings with
      | .error fault =>
        { code := 1, stdout := Text.line [],
          stderr := fault.report (some programName) settings.breakpoint source }
      | .ok m =>
        Run.conclude a.format (Run.limits a host) source
          (Run.carryOut host.pace (Run.limits a host) m.unrecorded) := by
  rw [Run.launch, Machine.load_without_recording]
  cases Machine.load source input settings <;> rfl

theorem carryOut_eq {m e : Machine} (hm : m.program.Sound m.settings.breakpoint) (pace : Nat)
    {l : Run.Limits} (hlimit : l.maxSteps = some limit)
    (hx : ∀ fuel, limit < fuel → m.supervise { maxSteps := some limit } fuel = some (x, e))
    (hc : (Run.carryOut pace l m.unrecorded).1 ≠ .error .cancelled) :
    Run.carryOut pace l m.unrecorded = (x, e.unrecorded) := by
  unfold Run.carryOut Run.supervision at hc ⊢
  rw [hlimit] at hc ⊢
  cases hrun : m.unrecorded.supervise
      { maxSteps := some limit, cancelAfter := some (l.milliseconds * pace) }
      (l.milliseconds * pace + 1) with
  | none =>
    rw [hrun] at hc
    exact absurd rfl hc
  | some y =>
    rw [hrun] at hc
    obtain ⟨hy, he⟩ := supervise_unrecorded_eq hm hrun hc hx
    exact Prod.ext hy he

def runWords (limit : Nat) (name : Text) (rest : List Text) : List Text :=
  "run".toList :: "--max-steps".toList :: Text.decimal limit :: "--format".toList :: name :: rest

def debugWords (limit : Nat) (rest : List Text) : List Text :=
  "debug".toList :: "--bare".toList :: "--max-steps".toList :: Text.decimal limit :: rest

/-- A run and a debugger that are called with the same words, apart from the format and the commands
that ask the debugger for the same, agree unless the run is cut off by the clock. -/
theorem run_agrees_debug {limit : Nat} {name : Text} {rest : List Text} {a b : Arguments}
    {host : Host} {source input : Text} {settings : Settings}
    (hname : name = "hex".toList ∨ name = "dec".toList)
    (ha : Request.read (runWords limit name rest) = .ok (.act .run a))
    (hb : Request.read (debugWords limit rest) = .ok (.act .debug b))
    (hgives : Gives a host source input settings) :
    ∃ r d, (∀ fuel, respond fuel host (runWords limit name rest) = some r) ∧
      (∀ fuel, limit < fuel →
        respond fuel { host with stdin := .ok (Bytes.ofText (script name)) }
          (debugWords limit rest) = some d) ∧
      (∀ fault, Machine.load source input settings = .error fault →
        r.code = 1 ∧ d.code = 1 ∧ r.stderr = d.stderr) ∧
      ∀ m, Machine.load source input settings = .ok m →
        r.stderr ≠ Run.timeoutText (Run.limits a host).milliseconds → Agree limit r d := by
  obtain ⟨format, hformat⟩ : ∃ format, Named name format := by
    rcases hname with rfl | rfl
    · exact ⟨_, .hexadecimal⟩
    · exact ⟨_, .decimal⟩
  have hmatched := matched_of_read hformat.read hformat.not_dashed ha hb
  have hrun (fuel : Nat) : respond fuel host (runWords limit name rest) =
      some (Run.launch a host source input settings) := by
    rw [respond, call, ha]
    simp only [act, respond_of_gives hgives]
  have hdebug (fuel : Nat) :
      respond fuel { host with stdin := .ok (Bytes.ofText (script name)) } (debugWords limit rest) =
        match Debug.session b source input settings with
        | .error d => some d
        | .ok s =>
          Debug.converse fuel { host with stdin := .ok (Bytes.ofText (script name)) } s := by
    rw [respond, call, hb]
    simp only [act, prepare_of_gives hmatched hgives]
    cases Debug.session b source input settings <;> rfl
  obtain ⟨hfault, hok⟩ := session_of_load hmatched.debugLimit source input settings
  cases hload : Machine.load source input settings with
  | error fault =>
    refine ⟨_, { code := 1, stderr := fault.report (some programName) settings.breakpoint source },
      hrun, ?_, ?_, ?_⟩
    · intro fuel _
      rw [hdebug, hfault fault hload]
    · rintro _ ⟨⟩
      rw [launch_eq, hload]
      exact ⟨rfl, rfl, rfl⟩
    · rintro _ ⟨⟩
  | ok m =>
    obtain ⟨m', hsession, hm, hsound⟩ := hok m hload
    obtain ⟨x, e, hx, hend⟩ := exists_supervise_limited hsound.program limit
    refine ⟨_, { code := 0, stdout := runText x ++ stateText e ++ outputText format e }, hrun, ?_,
      ?_, ?_⟩
    · intro fuel hfuel
      rw [hdebug, hsession]
      exact converse_script hformat rfl (hend fuel hfuel)
    · rintro _ ⟨⟩
    · intro _ _ htime
      have hlimit : (Run.limits a host).maxSteps = some limit := by
        rw [Run.limits, hmatched.runLimit]
        rfl
      have hlaunch : Run.launch a host source input settings =
          Run.conclude a.format (Run.limits a host) source
            (Run.carryOut host.pace (Run.limits a host) m'.unrecorded) := by
        rw [launch_eq, hload, hm]
      rw [hlaunch] at htime ⊢
      -- a run that is cancelled says so
      have hc : (Run.carryOut host.pace (Run.limits a host) m'.unrecorded).1 ≠
          .error .cancelled := by
        intro hc
        apply htime
        rw [Run.conclude, hc]
        rfl
      rw [carryOut_eq hsound.program host.pace hlimit hend hc, hmatched.format]
      exact agree_conclude hformat.ne_ascii hx (Run.limits a host) source e

/-- A character is read, and the run is suspended before it would be put out. -/
theorem run_agrees_debug_suspended :
    ∃ host rest r d,
      rest = ["--input".toList, "h".toList, "--breakpoint".toList, "#".toList, ",#.".toList] ∧
      respond 0 host (runWords 5 "hex".toList rest) = some r ∧
      respond 6 { host with stdin := .ok (Bytes.ofText (script "hex".toList)) }
        (debugWords 5 rest) = some d ∧
      r.code = 0 ∧ r.stderr = suspensionText 1 2 ∧ Agree 5 r d := by
  let host : Host :=
    { environment := fun _ => none, stdin := .ok [], terminal := true,
      fileAt := fun _ => .error .missing, document := none, pace := 1 }
  let rest : List Text :=
    ["--input".toList, "h".toList, "--breakpoint".toList, "#".toList, ",#.".toList]
  let a : Arguments :=
    { input := some "h".toList, breakpoint := some "#".toList, format := .hexadecimal,
      maxSteps := some 5, code := [",#.".toList],
      given := [.maxSteps, .format, .input, .breakpoint] }
  let b : Arguments :=
    { input := some "h".toList, breakpoint := some "#".toList, maxSteps := some 5, bare := true,
      code := [",#.".toList], given := [.bare, .maxSteps, .input, .breakpoint] }
  have ha : Request.read (runWords 5 "hex".toList rest) = .ok (.act .run a) := by decide +kernel
  have hb : Request.read (debugWords 5 rest) = .ok (.act .debug b) := by decide +kernel
  have hgives : Gives a host ",#.".toList "h".toList { breakpoint := some '#' } :=
    ⟨rfl, rfl, rfl, rfl, rfl⟩
  obtain ⟨r, d, hr, hd, -, hagree⟩ := run_agrees_debug (.inl rfl) ha hb hgives
  obtain ⟨m, hload⟩ : ∃ m,
      Machine.load ",#.".toList "h".toList { breakpoint := some '#' } = .ok m := ⟨_, rfl⟩
  have hends : (respond 0 host (runWords 5 "hex".toList rest)).map (fun r => (r.code, r.stderr)) =
      some (0, suspensionText 1 2) := by
    decide +kernel
  rw [hr 0] at hends
  obtain ⟨hcode, hstderr⟩ := Prod.mk.inj (Option.some.inj hends)
  refine ⟨host, rest, r, d, rfl, hr 0, hd 6 (by decide), hcode, hstderr, hagree m hload ?_⟩
  rw [hstderr]
  decide +kernel

end Brainfuck.CommandLine
