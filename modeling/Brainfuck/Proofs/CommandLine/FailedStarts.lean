import Brainfuck.Proofs.Caret

namespace Brainfuck.CommandLine

open Debugger

variable {α β : Type} {a : Arguments} {action : Action} {host : Host} {words : List Text}
  {source input : Text} {settings : Settings}

/-- A step of a call that puts nothing out where it ends the call. -/
def Silent (x : Except Response α) : Prop := ∀ r, x = .error r → r.stdout = []

namespace Silent

theorem ok (a : α) : Silent (.ok a) := nofun

theorem error {r : Response} (h : r.stdout = []) : Silent (α := α) (.error r) := by
  intro r' hr'
  rw [← Except.error.inj hr', h]

theorem bind {x : Except Response α} {f : α → Except Response β} (h : Silent x)
    (hf : ∀ a, Silent (f a)) : Silent (x >>= f) := by
  cases x with
  | error r => exact error (h r rfl)
  | ok a => exact hf a

theorem orComplain (what : String) (x : Except ReadFailure Text) :
    Silent (Arguments.orComplain what x) := by
  cases x with
  | error e => exact error rfl
  | ok t => exact ok t

end Silent

theorem silent_checkSource (a : Arguments) (action : Action) : Silent (a.checkSource action) := by
  unfold Arguments.checkSource
  split
  · exact .error rfl
  · exact .ok ()

theorem silent_source (a : Arguments) (action : Action) (host : Host) :
    Silent (a.source action host) := by
  unfold Arguments.source
  split
  · exact .orComplain _ _
  · exact .error rfl
  · exact .ok _

theorem silent_inputText (a : Arguments) (action : Action) (host : Host) :
    Silent (a.inputText action host) := by
  unfold Arguments.inputText
  split
  · exact .ok _
  · exact .orComplain _ _
  · split
    · exact .orComplain _ _
    · exact .ok _

theorem silent_settings (a : Arguments) (host : Host) : Silent (a.settings host) := by
  unfold Arguments.settings
  split
  · exact .ok _
  · exact .error rfl

theorem silent_mode (a : Arguments) (host : Host) : Silent (Debug.mode a host) := by
  unfold Debug.mode
  split
  · exact .ok _
  · exact .error rfl

theorem silent_session (a : Arguments) (source input : Text) (settings : Settings) :
    Silent (Debug.session a source input settings) := by
  obtain ⟨recording, h⟩ := session_eq a source input settings
  rw [h]
  split
  · exact .ok _
  · exact .error rfl

theorem silent_run (a : Arguments) (host : Host) : Silent (Run.respond a host) := by
  unfold Run.respond
  split
  · exact .error rfl
  · exact (silent_checkSource a _).bind fun _ => (silent_source a _ host).bind fun _ =>
      (silent_inputText a _ host).bind fun _ => (silent_settings a host).bind fun _ => .ok _

theorem silent_debug (a : Arguments) (host : Host) : Silent (Debug.prepare a host) := by
  unfold Debug.prepare
  split
  · exact .error rfl
  · exact (silent_checkSource a _).bind fun _ => (silent_mode a host).bind fun _ =>
      (silent_source a _ host).bind fun _ => (silent_inputText a _ host).bind fun _ =>
        (silent_settings a host).bind fun _ => (silent_session a _ _ _).bind fun _ => .ok _

theorem code_conclude_ne (format : CellFormat) (l : Run.Limits) (source : Text)
    (run : Except Abort Stop × Machine) : (Run.conclude format l source run).code ≠ 2 := by
  obtain ⟨x, m⟩ := run
  have hcode : (Run.verdict l source m x).1 ≠ 2 := by
    unfold Run.verdict
    split <;> exact nofun
  exact hcode

theorem code_launch_ne (a : Arguments) (host : Host) (source input : Text) (settings : Settings) :
    (Run.launch a host source input settings).code ≠ 2 := by
  rw [launch_eq]
  split
  · exact nofun
  · exact code_conclude_ne _ _ _ _

theorem code_converse_ne {fuel : Nat} {s : Debugger.Session} {r : Response}
    (h : Debug.converse fuel host s = some r) : r.code ≠ 2 := by
  unfold Debug.converse at h
  split at h
  · obtain ⟨t, -, rfl⟩ := Option.map_eq_some_iff.mp h
    unfold Debug.conclude
    split <;> exact nofun
  · obtain rfl := Option.some.inj h
    exact nofun

theorem exists_launch {r : Response} (h : Run.respond a host = .ok r) :
    ∃ source input settings, r = Run.launch a host source input settings := by
  unfold Run.respond at h
  split at h
  · cases h
  · obtain ⟨_, -, h⟩ := exists_of_bind_eq_ok h
    obtain ⟨source, -, h⟩ := exists_of_bind_eq_ok h
    obtain ⟨input, -, h⟩ := exists_of_bind_eq_ok h
    obtain ⟨settings, -, h⟩ := exists_of_bind_eq_ok h
    exact ⟨source, input, settings, (Except.ok.inj h).symm⟩

/-- Nothing is put out by a call that ends with the exit code 2. -/
theorem stdout_of_code {fuel : Nat} {r : Response} (h : respond fuel host words = some r)
    (hcode : r.code = 2) : r.stdout = [] := by
  rw [respond, call] at h
  cases hread : Request.read words with
  | error refusal =>
    rw [hread] at h
    obtain rfl := Option.some.inj h
    rfl
  | ok request =>
    rw [hread] at h
    cases request with
    | overview asked =>
      obtain rfl := Option.some.inj h
      rfl
    | act action a =>
      cases action with
      | run =>
        cases hrun : Run.respond a host with
        | error r' =>
          simp only [act, hrun, Option.some_inj] at h
          exact h ▸ silent_run a host r' hrun
        | ok r' =>
          simp only [act, hrun, Option.some_inj] at h
          -- a run that was started ends with 0 or 1
          obtain ⟨source, input, settings, hlaunch⟩ := exists_launch hrun
          rw [← h, hlaunch] at hcode
          exact absurd hcode (code_launch_ne a host source input settings)
      | debug =>
        cases hprepare : Debug.prepare a host with
        | error r' =>
          simp only [act, hprepare, Option.some_inj] at h
          exact h ▸ silent_debug a host r' hprepare
        | ok started =>
          obtain ⟨mode, s⟩ := started
          simp only [act, hprepare] at h
          exact absurd hcode (code_converse_ne h)

/-- A read that a call attempts once what comes before it has gone well, and what the read comes to:
first that of a code file, then that of an input file or, for a run that is given no input, that of
standard input. -/
inductive Attempts (a : Arguments) (action : Action) (host : Host) :
    Except ReadFailure Text → Prop where
  | code {path : Text} (file : a.file = some path) : Attempts a action host (host.readText path)
  | inputFile {source path : Text} (code : a.source action host = .ok source)
    (input : a.input = none) (file : a.inputFile = some path) :
    Attempts a action host (host.readText path)
  | stdin {source : Text} (run : action = .run) (code : a.source action host = .ok source)
    (input : a.input = none) (file : a.inputFile = none) (piped : host.terminal = false) :
    Attempts a action host host.stdinText

/-- A read that fails is complained about, and the start goes no further. -/
theorem Attempts.complains {e : ReadFailure} (h : Attempts a action host (.error e)) :
    ∃ message, a.source action host = .error (.complaint 1 message) ∨
      ∃ source, a.source action host = .ok source ∧
        a.inputText action host = .error (.complaint 1 message) := by
  generalize hx : Except.error e = x at h
  cases h with
  | code file =>
    have hsource : a.source action host =
        Arguments.orComplain "failed to read code file as UTF-8" (.error e) := by
      rw [Arguments.source, file, hx]
    exact ⟨_, .inl hsource⟩
  | inputFile code input file =>
    have hinput : a.inputText action host =
        Arguments.orComplain "failed to read input file as UTF-8" (.error e) := by
      rw [Arguments.inputText, input, file, hx]
    exact ⟨_, .inr ⟨_, code, hinput⟩⟩
  | stdin run code input file piped =>
    have hinput : a.inputText action host =
        Arguments.orComplain "failed reading UTF-8 from stdin" (.error e) := by
      have hread : action = .run ∧ ¬host.terminal = true := ⟨run, Bool.eq_false_iff.mp piped⟩
      rw [Arguments.inputText, input, file, hx]
      exact if_pos hread
    exact ⟨_, .inr ⟨_, code, hinput⟩⟩

theorem call_run (hread : Request.read words = .ok (.act .run a)) {r : Response}
    (h : Run.respond a host = .ok r ∨ Run.respond a host = .error r) :
    call host words = .finished r := by
  rw [call, hread]
  rcases h with h | h <;> simp only [act, h]

theorem call_debug (hread : Request.read words = .ok (.act .debug a)) {r : Response}
    (h : Debug.prepare a host = .error r) : call host words = .finished r := by
  rw [call, hread]
  simp only [act, h]

theorem exists_mode (a : Arguments) (host : Host) :
    (∃ mode, Debug.mode a host = .ok mode) ∨
      ∃ message, Debug.mode a host = .error (.complaint 1 message) := by
  unfold Debug.mode
  split
  · exact .inl ⟨_, rfl⟩
  · exact .inr ⟨_, rfl⟩

/-- The first read that fails ends a call, whatever its settings are. -/
theorem call_of_failed_read (hread : Request.read words = .ok (.act action a))
    (hhelp : a.help = false) (hcheck : a.checkSource action = .ok ()) {e : ReadFailure}
    (h : Attempts a action host (.error e)) :
    ∃ message, call host words = .finished (.complaint 1 message) := by
  obtain ⟨message, h⟩ := h.complains
  cases action with
  | run =>
    refine ⟨message, call_run hread (.inr ?_)⟩
    rw [Run.respond, hhelp, hcheck]
    rcases h with h | ⟨source, hsource, h⟩
    · rw [h]
      rfl
    · rw [hsource, h]
      rfl
  | debug =>
    rcases exists_mode a host with ⟨mode, hmode⟩ | ⟨message, hmode⟩
    · refine ⟨message, call_debug hread ?_⟩
      rw [Debug.prepare, hhelp, hcheck, hmode]
      rcases h with h | ⟨source, hsource, h⟩
      · rw [h]
        rfl
      · rw [hsource, h]
        rfl
    · refine ⟨message, call_debug hread ?_⟩
      rw [Debug.prepare, hhelp, hcheck, hmode]
      rfl

/-- A run of code that is not balanced puts out a line feed only. -/
theorem call_run_unbalanced (hread : Request.read words = .ok (.act .run a))
    (hstarts : Run.Starts a host source input settings) (h : ¬Source.WellBracketed source) :
    ∃ r, call host words = .finished r ∧ r.code = 1 ∧ r.stdout = ['\n'] := by
  obtain ⟨b, i, hload, -⟩ := Machine.exists_load_eq_error h input settings
  have hlaunch := launch_eq a host source input settings
  rw [hload] at hlaunch
  refine ⟨_, call_run hread (.inl (Run.respond_of_starts hstarts)), ?_⟩
  rw [hlaunch]
  exact ⟨rfl, rfl⟩

/-- A debugger of code that is not balanced puts out nothing, and does not read any command. -/
theorem call_debug_unbalanced (hread : Request.read words = .ok (.act .debug a))
    (hhelp : a.help = false) (hcheck : a.checkSource .debug = .ok ())
    (hsource : a.source .debug host = .ok source) (hinput : a.inputText .debug host = .ok input)
    (hsettings : a.settings host = .ok settings) (h : ¬Source.WellBracketed source) :
    ∃ r, (∀ stdin, call { host with stdin } words = .finished r) ∧ r.code = 1 ∧ r.stdout = [] := by
  obtain ⟨b, i, hload, -⟩ := Machine.exists_load_eq_error h input settings
  obtain ⟨r, hsession, hcode, hstdout⟩ : ∃ r,
      Debug.session a source input settings = .error r ∧ r.code = 1 ∧ r.stdout = [] :=
    ⟨_, (prints_fault hload a host).2, rfl, rfl⟩
  rcases exists_mode a host with ⟨mode, hmode⟩ | ⟨message, hmode⟩
  · refine ⟨r, fun stdin => call_debug hread ?_, hcode, hstdout⟩
    have hmode' : Debug.mode a { host with stdin } = .ok mode := hmode
    have hsource' : a.source .debug { host with stdin } = .ok source := hsource
    have hsettings' : a.settings { host with stdin } = .ok settings := hsettings
    have hinput' : a.inputText .debug { host with stdin } = .ok input := by
      rw [← hinput]
      unfold Arguments.inputText
      rfl
    rw [Debug.prepare, hhelp, hcheck, hmode', hsource', hinput', hsettings']
    show (Debug.session a source input settings >>= fun s => .ok (mode, s)) = _
    rw [hsession]
    rfl
  · refine ⟨.complaint 1 message, fun stdin => call_debug hread ?_, rfl, rfl⟩
    have hmode' : Debug.mode a { host with stdin } = .error (.complaint 1 message) := hmode
    rw [Debug.prepare, hhelp, hcheck, hmode']
    rfl

/-- A call that ends with the exit code 2 puts nothing out. Where its words ask for an action, code
that is not balanced ends it with the exit code 1, for the debugger before any command is read and
for a run after a line feed, and so does a read that fails, whatever else is wrong. -/
theorem failed_start_silent (host : Host) (words : List Text) :
    (∀ fuel r, respond fuel host words = some r → r.code = 2 → r.stdout = []) ∧
    ∀ action a, Request.read words = .ok (.act action a) → a.help = false →
      a.checkSource action = .ok () →
      (∀ source input settings, a.source action host = .ok source →
        a.inputText action host = .ok input → a.settings host = .ok settings →
        ¬Source.WellBracketed source →
        (action = .debug → ∃ r, (∀ stdin, call { host with stdin } words = .finished r) ∧
          r.code = 1 ∧ r.stdout = []) ∧
        (action = .run → ∃ r, call host words = .finished r ∧ r.code = 1 ∧ r.stdout = ['\n'])) ∧
      ∀ e, Attempts a action host (.error e) →
        ∃ r, call host words = .finished r ∧ r.code = 1 ∧ r.stdout = [] := by
  refine ⟨fun fuel r => stdout_of_code, ?_⟩
  intro action a hread hhelp hcheck
  constructor
  · intro source input settings hsource hinput hsettings h
    constructor
    · rintro rfl
      exact call_debug_unbalanced hread hhelp hcheck hsource hinput hsettings h
    · rintro rfl
      exact call_run_unbalanced hread ⟨hhelp, hcheck, hsource, hinput, hsettings⟩ h
  · intro e h
    obtain ⟨message, hcall⟩ := call_of_failed_read hread hhelp hcheck h
    exact ⟨_, hcall, rfl, rfl⟩

/-- No code is a usage error; an open bracket ends a debugger and a run; and a file that is missing
is found before a bad setting. -/
theorem failed_start_silent_kinds :
    ∃ host misled : Host,
      misled.environment "BF_EOF".toList = some "none".toList ∧
      (∃ r, respond 0 host ["run".toList] = some r ∧ r.code = 2 ∧ r.stdout = []) ∧
      (∃ r, (∀ stdin, call { host with stdin } ["debug".toList, "[".toList] = .finished r) ∧
        r.code = 1 ∧ r.stdout = []) ∧
      (∃ r, call host ["run".toList, "[".toList] = .finished r ∧ r.code = 1 ∧ r.stdout = ['\n']) ∧
      ∃ r, call misled ["run".toList, "--file".toList, "a.bf".toList] = .finished r ∧
        r.code = 1 ∧ r.stdout = [] := by
  let host : Host :=
    { environment := fun _ => none, stdin := .ok [], terminal := false,
      fileAt := fun _ => .error .missing, document := none, pace := 1 }
  let misled : Host :=
    { host with
      environment := fun name => if name = "BF_EOF".toList then some "none".toList else none }
  have hopen : ¬Source.WellBracketed "[".toList := fun h => absurd h.total (by decide)
  have hword (action : Action) : Request.read [action.name, "[".toList] =
      .ok (.act action { code := ["[".toList] }) := by
    cases action <;> rfl
  have hfile : Request.read ["run".toList, "--file".toList, "a.bf".toList] =
      .ok (.act .run { file := some "a.bf".toList, given := [.file] }) := by
    decide +kernel
  obtain ⟨r, hr, hcode⟩ : ∃ r, respond 0 host ["run".toList] = some r ∧ r.code = 2 := ⟨_, rfl, rfl⟩
  refine ⟨host, misled, rfl, ⟨r, hr, hcode, (failed_start_silent host _).1 0 r hr hcode⟩, ?_, ?_,
    ?_⟩
  · exact (((failed_start_silent host _).2 .debug _ (hword .debug) rfl rfl).1 _ [] {} rfl rfl rfl
      hopen).1 rfl
  · exact (((failed_start_silent host _).2 .run _ (hword .run) rfl rfl).1 _ [] {} rfl rfl rfl
      hopen).2 rfl
  · exact ((failed_start_silent misled _).2 .run _ hfile rfl rfl).2 .missing (.code rfl)

end Brainfuck.CommandLine
