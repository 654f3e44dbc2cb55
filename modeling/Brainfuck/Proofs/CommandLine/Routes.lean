import Brainfuck.CommandLine.Call
import Brainfuck.Proofs.Bytes
import Brainfuck.Proofs.CommandLine.Additions

namespace Brainfuck.CommandLine

variable {a b : Arguments} {action : Action} {host host' : Host} {words words' : List Text}

/-- Two calls with the same outcome, and with the same response whatever the fuel of a
conversation. -/
def SameResult (host : Host) (words : List Text) (host' : Host) (words' : List Text) : Prop :=
  call host words = call host' words' ∧
    ∀ fuel, respond fuel host words = respond fuel host' words'

theorem sameResult_of_call (h : call host words = call host words') :
    SameResult host words host words' :=
  ⟨h, fun fuel => by rw [respond, respond, h]⟩

theorem call_action (host : Host) (action : Action) (words : List Text) :
    call host (action.name :: words) =
      match Arguments.read action words with
      | .error refusal => .finished (.refused refusal)
      | .ok a => act host a action := by
  rw [call, Request.read_name]
  cases Arguments.read action words <;> rfl

theorem call_eq_of_read {x : Except Refusal Arguments} {f g : Arguments → Arguments}
    (hwords : Arguments.read action words = x.map f)
    (hwords' : Arguments.read action words' = x.map g)
    (h : ∀ a, x = .ok a → act host (f a) action = act host' (g a) action) :
    call host (action.name :: words) = call host' (action.name :: words') := by
  rw [call_action, call_action, hwords, hwords']
  cases x with
  | error refusal => rfl
  | ok a => exact h a rfl

theorem exists_call_run (host : Host) (words : List Text) :
    ∃ r, call host (Action.run.name :: words) = .finished r := by
  rw [call_action]
  cases Arguments.read .run words with
  | error refusal => exact ⟨_, rfl⟩
  | ok a =>
    simp only [act]
    cases Run.respond a host <;> exact ⟨_, rfl⟩

theorem sameResult_run
    (h : call host (Action.run.name :: words) = call host' (Action.run.name :: words')) :
    SameResult host (Action.run.name :: words) host' (Action.run.name :: words') := by
  refine ⟨h, fun fuel => ?_⟩
  obtain ⟨r, hr⟩ := exists_call_run host words
  rw [respond, respond, ← h, hr]

theorem Host.decode_ofText (t : Text) : Host.decode (Bytes.ofText t) = .ok t := by
  rw [Host.decode, Bytes.text?_eq_some_iff.mpr rfl]

theorem Host.readText_of_fileAt {path t : Text} (h : host.fileAt path = .ok (Bytes.ofText t)) :
    host.readText path = .ok t := by
  rw [Host.readText, h]
  exact Host.decode_ofText t

theorem act_of_source (hrest : ∃ file code given, b = { a with file, code, given })
    (hcheck : b.checkSource action = a.checkSource action)
    (hsource : b.source action host = a.source action host) :
    act host b action = act host a action := by
  obtain ⟨file, code, given, rfl⟩ := hrest
  cases action with
  | run =>
    simp only [act, Run.respond]
    rw [hcheck, hsource]
    rfl
  | debug =>
    simp only [act, Debug.prepare]
    rw [hcheck, hsource]
    rfl

/-- Where the input comes from does not matter to a run, and apart from the input neither does what
standard input is like. -/
theorem act_run_of_input (hrest : ∃ input inputFile given, b = { a with input, inputFile, given })
    {stdin : Except ReadFailure Bytes} {terminal : Bool}
    (hinput : b.inputText .run host = a.inputText .run { host with stdin, terminal }) :
    act host b .run = act { host with stdin, terminal } a .run := by
  obtain ⟨input, inputFile, given, rfl⟩ := hrest
  simp only [act, Run.respond]
  rw [hinput]
  rfl

theorem act_of_input (hrest : ∃ input inputFile given, b = { a with input, inputFile, given })
    (hinput : b.inputText action host = a.inputText action host) :
    act host b action = act host a action := by
  cases action with
  | run => exact act_run_of_input hrest hinput
  | debug =>
    obtain ⟨input, inputFile, given, rfl⟩ := hrest
    simp only [act, Debug.prepare]
    rw [hinput]
    rfl

/-- Words of code whose first one cannot be taken for an option. -/
def BeginsCode (words : List Text) : Prop :=
  ∃ c first more, words = (c :: first) :: more ∧ c ≠ '-'

theorem not_dashed_cons {c : Char} (h : c ≠ '-') (rest : Text) : ¬Dashed (c :: rest) := by
  rintro ⟨d, letters, he⟩
  exact h (List.cons.inj he).1

theorem BeginsCode.flatten (h : BeginsCode words) : BeginsCode [words.flatten] := by
  obtain ⟨c, first, more, rfl, hc⟩ := h
  exact ⟨c, first ++ more.flatten, [], rfl, hc⟩

section

variable {opts opts' rest : List Text} {items : List Given} {text path : Text}

/-- What is read comes from the options and from what follows them. -/
theorem exists_of_read (h : Spells action.options opts items) (hrest : EndsOptions rest)
    (hread : Arguments.read action (opts ++ rest) = .ok a) :
    ∃ b, Arguments.Adds (items.map Prod.fst) {} b ∧ a = b.takeCode rest := by
  rw [Arguments.read_of_spells h hrest] at hread
  obtain ⟨b, hb, hrivals⟩ := exists_of_bind_eq_ok hread
  exact ⟨b, Arguments.adds_giveAll hb, eq_of_checkRivals_eq_ok hrivals⟩

theorem adds_of_read (h : Spells action.options opts items)
    (hread : Arguments.read action opts = .ok a) : Arguments.Adds (items.map Prod.fst) {} a := by
  rw [← List.append_nil opts] at hread
  obtain ⟨b, hadds, rfl⟩ := exists_of_read h endsOptions_nil hread
  exact hadds

theorem no_input_of_read (h : Spells action.options opts items) (hrest : EndsOptions rest)
    (hne : ∀ item ∈ items, item.1 ≠ .input ∧ item.1 ≠ .inputFile)
    (hread : Arguments.read action (opts ++ rest) = .ok a) :
    a.input = none ∧ a.inputFile = none := by
  obtain ⟨b, hadds, rfl⟩ := exists_of_read h hrest hread
  obtain ⟨hinput, hinputFile⟩ := b.input_takeCode rest
  rw [hinput, hinputFile, hadds.input (by simpa using fun v hv => (hne (.input, v) hv).1 rfl),
    hadds.inputFile (by simpa using fun v hv => (hne (.inputFile, v) hv).2 rfl)]
  exact ⟨rfl, rfl⟩

theorem read_append_words (h : Spells action.options opts items) (hwords : BeginsCode words) :
    Arguments.read action (opts ++ words) =
      (Arguments.read action opts).map fun a => { a with code := words } := by
  obtain ⟨c, first, more, rfl, hc⟩ := hwords
  have hword := not_dashed_cons hc first
  rw [read_append h (endsOptions_cons hword more)]
  simp only [Arguments.takeCode_cons hword]

theorem source_of_words (hfile : a.file = none) (hwords : BeginsCode words) (action : Action)
    (host : Host) : { a with code := words }.source action host = .ok words.flatten := by
  obtain ⟨c, first, more, rfl, -⟩ := hwords
  rw [Arguments.source, hfile]

theorem sameResult_words (h : Spells action.options opts items)
    (hfile : ∀ item ∈ items, item.1 ≠ .file) (hwords : BeginsCode words)
    (hwords' : BeginsCode words') (hflatten : words'.flatten = words.flatten) (host : Host) :
    SameResult host (action.name :: (opts ++ words)) host (action.name :: (opts ++ words')) := by
  apply sameResult_of_call
  apply call_eq_of_read (read_append_words h hwords) (read_append_words h hwords')
  intro a hread
  have hnone : a.file = none :=
    (adds_of_read h hread).file (by simpa using fun v => hfile (.file, v))
  apply act_of_source
  · exact ⟨_, _, _, rfl⟩
  · rw [Arguments.checkSource, Arguments.checkSource, hnone]
    rfl
  · rw [source_of_words hnone hwords, source_of_words hnone hwords', hflatten]

theorem sameResult_file (h : Spells action.options opts items)
    (hfile : ∀ item ∈ items, item.1 ≠ .file) (hwords : BeginsCode words)
    (hpath : SpellsWith action.options (.file, some path) opts' items)
    (hcontent : host.fileAt path = .ok (Bytes.ofText words.flatten)) :
    SameResult host (action.name :: (opts ++ words)) host (action.name :: opts') := by
  obtain ⟨given, hread'⟩ := read_of_spellsWith .file h hpath
    (fun item hitem => ⟨hfile item hitem, nofun⟩) endsOptions_nil
  rw [List.append_nil, List.append_nil] at hread'
  apply sameResult_of_call
  apply call_eq_of_read (read_append_words h hwords) hread'
  intro a hread
  have hadds := adds_of_read h hread
  have hnone : a.file = none := hadds.file (by simpa using fun v => hfile (.file, v))
  apply act_of_source
  · exact ⟨_, _, _, rfl⟩
  · have hcode : (a.placed .file path given).code = [] := hadds.code
    rw [Arguments.checkSource, Arguments.checkSource, hnone, hcode]
    rfl
  · have hsource : (a.placed .file path given).source action host =
        Arguments.orComplain "failed to read code file as UTF-8" (host.readText path) := rfl
    rw [source_of_words hnone hwords, hsource, Host.readText_of_fileAt hcontent]
    rfl

/-- A text of input is read besides the other options. -/
theorem read_with_input (h : Spells action.options opts items)
    (hne : ∀ item ∈ items, item.1 ≠ .input ∧ item.1 ≠ .inputFile)
    (htext : SpellsWith action.options (.input, some text) opts' items)
    (hrest : EndsOptions rest) :
    ∃ given, Arguments.read action (opts' ++ rest) =
      (Arguments.read action (opts ++ rest)).map fun a => a.placed .input text given :=
  read_of_spellsWith .input h htext (fun item hitem => ⟨(hne item hitem).1,
    fun he => (hne item hitem).2 (Option.some.inj he).symm⟩) hrest

theorem sameResult_inputFile (h : Spells action.options opts items)
    (hne : ∀ item ∈ items, item.1 ≠ .input ∧ item.1 ≠ .inputFile)
    (htext : SpellsWith action.options (.input, some text) opts' items) {opts'' : List Text}
    (hpath : SpellsWith action.options (.inputFile, some path) opts'' items)
    (hrest : EndsOptions rest) (hcontent : host.fileAt path = .ok (Bytes.ofText text)) :
    SameResult host (action.name :: (opts' ++ rest)) host (action.name :: (opts'' ++ rest)) := by
  obtain ⟨given, hread'⟩ := read_with_input h hne htext hrest
  obtain ⟨given', hread''⟩ := read_of_spellsWith .inputFile h hpath (fun item hitem =>
    ⟨(hne item hitem).2, fun he => (hne item hitem).1 (Option.some.inj he).symm⟩) hrest
  apply sameResult_of_call
  apply call_eq_of_read hread' hread''
  intro a hread
  have hnone : (a.placed .inputFile path given').input = none :=
    (no_input_of_read h hrest hne hread).1
  have hfile : (a.placed .inputFile path given').inputText action host =
      Arguments.orComplain "failed to read input file as UTF-8" (host.readText path) := by
    rw [Arguments.inputText, hnone]
    rfl
  apply act_of_input
  · exact ⟨_, _, _, rfl⟩
  · rw [hfile, Host.readText_of_fileAt hcontent]
    rfl

theorem sameResult_piped (h : Spells (Action.options .run) opts items)
    (hne : ∀ item ∈ items, item.1 ≠ .input ∧ item.1 ≠ .inputFile)
    (htext : SpellsWith (Action.options .run) (.input, some text) opts' items)
    (hrest : EndsOptions rest) (host : Host) :
    SameResult host (Action.run.name :: (opts' ++ rest))
      { host with stdin := .ok (Bytes.ofText text), terminal := false }
      (Action.run.name :: (opts ++ rest)) := by
  obtain ⟨given, hread'⟩ := read_with_input h hne htext hrest
  have hread₀ : Arguments.read .run (opts ++ rest) =
      (Arguments.read .run (opts ++ rest)).map id := by
    cases Arguments.read .run (opts ++ rest) <;> rfl
  apply sameResult_run
  apply call_eq_of_read hread' hread₀
  intro a hread
  obtain ⟨hinput, hinputFile⟩ := no_input_of_read h hrest hne hread
  have hpiped : a.inputText .run { host with stdin := .ok (Bytes.ofText text), terminal := false } =
      Arguments.orComplain "failed reading UTF-8 from stdin" (Host.decode (Bytes.ofText text)) := by
    rw [Arguments.inputText, hinput, hinputFile]
    rfl
  apply act_run_of_input
  · exact ⟨_, _, _, rfl⟩
  · show _ = a.inputText .run _
    rw [hpiped, Host.decode_ofText]
    rfl

end

/-- Code reaches an action by its words, which may be cut anywhere, or by a file; and input by a
text, by a file or, for a run, by standard input. The call comes to the same by each of the routes,
whatever options are given besides. -/
theorem same_result_by_any_route {action : Action} {opts : List Text} {items : List Given}
    (h : Spells action.options opts items) (host : Host) :
    ((∀ item ∈ items, item.1 ≠ .file) → ∀ words, BeginsCode words →
      SameResult host (action.name :: (opts ++ words)) host
          (action.name :: (opts ++ [words.flatten])) ∧
        ∀ path opts', SpellsWith action.options (.file, some path) opts' items →
          host.fileAt path = .ok (Bytes.ofText words.flatten) →
          SameResult host (action.name :: (opts ++ words)) host (action.name :: opts')) ∧
    ((∀ item ∈ items, item.1 ≠ .input ∧ item.1 ≠ .inputFile) → ∀ text opts' rest,
      EndsOptions rest → SpellsWith action.options (.input, some text) opts' items →
      (∀ path opts'', SpellsWith action.options (.inputFile, some path) opts'' items →
        host.fileAt path = .ok (Bytes.ofText text) →
        SameResult host (action.name :: (opts' ++ rest)) host
          (action.name :: (opts'' ++ rest))) ∧
        (action = .run → SameResult host (action.name :: (opts' ++ rest))
          { host with stdin := .ok (Bytes.ofText text), terminal := false }
          (action.name :: (opts ++ rest)))) := by
  constructor
  · intro hfile words hwords
    refine ⟨sameResult_words h hfile hwords hwords.flatten (by simp) host, ?_⟩
    intro path opts' hpath hcontent
    exact sameResult_file h hfile hwords hpath hcontent
  · intro hne text opts' rest hrest htext
    constructor
    · intro path opts'' hpath hcontent
      exact sameResult_inputFile h hne htext hpath hrest hcontent
    · rintro rfl
      exact sameResult_piped h hne htext hrest host

/-- Code with words that look like options, and input before code that looks like one. -/
theorem same_result_by_any_route_dashed :
    ∃ host : Host,
      SameResult host ["run".toList, "--eof=max".toList, "+.".toList, "--".toList, "-i".toList]
        host ["run".toList, "-fa.bf".toList, "--eof=max".toList] ∧
      SameResult host ["run".toList, "--eof=max".toList, "-i".toList, "a".toList, "--".toList,
          "-,.".toList]
        host ["run".toList, "--input-file=a.txt".toList, "--eof=max".toList, "--".toList,
          "-,.".toList] ∧
      SameResult host ["run".toList, "--eof=max".toList, "-i".toList, "a".toList, "--".toList,
          "-,.".toList]
        { host with stdin := .ok (Bytes.ofText "a".toList), terminal := false }
        ["run".toList, "--eof=max".toList, "--".toList, "-,.".toList] ∧
      ∃ r, respond 0 host ["run".toList, "--eof=max".toList, "-i".toList, "a".toList, "--".toList,
          "-,.".toList] = some r ∧ r.stdout = "a\n".toList := by
  let host : Host :=
    { environment := fun _ => none, stdin := .ok [], terminal := true,
      fileAt := fun path =>
        if path = "a.bf".toList then .ok (Bytes.ofText "+.---i".toList)
        else .ok (Bytes.ofText "a".toList),
      document := none, pace := 1 }
  have h : Spells (Action.options .run) ["--eof=max".toList] [(.endOfInput, some "max".toList)] :=
    @Spells.assigned _ .endOfInput "max".toList _ _ (by decide) rfl .nil
  have hfile : SpellsWith (Action.options .run) (.file, some "a.bf".toList)
      ["-fa.bf".toList, "--eof=max".toList] [(.endOfInput, some "max".toList)] :=
    ⟨[], _, rfl, @Spells.letterAttached _ .file 'f' 'a' ".bf".toList _ _ (by decide) rfl rfl
      (by decide) h⟩
  have htext : SpellsWith (Action.options .run) (.input, some "a".toList)
      ["--eof=max".toList, "-i".toList, "a".toList] [(.endOfInput, some "max".toList)] :=
    ⟨[(.endOfInput, some "max".toList)], [], rfl,
      @Spells.assigned _ .endOfInput "max".toList _ _ (by decide) rfl
        (@Spells.letterSeparate _ .input 'i' "a".toList _ _ (by decide) rfl rfl
          (not_dashed_cons (by decide) []) .nil)⟩
  have hpath : SpellsWith (Action.options .run) (.inputFile, some "a.txt".toList)
      ["--input-file=a.txt".toList, "--eof=max".toList] [(.endOfInput, some "max".toList)] :=
    ⟨[], _, rfl, @Spells.assigned _ .inputFile "a.txt".toList _ _ (by decide) rfl h⟩
  obtain ⟨hcode, hinput⟩ := same_result_by_any_route h host
  have hwords := hcode (by decide) ["+.".toList, "--".toList, "-i".toList]
    ⟨'+', ['.'], _, rfl, by decide⟩
  have htexts := hinput (by decide) _ _ ["--".toList, "-,.".toList] (by rintro _ ⟨⟩ -; rfl) htext
  exact ⟨host, hwords.2 _ _ hfile rfl, htexts.1 _ _ hpath rfl, htexts.2 rfl, _, rfl,
    by decide +kernel⟩

end Brainfuck.CommandLine
