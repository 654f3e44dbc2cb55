import Brainfuck.CommandLine.Host
import Brainfuck.Proofs.Settings.Document

namespace Brainfuck.Settings

open CommandLine

abbrev Key.Value : Key → Type
  | endOfInput => EndOfInput
  | width => Width
  | breakpoint => Option Char
  | history => Bool

/-- The value that a text spells for a key, which goes by `name` where the text is none. -/
def Key.read (name text : Text) : (key : Key) → Except SettingError key.Value
  | endOfInput => EndOfInput.read text
  | width => Width.read text
  | breakpoint => readBreakpoint text
  | history => readFlag name text

def get (s : Settings) : (key : Key) → key.Value
  | .endOfInput => s.endOfInput
  | .width => s.width
  | .breakpoint => s.breakpoint
  | .history => s.recording

def put (s : Settings) : (key : Key) → key.Value → Settings
  | .endOfInput, e => { s with endOfInput := e }
  | .width, w => { s with width := w }
  | .breakpoint, b => { s with breakpoint := b }
  | .history, r => { s with recording := r }

variable {s t u : Settings} {key : Key} {keys : List Key} {e : SettingError}

theorem set_eq (s : Settings) (key : Key) (name text : Text) :
    s.set key name text = (key.read name text).map (s.put key) := by
  cases key <;> rfl

@[simp]
theorem get_put_self (s : Settings) (key : Key) (v : key.Value) : (s.put key v).get key = v := by
  cases key <;> rfl

theorem get_put_of_ne {key' : Key} (h : key' ≠ key) (s : Settings) (v : key.Value) :
    (s.put key v).get key' = s.get key' := by
  cases key <;> cases key' <;> first | rfl | exact absurd rfl h

theorem eq_of_get (h : ∀ key, s.get key = t.get key) : s = t := by
  have he : s.endOfInput = t.endOfInput := h .endOfInput
  have hw : s.width = t.width := h .width
  have hb : s.breakpoint = t.breakpoint := h .breakpoint
  have hr : s.recording = t.recording := h .history
  cases s
  cases t
  simp_all

/-- What a layer says of each key: nothing, or a value, or why what it says is no value. -/
abbrev Layer := (key : Key) → Option (Except SettingError key.Value)

namespace Layer

variable {l : Layer}

def ofTexts (name : Key → Text) (lookup : Text → Option Text) : Layer :=
  fun key => (lookup (name key)).map fun text => key.read (name key) text

def ofDocument : Option Text → Layer
  | none => fun _ => none
  | some document => ofTexts Key.name (Document.value? (Document.pairs sectionName document))

def ofEnvironment (environment : Text → Option Text) : Layer :=
  ofTexts Key.variableName environment

/-- Options come with their values read, but for the breakpoint. None is about the history. -/
def ofArguments (a : Arguments) : Layer
  | .endOfInput => a.endOfInput.map .ok
  | .width => a.cellWidth.map .ok
  | .breakpoint => a.breakpoint.map readBreakpoint
  | .history => none

def value? (l : Layer) (key : Key) : Option key.Value := (l key).bind Except.toOption

def refusal? {α : Type} : Except SettingError α → Option SettingError
  | .ok _ => none
  | .error e => some e

def fault? (l : Layer) (key : Key) : Option SettingError := (l key).bind refusal?

/-- `t` is `s` with the values that the layer gives to the keys. -/
def Sets (l : Layer) (keys : List Key) (s t : Settings) : Prop :=
  ∀ key, t.get key = if key ∈ keys then (l.value? key).getD (s.get key) else s.get key

theorem sets_nil (l : Layer) (s : Settings) : l.Sets [] s s := fun key => by simp

theorem Sets.cons (h : l.Sets [key] s t) (h' : l.Sets keys t u) : l.Sets (key :: keys) s u := by
  intro k
  rw [h' k, h k]
  cases hv : l.value? k <;> by_cases hk : k = key <;> simp [hk]

/-- What comes of the settings when a layer is read key by key: all keys are set, or those before
the first one with a bad value. -/
inductive Overlays (l : Layer) (keys : List Key) (s : Settings) :
    Settings × Option SettingError → Prop where
  | whole {t : Settings} (sound : ∀ k ∈ keys, l.fault? k = none) (sets : l.Sets keys s t) :
    Overlays l keys s (t, none)
  | part {before after : List Key} {key : Key} {e : SettingError} {t : Settings}
    (split : keys = before ++ key :: after) (sound : ∀ k ∈ before, l.fault? k = none)
    (fault : l.fault? key = some e) (sets : l.Sets before s t) : Overlays l keys s (t, some e)

theorem Overlays.cons {r : Settings × Option SettingError} (hkey : l.fault? key = none)
    (h : l.Sets [key] s t) (hr : l.Overlays keys t r) : l.Overlays (key :: keys) s r := by
  cases hr with
  | whole sound sets => exact .whole (List.forall_mem_cons.mpr ⟨hkey, sound⟩) (h.cons sets)
  | part split sound fault sets =>
    exact .part (congrArg (key :: ·) split) (List.forall_mem_cons.mpr ⟨hkey, sound⟩) fault
      (h.cons sets)

theorem sets_of_none (h : l key = none) (s : Settings) : l.Sets [key] s s := by
  intro k
  by_cases hk : k = key
  · subst hk
    simp [value?, h]
  · simp [hk]

theorem sets_of_ok {v : key.Value} (h : l key = some (.ok v)) (s : Settings) :
    l.Sets [key] s (s.put key v) := by
  intro k
  by_cases hk : k = key
  · subst hk
    simp [value?, h, Except.toOption]
  · simp [hk, get_put_of_ne hk]

theorem overlays_overlay (name : Key → Text) (lookup : Text → Option Text) (keys : List Key)
    (s : Settings) : (ofTexts name lookup).Overlays keys s (overlay name lookup keys s) := by
  induction keys generalizing s with
  | nil => exact .whole (fun k hk => absurd hk List.not_mem_nil) (sets_nil _ s)
  | cons key keys ih =>
    rw [overlay]
    cases hlookup : lookup (name key) with
    | none =>
      have hkey : ofTexts name lookup key = none := by simp [ofTexts, hlookup]
      exact .cons (by simp [fault?, hkey, refusal?]) (sets_of_none hkey s) (ih s)
    | some text =>
      have hkey : ofTexts name lookup key = some (key.read (name key) text) := by
        simp [ofTexts, hlookup]
      simp only [set_eq]
      cases hread : key.read (name key) text with
      | ok v =>
        rw [hread] at hkey
        exact .cons (by simp [fault?, hkey, refusal?]) (sets_of_ok hkey s) (ih _)
      | error e =>
        rw [hread] at hkey
        exact .part (List.nil_append _).symm (fun k hk => absurd hk List.not_mem_nil)
          (by simp [fault?, hkey, refusal?]) (sets_nil _ s)

/-- All bad values of the layers, from the lowest layer to the topmost one. -/
def faults (layers : List Layer) : List SettingError :=
  layers.flatMap fun l => Key.all.filterMap l.fault?

/-- What the topmost of the layers that give a value to the key gives to it. -/
def topmost? (layers : List Layer) (key : Key) : Option key.Value :=
  layers.foldl (fun below l => (l.value? key).or below) none

/-- What comes of the settings under all the layers. -/
inductive Yields (layers : List Layer) (s : Settings) : Except SettingError Settings → Prop where
  | ok {t : Settings} (sound : faults layers = [])
    (fields : ∀ key, t.get key = (topmost? layers key).getD (s.get key)) : Yields layers s (.ok t)
  | error {e : SettingError} (first : (faults layers).head? = some e) : Yields layers s (.error e)

variable {layers : List Layer} {r : Except SettingError Settings}

theorem faults_concat (layers : List Layer) (l : Layer) :
    faults (layers ++ [l]) = faults layers ++ faults [l] := List.flatMap_append

theorem topmost?_concat (layers : List Layer) (l : Layer) (key : Key) :
    topmost? (layers ++ [l]) key = (l.value? key).or (topmost? layers key) := by
  rw [topmost?, List.foldl_append]
  rfl

theorem Yields.bind {f : Settings → Except SettingError Settings} (h : Yields layers s r)
    (hf : ∀ t, Yields [l] t (f t)) : Yields (layers ++ [l]) s (r >>= f) := by
  cases h with
  | error first =>
    apply Yields.error
    rw [faults_concat, List.head?_append, first]
    rfl
  | @ok t sound fields =>
    show Yields (layers ++ [l]) s (f t)
    have htop := hf t
    generalize f t = r at htop
    cases htop with
    | error first => exact .error (by rw [faults_concat, sound]; exact first)
    | ok sound' fields' =>
      refine .ok (by rw [faults_concat, sound, sound']; rfl) fun key => ?_
      rw [fields', fields, topmost?_concat]
      cases hv : l.value? key <;> simp [topmost?, hv]

theorem faults_eq_nil_iff : faults layers = [] ↔ ∀ l ∈ layers, ∀ key, l.fault? key = none := by
  simp [faults, Key.mem_all]

theorem yields_complete {x : Settings × Option SettingError} (h : l.Overlays Key.all s x) :
    Yields [l] s (complete x) := by
  cases h with
  | whole sound sets =>
    have hsound : faults [l] = [] := by simpa [faults] using sound
    refine .ok hsound fun key => ?_
    rw [sets key, if_pos key.mem_all]
    simp [topmost?]
  | part split sound fault sets =>
    apply Yields.error
    have hnone := List.filterMap_eq_nil_iff.mpr sound
    simp [faults, split, hnone, fault]

theorem yields_document (document : Option Text) :
    Yields [ofDocument document] {} (Settings.ofDocument document) := by
  cases document with
  | none => exact .ok rfl fun _ => rfl
  | some document => exact yields_complete (overlays_overlay _ _ _ _)

theorem yields_environment (environment : Text → Option Text) (s : Settings) :
    Yields [ofEnvironment environment] s (complete (overlayVariables environment s)) :=
  yields_complete (overlays_overlay _ _ _ _)

/-- Only the breakpoint comes as a text, and only a text can be bad. -/
theorem faults_arguments (a : Arguments) :
    faults [ofArguments a] =
      (a.breakpoint.bind fun text => refusal? (readBreakpoint text)).toList := by
  have hread {α : Type} (o : Option α) : (o.map .ok).bind refusal? = none := by cases o <;> rfl
  have he : (ofArguments a).fault? .endOfInput = none := hread a.endOfInput
  have hw : (ofArguments a).fault? .width = none := hread a.cellWidth
  have hr : (ofArguments a).fault? .history = none := rfl
  have hb : (ofArguments a).fault? .breakpoint =
      a.breakpoint.bind fun text => refusal? (readBreakpoint text) := Option.bind_map
  rw [← hb]
  cases hb : (ofArguments a).fault? .breakpoint <;> simp [faults, Key.all, he, hw, hr, hb]

/-- The options are put in place at once, but for the breakpoint, which has to be read. -/
theorem get_overlaid (a : Arguments) (s : Settings) {b : Option Char}
    (hb : ((ofArguments a).value? .breakpoint).getD s.breakpoint = b) (key : Key) :
    ({ s with
      endOfInput := a.endOfInput.getD s.endOfInput
      width := a.cellWidth.getD s.width
      breakpoint := b } : Settings).get key = (topmost? [ofArguments a] key).getD (s.get key) := by
  have hread {α : Type} (o : Option α) (d : α) : o.getD d =
      (((o.map (Except.ok : α → Except SettingError α)).bind Except.toOption).or none).getD d := by
    cases o <;> rfl
  cases key with
  | endOfInput => exact hread a.endOfInput s.endOfInput
  | width => exact hread a.cellWidth s.width
  | breakpoint =>
    rw [topmost?, List.foldl_cons, Option.or_none]
    exact hb.symm
  | history => rfl

theorem yields_arguments (a : Arguments) (s : Settings) :
    Yields [ofArguments a] s (a.overlay s) := by
  have hvalue : (ofArguments a).value? .breakpoint =
      (a.breakpoint.map readBreakpoint).bind Except.toOption := rfl
  rw [Arguments.overlay]
  cases hb : a.breakpoint with
  | none =>
    refine .ok (by rw [faults_arguments, hb]; rfl) (get_overlaid a s ?_)
    rw [hvalue, hb]
    rfl
  | some text =>
    have hfaults : faults [ofArguments a] = (refusal? (readBreakpoint text)).toList := by
      rw [faults_arguments, hb]
      rfl
    cases hread : readBreakpoint text with
    | ok b =>
      rw [hread] at hfaults
      simp only [hread]
      refine .ok hfaults (get_overlaid a s ?_)
      rw [hvalue, hb, Option.map_some, hread]
      rfl
    | error e =>
      rw [hread] at hfaults
      simp only [hread]
      exact .error (by rw [hfaults]; rfl)

theorem yields_settings (document : Option Text) (environment : Text → Option Text)
    (a : Arguments) :
    Yields [ofDocument document, ofEnvironment environment, ofArguments a] {}
      (resolve document environment >>= a.overlay) :=
  ((yields_document document).bind (yields_environment environment)).bind (yields_arguments a)

theorem Yields.exists_eq_ok_iff (h : Yields layers s r) :
    (∃ t, r = .ok t) ↔ faults layers = [] := by
  cases h with
  | ok sound => exact ⟨fun _ => sound, fun _ => ⟨_, rfl⟩⟩
  | error first =>
    constructor
    · rintro ⟨t, ht⟩
      cases ht
    · intro sound
      rw [sound] at first
      cases first

theorem Yields.eq_error_iff (h : Yields layers s r) :
    r = .error e ↔ (faults layers).head? = some e := by
  cases h with
  | ok sound =>
    rw [sound]
    constructor <;> intro h <;> cases h
  | error first => rw [first, Except.error.injEq, Option.some.injEq]

theorem Yields.get_of_eq_ok (h : Yields layers s r) (hr : r = .ok t) (key : Key) :
    t.get key = (topmost? layers key).getD (s.get key) := by
  subst hr
  cases h with
  | ok _ fields => exact fields key

end Layer

/-- Every value that a layer gives has to be read, also where a layer above gives another, and the
first bad one is the error. Otherwise each setting is what the options say of it, or else the
environment, or else the document, or else its default. An environment is read key by key: those
before the first bad value are set. -/
theorem settings_layered (document : Option Text) (environment : Text → Option Text)
    (a : Arguments) :
    let file := Layer.ofDocument document
    let env := Layer.ofEnvironment environment
    let options := Layer.ofArguments a
    ((∃ s, resolve document environment >>= a.overlay = .ok s) ↔
      ∀ l ∈ [file, env, options], ∀ key, l.fault? key = none) ∧
    (∀ s, resolve document environment >>= a.overlay = .ok s → ∀ key, s.get key =
      ((options.value? key).or ((env.value? key).or (file.value? key))).getD
        (({} : Settings).get key)) ∧
    (∀ e, resolve document environment >>= a.overlay = .error e ↔
      (Layer.faults [file, env, options]).head? = some e) ∧
    (∀ s t, overlayVariables environment s = (t, none) → ∀ key,
      env.fault? key = none ∧ t.get key = (env.value? key).getD (s.get key)) ∧
    ∀ s t e, overlayVariables environment s = (t, some e) →
      ∃ before key after, Key.all = before ++ key :: after ∧ env.fault? key = some e ∧
        (∀ k ∈ before, env.fault? k = none ∧ t.get k = (env.value? k).getD (s.get k)) ∧
        ∀ k ∈ key :: after, t.get k = s.get k := by
  intro file env options
  have hyields := Layer.yields_settings document environment a
  have hread (s : Settings) : env.Overlays Key.all s (overlayVariables environment s) :=
    Layer.overlays_overlay Key.variableName environment Key.all s
  refine ⟨hyields.exists_eq_ok_iff.trans Layer.faults_eq_nil_iff, ?_, fun e => hyields.eq_error_iff,
    ?_, ?_⟩
  · intro s hs key
    rw [hyields.get_of_eq_ok hs key]
    simp [Layer.topmost?, file, env, options]
  · intro s t h key
    have hoverlays := hread s
    rw [h] at hoverlays
    cases hoverlays with
    | whole sound sets =>
      exact ⟨sound key key.mem_all, (sets key).trans (if_pos key.mem_all)⟩
  · intro s t e h
    have hoverlays := hread s
    rw [h] at hoverlays
    cases hoverlays with
    | @part before after key _ _ split sound fault sets =>
      have hnodup : (before ++ key :: after).Nodup := split ▸ (by decide : Key.all.Nodup)
      obtain ⟨-, -, hne⟩ := List.nodup_append.mp hnodup
      refine ⟨before, key, after, split, fault, ?_, ?_⟩
      · intro k hk
        exact ⟨sound k hk, (sets k).trans (if_pos hk)⟩
      · intro k hk
        exact (sets k).trans (if_neg fun hbefore => hne k hbefore k hk rfl)

/-- An empty variable clears the breakpoint of the document, and an option goes over its width. A
bad width is the error even under a good one, and so it is where a bad history comes first in the
document. An environment with a bad width sets what is read before it. -/
theorem settings_layered_overridden :
    let environment (name : Text) : Option Text :=
      [("BF_BREAKPOINT".toList, []), ("BF_EOF".toList, "Leave".toList)].lookup name
    let worse (name : Text) : Option Text :=
      [("BF_EOF".toList, "max".toList), ("BF_CELL_WIDTH".toList, "16".toList)].lookup name
    let a : Arguments := { cellWidth := some .eight }
    let document := Text.page ["[engine]", "cell_width = 32", "eof = max", "breakpoint = \"@\""]
    let bad := Text.page ["[engine]", "history = 2", "cell_width = 33"]
    resolve (some document) environment >>= a.overlay = .ok { endOfInput := .unchanged } ∧
      resolve (some bad) worse >>= a.overlay = .error (.width "33".toList) ∧
      ∃ t, overlayVariables worse {} = (t, some (.width "16".toList)) ∧
        t.get .endOfInput = .greatest ∧ t.get .width = .eight := by
  intro environment worse a document bad
  obtain ⟨hok, hfields, -⟩ := settings_layered (some document) environment a
  obtain ⟨-, -, herror, -, hpart⟩ := settings_layered (some bad) worse a
  refine ⟨?_, (herror _).mpr (by decide +kernel), ?_⟩
  · obtain ⟨s, hs⟩ := hok.mpr (Layer.faults_eq_nil_iff.mp (by decide +kernel))
    have hget : ∀ key, s.get key = ({ endOfInput := .unchanged } : Settings).get key := by
      intro key
      rw [hfields s hs]
      cases key <;> decide +kernel
    rw [hs, eq_of_get hget]
  · obtain ⟨t, ht⟩ : ∃ t, overlayVariables worse {} = (t, some (.width "16".toList)) :=
      ⟨_, Prod.ext rfl (by decide +kernel)⟩
    obtain ⟨before, key, after, hsplit, hfault, hbefore, hafter⟩ := hpart {} t _ ht
    obtain rfl : key = .width := by
      cases key with
      | width => rfl
      | endOfInput | breakpoint | history => exact absurd hfault (by decide +kernel)
    refine ⟨t, ht, ?_, hafter .width List.mem_cons_self⟩
    cases before with
    | nil => cases hsplit
    | cons first before =>
      obtain ⟨rfl, -⟩ := List.cons.inj hsplit
      rw [(hbefore .endOfInput List.mem_cons_self).2]
      decide +kernel

end Brainfuck.Settings
