import Brainfuck.Proofs.Debugger.Dialogue

namespace Brainfuck.Debugger

inductive View where
  | memory
  | output
  deriving DecidableEq, Repr

namespace View

def command : View → Option CellFormat → Command
  | memory => .memory
  | output => .output

def text : View → CellFormat → Machine → Text
  | memory, format, m => memoryText format m.tape
  | output, format, m => outputText format m

def initial : View → CellFormat
  | memory => .decimal
  | output => .ascii

/-- The line shows the view and names the format. -/
def Names (v : View) (line : Text) (format : CellFormat) : Prop :=
  Command.read line = .ok (v.command (some format))

/-- The last of the lines that name a format for the view names this one, or none names any and this
is the initial one. -/
def InForce (v : View) (lines : List Text) (format : CellFormat) : Prop :=
  (∃ before line after, lines = before ++ line :: after ∧ v.Names line format ∧
    ∀ later ∈ after, ∀ f, ¬v.Names later f) ∨
  (∀ line ∈ lines, ∀ f, ¬v.Names line f) ∧ format = v.initial

def set? : View → Command → Option CellFormat
  | memory, .memory format => format
  | output, .output format => format
  | _, _ => none

def named? (v : View) (line : Text) : Option CellFormat :=
  match Command.read line with
  | .ok command => v.set? command
  | .error _ => none

def lastNamed? (v : View) (lines : List Text) : Option CellFormat :=
  lines.reverse.findSome? v.named?

variable {v : View} {line : Text} {lines : List Text} {format : CellFormat}

theorem named?_eq_some_iff : v.named? line = some format ↔ v.Names line format := by
  rw [named?, Names]
  split
  · next command hread =>
    rw [hread, Except.ok.injEq]
    cases v <;> cases command <;> simp [set?, View.command]
  · next e hread => simp [hread]

theorem named?_eq_none_iff : v.named? line = none ↔ ∀ f, ¬v.Names line f := by
  simp only [Option.eq_none_iff_forall_ne_some, ne_eq, named?_eq_some_iff]

theorem lastNamed?_cons (v : View) (line : Text) (lines : List Text) :
    v.lastNamed? (line :: lines) = (v.lastNamed? lines).or (v.named? line) := by
  simp [lastNamed?, List.findSome?_append]

theorem lastNamed?_concat (v : View) (lines : List Text) (line : Text) :
    v.lastNamed? (lines ++ [line]) = (v.named? line).or (v.lastNamed? lines) := by
  rw [lastNamed?, lastNamed?, List.reverse_append, List.reverse_singleton, List.singleton_append,
    List.findSome?_cons]
  cases v.named? line <;> rfl

theorem lastNamed?_eq_some_iff :
    v.lastNamed? lines = some format ↔
      ∃ before line after, lines = before ++ line :: after ∧ v.Names line format ∧
        ∀ later ∈ after, ∀ f, ¬v.Names later f := by
  simp only [lastNamed?, List.findSome?_eq_some_iff, named?_eq_some_iff, named?_eq_none_iff]
  constructor
  · rintro ⟨after, line, before, hlines, hline, hafter⟩
    refine ⟨before.reverse, line, after.reverse, ?_, hline, ?_⟩
    · simpa using congrArg List.reverse hlines
    · exact fun later hlater => hafter later (List.mem_reverse.mp hlater)
  · rintro ⟨before, line, after, rfl, hline, hafter⟩
    refine ⟨after.reverse, line, before.reverse, by simp, hline, ?_⟩
    exact fun later hlater => hafter later (List.mem_reverse.mp hlater)

theorem lastNamed?_eq_none_iff :
    v.lastNamed? lines = none ↔ ∀ line ∈ lines, ∀ f, ¬v.Names line f := by
  simp only [lastNamed?, List.findSome?_eq_none_iff, List.mem_reverse, named?_eq_none_iff]

theorem inForce_iff : v.InForce lines format ↔ format = (v.lastNamed? lines).getD v.initial := by
  rw [InForce, ← lastNamed?_eq_some_iff, ← lastNamed?_eq_none_iff]
  cases v.lastNamed? lines with
  | none => simp
  | some f => simp [eq_comm]

instance (v : View) (lines : List Text) (format : CellFormat) :
    Decidable (v.InForce lines format) := decidable_of_iff' _ inForce_iff

end View

namespace Session

variable {s e : Session} {reply : Reply} {line : Text} {command : Command} {fuel : Nat}

def format (s : Session) : View → CellFormat
  | .memory => s.memoryFormat
  | .output => s.outputFormat

@[simp]
theorem format_raise (raised : Bool) (s : Session) (v : View) :
    (s.raise raised).format v = s.format v := by cases v <;> rfl

/-- A command sets at most the format of the view that it shows. -/
theorem format_of_answer (v : View) (h : s.answer fuel command = some reply) :
    reply.session.format v = (v.set? command).getD (s.format v) := by
  cases command with
  | run =>
    obtain ⟨x, -, rfl⟩ := Option.map_eq_some_iff.mp h
    cases v <;> rfl
  | _ =>
    obtain rfl := Option.some.inj h
    cases v <;> rfl

theorem format_of_replies (v : View) (h : s.Replies line reply) :
    reply.session.format v = (v.named? line).getD (s.format v) := by
  rw [View.named?]
  cases hread : Command.read line with
  | error e =>
    obtain rfl := (replies_of_error hread).mp h
    rfl
  | ok command =>
    obtain ⟨fuel, answer, ha, rfl⟩ := (replies_of_ok hread).mp h
    have hformat := format_of_answer v ha
    cases v <;> exact hformat

/-- Whatever was said in between, the last format that was named for a view is kept. -/
theorem Feeds.format {log : List Exchange} (v : View) (h : Feeds s log e) :
    e.format v = (v.lastNamed? (log.map (·.line))).getD (s.format v) := by
  induction h with
  | nil => rfl
  | @cons s _ raised line _ _ first _ ih =>
    rw [ih, format_of_replies v first, format_raise, List.map_cons, View.lastNamed?_cons]
    cases v.lastNamed? _ <;> rfl

theorem text_of_view {v : View} {chosen : Option CellFormat}
    (hread : Command.read line = .ok (v.command chosen)) (h : s.Replies line reply) :
    reply.text = v.text ((v.named? line).getD (s.format v)) s.machine ∧
      reply.session.machine = s.machine := by
  obtain ⟨fuel, answer, ha, rfl⟩ := (replies_of_ok hread).mp h
  rw [View.named?, hread]
  cases v with
  | memory | output =>
    obtain rfl := Option.some.inj ha
    exact ⟨rfl, rfl⟩

end Session
end Brainfuck.Debugger
