import Brainfuck.Debugger.Session
import Brainfuck.Proofs.Words

namespace Brainfuck.Debugger

/-- A line and its reply, and whether the user asked to stop right before it. -/
structure Exchange where
  raised : Bool
  line : Text
  reply : Reply

theorem Command.read_trim (line : Text) : read (Text.trim line) = read line :=
  read_congr (Text.words_trim line)

theorem Command.read_of_trim_eq_nil {line : Text} (h : Text.trim line = []) :
    read line = .error .empty := by
  rw [read, (Text.trim_eq_nil_iff_words line).mp h]

namespace Session

variable {s t : Session} {line line' : Text} {reply : Reply} {command : Command}

/-- The session with the request to stop, if there is one now or was one before. -/
def raise (raised : Bool) (s : Session) : Session :=
  { s with interrupted := s.interrupted || raised }

/-- The session replies to the line. Only a run that does not end leaves a line without a reply. -/
def Replies (s : Session) (line : Text) (reply : Reply) : Prop :=
  ∃ fuel, s.respond fuel line = some reply

/-- The session that is fed with the lines gives the replies, and ends up as the other one. -/
inductive Feeds : Session → List Exchange → Session → Prop where
  | nil {s : Session} : Feeds s [] s
  | cons {s t : Session} (raised : Bool) {line : Text} {reply : Reply} {log : List Exchange}
    (first : (s.raise raised).Replies line reply) (rest : Feeds reply.session log t) :
    Feeds s ({ raised, line, reply } :: log) t

theorem load_eq_ok {source input : Text} {settings : Settings}
    (h : Session.load source input settings = .ok s) :
    ∃ m, Machine.load source input settings = .ok m ∧ s = { source, machine := m } := by
  unfold Session.load at h
  cases hm : Machine.load source input settings with
  | error f =>
    rw [hm] at h
    cases h
  | ok m =>
    rw [hm] at h
    exact ⟨m, rfl, (Except.ok.inj h).symm⟩

/-- A session goes by the words of a line. -/
theorem respond_congr (h : Text.words line = Text.words line') (s : Session) (fuel : Nat) :
    s.respond fuel line = s.respond fuel line' := by
  have hblank : Text.trim line = [] ↔ Text.trim line' = [] := by
    rw [Text.trim_eq_nil_iff_words, h, Text.trim_eq_nil_iff_words]
  rw [respond, respond, Command.read_trim, Command.read_trim, Command.read_congr h]
  simp only [hblank]

theorem replies_of_error {e : CommandError} (h : Command.read line = .error e) :
    s.Replies line reply ↔
      reply = s.told (if Text.trim line = [] then [] else faultText e.message) := by
  have heq (fuel : Nat) : s.respond fuel line =
      some (s.told (if Text.trim line = [] then [] else faultText e.message)) := by
    rw [respond, Command.read_trim, h]
    split <;> rfl
  constructor
  · rintro ⟨fuel, hreply⟩
    exact (Option.some.inj ((heq fuel).symm.trans hreply)).symm
  · rintro rfl
    exact ⟨0, heq 0⟩

theorem respond_of_ok (h : Command.read line = .ok command) (fuel : Nat) :
    s.respond fuel line = s.perform fuel command := by
  have htrim : Text.trim line ≠ [] := by
    intro htrim
    rw [Command.read_of_trim_eq_nil htrim] at h
    cases h
  rw [respond, if_neg htrim, Command.read_trim, h]

theorem replies_of_ok (h : Command.read line = .ok command) :
    s.Replies line reply ↔ ∃ fuel answer, s.answer fuel command = some answer ∧
      reply = { answer with session := { answer.session with interrupted := false } } := by
  constructor
  · rintro ⟨fuel, hreply⟩
    rw [respond_of_ok h, perform] at hreply
    obtain ⟨answer, hanswer, rfl⟩ := Option.map_eq_some_iff.mp hreply
    exact ⟨fuel, answer, hanswer, rfl⟩
  · rintro ⟨fuel, answer, hanswer, rfl⟩
    refine ⟨fuel, ?_⟩
    rw [respond_of_ok h, perform, hanswer]
    rfl

/-- Only a run can leave a line without a reply. -/
theorem exists_replies (s : Session) (h : Command.read line ≠ .ok .run) :
    ∃ reply, s.Replies line reply := by
  cases hread : Command.read line with
  | error e => exact ⟨_, (replies_of_error hread).mpr rfl⟩
  | ok command =>
    have hanswer : ∃ answer, s.answer 0 command = some answer := by
      cases command with
      | run => exact absurd hread h
      | _ => exact ⟨_, rfl⟩
    obtain ⟨answer, ha⟩ := hanswer
    exact ⟨_, (replies_of_ok hread).mpr ⟨0, answer, ha, rfl⟩⟩

end Session
end Brainfuck.Debugger
