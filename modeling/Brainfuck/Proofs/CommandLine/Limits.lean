import Brainfuck.Proofs.Cell.Rendering
import Brainfuck.Proofs.CommandLine.Agreement
import Brainfuck.Proofs.CommandLine.Relimiting
import Brainfuck.Proofs.Machine.Timeline

namespace Brainfuck.CommandLine

open Machine

variable {N M limit k : Nat} {a : Arguments} {host : Host} {source input : Text}
  {settings : Settings} {m : Machine} {x : Except Abort Stop} {r : Response}

/-- What a run of a program shows that has just been loaded and may take `limit` steps. Either it
ends within them, or it is given up after exactly so many. -/
structure Shows (format : CellFormat) (m : Machine) (limit : Nat) (r : Response) : Prop where
  ended : ∀ answer n, Returns .run m answer n → n.steps ≤ limit →
    r.code = 0 ∧ r.stdout = Text.line (Cell.render format n.output.toList)
  exceeded : (∀ answer n, Returns .run m answer n → limit < n.steps) →
    r.code = 1 ∧ r.stdout = Text.line (Cell.render format (m.stepUpTo limit).1.output.toList) ∧
      r.stderr = Text.line (Abort.stepLimit limit).message

/-- Unless the clock cuts it off, a run shows the machine at which it pauses under its limit. -/
theorem launch_of_pauses (hload : Machine.load source input settings = .ok m)
    (ha : a.maxSteps = some limit) (hk : Pauses { maxSteps := some limit } m k x)
    (htime : (Run.launch a host source input settings).stderr ≠
      Run.timeoutText (Run.limits a host).milliseconds) :
    Run.launch a host source input settings =
      Run.conclude a.format (Run.limits a host) source (x, (m.after k).unrecorded) := by
  have hsound := (sound_load hload).program
  have hlimit : (Run.limits a host).maxSteps = some limit := by
    rw [Run.limits, ha]
    rfl
  have hends (fuel : Nat) (hfuel : limit < fuel) := hk.supervise_limited hsound hfuel
  rw [launch_eq, hload] at htime ⊢
  -- a run that is cancelled says so
  have hc : (Run.carryOut host.pace (Run.limits a host) m.unrecorded).1 ≠ .error .cancelled := by
    intro hc
    apply htime
    dsimp only
    rw [Run.conclude, hc]
    rfl
  dsimp only
  rw [carryOut_eq hsound host.pace hlimit hends hc]

section

variable (hm : m.program.Sound m.settings.breakpoint) (h0 : m.steps = 0) (format : CellFormat)
  (l : Run.Limits) (source : Text)

include hm h0

theorem shows_of_pauses {stop : Stop} (hk : Pauses {} m k (.ok stop)) (hle : k ≤ limit) :
    Shows format m limit (Run.conclude format l source (.ok stop, (m.after k).unrecorded)) := by
  have hreturns : Returns .run m (.stopped (.ok stop)) (m.after k) :=
    returns_free_iff.mp ((hk.returns_iff hm).mpr ⟨rfl, rfl⟩)
  constructor
  · intro answer n hn _
    obtain ⟨-, rfl⟩ := hn.unique hreturns
    cases stop <;> exact ⟨rfl, rfl⟩
  · intro hlate
    have hsteps := hlate _ _ hreturns
    rw [hk.steps, h0] at hsteps
    omega

theorem shows_of_late (hlate : ∀ k ∈ m.breaks ∪ m.endings, limit < k) :
    Shows format m limit
      (Run.conclude format l source (.error (.stepLimit limit), (m.after limit).unrecorded)) := by
  constructor
  · intro answer n hn hle
    obtain ⟨k, x, hk, rfl, rfl⟩ := (returns_supervise_iff hm).mp (returns_free_iff.mpr hn)
    have hlt := hlate k hk.mem_of_free
    rw [hk.steps, h0] at hle
    omega
  · intro _
    rw [stepUpTo_eq hm]
    exact ⟨rfl, rfl, rfl⟩

end

theorem shows_launch (hload : Machine.load source input settings = .ok m)
    (ha : a.maxSteps = some limit)
    (htime : (Run.launch a host source input settings).stderr ≠
      Run.timeoutText (Run.limits a host).milliseconds) :
    Shows a.format m limit (Run.launch a host source input settings) := by
  have hm := (sound_load hload).program
  have h0 : m.steps = 0 := by
    obtain ⟨p, -, rfl⟩ := load_eq_ok hload
    rfl
  rcases pauses_or_late m limit with ⟨k, stop, hle, hk⟩ | hlate
  · rw [launch_of_pauses hload ha (hk.limited hle) htime]
    exact shows_of_pauses hm h0 _ _ source hk hle
  · rw [launch_of_pauses hload ha (pauses_at_limit hlate) htime]
    exact shows_of_late hm h0 _ _ source hlate

/-- A response that shows all of the output of another one, and is the same if that is one of
success. -/
structure Response.Extends (r' r : Response) : Prop where
  output : ∃ body body', r.stdout = Text.line body ∧ r'.stdout = Text.line body' ∧ body <+: body'
  success : r.code = 0 → r' = r

theorem extends_launch {a b : Arguments} {host host' : Host}
    (hload : Machine.load source input settings = .ok m) (hle : N ≤ M) (ha : a.maxSteps = some N)
    (hb : b.maxSteps = some M) (hformat : b.format = a.format)
    (htime : (Run.launch a host source input settings).stderr ≠
      Run.timeoutText (Run.limits a host).milliseconds)
    (htime' : (Run.launch b host' source input settings).stderr ≠
      Run.timeoutText (Run.limits b host').milliseconds) :
    (Run.launch b host' source input settings).Extends
      (Run.launch a host source input settings) := by
  obtain ⟨k, x, hk⟩ := exists_pauses_limited m N
  obtain ⟨k', x', hk'⟩ := exists_pauses_limited m M
  have hr := launch_of_pauses hload ha hk htime
  have hr' := launch_of_pauses hload hb hk' htime'
  constructor
  · refine ⟨Cell.render a.format (m.after k).output.toList,
      Cell.render b.format (m.after k').output.toList, ?_, ?_, ?_⟩
    · rw [hr]
      rfl
    · rw [hr']
      rfl
    · -- with the greater limit the run has come at least as far
      obtain ⟨d, rfl⟩ := Nat.exists_eq_add_of_le (hk.le_of_limit_le hle hk')
      rw [hformat]
      exact Cell.prefix_render a.format (output_prefix_after k d m)
  · intro hcode
    cases x with
    | error abort =>
      rw [hr] at hcode
      cases abort <;> cases hcode
    | ok stop =>
      -- the limit has played no part, and a report only tells the milliseconds when cancelled
      rw [launch_of_pauses hload hb (hk.raised hle) htime', hr, hformat]
      cases stop <;> rfl

end Brainfuck.CommandLine
