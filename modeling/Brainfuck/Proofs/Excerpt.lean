import Brainfuck.Diagnostic
import Brainfuck.Proofs.Program

namespace Brainfuck

def Text.visible (c : Char) : Char := if isBlank c then ' ' else c

namespace Source

/-- The symbol `c` stands at the offset `p`, and `i` symbols stand before it. -/
structure StandsAt (breakpoint : Option Char) (source : Text) (i : Nat) (c : Char) (p : Nat) :
    Prop where
  char : source[p]? = some c
  isSymbol : isSymbol breakpoint c = true
  before : (source.take p).countP (Source.isSymbol breakpoint) = i

namespace Excerpt

/-- The line is a part of the source that begins at `start`, and the caret is in the column of the
offset `p`. -/
structure Shows (source : Text) (start p : Nat) (x : Excerpt) : Prop where
  line : ∃ part, part <+: source.drop start ∧ x.line = part.map Text.visible
  length : x.line.length ≤ 65
  start_le : start ≤ p
  caret : x.caret = List.replicate (p - start) ' ' ++ ['^']

/-- Above the caret stands the character `c` of the source, whose offset is `p`. -/
def PointsAt (source : Text) (p : Nat) (c : Char) (x : Excerpt) : Prop :=
  ∃ start, x.Shows source start p ∧ x.line[p - start]? = some (Text.visible c)

/-- The caret stands right after the line, and the line goes on to the end of the source. -/
def PointsPast (source : Text) (x : Excerpt) : Prop :=
  ∃ start, x.Shows source start source.length ∧ start + x.line.length = source.length

end Excerpt

variable {breakpoint : Option Char} {source : Text} {i p : Nat} {c : Char}

/-- What is kept of a text is found where it stood, after as many others as were kept before it. -/
theorem exists_of_getElem?_filter_zipIdx {keep : Char → Bool} {l : Text} {n q : Nat}
    (h : ((l.zipIdx n).filter fun e => keep e.1)[i]? = some (c, q)) :
    ∃ p, q = n + p ∧ l[p]? = some c ∧ keep c = true ∧ (l.take p).countP keep = i := by
  induction l generalizing n i with
  | nil => simp at h
  | cons x l ih =>
    rw [List.zipIdx_cons, List.filter_cons] at h
    by_cases hx : keep x = true
    · rw [if_pos hx] at h
      cases i with
      | zero =>
        obtain ⟨rfl, rfl⟩ : x = c ∧ n = q := by simpa using h
        exact ⟨0, rfl, rfl, hx, rfl⟩
      | succ i =>
        rw [List.getElem?_cons_succ] at h
        obtain ⟨p, rfl, hp, hc, hcount⟩ := ih h
        refine ⟨p + 1, by omega, hp, hc, ?_⟩
        rw [List.take_succ_cons, List.countP_cons_of_pos hx, hcount]
    · rw [if_neg hx] at h
      obtain ⟨p, rfl, hp, hc, hcount⟩ := ih h
      refine ⟨p + 1, by omega, hp, hc, ?_⟩
      rw [List.take_succ_cons, List.countP_cons_of_neg hx, hcount]

/-- The offset of a symbol is where it stands. -/
theorem standsAt_offset (h : (source.filter (isSymbol breakpoint))[i]? = some c) :
    StandsAt breakpoint source i c (offset breakpoint source i) := by
  rw [← map_fst_symbols, List.getElem?_map] at h
  obtain ⟨⟨c, q⟩, hentry, rfl⟩ := Option.map_eq_some_iff.mp h
  have hoffset : offset breakpoint source i = q := by
    rw [offset, hentry]
    rfl
  obtain ⟨p, hq, hchar, hsymbol, hbefore⟩ := exists_of_getElem?_filter_zipIdx hentry
  rw [Nat.zero_add] at hq
  subst hq
  exact ⟨hoffset ▸ hchar, hsymbol, hoffset ▸ hbefore⟩

theorem offset_eq_length (h : (source.filter (isSymbol breakpoint))[i]? = none) :
    offset breakpoint source i = source.length := by
  rw [← map_fst_symbols, List.getElem?_map, Option.map_eq_none_iff] at h
  rw [offset, h]
  rfl

theorem shows_excerpt (source : Text) (p : Nat) :
    (excerpt source p).Shows source (p - excerptReach) p where
  line := ⟨_, List.take_prefix _ _, rfl⟩
  length := by
    have htake : (excerpt source p).line.length ≤ p + excerptReach + 1 - (p - excerptReach) := by
      rw [excerpt, List.length_map]
      exact List.length_take_le _ _
    have hreach : excerptReach = 32 := rfl
    omega
  start_le := Nat.sub_le _ _
  caret := rfl

/-- The caret of an excerpt stands below the character that the excerpt is about. -/
theorem pointsAt_excerpt (h : source[p]? = some c) : (excerpt source p).PointsAt source p c := by
  refine ⟨p - excerptReach, shows_excerpt source p, ?_⟩
  have hcolumn : p - (p - excerptReach) < p + excerptReach + 1 - (p - excerptReach) := by omega
  have hsource : p - excerptReach + (p - (p - excerptReach)) = p := by omega
  simp only [excerpt, List.getElem?_map, List.getElem?_take_of_lt hcolumn, List.getElem?_drop,
    hsource, h]
  rfl

theorem pointsPast_excerpt (source : Text) :
    (excerpt source source.length).PointsPast source := by
  refine ⟨source.length - excerptReach, shows_excerpt source source.length, ?_⟩
  simp only [excerpt, List.length_map, List.length_take, List.length_drop]
  omega

end Source

/-- A program has kept the offsets that a second reading of its source gives. -/
theorem Program.offset_of_load {breakpoint : Option Char} {source : Text} {p : Program}
    (h : load breakpoint source = .ok p) (i : Nat) :
    p.offset i = Source.offset breakpoint source i := by
  dsimp only [load] at h
  split at h
  · cases h
  · obtain rfl := Except.ok.inj h
    simp [offset, Source.offset]

end Brainfuck
