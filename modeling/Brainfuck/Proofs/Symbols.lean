import Mathlib.Data.List.Sort
import Brainfuck.Proofs.Program

namespace Brainfuck.Source

variable {breakpoint : Option Char} {source : Text} {c : Char} {p : Nat}

/-- These are the symbols of the source in order, with their offsets: nothing else is kept, and
nothing that is dropped is a symbol. -/
structure Kept (breakpoint : Option Char) (source : Text) (kept : List Char)
    (offsets : List Nat) : Prop where
  length_eq : kept.length = offsets.length
  increasing : offsets.Pairwise (· < ·)
  char : ∀ i p : Nat, offsets[i]? = some p → source[p]? = kept[i]?
  symbol : ∀ c ∈ kept, isInstruction c = true ∨ breakpoint = some c
  dropped : ∀ (p : Nat) (c : Char), source[p]? = some c → p ∉ offsets →
    isInstruction c = false ∧ breakpoint ≠ some c

theorem isSymbol_iff :
    isSymbol breakpoint c = true ↔ isInstruction c = true ∨ breakpoint = some c := by
  simp [isSymbol]

theorem mem_symbols : (c, p) ∈ symbols breakpoint source ↔
    source[p]? = some c ∧ isSymbol breakpoint c = true := by
  rw [symbols, List.mem_filter, List.mk_mem_zipIdx_iff_getElem?]

theorem mem_offsets : p ∈ (symbols breakpoint source).map Prod.snd ↔
    ∃ c, source[p]? = some c ∧ isSymbol breakpoint c = true := by
  simp [mem_symbols]

theorem pairwise_offsets (breakpoint : Option Char) (source : Text) :
    ((symbols breakpoint source).map Prod.snd).Pairwise (· < ·) := by
  have hsub : ((symbols breakpoint source).map Prod.snd).Sublist (List.range' 0 source.length) := by
    rw [← List.zipIdx_map_snd]
    exact List.filter_sublist.map Prod.snd
  exact (List.pairwise_lt_range' 1).sublist hsub

theorem kept_symbols (breakpoint : Option Char) (source : Text) :
    Kept breakpoint source ((symbols breakpoint source).map Prod.fst)
      ((symbols breakpoint source).map Prod.snd) where
  length_eq := by rw [List.length_map, List.length_map]
  increasing := pairwise_offsets breakpoint source
  char i p h := by
    rw [List.getElem?_map] at h ⊢
    obtain ⟨⟨c, p⟩, hentry, rfl⟩ := Option.map_eq_some_iff.mp h
    rw [hentry, (mem_symbols.mp (List.mem_of_getElem? hentry)).1]
    rfl
  symbol c h := by
    obtain ⟨⟨c, p⟩, hentry, rfl⟩ := List.mem_map.mp h
    exact isSymbol_iff.mp (mem_symbols.mp hentry).2
  dropped p c hc hp := by
    have hno : ¬isSymbol breakpoint c = true := fun hsymbol => hp (mem_offsets.mpr ⟨c, hc, hsymbol⟩)
    rw [isSymbol_iff, not_or, Bool.not_eq_true] at hno
    exact hno

namespace Kept

variable {kept kept' : List Char} {offsets offsets' : List Nat}

theorem mem_iff (h : Kept breakpoint source kept offsets) (p : Nat) :
    p ∈ offsets ↔ ∃ c, source[p]? = some c ∧ isSymbol breakpoint c = true := by
  constructor
  · intro hp
    obtain ⟨i, hi⟩ := List.mem_iff_getElem?.mp hp
    have hlt : i < kept.length := h.length_eq ▸ (List.getElem?_eq_some_iff.mp hi).1
    have hkept : kept[i]? = some kept[i] := List.getElem?_eq_getElem hlt
    exact ⟨kept[i], (h.char i p hi).trans hkept,
      isSymbol_iff.mpr (h.symbol _ (List.getElem_mem hlt))⟩
  · rintro ⟨c, hc, hsymbol⟩
    by_contra hp
    obtain ⟨hi, hb⟩ := h.dropped p c hc hp
    rcases isSymbol_iff.mp hsymbol with hsymbol | hsymbol
    · exact absurd (hi.symm.trans hsymbol) Bool.false_ne_true
    · exact hb hsymbol

theorem unique (h : Kept breakpoint source kept offsets)
    (h' : Kept breakpoint source kept' offsets') : kept = kept' ∧ offsets = offsets' := by
  have hoffsets : offsets = offsets' :=
    h.increasing.sortedLT.eq_of_mem_iff h'.increasing.sortedLT fun p =>
      (h.mem_iff p).trans (h'.mem_iff p).symm
  subst hoffsets
  refine ⟨?_, rfl⟩
  apply List.ext_getElem?
  intro i
  cases hp : offsets[i]? with
  | some p => exact (h.char i p hp).symm.trans (h'.char i p hp)
  | none =>
    have hle : offsets.length ≤ i := List.getElem?_eq_none_iff.mp hp
    rw [List.getElem?_eq_none (h.length_eq ▸ hle), List.getElem?_eq_none (h'.length_eq ▸ hle)]

end Kept

theorem kept_iff {kept : List Char} {offsets : List Nat} :
    Kept breakpoint source kept offsets ↔
      kept = (symbols breakpoint source).map Prod.fst ∧
        offsets = (symbols breakpoint source).map Prod.snd := by
  constructor
  · exact fun h => h.unique (kept_symbols breakpoint source)
  · rintro ⟨rfl, rfl⟩
    exact kept_symbols breakpoint source

theorem symbols_append (breakpoint : Option Char) (source rest : Text) :
    symbols breakpoint (source ++ rest) =
      symbols breakpoint source ++
        (symbols breakpoint rest).map fun entry => (entry.1, source.length + entry.2) := by
  unfold symbols
  rw [List.zipIdx_append, List.filter_append, Nat.zero_add,
    List.zipIdx_eq_map_add (l := rest) (i := source.length), List.filter_map]
  rfl

theorem symbols_of_forall {kept : List Char} (h : ∀ c ∈ kept, isSymbol breakpoint c = true) :
    symbols breakpoint kept = kept.zipIdx := by
  apply List.filter_eq_self.mpr
  rintro ⟨c, p⟩ hmem
  exact h c (List.mem_of_getElem? (List.mk_mem_zipIdx_iff_getElem?.mp hmem))

theorem load_of_forall {kept : List Char} (h : ∀ c ∈ kept, isSymbol breakpoint c = true) :
    Program.load breakpoint kept = (partners kept).map fun partners =>
      { symbols := kept.toArray, offsets := (List.range kept.length).toArray, partners,
        sourceLength := kept.length } := by
  dsimp only [Program.load]
  rw [symbols_of_forall h, List.zipIdx_map_fst, List.zipIdx_map_snd, ← List.range_eq_range']
  cases partners kept <;> rfl

theorem offset_range {q : Program} {n : Nat} (hoffsets : q.offsets = (List.range n).toArray)
    (hlength : q.sourceLength = n) {i : Nat} (hi : i ≤ n) : q.offset i = i := by
  rw [Program.offset, hoffsets, hlength, List.getElem?_toArray]
  rcases Nat.lt_or_eq_of_le hi with hlt | rfl
  · rw [List.getElem?_range hlt]
    rfl
  · rw [List.getElem?_eq_none (by simp)]
    rfl

/-- A source is kept symbol by symbol, each with the place where it stands, and no other list of
symbols and offsets says so. What is kept of two texts that follow one another is what is kept of
each, moved to its place. What was kept once is loaded again as the same symbols with the same
partners, or with the same fault, and now each symbol is its own offset. -/
theorem symbols_kept_in_place (breakpoint : Option Char) (source : Text) :
    (∀ kept offsets, Kept breakpoint source kept offsets ↔
      kept = (symbols breakpoint source).map Prod.fst ∧
        offsets = (symbols breakpoint source).map Prod.snd) ∧
    (∀ rest, symbols breakpoint (source ++ rest) =
      symbols breakpoint source ++
        (symbols breakpoint rest).map fun entry => (entry.1, source.length + entry.2)) ∧
    (∀ p, Program.load breakpoint source = .ok p →
      Kept breakpoint source p.symbols.toList p.offsets.toList ∧
      ∃ q, Program.load breakpoint ((symbols breakpoint source).map Prod.fst) = .ok q ∧
        q.symbols = p.symbols ∧ q.partners = p.partners ∧ ∀ i ≤ q.size, q.offset i = i) ∧
    ∀ f, Program.load breakpoint source = .error f →
      Program.load breakpoint ((symbols breakpoint source).map Prod.fst) = .error f := by
  have hkept : ∀ c ∈ (symbols breakpoint source).map Prod.fst, isSymbol breakpoint c = true :=
    fun c hc => isSymbol_iff.mpr ((kept_symbols breakpoint source).symbol c hc)
  refine ⟨fun kept offsets => kept_iff, symbols_append breakpoint source, ?_, ?_⟩
  · intro p hp
    rw [load_of_forall hkept]
    dsimp only [Program.load] at hp
    split at hp
    · cases hp
    · next partners hpartners =>
      obtain rfl := Except.ok.inj hp
      rw [hpartners]
      refine ⟨kept_symbols breakpoint source, _, rfl, rfl, rfl, ?_⟩
      exact fun i hi => offset_range rfl rfl hi
  · intro f hf
    rw [Program.load_eq_error_iff, ← map_fst_symbols] at hf
    rw [load_of_forall hkept, hf]
    rfl

/-- Comments go, also those that are no ASCII, and the breakpoint stays. -/
theorem symbols_kept_in_place_commented :
    Kept (some '@') "é+\n[@ -]".toList "+[@-]".toList [1, 3, 4, 6, 7] ∧
    symbols (some '@') ("é+\n[@ -]".toList ++ "x]".toList) =
      [('+', 1), ('[', 3), ('@', 4), ('-', 6), (']', 7), (']', 9)] ∧
    (∃ q, Program.load (some '@') "+[@-]".toList = .ok q ∧
      q.partners = #[none, some 4, none, none, some 1] ∧ q.offset 5 = 5) ∧
    Program.load (some '@') "+[@-]]".toList = .error (.unmatched .closing 5) := by
  obtain ⟨hkept, happend, hload, -⟩ := symbols_kept_in_place (some '@') "é+\n[@ -]".toList
  obtain ⟨-, -, -, hfault⟩ := symbols_kept_in_place (some '@') "é+\n[@ -]x]".toList
  obtain ⟨p, hp, hsize, hpaired⟩ : ∃ p, Program.load (some '@') "é+\n[@ -]".toList = .ok p ∧
      p.symbols.size = 5 ∧ p.partners = #[none, some 4, none, none, some 1] := ⟨_, rfl, rfl, rfl⟩
  obtain ⟨-, q, hq, hsymbols, hpartners, hoffset⟩ := hload p hp
  have hlast : 5 ≤ q.size := by rw [Program.size, hsymbols, hsize]
  exact ⟨(hkept _ _).mpr ⟨rfl, rfl⟩, happend _, ⟨q, hq, hpartners.trans hpaired, hoffset 5 hlast⟩,
    hfault _ rfl⟩

end Brainfuck.Source
