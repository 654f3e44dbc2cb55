import Brainfuck.Program
import Brainfuck.Proofs.Brackets

namespace Brainfuck

theorem Source.map_fst_symbols (breakpoint : Option Char) (source : Text) :
    (symbols breakpoint source).map Prod.fst = source.filter (isSymbol breakpoint) := by
  unfold symbols
  have h := List.filter_map (f := Prod.fst) (p := isSymbol breakpoint) (l := source.zipIdx)
  rw [List.zipIdx_map_fst] at h
  exact h.symm

theorem Source.balanced_filter_iff (breakpoint : Option Char) (source : Text) :
    Balanced (source.filter (isSymbol breakpoint)) ↔ Balanced source := by
  have ho : isSymbol breakpoint '[' = true := by simp [isSymbol, isInstruction, Instruction.ofChar?]
  have hc : isSymbol breakpoint ']' = true := by simp [isSymbol, isInstruction, Instruction.ofChar?]
  rw [Balanced, Balanced, closes_filter ho hc]

namespace Program

/-- What loading ensures: no symbol is foreign, and the partners are those of the symbols. -/
structure Sound (breakpoint : Option Char) (p : Program) : Prop where
  isSymbol : ∀ c ∈ p.symbols, Source.isSymbol breakpoint c = true
  paired : Source.partners p.symbols.toList = .ok p.partners

theorem load_eq_ok {breakpoint : Option Char} {source : Text} {p : Program}
    (h : load breakpoint source = .ok p) :
    p.symbols.toList = source.filter (Source.isSymbol breakpoint) ∧
      Source.partners p.symbols.toList = .ok p.partners := by
  rw [← Source.map_fst_symbols]
  dsimp only [load] at h
  split at h
  · simp at h
  · next partners hp =>
    simp only [Except.ok.injEq] at h
    subst h
    exact ⟨rfl, hp⟩

theorem load_eq_error_iff {breakpoint : Option Char} {source : Text} {f : Fault} :
    load breakpoint source = .error f ↔
      Source.partners (source.filter (Source.isSymbol breakpoint)) = .error f := by
  rw [← Source.map_fst_symbols]
  dsimp only [load]
  split <;> next hp => simp [hp]

theorem exists_load_iff (breakpoint : Option Char) (source : Text) :
    (∃ p, load breakpoint source = .ok p) ↔ Source.Balanced source := by
  rw [← Source.balanced_filter_iff breakpoint, ← Source.map_fst_symbols,
    ← Source.partners_ok_iff]
  dsimp only [load]
  split <;> next hp => simp [hp]

theorem sound_of_load {breakpoint : Option Char} {source : Text} {p : Program}
    (h : load breakpoint source = .ok p) : p.Sound breakpoint where
  isSymbol c hc := by
    have hl : c ∈ p.symbols.toList := by simpa using hc
    rw [(load_eq_ok h).1] at hl
    exact (List.mem_filter.mp hl).2
  paired := (load_eq_ok h).2

variable {breakpoint : Option Char} {p : Program}

theorem symbol?_eq (p : Program) (i : Nat) : p.symbol? i = p.symbols.toList[i]? := by
  simp [symbol?]

theorem lt_size_of_symbol? {p : Program} {i : Nat} {c : Char} (h : p.symbol? i = some c) :
    i < p.size := (Array.getElem?_eq_some_iff.mp h).1

theorem symbol?_eq_none_iff (p : Program) (i : Nat) : p.symbol? i = none ↔ p.size ≤ i := by
  simp [symbol?, size]

theorem Sound.isSymbol_of_symbol? (h : p.Sound breakpoint) {i : Nat} {c : Char}
    (hc : p.symbol? i = some c) : Source.isSymbol breakpoint c = true :=
  h.isSymbol c (Array.mem_of_getElem? hc)

theorem Sound.partner?_iff (h : p.Sound breakpoint) (i j : Nat) :
    p.partner? i = some j ↔ Source.Linked p.symbols.toList i j :=
  Source.partner_iff h.paired i j

theorem Sound.exists_linked (h : p.Sound breakpoint) {i : Nat}
    (hi : p.symbol? i = some '[' ∨ p.symbol? i = some ']') :
    ∃ j, Source.Linked p.symbols.toList i j ∧ p.partner? i = some j := by
  simp only [symbol?_eq] at hi
  exact Source.exists_linked h.paired hi

theorem Sound.exists_closing (h : p.Sound breakpoint) {i : Nat} (hi : p.symbol? i = some '[') :
    ∃ j, p.partner? i = some j ∧ i < j ∧ p.symbol? j = some ']' := by
  rcases h.exists_linked (.inl hi) with ⟨j, hl | hl, hp⟩
  · exact ⟨j, hp, hl.lt, (symbol?_eq p j).trans hl.getElem?_closing⟩
  · rw [symbol?_eq, hl.getElem?_closing] at hi
    simp at hi

theorem Sound.exists_opening (h : p.Sound breakpoint) {j : Nat} (hj : p.symbol? j = some ']') :
    ∃ i, p.partner? j = some i ∧ i < j ∧ p.symbol? i = some '[' := by
  rcases h.exists_linked (.inr hj) with ⟨i, hl | hl, hp⟩
  · rw [symbol?_eq, hl.getElem?_opening] at hj
    simp at hj
  · exact ⟨i, hp, hl.lt, (symbol?_eq p i).trans hl.getElem?_opening⟩

end Program
end Brainfuck
