import Brainfuck.Proofs.Debugger.Dialogue
import Brainfuck.Proofs.Debugger.Rows
import Brainfuck.Proofs.Numerals

namespace Brainfuck

open Debugger

def CellFormat.base? : CellFormat → Option Nat
  | ascii => none
  | hexadecimal => some 16
  | decimal => some 10

structure MemoryView where
  lowest : Int
  highest : Int
  pointer : Int
  cells : List Nat
  deriving DecidableEq, Repr

namespace MemoryView

def ofMachine (m : Machine) : MemoryView :=
  { lowest := m.tape.lowest, highest := m.tape.highest, pointer := m.observe.pointer,
    cells := m.observe.cells }

def Bracketed (entry : Text) : Prop := ∃ value, entry = '[' :: value ++ [']']

theorem bracketed_iff {entry : Text} :
    Bracketed entry ↔ (Text.enclosed? '[' ']' entry).isSome = true := by
  simp only [Option.isSome_iff_exists, Text.enclosed?_eq_some_iff]
  rfl

instance : DecidablePred Bracketed := fun _ => decidable_of_iff' _ bracketed_iff

/-- The entry with `index` others before it is in brackets, and no other one is. -/
def OnlyBracketed (index : Nat) (entries : List Text) : Prop :=
  index < entries.length ∧
    ∀ (i : Nat) (entry : Text), entries[i]? = some entry → (Bracketed entry ↔ i = index)

theorem OnlyBracketed.findIdx {index : Nat} {entries : List Text}
    (h : OnlyBracketed index entries) : entries.findIdx (Bracketed ·) = index := by
  obtain ⟨hlt, hiff⟩ := h
  apply (List.findIdx_eq hlt).mpr
  constructor
  · exact decide_eq_true ((hiff index _ (List.getElem?_eq_getElem hlt)).mpr rfl)
  · intro i hi
    apply decide_eq_false
    rw [hiff i _ (List.getElem?_eq_getElem (Nat.lt_trans hi hlt))]
    exact Nat.ne_of_lt hi

def value (entry : Text) : Text := (Text.enclosed? '[' ']' entry).getD entry

/-- A view is read from its line: the bounds in decimal, then entries between spaces, with numbers
in the base. The pointer is where an entry is in brackets. -/
def read (base : Nat) (t : Text) : Option MemoryView := do
  let (_, t) ← Text.cut? ' ' t
  let (lowest, t) ← Text.cut? '.' t
  let (highest, t) ← Text.cut? ':' (t.drop 1)
  let (row, _) ← Text.cut? '\n' (t.drop 1)
  let lowest ← Text.integer? lowest
  let highest ← Text.integer? highest
  let entries := row.splitOn ' '
  let cells ← entries.mapM fun entry => Text.number? base (value entry)
  return { lowest, highest, pointer := lowest + entries.findIdx Bracketed, cells }

end MemoryView

open MemoryView

variable {format : CellFormat} {base : Nat} {tape : Tape} {c : Char}

theorem CellFormat.base_bounds (h : format.base? = some base) : 1 < base ∧ base ≤ 16 := by
  cases format with
  | ascii => cases h
  | hexadecimal | decimal =>
    obtain rfl := Option.some.inj h
    decide

theorem Cell.display_singleton (h : format.base? = some base) (value : Nat) :
    display format [value] = Nat.toDigits base value := by
  cases format with
  | ascii => cases h
  | hexadecimal | decimal =>
    obtain rfl := Option.some.inj h
    simp [display, render, Text.spaced, Text.hexadecimal, Text.decimal]

theorem Tape.span_eq (t : Tape) : (t.span : Int) = t.highest - t.lowest + 1 := by
  have hlow := t.lowest_le
  have hhigh := t.le_highest
  rw [span]
  omega

theorem Tape.exists_pointer (t : Tape) : ∃ i : Nat, i < t.span ∧ t.lowest + i = t.pointer := by
  have hlow := t.lowest_le
  have hhigh := t.le_highest
  have hspan := t.span_eq
  exact ⟨(t.pointer - t.lowest).toNat, by omega, by omega⟩

namespace Debugger

theorem not_mem_cellText (h : format.base? = some base) (hc : Text.digitValue? c = none)
    (hl : c ≠ '[') (hr : c ≠ ']') (tape : Tape) (index : Int) :
    c ∉ cellText format tape index := by
  have hvalue : c ∉ Cell.display format [tape.cell index] := by
    obtain ⟨hone, hle⟩ := CellFormat.base_bounds h
    rw [Cell.display_singleton h]
    exact Text.not_mem_toDigits hone hle hc _
  dsimp only [cellText]
  split
  · simpa [hl, hr] using hvalue
  · exact hvalue

/-- The brackets tell the pointer, and a number has none of its own. -/
theorem enclosed?_cellText (h : format.base? = some base) (tape : Tape) (index : Int) :
    Text.enclosed? '[' ']' (cellText format tape index) =
      if index = tape.pointer then some (Nat.toDigits base (tape.cell index)) else none := by
  rw [cellText, Cell.display_singleton h]
  split
  · exact Text.enclosed?_eq_some_iff.mpr rfl
  · obtain ⟨hone, hle⟩ := CellFormat.base_bounds h
    have hleft : '[' ∉ Nat.toDigits base (tape.cell index) :=
      Text.not_mem_toDigits hone hle (by decide) _
    apply Option.eq_none_iff_forall_ne_some.mpr
    intro inner hinner
    rw [Text.enclosed?_eq_some_iff.mp hinner] at hleft
    exact hleft List.mem_cons_self

theorem cellText_ne_nil (h : format.base? = some base) (tape : Tape) (index : Int) :
    cellText format tape index ≠ [] := by
  rw [cellText, Cell.display_singleton h]
  split
  · exact List.cons_ne_nil _ _
  · exact Nat.toDigits_ne_nil

theorem bracketed_cellText (h : format.base? = some base) (tape : Tape) (index : Int) :
    Bracketed (cellText format tape index) ↔ index = tape.pointer := by
  rw [bracketed_iff, enclosed?_cellText h]
  split <;> simp [*]

theorem number?_value_cellText (h : format.base? = some base) (tape : Tape) (index : Int) :
    Text.number? base (value (cellText format tape index)) = some (tape.cell index) := by
  obtain ⟨hone, hle⟩ := CellFormat.base_bounds h
  have hvalue : value (cellText format tape index) = Nat.toDigits base (tape.cell index) := by
    rw [value, enclosed?_cellText h]
    split
    · rfl
    · next hi => rw [cellText, if_neg hi, Cell.display_singleton h]; rfl
  rw [hvalue, Text.number?_toDigits hone hle]

theorem length_cellTexts (format : CellFormat) (tape : Tape) :
    (cellTexts format tape).length = tape.span := by simp [cellTexts, Tape.indices]

theorem getElem?_cellTexts {i : Nat} (hi : i < tape.span) :
    (cellTexts format tape)[i]? = some (cellText format tape (tape.lowest + i)) := by
  simp [cellTexts, Tape.indices, hi]

theorem cellTexts_ne_nil (format : CellFormat) (tape : Tape) : cellTexts format tape ≠ [] := by
  obtain ⟨i, hi, -⟩ := tape.exists_pointer
  apply List.ne_nil_of_length_pos
  rw [length_cellTexts]
  exact Nat.zero_lt_of_lt hi

theorem splitOn_cellTexts (h : format.base? = some base) (tape : Tape) :
    (Text.spaced (cellTexts format tape)).splitOn ' ' = cellTexts format tape := by
  apply List.splitOn_intercalate ' '
  · intro entry hentry
    obtain ⟨i, -, rfl⟩ := List.mem_map.mp hentry
    exact not_mem_cellText h (by decide) (by decide) (by decide) tape i
  · exact cellTexts_ne_nil format tape

theorem mapM_cellTexts (h : format.base? = some base) (tape : Tape) :
    (cellTexts format tape).mapM (fun entry => Text.number? base (value entry)) =
      some tape.cells := by
  have hread : (fun i => Text.number? base (value (cellText format tape i))) =
      fun i => pure (tape.cell i) := funext fun i => number?_value_cellText h tape i
  rw [cellTexts, List.mapM_map, Tape.cells]
  exact (congrArg (fun f => tape.indices.mapM f) hread).trans List.mapM_pure

theorem onlyBracketed_cellTexts (h : format.base? = some base) {index : Nat}
    (hlt : index < tape.span) (hpointer : tape.lowest + index = tape.pointer) :
    OnlyBracketed index (cellTexts format tape) := by
  constructor
  · rwa [length_cellTexts]
  · intro i entry hentry
    have hi : i < tape.span := by
      rw [← length_cellTexts format tape]
      exact (List.getElem?_eq_some_iff.mp hentry).1
    rw [getElem?_cellTexts hi] at hentry
    obtain rfl := Option.some.inj hentry
    rw [bracketed_cellText h]
    omega

theorem read_memoryText (h : format.base? = some base) (tape : Tape) :
    MemoryView.read base (memoryText format tape) = some
      { lowest := tape.lowest, highest := tape.highest, pointer := tape.pointer,
        cells := tape.cells } := by
  obtain ⟨index, hlt, hpointer⟩ := tape.exists_pointer
  have hshape : memoryText format tape = "cells".toList ++ ' ' :: (Text.integer tape.lowest ++
      '.' :: ('.' :: (Text.integer tape.highest ++ ':' :: (' ' ::
        (Text.spaced (cellTexts format tape) ++ '\n' :: []))))) := by
    simp [memoryText_eq, Text.line]
  have hlabel : ' ' ∉ "cells".toList := by decide
  have hlowest : '.' ∉ Text.integer tape.lowest := Text.not_mem_integer (by decide) (by decide) _
  have hhighest : ':' ∉ Text.integer tape.highest :=
    Text.not_mem_integer (by decide) (by decide) _
  have hrow : '\n' ∉ Text.spaced (cellTexts format tape) := feed_not_mem_cellTexts format tape
  rw [hshape, MemoryView.read]
  simp only [Text.cut?_append_cons hlabel, Text.cut?_append_cons hlowest,
    Text.cut?_append_cons hhighest, Text.cut?_append_cons hrow, List.drop_one, List.tail_cons,
    Text.integer?_integer, splitOn_cellTexts h, mapM_cellTexts h,
    (onlyBracketed_cellTexts h hlt hpointer).findIdx, hpointer, Option.bind_eq_bind,
    Option.bind_some]
  rfl

/-- In whatever state a session is, its machine moved on or taken back, a line that shows the cells
in decimal or hexadecimal has one entry for each index from the lowest to the highest, the one in
brackets is that of the pointer, and bounds, pointer and cells are read back from the text. -/
theorem memory_read_back (s : Session) {line : Text} {chosen : Option CellFormat} {base : Nat}
    (hread : Command.read line = .ok (.memory chosen))
    (hbase : (chosen.getD s.memoryFormat).base? = some base) :
    (∃ reply, s.Replies line reply) ∧ ∀ reply, s.Replies line reply →
      reply.session.machine = s.machine ∧
      (∃ (entries : List Text) (index : Nat),
        reply.text = Text.line
          ("cells ".toList ++ Text.integer s.machine.tape.lowest ++ "..".toList
            ++ Text.integer s.machine.tape.highest ++ ": ".toList ++ Text.spaced entries) ∧
        (entries.length : Int) = s.machine.tape.highest - s.machine.tape.lowest + 1 ∧
        (∀ entry ∈ entries, entry ≠ [] ∧ ' ' ∉ entry) ∧
        (index : Int) = s.machine.tape.pointer - s.machine.tape.lowest ∧
        OnlyBracketed index entries) ∧
      MemoryView.read base reply.text = some (.ofMachine s.machine) := by
  have hrun : Command.read line ≠ .ok .run := fun h => nomatch hread.symm.trans h
  refine ⟨Session.exists_replies s hrun, ?_⟩
  intro reply hreply
  obtain ⟨fuel, answer, ha, rfl⟩ := (Session.replies_of_ok hread).mp hreply
  obtain rfl := Option.some.inj ha
  obtain ⟨index, hlt, hpointer⟩ := s.machine.tape.exists_pointer
  refine ⟨rfl, ⟨cellTexts _ s.machine.tape, index, rfl, ?_, ?_, ?_,
    onlyBracketed_cellTexts hbase hlt hpointer⟩, read_memoryText hbase s.machine.tape⟩
  · rw [length_cellTexts, Tape.span_eq]
  · intro entry hentry
    obtain ⟨i, -, rfl⟩ := List.mem_map.mp hentry
    exact ⟨cellText_ne_nil hbase s.machine.tape i,
      not_mem_cellText hbase (by decide) (by decide) (by decide) s.machine.tape i⟩
  · omega

/-- The pointer was left of the start and came back. -/
theorem memory_read_back_hexadecimal :
    ∃ s log e reply,
      Session.load "<->".toList [] {} = .ok s ∧ Session.Feeds s log e ∧
      log.map (fun x => (x.raised, x.line)) = [(false, "s 3".toList)] ∧
      (e.raise false).Replies "mem hex".toList reply ∧
      MemoryView.read 16 reply.text =
        some { lowest := -1, highest := 0, pointer := 0, cells := [255, 0] } := by
  have hstep : Command.read "s 3".toList = .ok (.step 3) := by
    rw [Command.read, show Text.words "s 3".toList = ["s".toList, "3".toList] by decide +kernel]
    rfl
  have hmemory : Command.read "mem hex".toList = .ok (.memory (some .hexadecimal)) := by
    rw [Command.read,
      show Text.words "mem hex".toList = ["mem".toList, "hex".toList] by decide +kernel]
    rfl
  obtain ⟨s, log, e, hload, hfeeds, hlines, htape⟩ : ∃ s log e,
      Session.load "<->".toList [] {} = .ok s ∧ Session.Feeds s log e ∧
        log.map (fun x => (x.raised, x.line)) = [(false, "s 3".toList)] ∧
        e.machine.tape = (Tape.decrement 255 ({} : Tape).left).right :=
    ⟨_, _, _, rfl, .cons false ((Session.replies_of_ok hstep).mpr ⟨0, _, rfl, rfl⟩) .nil, rfl, rfl⟩
  obtain ⟨⟨reply, hreply⟩, htold⟩ := memory_read_back (e.raise false) hmemory rfl
  obtain ⟨-, -, hview⟩ := htold reply hreply
  have hcells : (Tape.decrement 255 ({} : Tape).left).right.cells = [255, 0] := by
    simp [Tape.cells, Tape.indices, Tape.span, Tape.decrement_eq_write, Tape.left, Tape.right,
      Tape.write, Tape.current, Tape.cell, List.range_succ, Std.HashMap.getD_insert]
  have hmachine : MemoryView.ofMachine (e.raise false).machine =
      { lowest := -1, highest := 0, pointer := 0, cells := [255, 0] } := by
    rw [Tape.decrement_eq_write] at htape hcells
    simp only [MemoryView.ofMachine, Machine.observe, Session.raise, htape, hcells]
    rfl
  exact ⟨s, log, e, reply, hload, hfeeds, hlines, hreply, hview.trans (congrArg some hmachine)⟩

end Debugger
end Brainfuck
