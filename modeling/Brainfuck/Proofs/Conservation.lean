import Mathlib.Data.List.Sort
import Mathlib.Data.Nat.Count
import Brainfuck.Proofs.Rewinding

namespace Brainfuck

namespace UndoLog

def readsInOrder (log : UndoLog) : List (Nat × Read) :=
  log.reads.toList.mergeSort fun x y => x.1 ≤ y.1

variable {log : UndoLog}

theorem mem_readsInOrder {s : Nat} {entry : Read} :
    (s, entry) ∈ log.readsInOrder ↔ log.read? s = some entry := by
  rw [readsInOrder, List.mem_mergeSort]
  exact Std.HashMap.mem_toList_iff_getElem?_eq_some

theorem pairwise_readsInOrder (log : UndoLog) :
    log.readsInOrder.Pairwise fun x y => x.1 < y.1 := by
  have hle : log.readsInOrder.Pairwise fun x y => x.1 ≤ y.1 := by
    have htrans : ∀ x y z : Nat × Read, decide (x.1 ≤ y.1) = true → decide (y.1 ≤ z.1) = true →
        decide (x.1 ≤ z.1) = true := by
      simp only [decide_eq_true_eq]
      exact fun _ _ _ => Nat.le_trans
    have htotal : ∀ x y : Nat × Read, (decide (x.1 ≤ y.1) || decide (y.1 ≤ x.1)) = true := by
      simp only [Bool.or_eq_true, decide_eq_true_eq]
      exact fun x y => Nat.le_total x.1 y.1
    exact (List.pairwise_mergeSort htrans htotal log.reads.toList).imp of_decide_eq_true
  have hne : log.readsInOrder.Pairwise fun x y => x.1 ≠ y.1 := by
    have hperm := List.mergeSort_perm log.reads.toList fun x y => x.1 ≤ y.1
    rw [readsInOrder, hperm.pairwise_iff Ne.symm]
    simpa using Std.HashMap.distinct_keys_toList (m := log.reads)
  exact (hle.and hne).imp fun h => Nat.lt_of_le_of_ne h.1 h.2

theorem readsInOrder_eq {t : Nat} (h : ∀ s, t ≤ s → log.read? s = none) :
    log.readsInOrder = (List.range t).filterMap fun s => (log.read? s).map (s, ·) := by
  have hirrefl : Std.Irrefl fun x y : Nat × Read => x.1 < y.1 := ⟨fun x => Nat.lt_irrefl x.1⟩
  have hantisymm : Std.Antisymm fun x y : Nat × Read => x.1 < y.1 :=
    ⟨fun x y hxy hyx => absurd hxy (Nat.lt_asymm hyx)⟩
  have hrange : ((List.range t).filterMap fun s => (log.read? s).map (s, ·)).Pairwise
      fun x y => x.1 < y.1 := by
    refine List.pairwise_lt_range.filterMap _ ?_
    intro s s' hlt x hx y hy
    obtain ⟨-, -, rfl⟩ := Option.map_eq_some_iff.mp hx
    obtain ⟨-, -, rfl⟩ := Option.map_eq_some_iff.mp hy
    exact hlt
  -- both lists rise strictly, so it is enough that they have the same entries
  apply log.pairwise_readsInOrder.eq_of_mem_iff hrange
  rintro ⟨s, entry⟩
  rw [mem_readsInOrder]
  constructor
  · intro hread
    have hlt : s < t := by
      apply Nat.lt_of_not_le
      intro hle
      rw [h s hle] at hread
      cases hread
    exact List.mem_filterMap.mpr ⟨s, List.mem_range.mpr hlt, by rw [hread]; rfl⟩
  · intro hmem
    obtain ⟨s', -, hs'⟩ := List.mem_filterMap.mp hmem
    obtain ⟨entry', hread, he⟩ := Option.map_eq_some_iff.mp hs'
    obtain ⟨rfl, rfl⟩ := Prod.mk.inj he
    exact hread

end UndoLog

theorem Store.pending_execute (s : Store) (settings : Settings) (c : Char) :
    (s.execute settings c).pending = if c = ',' then s.pending.tail else s.pending := by
  unfold Store.execute
  cases hc : Simple.ofChar? c with
  | none =>
    have hne : c ≠ ',' := by
      rintro rfl
      cases hc
    rw [if_neg hne]
  | some x =>
    obtain rfl := Simple.toChar_of_ofChar? hc
    cases x with
    | input =>
      show (s.read settings).pending = s.pending.tail
      unfold Store.read
      split
      · next h => rw [h]; rfl
      · next h =>
        unfold fillAtEnd
        split <;> simp [h]
    | _ => rfl

namespace Machine

variable {origin m : Machine} {t : Nat}

/-- How many of the first `t` steps are reads. -/
def readCount (t : Nat) (m : Machine) : Nat := Nat.count (fun i => (m.after i).symbol? = some ',') t

/-- The character that the next step takes from the input. -/
def taken (m : Machine) : Option Char :=
  if m.symbol? = some ',' then m.pending.head? else none

theorem pending_next (hm : m.store.InRange m.settings) :
    m.next.pending = if m.symbol? = some ',' then m.pending.tail else m.pending := by
  cases hc : m.symbol? with
  | none => rw [next_of_none hc, if_neg nofun]
  | some c =>
    rw [next_of_some hc]
    have hpending : (execute c m).pending = (m.store.execute m.settings c).pending :=
      congrArg Store.pending (store_execute hm c)
    rw [hpending, Store.pending_execute]
    simp only [Option.some_inj]
    rfl

theorem taken_append_pending (hm : m.store.InRange m.settings) :
    m.taken.toList ++ m.next.pending = m.pending := by
  rw [pending_next hm, taken]
  split
  · cases m.pending <;> rfl
  · rfl

theorem pending_after (hm : m.Sound) (t : Nat) :
    (m.after t).pending = m.pending.drop (m.readCount t) := by
  induction t with
  | zero => rfl
  | succ t ih =>
    rw [after_succ', pending_next (hm.after t).inRange, readCount, Nat.count_succ, ← readCount, ih]
    split
    · exact List.tail_drop
    · rfl

/-- The characters that steps have taken, and then the rest, are the whole input. -/
theorem taken_append_pending_after (hm : m.Sound) (t : Nat) :
    ((List.range t).filterMap fun s => (m.after s).taken) ++ (m.after t).pending = m.pending := by
  induction t with
  | zero => rfl
  | succ t ih =>
    have hlast : [t].filterMap (fun s => (m.after s).taken) = (m.after t).taken.toList := by
      cases h : (m.after t).taken <;> simp [h]
    rw [List.range_succ, List.filterMap_append, hlast, List.append_assoc, after_succ',
      taken_append_pending (hm.after t).inRange, ih]

/-- The undo log holds just the reads among the steps. -/
theorem read?_after (ho : origin.Fresh) (hr : origin.settings.recording = true)
    (ht : (origin.after t).steps = t) (s : Nat) :
    (origin.after t).undo.read? s =
      if s < t ∧ (origin.after s).symbol? = some ',' then
        some
          { previous := (origin.after s).tape.current
            consumed := (origin.after s).pending.head? }
      else none := by
  induction t with
  | zero =>
    rw [if_neg fun h => Nat.not_lt_zero s h.1]
    exact ho.sound.read_unlogged s (ho.steps ▸ Nat.zero_le s)
  | succ t ih =>
    obtain ⟨c, hc, hts, he⟩ := exists_last_step ho.steps ht
    have hrec : (origin.after t).settings.recording = true := by rwa [(frame_after t origin).2.1]
    rw [he, read?_execute, hts, ih hts]
    by_cases hs : t = s
    · subst hs
      simp [hrec, hc]
    · have hlt : s < t + 1 ↔ s < t := by omega
      simp [hs, hlt]

theorem consumed_after (ho : origin.Fresh) (hr : origin.settings.recording = true)
    (ht : (origin.after t).steps = t) {s : Nat} (hs : s < t) :
    ((origin.after t).undo.read? s).bind Read.consumed = (origin.after s).taken := by
  rw [read?_after ho hr ht, taken]
  by_cases hc : (origin.after s).symbol? = some ','
  · simp [hs, hc]
  · simp [hc]

theorem Tracks.consumed (ho : origin.Fresh) (hr : origin.settings.recording = true)
    (h : Tracks origin m) :
    m.undo.readsInOrder.filterMap (fun entry => entry.2.consumed) =
      (List.range m.steps).filterMap fun s => (origin.after s).taken := by
  rw [UndoLog.readsInOrder_eq (h.sound ho).read_unlogged, List.filterMap_filterMap]
  apply List.filterMap_congr
  intro s hs
  rw [← consumed_after ho hr h.same.steps (List.mem_range.mp hs), h.same.read]
  cases m.undo.read? s <;> rfl

/-- Whatever was called on a machine, what is still to be read is the input less one character for
each read among as many steps forward from the start; and the characters in the undo log make it
whole again. -/
theorem input_conserved {source input : Text} {settings : Settings} {log : List (Call × Answer)}
    (hload : load source input settings = .ok origin) (h : Trace origin log m) :
    (∀ i, (origin.after i).step = .ok (origin.after (i + 1))) ∧
      m.pending = input.drop (min (origin.readCount m.steps) input.length) ∧
      (settings.recording = true →
        m.undo.readsInOrder.filterMap (fun entry => entry.2.consumed) ++ m.pending = input) := by
  have ho := fresh_load hload
  have ht := ho.tracks h
  have hpending : origin.pending = input := by
    obtain ⟨p, -, rfl⟩ := load_eq_ok hload
    rfl
  refine ⟨?_, ?_, ?_⟩
  · intro i
    rw [after_succ']
    exact step_eq_next (ho.sound.after i).program
  · rw [← ht.same.pending, pending_after ho.sound, hpending, List.drop_eq_drop_iff]
    omega
  · intro hr
    rw [ht.consumed ho (settings_load hload ▸ hr), ← ht.same.pending,
      taken_append_pending_after ho.sound, hpending]

/-- Two characters, the first of them wider than a cell, and the end of the input are read; the last
two reads are taken back. -/
theorem input_conserved_rewound :
    ∃ origin m b, load ",,,".toList "€x".toList {} = .ok origin ∧
      Trace origin ((.run, .stopped (.ok .halted)) :: List.replicate 2 (.back, .done)) b ∧
      Trace origin [(.run, .stopped (.ok .halted))] m ∧ b.steps = 1 ∧ m.pending = [] ∧
      m.undo.readsInOrder.filterMap (fun entry => entry.2.consumed) = "€x".toList ∧
      b.pending = "x".toList ∧
      b.undo.readsInOrder.filterMap (fun entry => entry.2.consumed) = "€".toList := by
  obtain ⟨origin, m, hload, hrun, hr, hs, hcount, hcount'⟩ : ∃ origin m,
      load ",,,".toList "€x".toList {} = .ok origin ∧
        Trace origin [(.run, .stopped (.ok .halted))] m ∧ origin.settings.recording = true ∧
        m.steps = 3 ∧ origin.readCount 3 = 3 ∧ origin.readCount 1 = 1 :=
    ⟨_, _, rfl, .single (.run (show run 4 _ = some (.ok .halted, _) from rfl)), rfl, rfl, rfl, rfl⟩
  have ho := fresh_load hload
  obtain ⟨b, hback, -, hb, -⟩ := (ho.tracks hrun).rewind ho hr (k := 2) (by omega)
  have ht := hrun.append hback
  obtain ⟨-, hrest, hwhole⟩ := input_conserved hload hrun
  obtain ⟨-, hrest', hwhole'⟩ := input_conserved hload ht
  rw [hs, hcount] at hrest
  rw [hb, hs, hcount'] at hrest'
  have hnone : m.pending = [] := hrest
  have hone : b.pending = "x".toList := hrest'
  refine ⟨origin, m, b, hload, ht, hrun, by omega, hnone, ?_, hone, ?_⟩
  · have h := hwhole rfl
    rwa [hnone, List.append_nil] at h
  · have h := hwhole' rfl
    rw [hone] at h
    exact List.append_cancel_right (h.trans rfl)

end Machine
end Brainfuck
