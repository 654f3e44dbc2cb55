import Mathlib.Order.Bounds.Defs
import Brainfuck.Program
import Brainfuck.Proofs.Brackets

namespace Brainfuck.Source

/-- No prefix has more closing than opening brackets, and the whole has equally many. -/
structure WellBracketed (l : List Char) : Prop where
  le : ∀ k, (l.take k).count ']' ≤ (l.take k).count '['
  total : l.count '[' = l.count ']'

def between (l : List Char) (i j : Nat) : List Char := (l.take j).drop (i + 1)

/-- A table that pairs the brackets, each opening one with a closing one that stands after it, and
with nothing between them that is not well bracketed itself. -/
structure Pairing (l : List Char) (t : Partners) : Prop where
  size : t.size = l.length
  present : ∀ i : Nat, (∃ j, t[i]?.join = some j) ↔ l[i]? = some '[' ∨ l[i]? = some ']'
  involution : ∀ i j : Nat, t[i]?.join = some j → t[j]?.join = some i
  opening : ∀ i : Nat, l[i]? = some '[' →
    ∃ j, t[i]?.join = some j ∧ i < j ∧ l[j]? = some ']' ∧ WellBracketed (between l i j)

/-- The prefix that ends at `i` has more closing than opening brackets. -/
def Excess (l : List Char) (i : Nat) : Prop :=
  (l.take (i + 1)).count '[' < (l.take (i + 1)).count ']'

/-- An opening bracket that no closing one can be paired with. -/
def Unpaired (l : List Char) (i : Nat) : Prop :=
  l[i]? = some '[' ∧ ∀ j, i < j → l[j]? = some ']' → ¬WellBracketed (between l i j)

/-- The fault names the first closing bracket in excess or, if there is none, the last opening
bracket that is left without a partner. -/
inductive Blames (l : List Char) : Fault → Prop where
  | closing {i : Nat} (first : IsLeast {i | Excess l i} i) : Blames l (.unmatched .closing i)
  | opening {i : Nat} (none : ∀ j, ¬Excess l j) (last : IsGreatest {i | Unpaired l i} i) :
    Blames l (.unmatched .opening i)

theorem forall_take_cons (P : List Char → Prop) (c : Char) (l : List Char) :
    (∀ k, P ((c :: l).take k)) ↔ P [] ∧ ∀ k, P (c :: l.take k) :=
  (Nat.and_forall_add_one (p := fun k => P ((c :: l).take k))).symm

/-- The depth counts the loops that are open. -/
theorem closes_iff (depth : Nat) (l : List Char) :
    closes depth l = true ↔
      (∀ k, (l.take k).count ']' ≤ depth + (l.take k).count '[') ∧
        depth + l.count '[' = l.count ']' := by
  fun_induction closes depth l with
  | case1 depth => simp
  | case2 depth rest ih =>
    rw [ih, forall_take_cons fun p => p.count ']' ≤ depth + p.count '[']
    simp [Nat.add_assoc, Nat.add_comm 1]
  | case3 rest =>
    have h : ¬∀ k, ((']' :: rest).take k).count ']' ≤ 0 + ((']' :: rest).take k).count '[' := by
      intro h
      exact absurd (h 1) (by simp)
    simp only [h, false_and, Bool.false_eq_true]
  | case4 rest outer hne ih =>
    rw [ih, forall_take_cons fun p => p.count ']' ≤ outer + 1 + p.count '[']
    simp [Nat.add_right_comm outer 1]
  | case5 depth c rest ho hc ih =>
    rw [ih, forall_take_cons fun p => p.count ']' ≤ depth + p.count '[']
    simp [ho, hc]

theorem balanced_iff (l : List Char) : Balanced l ↔ WellBracketed l := by
  rw [Balanced, closes_iff]
  simp only [Nat.zero_add]
  exact ⟨fun h => ⟨h.1, h.2⟩, fun h => ⟨h.le, h.total⟩⟩

theorem Loop.balanced_between {l : List Char} {i j : Nat} (h : Loop l i j) :
    Balanced (between l i j) := by
  obtain ⟨before, body, after, rfl, hb, rfl, rfl⟩ := h
  have hj : before.length + body.length + 1 = (before ++ '[' :: body).length := by
    simp [Nat.add_assoc]
  rw [between, hj, List.take_left']
  · simpa using hb
  · rfl

theorem loop_iff (l : List Char) (i j : Nat) :
    Loop l i j ↔ i < j ∧ l[i]? = some '[' ∧ l[j]? = some ']' ∧ Balanced (between l i j) := by
  constructor
  · intro h
    exact ⟨h.lt, h.getElem?_opening, h.getElem?_closing, h.balanced_between⟩
  · rintro ⟨hlt, hi, hj, hb⟩
    obtain ⟨hil, hi⟩ := List.getElem?_eq_some_iff.mp hi
    obtain ⟨hjl, hj⟩ := List.getElem?_eq_some_iff.mp hj
    have hit : i < (l.take j).length := by
      rw [List.length_take]
      omega
    have hhead : (l.take j).take i = l.take i := by
      rw [List.take_take, Nat.min_eq_left (Nat.le_of_lt hlt)]
    have hbody : (l.take j).drop i = '[' :: between l i j := by
      rw [List.drop_eq_getElem_cons hit, List.getElem_take, hi]
      rfl
    have hrest : l.drop j = ']' :: l.drop (j + 1) := by
      rw [List.drop_eq_getElem_cons hjl, hj]
    refine ⟨l.take i, between l i j, l.drop (j + 1), ?_, hb, ?_, ?_⟩
    · calc l = l.take j ++ l.drop j := (List.take_append_drop j l).symm
        _ = l.take i ++ '[' :: between l i j ++ ']' :: l.drop (j + 1) := by
          rw [hrest, ← hbody, ← hhead, List.take_append_drop]
    · rw [List.length_take]
      omega
    · rw [between, List.length_drop, List.length_take]
      omega

theorem unpaired_iff (l : List Char) (i : Nat) :
    Unpaired l i ↔ l[i]? = some '[' ∧ ∀ j, ¬Loop l i j := by
  refine and_congr_right fun hi => forall_congr' fun j => ?_
  rw [loop_iff, balanced_iff]
  constructor
  · rintro h ⟨hlt, -, hj, hb⟩
    exact h hlt hj hb
  · intro h hlt hj hb
    exact h ⟨hlt, hi, hj, hb⟩

theorem countP_bracket (l : List Char) :
    l.countP (fun c => c = '[' ∨ c = ']') = l.count '[' + l.count ']' := by
  induction l with
  | nil => rfl
  | cons c l ih =>
    rw [List.countP_cons, List.count_cons, List.count_cons, ih]
    by_cases ho : c = '['
    · subst ho
      simp [Nat.add_right_comm _ 1]
    · simp [ho, Nat.add_assoc]

theorem pairing_of_partners {l : List Char} {t : Partners} (h : partners l = .ok t) :
    Pairing l t where
  size := (scanned_of_partners h).size
  present i := by
    constructor
    · rintro ⟨j, hj⟩
      exact ((partner_iff h i j).mp hj).imp Loop.getElem?_opening Loop.getElem?_closing
    · intro hi
      obtain ⟨j, -, hj⟩ := exists_linked h hi
      exact ⟨j, hj⟩
  involution i j hj := (partner_iff h j i).mpr ((partner_iff h i j).mp hj).symm
  opening i hi := by
    obtain ⟨j, hl | hl, hj⟩ := exists_linked h (.inl hi)
    · exact ⟨j, hj, hl.lt, hl.getElem?_closing, (balanced_iff _).mp hl.balanced_between⟩
    · rw [hl.getElem?_closing] at hi
      simp at hi

namespace Pairing

variable {l : List Char} {t u : Partners}

/-- Every pairing has the partners that the scan has found. -/
theorem join_eq (hu : Pairing l u) (h : partners l = .ok t) (i : Nat) :
    u[i]?.join = t[i]?.join := by
  have hloop (i j : Nat) (hl : Loop l i j) : u[i]?.join = some j := by
    obtain ⟨k, hk, hlt, hclose, hb⟩ := hu.opening i hl.getElem?_opening
    have hlk := (loop_iff l i k).mpr ⟨hlt, hl.getElem?_opening, hclose, (balanced_iff _).mpr hb⟩
    rwa [hl.right_unique hlk]
  have hfound (j : Nat) (hj : t[i]?.join = some j) : u[i]?.join = some j := by
    rcases (partner_iff h i j).mp hj with hl | hl
    · exact hloop i j hl
    · exact hu.involution j i (hloop j i hl)
  cases ht : t[i]?.join with
  | some j => exact hfound j ht
  | none =>
    -- no bracket stands here, so no pairing has an entry
    apply Option.eq_none_iff_forall_ne_some.mpr
    intro j hj
    obtain ⟨k, hk⟩ := ((pairing_of_partners h).present i).mpr ((hu.present i).mp ⟨j, hj⟩)
    rw [ht] at hk
    cases hk

theorem eq_of_partners (hu : Pairing l u) (h : partners l = .ok t) : u = t := by
  have hsize : u.size = t.size := hu.size.trans (pairing_of_partners h).size.symm
  apply Array.ext hsize
  intro i hi hi'
  have hj := hu.join_eq h i
  rwa [Array.getElem?_eq_getElem hi, Array.getElem?_eq_getElem hi'] at hj

theorem length_filter_isSome (h : Pairing l t) :
    (t.toList.filter Option.isSome).length = l.count '[' + l.count ']' := by
  have hmap : t.toList.map Option.isSome = l.map fun c => decide (c = '[' ∨ c = ']') := by
    apply List.ext_getElem
    · simpa using h.size
    · intro i hi hi'
      have hp := h.present i
      simp only [List.length_map, Array.length_toList] at hi hi'
      rw [Array.getElem?_eq_getElem hi, List.getElem?_eq_getElem hi', Option.join_some,
        ← Option.isSome_iff_exists] at hp
      rw [List.getElem_map, List.getElem_map, Array.getElem_toList, Bool.eq_iff_iff, hp]
      simp
  calc (t.toList.filter Option.isSome).length
      = (t.toList.map Option.isSome).countP id := by
        rw [List.countP_map, List.countP_eq_length_filter]
        rfl
    _ = l.countP (fun c => c = '[' ∨ c = ']') := by
        rw [hmap, List.countP_map]
        rfl
    _ = l.count '[' + l.count ']' := countP_bracket l

end Pairing

/-- What is still open is closed by as many brackets as loops wait for their end. -/
theorem Waits.closes_append {seen : List Char} {waiting : List Nat} (h : Waits seen waiting)
    (r : List Char) : closes 0 (seen ++ r) = closes waiting.length r := by
  induction h generalizing r with
  | nil hb => exact hb.closes_append 0 r
  | @cons before body outer _ hb ih =>
    rw [List.append_assoc, ih, List.cons_append, closes_opening, hb.closes_append]
    rfl

theorem closes_replicate (depth : Nat) : closes depth (List.replicate depth ']') = true := by
  induction depth with
  | zero => rfl
  | succ depth ih => rwa [List.replicate_succ, closes_succ_closing]

theorem Waits.count_le {seen : List Char} {waiting : List Nat} (h : Waits seen waiting) (k : Nat) :
    (seen.take k).count ']' ≤ (seen.take k).count '[' := by
  have hb : Balanced (seen ++ List.replicate waiting.length ']') :=
    (h.closes_append _).trans (closes_replicate _)
  have hle := ((balanced_iff _).mp hb).le (min k seen.length)
  rwa [List.take_append_of_le_length (Nat.min_le_right _ _), ← List.take_eq_take_min] at hle

/-- A closing bracket that no loop waits for is the first in excess. -/
theorem Waits.isLeast_excess {seen : List Char} (h : Waits seen []) (rest : List Char) :
    IsLeast {i | Excess (seen ++ ']' :: rest) i} seen.length := by
  have hbalanced : Balanced seen := by
    cases h with
    | nil hb => exact hb
  have htotal := ((balanced_iff seen).mp hbalanced).total
  constructor
  · show Excess _ _
    rw [Excess, List.take_append, List.take_of_length_le (Nat.le_succ _), Nat.add_sub_cancel_left]
    simp [htotal]
  · intro i hi
    apply Nat.le_of_not_lt
    intro hlt
    have htake : (seen ++ ']' :: rest).take (i + 1) = seen.take (i + 1) :=
      List.take_append_of_le_length hlt
    have hle := h.count_le (i + 1)
    rw [← htake] at hle
    exact absurd hi (Nat.not_lt.mpr hle)

theorem Waits.lt_length {seen : List Char} {waiting : List Nat} (h : Waits seen waiting) :
    ∀ i ∈ waiting, i < seen.length := by
  induction h with
  | nil => simp
  | cons _ _ ih =>
    intro i hi
    rw [List.length_append, List.length_cons]
    rcases List.mem_cons.mp hi with rfl | hi
    · omega
    · have := ih i hi
      omega

/-- The innermost loop that waits is not closed, and every loop opened after it is. -/
theorem Scanned.isGreatest_unpaired {seen : List Char} {table : Partners} {innermost : Nat}
    {outer : List Nat} (h : Scanned seen table (innermost :: outer)) :
    IsGreatest {i | Unpaired seen i} innermost := by
  have hw := h.waits
  cases hw with
  | @cons before body _ hbefore hb =>
  constructor
  · refine (unpaired_iff _ _).mpr ⟨by simp, ?_⟩
    -- a partner would stand in `body`, whose closing brackets belong to loops of its own
    rintro j ⟨before', body', after, he, hb', hl, -⟩
    rw [List.append_assoc, List.cons_append] at he
    have hbody := (List.cons.inj (List.append_inj he hl.symm).2).2
    rw [hbody, Balanced, hb'.closes_append, closes_zero_closing] at hb
    cases hb
  · intro i hi
    obtain ⟨hopen, hnone⟩ := (unpaired_iff _ _).mp hi
    apply Nat.le_of_not_lt
    intro hlt
    -- the loops that wait begin at `before.length` or earlier, so this one has an entry
    have hout : i ∉ before.length :: outer := by
      intro hmem
      rcases List.mem_cons.mp hmem with rfl | hmem
      · omega
      · have := hbefore.lt_length i hmem
        omega
    obtain ⟨e, -, hs⟩ := h.entry i (List.getElem?_eq_some_iff.mp hopen).1 hout
    cases hs with
    | plain ho => exact ho hopen
    | linked hl =>
      rcases hl with hl | hl
      · exact hnone _ hl
      · rw [hl.getElem?_closing] at hopen
        cases hopen

theorem Scanned.blames {seen : List Char} {table : Partners} {waiting : List Nat}
    {rest : List Char} {f : Fault} (hs : Scanned seen table waiting)
    (h : Source.pairFrom table waiting rest = .error f) : Blames (seen ++ rest) f := by
  fun_induction Source.pairFrom table waiting rest generalizing seen with
  | case1 => simp at h
  | case2 table innermost outer =>
    obtain rfl := Except.error.inj h
    rw [List.append_nil]
    exact .opening (fun i => Nat.not_lt.mpr (hs.waits.count_le _)) hs.isGreatest_unpaired
  | case3 table waiting rest ih => simpa using ih hs.opening h
  | case4 table rest hne =>
    obtain rfl := Except.error.inj h
    exact .closing (hs.size ▸ hs.waits.isLeast_excess rest)
  | case5 table rest hne innermost outer =>
    rename_i ih
    simpa using ih hs.closing h
  | case6 table waiting c rest ho hc ih => simpa using ih (hs.other ho hc) h

theorem getElem?_of_isLeast_excess {l : List Char} {i : Nat} (h : IsLeast {i | Excess l i} i) :
    l[i]? = some ']' := by
  apply Classical.byContradiction
  intro hne
  have hexcess : (l.take (i + 1)).count '[' < (l.take (i + 1)).count ']' := h.1
  have hclose : (l.take (i + 1)).count ']' = (l.take i).count ']' := by
    rw [List.take_add_one, List.count_append]
    cases hc : l[i]? with
    | none => rfl
    | some c =>
      have hcne : c ≠ ']' := fun he => hne (he ▸ hc)
      simp [hcne]
  have hopen : (l.take i).count '[' ≤ (l.take (i + 1)).count '[' := by
    rw [List.take_add_one, List.count_append]
    exact Nat.le_add_right _ _
  cases i with
  | zero => simp [hclose] at hexcess
  | succ j =>
    have hbefore : Excess l j := by
      rw [Excess]
      omega
    exact absurd (h.2 hbefore) (Nat.not_succ_le_self j)

theorem Blames.exists_bracket {l : List Char} {f : Fault} (h : Blames l f) :
    ∃ b i, f = .unmatched b i ∧ l[i]? = some b.toChar := by
  cases h with
  | closing first => exact ⟨.closing, _, rfl, getElem?_of_isLeast_excess first⟩
  | opening _ last => exact ⟨.opening, _, rfl, last.1.1⟩

theorem blames_of_partners {l : List Char} {f : Fault} (h : partners l = .error f) :
    Blames l f := by
  have hb := scanned_nil.blames h
  rwa [List.nil_append] at hb

/-- Exactly the well-bracketed sequences are paired, and in the only way there is. Otherwise the
fault tells which bracket is to blame. -/
theorem partners_pair_brackets (l : List Char) :
    ((∃ t, partners l = .ok t) ↔ WellBracketed l) ∧
    (∀ t, partners l = .ok t → Pairing l t ∧ (∀ u, Pairing l u → u = t) ∧
      ∀ p : Program, p.partners = t → p.loopCount = l.count '[') ∧
    ∀ f, partners l = .error f → Blames l f := by
  refine ⟨(partners_ok_iff l).trans (balanced_iff l), ?_, fun f h => blames_of_partners h⟩
  intro t h
  have hp := pairing_of_partners h
  refine ⟨hp, fun u hu => hu.eq_of_partners h, ?_⟩
  rintro p rfl
  have htotal := ((balanced_iff l).mp ((partners_ok_iff l).mp ⟨_, h⟩)).total
  rw [Program.loopCount, hp.length_filter_isSome, ← htotal]
  omega

/-- Two loops in one another, a bracket too many, and a loop that is left open around a closed
one. -/
theorem partners_pair_brackets_nested :
    (∃ t, partners "[+[]]".toList = .ok t ∧ Pairing "[+[]]".toList t ∧
      ∀ p : Program, p.partners = t → p.loopCount = 2) ∧
    Blames "[]]".toList (.unmatched .closing 2) ∧ Blames "[[]".toList (.unmatched .opening 0) := by
  refine ⟨?_, ?_, ?_⟩
  · obtain ⟨t, ht⟩ : ∃ t, partners "[+[]]".toList = .ok t := ⟨_, rfl⟩
    obtain ⟨hp, -, hcount⟩ := (partners_pair_brackets "[+[]]".toList).2.1 t ht
    exact ⟨t, ht, hp, hcount⟩
  · exact (partners_pair_brackets "[]]".toList).2.2 _ rfl
  · exact (partners_pair_brackets "[[]".toList).2.2 _ rfl

end Brainfuck.Source
