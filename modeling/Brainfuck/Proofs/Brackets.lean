import Brainfuck.Source.Brackets

namespace Brainfuck.Source

/-- Whether the symbols close every loop that they open, and `depth` loops opened before them. -/
def closes : Nat → List Char → Bool
  | depth, [] => depth == 0
  | depth, c :: rest =>
    if c = '[' then closes (depth + 1) rest
    else if c = ']' then
      match depth with
      | 0 => false
      | outer + 1 => closes outer rest
    else closes depth rest

def Balanced (symbols : List Char) : Prop := closes 0 symbols = true

instance (symbols : List Char) : Decidable (Balanced symbols) :=
  inferInstanceAs (Decidable (closes 0 symbols = true))

/-- The loop that opens at `i` is closed at `j`. -/
def Loop (symbols : List Char) (i j : Nat) : Prop :=
  ∃ before body after, symbols = before ++ '[' :: body ++ ']' :: after ∧ Balanced body ∧
    before.length = i ∧ i + body.length + 1 = j

def Linked (symbols : List Char) (i j : Nat) : Prop := Loop symbols i j ∨ Loop symbols j i

theorem balanced_nil : Balanced [] := rfl

@[simp]
theorem closes_opening (depth : Nat) (l : List Char) :
    closes depth ('[' :: l) = closes (depth + 1) l := by simp [closes]

@[simp]
theorem closes_succ_closing (depth : Nat) (l : List Char) :
    closes (depth + 1) (']' :: l) = closes depth l := by simp [closes]

@[simp]
theorem closes_zero_closing (l : List Char) : closes 0 (']' :: l) = false := by simp [closes]

theorem closes_other {c : Char} (ho : c ≠ '[') (hc : c ≠ ']') (depth : Nat) (l : List Char) :
    closes depth (c :: l) = closes depth l := by simp [closes, ho, hc]

theorem closes_append {l : List Char} {inner : Nat} (h : closes inner l = true) (outer : Nat)
    (r : List Char) : closes (outer + inner) (l ++ r) = closes outer r := by
  fun_induction closes inner l with
  | case1 depth =>
    obtain rfl : depth = 0 := by simpa using h
    rfl
  | case2 depth rest ih => simpa [Nat.add_assoc] using ih h
  | case3 rest => simp at h
  | case4 rest hne depth ih => simpa [← Nat.add_assoc] using ih h
  | case5 depth c rest ho hc ih => simpa [closes_other ho hc] using ih h

theorem Balanced.closes_append {l : List Char} (h : Balanced l) (depth : Nat) (r : List Char) :
    closes depth (l ++ r) = closes depth r := Source.closes_append h depth r

theorem Balanced.append {l r : List Char} (hl : Balanced l) (hr : Balanced r) :
    Balanced (l ++ r) := (hl.closes_append 0 r).trans hr

theorem Balanced.enclosed {l : List Char} (h : Balanced l) : Balanced ('[' :: l ++ [']']) := by
  show closes 0 ('[' :: (l ++ [']'])) = true
  rw [closes_opening, h.closes_append]
  rfl

theorem Balanced.single {c : Char} (ho : c ≠ '[') (hc : c ≠ ']') : Balanced [c] :=
  closes_other ho hc 0 []

theorem closes_filter {keep : Char → Bool} (ho : keep '[' = true) (hc : keep ']' = true)
    (depth : Nat) (l : List Char) : closes depth (l.filter keep) = closes depth l := by
  fun_induction closes depth l with
  | case1 depth => rfl
  | case2 depth rest ih => simpa [ho] using ih
  | case3 rest => simp [hc]
  | case4 rest hne depth ih => simpa [hc] using ih
  | case5 depth c rest hno hnc ih =>
    by_cases h : keep c = true
    · simpa [List.filter_cons, h, closes_other hno hnc] using ih
    · simpa [List.filter_cons, h] using ih

theorem closes_append_opening {body : List Char} (h : Balanced body) (depth : Nat)
    (l : List Char) : closes depth (l ++ '[' :: body) = false := by
  fun_induction closes depth l with
  | case1 depth =>
    have := h.closes_append (depth + 1) []
    simpa [closes] using this
  | case2 depth rest ih => simpa using ih
  | case3 rest => simp
  | case4 rest hne depth ih => simpa using ih
  | case5 depth c rest ho hc ih => simpa [closes_other ho hc] using ih

theorem Loop.lt {l : List Char} {i j : Nat} (h : Loop l i j) : i < j := by
  obtain ⟨before, body, after, -, -, -, hj⟩ := h
  omega

theorem Loop.getElem?_opening {l : List Char} {i j : Nat} (h : Loop l i j) : l[i]? = some '[' := by
  obtain ⟨before, body, after, rfl, -, rfl, -⟩ := h
  simp

theorem Loop.getElem?_closing {l : List Char} {i j : Nat} (h : Loop l i j) : l[j]? = some ']' := by
  obtain ⟨before, body, after, rfl, -, rfl, rfl⟩ := h
  rw [List.getElem?_append_right (by simp; omega)]
  simp [Nat.add_assoc]

theorem Loop.append {l : List Char} {i j : Nat} (h : Loop l i j) (r : List Char) :
    Loop (l ++ r) i j := by
  obtain ⟨before, body, after, rfl, hb, hi, hj⟩ := h
  exact ⟨before, body, after ++ r, by simp, hb, hi, hj⟩

theorem Linked.append {l : List Char} {i j : Nat} (h : Linked l i j) (r : List Char) :
    Linked (l ++ r) i j := h.imp (·.append r) (·.append r)

theorem Linked.symm {l : List Char} {i j : Nat} (h : Linked l i j) : Linked l j i := Or.symm h

theorem Balanced.eq_nil_of_closing {body x l r : List Char} (h : Balanced body)
    (hx : Balanced (body ++ x)) (he : ']' :: l = x ++ ']' :: r) : x = [] := by
  cases x with
  | nil => rfl
  | cons c x =>
    obtain ⟨rfl, -⟩ := List.cons.inj he
    simp [Balanced, h.closes_append] at hx

theorem Balanced.eq_nil_of_opening {body inner x : List Char} (h : Balanced body)
    (hi : Balanced inner) (he : '[' :: body = x ++ '[' :: inner) : x = [] := by
  cases x with
  | nil => rfl
  | cons c x =>
    obtain ⟨rfl, rfl⟩ := List.cons.inj he
    simp [Balanced, closes_append_opening hi] at h

/-- A loop ends where its body is balanced for the first time. -/
theorem Loop.right_unique {l : List Char} {i j k : Nat} (hj : Loop l i j) (hk : Loop l i k) :
    j = k := by
  obtain ⟨before, body, after, rfl, hb, rfl, rfl⟩ := hj
  obtain ⟨before', body', after', he, hb', hl, rfl⟩ := hk
  simp only [List.append_assoc, List.cons_append] at he
  obtain ⟨rfl, ht⟩ := List.append_inj he hl.symm
  -- one body goes on where the other one ends
  rcases List.append_eq_append_iff.mp (List.cons.inj ht).2 with ⟨x, rfl, hx⟩ | ⟨x, rfl, hx⟩
  · rw [hb.eq_nil_of_closing hb' hx, List.append_nil]
  · rw [hb'.eq_nil_of_closing hb hx, List.append_nil]

theorem Loop.left_unique {l : List Char} {i j k : Nat} (hi : Loop l i k) (hj : Loop l j k) :
    i = j := by
  obtain ⟨before, body, after, rfl, hb, rfl, rfl⟩ := hi
  obtain ⟨before', body', after', he, hb', rfl, hl⟩ := hj
  have he := (List.append_inj he (by simp; omega)).1
  rcases List.append_eq_append_iff.mp he with ⟨x, rfl, hx⟩ | ⟨x, rfl, hx⟩
  · rw [hb.eq_nil_of_opening hb' hx, List.append_nil]
  · rw [hb'.eq_nil_of_opening hb hx, List.append_nil]

theorem Linked.unique {l : List Char} {i j k : Nat} (hj : Linked l i j) (hk : Linked l i k) :
    j = k := by
  rcases hj with hj | hj <;> rcases hk with hk | hk
  · exact hj.right_unique hk
  · simpa [hj.getElem?_opening] using hk.getElem?_closing
  · simpa [hj.getElem?_closing] using hk.getElem?_opening
  · exact hj.left_unique hk

/-- The loops that wait for their end among the symbols seen so far, innermost first. -/
inductive Waits : List Char → List Nat → Prop where
  | nil {seen : List Char} (balanced : Balanced seen) : Waits seen []
  | cons {before body : List Char} {outer : List Nat} (waits : Waits before outer)
      (balanced : Balanced body) : Waits (before ++ '[' :: body) (before.length :: outer)

/-- What the table holds for a symbol that waits for no partner. -/
inductive Settled (seen : List Char) (i : Nat) : Option Nat → Prop where
  | plain (opening : seen[i]? ≠ some '[') (closing : seen[i]? ≠ some ']') : Settled seen i none
  | linked {j : Nat} (linked : Linked seen i j) : Settled seen i (some j)

/-- The scan's invariant: `table` and `waiting` are right for the symbols seen so far. -/
structure Scanned (seen : List Char) (table : Partners) (waiting : List Nat) : Prop where
  size : table.size = seen.length
  waits : Waits seen waiting
  entry : ∀ i, i < seen.length → i ∉ waiting → ∃ e, table[i]? = some e ∧ Settled seen i e

theorem Waits.append {seen r : List Char} {waiting : List Nat} (h : Waits seen waiting)
    (hr : Balanced r) : Waits (seen ++ r) waiting := by
  cases h with
  | nil hb => exact .nil (hb.append hr)
  | cons h hb =>
    rw [List.append_assoc, List.cons_append]
    exact .cons h (hb.append hr)

theorem Waits.closing {seen : List Char} {i : Nat} {outer : List Nat}
    (h : Waits seen (i :: outer)) :
    i < seen.length ∧ Waits (seen ++ [']']) outer ∧ Loop (seen ++ [']']) i seen.length := by
  cases h with
  | @cons before body _ h hb =>
    refine ⟨by simp, ?_, before, body, [], rfl, hb, rfl, by simp; omega⟩
    have := h.append hb.enclosed
    simpa using this

theorem Settled.append {seen : List Char} {i : Nat} {e : Option Nat} (h : Settled seen i e)
    (hi : i < seen.length) (r : List Char) : Settled (seen ++ r) i e := by
  cases h with
  | plain ho hc =>
    have happend : (seen ++ r)[i]? = seen[i]? := List.getElem?_append_left hi
    rw [← happend] at ho hc
    exact .plain ho hc
  | linked h => exact .linked (h.append r)

theorem scanned_nil : Scanned [] #[] [] where
  size := rfl
  waits := .nil balanced_nil
  entry i hi := by simp at hi

theorem Scanned.other {seen : List Char} {table : Partners} {waiting : List Nat} {c : Char}
    (h : Scanned seen table waiting) (ho : c ≠ '[') (hc : c ≠ ']') :
    Scanned (seen ++ [c]) (table.push none) waiting where
  size := by simp [h.size]
  waits := h.waits.append (.single ho hc)
  entry i hi hw := by
    by_cases hs : i < seen.length
    · obtain ⟨e, he, hse⟩ := h.entry i hs hw
      exact ⟨e, by rwa [Array.getElem?_push, if_neg (by have := h.size; omega)], hse.append hs _⟩
    · obtain rfl : i = seen.length := by simp at hi; omega
      have he : (table.push none)[seen.length]? = some none := by
        rw [Array.getElem?_push, if_pos h.size.symm]
      exact ⟨none, he, .plain (by simpa) (by simpa)⟩

theorem Scanned.opening {seen : List Char} {table : Partners} {waiting : List Nat}
    (h : Scanned seen table waiting) :
    Scanned (seen ++ ['[']) (table.push none) (table.size :: waiting) where
  size := by simp [h.size]
  waits := h.size ▸ .cons h.waits balanced_nil
  entry i hi hw := by
    obtain ⟨hne, hw⟩ := not_or.mp (hw ∘ List.mem_cons.mpr)
    have hs : i < seen.length := by
      have := h.size
      simp at hi
      omega
    obtain ⟨e, he, hse⟩ := h.entry i hs hw
    exact ⟨e, by rwa [Array.getElem?_push, if_neg hne], hse.append hs _⟩

theorem Scanned.closing {seen : List Char} {table : Partners} {innermost : Nat}
    {outer : List Nat} (h : Scanned seen table (innermost :: outer)) :
    Scanned (seen ++ [']'])
      ((table.setIfInBounds innermost (some table.size)).push (some innermost)) outer where
  size := by simp [h.size]
  waits := h.waits.closing.2.1
  entry i hi hw := by
    obtain ⟨hlt, -, hl⟩ := h.waits.closing
    have hsize := h.size
    by_cases hs : i < seen.length
    · rw [Array.getElem?_push, if_neg (by simp; omega), Array.getElem?_setIfInBounds]
      -- of the earlier symbols, only the innermost waiting loop gets a partner
      by_cases he : innermost = i
      · subst he
        exact ⟨some table.size, by simp [hsize, hs], .linked (hsize ▸ .inl hl)⟩
      · rw [if_neg he]
        obtain ⟨e, hte, hse⟩ := h.entry i hs (by simp [Ne.symm he, hw])
        exact ⟨e, hte, hse.append hs _⟩
    · obtain rfl : i = seen.length := by simp at hi; omega
      refine ⟨some innermost, ?_, .linked (.inr hl)⟩
      rw [Array.getElem?_push, if_pos (by simp [hsize])]

theorem Scanned.pairFrom {seen : List Char} {table : Partners} {waiting : List Nat}
    {l : List Char} {t : Partners} (hs : Scanned seen table waiting)
    (h : pairFrom table waiting l = .ok t) : Scanned (seen ++ l) t [] := by
  fun_induction Source.pairFrom table waiting l generalizing seen with
  | case1 table =>
    obtain rfl : table = t := by simpa using h
    simpa using hs
  | case2 => simp at h
  | case3 table waiting rest ih => simpa using ih hs.opening h
  | case4 => simp at h
  | case5 table rest innermost outer closed hne =>
    rename_i ih
    simpa using ih hs.closing h
  | case6 table waiting c rest ho hc ih => simpa using ih (hs.other ho hc) h

theorem scanned_of_partners {l : List Char} {t : Partners} (h : partners l = .ok t) :
    Scanned l t [] := by
  have hs := scanned_nil.pairFrom h
  rwa [List.nil_append] at hs

/-- Exactly the balanced sequences can be paired. -/
theorem pairFrom_ok_iff (table : Partners) (waiting : List Nat) (l : List Char) :
    (∃ t, pairFrom table waiting l = .ok t) ↔ closes waiting.length l = true := by
  fun_induction pairFrom table waiting l with
  | case1 => simp [closes]
  | case2 => simp [closes]
  | case3 table waiting rest ih => simpa using ih
  | case4 => simp
  | case5 table rest innermost outer closed hne ih => simpa using ih
  | case6 table waiting c rest ho hc ih => simpa [closes_other ho hc] using ih

theorem partners_ok_iff (l : List Char) : (∃ t, partners l = .ok t) ↔ Balanced l :=
  pairFrom_ok_iff #[] [] l

theorem exists_linked {l : List Char} {t : Partners} (h : partners l = .ok t) {i : Nat}
    (hi : l[i]? = some '[' ∨ l[i]? = some ']') : ∃ j, Linked l i j ∧ t[i]?.join = some j := by
  have hlt : i < l.length := by
    rcases hi with hi | hi <;> exact (List.getElem?_eq_some_iff.mp hi).1
  obtain ⟨e, he, hse⟩ := (scanned_of_partners h).entry i hlt (by simp)
  cases hse with
  | plain ho hc => exact absurd hi (by simp [ho, hc])
  | linked hl => exact ⟨_, hl, by simp [he]⟩

theorem partner_iff {l : List Char} {t : Partners} (h : partners l = .ok t) (i j : Nat) :
    t[i]?.join = some j ↔ Linked l i j := by
  constructor
  · intro hj
    have hs := scanned_of_partners h
    have hlt : i < l.length := by
      rw [Option.join_eq_some_iff] at hj
      exact hs.size ▸ (Array.getElem?_eq_some_iff.mp hj).1
    obtain ⟨e, he, hse⟩ := hs.entry i hlt (by simp)
    cases hse with
    | plain => simp [he] at hj
    | linked hl =>
      obtain rfl : _ = j := by simpa [he] using hj
      exact hl
  · intro hl
    have hi : l[i]? = some '[' ∨ l[i]? = some ']' :=
      hl.imp Loop.getElem?_opening Loop.getElem?_closing
    obtain ⟨k, hk, hj⟩ := exists_linked h hi
    rwa [hl.unique hk]

end Brainfuck.Source
