import Mathlib.Algebra.Order.Ring.Nat
import Mathlib.Data.List.Lex

/-! Numbers written with a fixed number of digits: the order of the texts is the order of the numbers. -/

namespace FixedWidth

open List (Lex)

/-- The digits of a number below `base ^ width`, the most significant one first. -/
def digits (base : ℕ) : ℕ → ℕ → List ℕ
  | 0, _ => []
  | width + 1, n => n / base ^ width :: digits base width (n % base ^ width)

@[simp] theorem length_digits (base width n : ℕ) : (digits base width n).length = width := by
  induction width generalizing n with
  | zero => rfl
  | succ width ih => simp [digits,ih]

variable {base width n m : ℕ}

theorem digits_lt_base (hb : 0 < base) (h : n < base ^ width) : ∀ d ∈ digits base width n, d < base := by
  induction width generalizing n with
  | zero => simp [digits]
  | succ width ih =>
    intro d hd
    rcases List.mem_cons.mp hd with rfl | hd
    · exact Nat.div_lt_of_lt_mul (by rwa [← Nat.pow_succ])
    · exact ih (Nat.mod_lt _ (Nat.pow_pos hb)) d hd

/-- The first digit that differs decides. -/
theorem digits_lt (hb : 0 < base) (hl : n < m) (hm : m < base ^ width) :
    digits base width n < digits base width m := by
  induction width generalizing n m with
  | zero =>
    rw [Nat.pow_zero] at hm
    omega
  | succ width ih =>
    have hp : 0 < base ^ width := Nat.pow_pos hb
    rcases Nat.lt_or_eq_of_le (Nat.div_le_div_right (c := base ^ width) hl.le) with hh | hh
    · exact Lex.rel hh
    · have hn := Nat.div_add_mod n (base ^ width)
      have ho : n % base ^ width < m % base ^ width := by
        have hm' := Nat.div_add_mod m (base ^ width)
        rw [← hh] at hm'
        omega
      simp only [digits,hh]
      exact Lex.cons (ih ho (Nat.mod_lt _ hp))

/-- Digits are written in the order of their values. -/
theorem map_lt {α : Type} [LT α] {write : ℕ → α} {l l' : List ℕ} (ht : l < l') (hl : ∀ d ∈ l, d < base)
    (hl' : ∀ d ∈ l', d < base) (hw : ∀ d d', d < d' → d' < base → write d < write d') :
    l.map write < l'.map write := by
  have he : Lex (· < ·) l l' := ht
  clear ht
  induction he with
  | nil => exact Lex.nil
  | cons hr ih =>
    exact Lex.cons (ih (fun d hd => hl d (List.mem_cons_of_mem _ hd)) (fun d hd => hl' d (List.mem_cons_of_mem _ hd)))
  | rel hh => exact Lex.rel (hw _ _ hh (hl' _ List.mem_cons_self))

theorem digitChar_lt (d d' : ℕ) (hl : d < d') (hd : d' < 16) : Nat.digitChar d < Nat.digitChar d' := by
  have ha : ∀ d' < 16, ∀ d < d', Nat.digitChar d < Nat.digitChar d' := by decide
  exact ha d' hd d hl

/-- Between texts of one length the beginnings decide, whatever follows them. -/
theorem append_lt {α : Type} [LT α] {l l' : List α} (hl : l.length = l'.length) (ht : l < l') (s t : List α) :
    l ++ s < l' ++ t := by
  have he : Lex (· < ·) l l' := ht
  clear ht
  induction he with
  | nil => simp at hl
  | cons hr ih => exact Lex.cons (ih (by simpa using hl))
  | rel hh => exact Lex.rel hh

/-- A sign set at one place. -/
def insertAt {α : Type} (k : ℕ) (c : α) (l : List α) : List α := l.take k ++ c::l.drop k

/-- A sign set at the same place of two texts leaves their order. -/
theorem insertAt_lt {α : Type} [LT α] {l l' : List α} (hl : l.length = l'.length) (ht : l < l') (k : ℕ) (c : α) :
    insertAt k c l < insertAt k c l' := by
  have he : Lex (· < ·) l l' := ht
  clear ht
  induction he generalizing k with
  | nil => simp at hl
  | @cons a l l' hr ih =>
    cases k with
    | zero => exact Lex.cons (Lex.cons hr)
    | succ k => exact Lex.cons (ih (by simpa using hl) k)
  | @rel a l b l' hh =>
    cases k with
    | zero => exact Lex.cons (Lex.rel hh)
    | succ k => exact Lex.rel hh

@[simp] theorem length_insertAt {α : Type} (k : ℕ) (c : α) (l : List α) : (insertAt k c l).length = l.length + 1 := by
  simp only [insertAt,List.length_append,List.length_cons,List.length_take,List.length_drop]
  omega

end FixedWidth
