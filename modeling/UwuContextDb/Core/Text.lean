import Mathlib.Algebra.Order.Ring.Nat
import Mathlib.Data.List.Basic

/-! Text as the standard library of the source sees it, and the decimal texts of numbers. -/

namespace UwuContextDb.Text

/-- `char::is_whitespace`: the Unicode property `White_Space`. -/
def isWhitespace (c : Char) : Bool :=
  (0x9 ≤ c.val && c.val ≤ 0xD) || c.val == 0x20 || c.val == 0x85 || c.val == 0xA0 || c.val == 0x1680 ||
    (0x2000 ≤ c.val && c.val ≤ 0x200A) || c.val == 0x2028 || c.val == 0x2029 || c.val == 0x202F || c.val == 0x205F ||
    c.val == 0x3000

/-- `text.trim().is_empty()`. -/
def isBlank (text : String) : Bool := text.toList.all isWhitespace

theorem repr_inj (m n : ℕ) (h : m.repr.toList = n.repr.toList) : m = n := by
  rw [Nat.toList_repr,Nat.toList_repr] at h
  rw [← @Nat.ofDigitChars_ten_toDigits m,h,Nat.ofDigitChars_ten_toDigits]

theorem notMem_repr {c : Char} (hc : c.isDigit = false) (n : ℕ) : c ∉ n.repr.toList := by
  rw [Nat.toList_repr]
  intro h
  have hd := Nat.isDigit_of_mem_toDigits (by decide) (by decide) h
  rw [hc] at hd
  cases hd

end UwuContextDb.Text
