import Mathlib.Data.Nat.Basic
import Mathlib.Data.Int.Notation

/-!
# Numbers as text

What `std::to_string` writes for a natural number: digits only, and different ones for different
numbers.
-/

namespace Difacto.Lib

theorem isDigit_of_mem_toString {n : ℕ} {c : Char} (h : c ∈ (toString n).toList) :
    c.isDigit = true := by
  refine Nat.isDigit_of_mem_toDigits (b := 10) (n := n) (by decide) (by decide) ?_
  rw [← Nat.toList_repr]
  exact h

theorem toString_nat_inj {m n : ℕ} (h : toString m = toString n) : m = n := by
  have hdigits : Nat.toDigits 10 m = Nat.toDigits 10 n := String.ofList_injective h
  rw [← Nat.ofDigitChars_ten_toDigits (n := m), hdigits, Nat.ofDigitChars_ten_toDigits]

end Difacto.Lib
