import Mathlib.Algebra.Order.Ring.Int
import Mathlib.Data.List.TakeWhile

/-! # Decimal numerals

Integers in decimal, with a sign and at least a given width, as `%d` and `%0*d` print them.
-/

namespace Decimal

def sign (n : Int) : List Char := if n < 0 then ['-'] else []

/-- Zeros fill the width between the sign and the digits. -/
def format (width : Nat) (n : Int) : List Char :=
  let digits := Nat.toDigits 10 n.natAbs
  sign n ++ (List.replicate (width - (sign n).length - digits.length) '0' ++ digits)

/-- The number that a numeral says. -/
def read : List Char → Int
  | '-' :: digits => -Nat.ofDigitChars 10 digits 0
  | digits => Nat.ofDigitChars 10 digits 0

/-! ## Characters -/

theorem isDigit_format {width : Nat} {n : Int} {c : Char} (hc : c ∈ format width n) : c = '-' ∨ c.isDigit = true := by
  simp only [format, List.mem_append, List.mem_replicate] at hc
  rcases hc with hc | ⟨-, rfl⟩ | hc
  · left
    unfold sign at hc
    split at hc
    · exact List.mem_singleton.mp hc
    · cases hc
  · exact Or.inr rfl
  · exact Or.inr (Nat.isDigit_of_mem_toDigits (by decide) (by decide) hc)

theorem isDigit_of_nonneg {width : Nat} {n : Int} (hn : 0 ≤ n) {c : Char} (hc : c ∈ format width n) :
    c.isDigit = true := by
  simp only [format, sign, if_neg (Int.not_lt.mpr hn), List.nil_append, List.mem_append, List.mem_replicate] at hc
  rcases hc with ⟨-, rfl⟩ | hc
  · rfl
  · exact Nat.isDigit_of_mem_toDigits (by decide) (by decide) hc

theorem format_length (width : Nat) (n : Int) :
    (format width n).length = max width ((sign n).length + (Nat.toDigits 10 n.natAbs).length) := by
  simp only [format, List.length_append, List.length_replicate]
  omega

theorem format_length_le {width k : Nat} {n : Int} (hk : 0 < k) (hn : n.natAbs < 10 ^ k) (hwidth : width ≤ k) :
    (format width n).length ≤ k + 1 := by
  have hdigits := (Nat.length_toDigits_le_iff (by decide) hk).mpr hn
  have hsign : (sign n).length ≤ 1 := by
    unfold sign
    split <;> simp
  rw [format_length]
  omega

theorem format_length_eq {width : Nat} {n : Int} (hwidth : 0 < width) (h0 : 0 ≤ n) (hn : n.natAbs < 10 ^ width) :
    (format width n).length = width := by
  have hdigits := (Nat.length_toDigits_le_iff (by decide) hwidth).mpr hn
  rw [format_length, sign, if_neg (by omega)]
  simpa using hdigits

/-! ## Reading -/

theorem read_digits {digits : List Char} (h : ∀ c ∈ digits, c.isDigit = true) :
    read digits = Nat.ofDigitChars 10 digits 0 := by
  unfold read
  split
  · exact absurd (h '-' List.mem_cons_self) (by decide)
  · rfl

/-- A number is read back as it was. -/
theorem read_format (width : Nat) (n : Int) : read (format width n) = n := by
  have hvalue : ∀ zeros, Nat.ofDigitChars 10 (List.replicate zeros '0' ++ Nat.toDigits 10 n.natAbs) 0 = n.natAbs := by
    intro zeros
    rw [Nat.ofDigitChars_append, Nat.ofDigitChars_replicate_zero, Nat.mul_zero, Nat.ofDigitChars_ten_toDigits]
  by_cases hn : n < 0
  · simp only [format, sign, if_pos hn, List.singleton_append, read, hvalue]
    omega
  · have hnonneg : 0 ≤ n := Int.not_lt.mp hn
    have hdigits := fun c (hc : c ∈ format width n) => isDigit_of_nonneg hnonneg hc
    simp only [format, sign, if_neg hn, List.nil_append] at hdigits ⊢
    rw [read_digits hdigits, hvalue]
    omega

end Decimal
