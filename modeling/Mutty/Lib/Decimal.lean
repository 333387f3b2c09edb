import Mathlib.Algebra.Order.Ring.Nat
import Mathlib.Data.Nat.Digits.Lemmas

/-!
# Numbers as decimal text

`decimal` writes a natural number as ASCII digits, and `readDecimal` reads it back. `snprintf` cuts a
text at the size of the array it is written to.
-/

namespace Mutty.Lib

/-- `%d` and `%zd` of a number that is not negative. -/
def decimal (n : ℕ) : List UInt8 := (Nat.toDigits 10 n).map fun c => c.toUInt8

/-- `snprintf` into an array of `size` bytes, the last of them for the terminator. -/
def snprintf (size : ℕ) (text : List UInt8) : List UInt8 := text.take (size - 1)

def readDecimal (s : List UInt8) : ℕ := s.foldl (fun n b => 10 * n + (b.toNat - 48)) 0

theorem toNat_toUInt8 {c : Char} (hc : c.isDigit = true) :
    c.toUInt8.toNat = c.toNat ∧ 48 ≤ c.toNat ∧ c.toNat ≤ 57 := by
  obtain ⟨hlow, hhigh⟩ : 48 ≤ c.toNat ∧ c.toNat ≤ 57 := Char.isDigit_iff_toNat.mp hc
  refine ⟨?_, hlow, hhigh⟩
  have hmod : c.toUInt8.toNat = c.toNat % 2 ^ 8 := UInt32.toNat_toUInt8 c.val
  rw [hmod, Nat.mod_eq_of_lt (by omega)]

theorem isDigit_decimal {n : ℕ} {c : Char} (hc : c ∈ Nat.toDigits 10 n) : c.isDigit = true :=
  Nat.isDigit_of_mem_toDigits (by omega) (by omega) hc

theorem mem_decimal {n : ℕ} {b : UInt8} (hb : b ∈ decimal n) : 48 ≤ b.toNat ∧ b.toNat ≤ 57 := by
  obtain ⟨c, hc, rfl⟩ := List.mem_map.mp hb
  obtain ⟨heq, hrange⟩ := toNat_toUInt8 (isDigit_decimal hc)
  rw [heq]
  exact hrange

theorem decimal_ne {n : ℕ} {b c : UInt8} (hb : b ∈ decimal n) (hc : c.toNat < 48 ∨ 57 < c.toNat) :
    b ≠ c := by
  rintro rfl
  have := mem_decimal hb
  omega

theorem foldl_readDecimal (l : List Char) (hl : ∀ c ∈ l, c.isDigit = true) (n : ℕ) :
    (l.map fun c => c.toUInt8).foldl (fun n b => 10 * n + (b.toNat - 48)) n =
      Nat.ofDigitChars 10 l n := by
  induction l generalizing n with
  | nil => rfl
  | cons c l ih =>
    have hc := (toNat_toUInt8 (hl c (by simp))).1
    rw [List.map_cons, List.foldl_cons, ih (fun d hd => hl d (by simp [hd])), hc,
      Nat.ofDigitChars_cons]
    rfl

@[simp] theorem readDecimal_decimal (n : ℕ) : readDecimal (decimal n) = n := by
  rw [readDecimal, decimal, foldl_readDecimal _ (fun c hc => isDigit_decimal hc)]
  exact Nat.ofDigitChars_ten_toDigits

theorem length_decimal_le {n k : ℕ} (hk : 0 < k) (h : n < 10 ^ k) : (decimal n).length ≤ k := by
  rw [decimal, List.length_map]
  exact (Nat.length_toDigits_le_iff (by omega) hk).mpr h

theorem decimal_injective : Function.Injective decimal := by
  intro m n h
  rw [← readDecimal_decimal m, h, readDecimal_decimal]

end Mutty.Lib
