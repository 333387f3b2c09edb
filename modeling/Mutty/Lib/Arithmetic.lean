import Mathlib.Data.Int.Basic

/-!
# Arithmetic that may wrap around

A program computes over the integers or in signed machine words, whose sums and products wrap
around. `Holds` says that a value is one of the words; every integer between two such values is
one, and on them the two arithmetics agree.
-/

namespace Mutty.Lib

inductive Arithmetic
  | exact
  | wrapping (modulus : ℕ)
  deriving DecidableEq, Repr

namespace Arithmetic

def long : Arithmetic := wrapping 18446744073709551616

/-- What is stored for a sum or a product that comes to `x`. -/
def wrap : Arithmetic → ℤ → ℤ
  | exact, x => x
  | wrapping modulus, x => x.bmod modulus

def Holds (num : Arithmetic) (x : ℤ) : Prop := num.wrap x = x

variable {num : Arithmetic} {x y z : ℤ}

instance : Decidable (num.Holds x) := inferInstanceAs (Decidable (_ = _))

theorem holds_exact (x : ℤ) : exact.Holds x := rfl

theorem holds_wrap (num : Arithmetic) (x : ℤ) : num.Holds (num.wrap x) := by
  cases num with
  | exact => rfl
  | wrapping modulus => exact Int.bmod_bmod

theorem holds_zero (num : Arithmetic) : num.Holds 0 := by
  cases num with
  | exact => rfl
  | wrapping modulus => exact Int.zero_bmod

theorem wrap_add_wrap (num : Arithmetic) (x y : ℤ) : num.wrap (x + num.wrap y) = num.wrap (x + y) := by
  cases num with
  | exact => rfl
  | wrapping modulus => exact Int.add_bmod_bmod

theorem Holds.between (hx : num.Holds x) (hz : num.Holds z) (h1 : x ≤ y) (h2 : y ≤ z) :
    num.Holds y := by
  cases num with
  | exact => rfl
  | wrapping modulus =>
    rcases Nat.eq_zero_or_pos modulus with rfl | hpos
    · exact Int.bmod_zero
    · have hlow := Int.le_bmod hpos (x := x)
      have hhigh := Int.bmod_lt hpos (x := z)
      rw [show x.bmod modulus = x from hx] at hlow
      rw [show z.bmod modulus = z from hz] at hhigh
      exact Int.bmod_eq_of_le (by omega) (by omega)

theorem Holds.of_nonneg_of_le (hy : num.Holds y) (h1 : 0 ≤ x) (h2 : x ≤ y) : num.Holds x :=
  (holds_zero num).between hy h1 h2

theorem holds_of_lt_wrap (h1 : 0 ≤ x) (h2 : x < num.wrap y) : num.Holds x :=
  (holds_wrap num y).of_nonneg_of_le h1 (Int.le_of_lt h2)

end Arithmetic

end Mutty.Lib
