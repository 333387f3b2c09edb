import Mathlib.Data.Int.Basic
import Mathlib.Tactic.Linarith
import Mathlib.Tactic.Ring

/-!
# Rounding down to a grid and slots of a ring

`down t x` is the largest multiple of `t` that is at most `x`, and `slot t n x` the place of its
grid cell in a ring of `n` slots. Two cells of one slot inside a window of `n` cells are the same
cell (`down_eq_of_slot`). Grids that refine each other round in either order
(`down_down`), which is what keeps clocks of different resolution in step.
-/

namespace Mutty.Lib

def down (t x : ℤ) : ℤ := t * (x / t)

def slot (t : ℤ) (n : ℕ) (x : ℤ) : ℕ := (x / t % n).toNat

section

variable {t : ℤ} {x y a b : ℤ}

theorem down_le (ht : 0 < t) : down t x ≤ x := Int.mul_ediv_self_le ht.ne'

theorem lt_down_add (ht : 0 < t) : x < down t x + t := by
  have h := Int.lt_mul_ediv_self_add ht (x := x)
  exact h

theorem dvd_down : t ∣ down t x := ⟨x / t, rfl⟩

theorem down_of_dvd (h : t ∣ x) : down t x = x := Int.mul_ediv_cancel' h

theorem sub_tmod_eq_down (hx : 0 ≤ x) : x - x.tmod t = down t x := by
  rw [Int.tmod_eq_emod_of_nonneg hx, Int.emod_def]
  unfold down
  omega

theorem down_nonneg (ht : 0 < t) (hx : 0 ≤ x) : 0 ≤ down t x :=
  Int.mul_nonneg ht.le (Int.ediv_nonneg hx ht.le)

theorem down_mono (ht : 0 < t) (h : x ≤ y) : down t x ≤ down t y :=
  Int.mul_le_mul_of_nonneg_left (Int.ediv_le_ediv ht h) ht.le

theorem add_le_of_dvd_of_lt (ha : t ∣ a) (hb : t ∣ b) (h : a < b) : a + t ≤ b := by
  have hle : t ≤ b - a := Int.le_of_dvd (by omega) (Int.dvd_sub hb ha)
  omega

theorem le_down (ht : 0 < t) (ha : t ∣ a) (h : a ≤ x) : a ≤ down t x := by
  have hm := down_mono ht h
  rwa [down_of_dvd ha] at hm

theorem down_unique (ht : 0 < t) (ha : t ∣ a) (h : a ≤ x) (h' : x < a + t) : down t x = a := by
  have h1 := le_down ht ha h
  have h2 := down_le ht (x := x)
  by_contra hne
  have h3 := add_le_of_dvd_of_lt ha dvd_down (lt_of_le_of_ne h1 fun he => hne he.symm)
  omega

theorem down_down {t' : ℤ} (ht' : 0 < t') (hd : t ∣ t') (ht : 0 < t) :
    down t' (down t x) = down t' x := by
  apply down_unique ht' dvd_down
  · exact le_down ht (hd.trans dvd_down) (down_le ht')
  · have h1 := down_le ht (x := x)
    have h2 := lt_down_add ht' (x := x)
    omega

end

section

variable {t : ℤ} {n : ℕ} {x y a : ℤ}

theorem slot_down (ht : 0 < t) : slot t n (down t x) = slot t n x := by
  unfold slot down
  rw [Int.mul_ediv_cancel_left _ ht.ne']

theorem ediv_eq_of_slot (hn : 0 < n) (hs : slot t n x = slot t n y)
    (hx : a ≤ x / t) (hx' : x / t < a + n) (hy : a ≤ y / t) (hy' : y / t < a + n) :
    x / t = y / t := by
  have h1 := Int.emod_nonneg (x / t) (Int.natCast_ne_zero.mpr hn.ne')
  have h2 := Int.emod_nonneg (y / t) (Int.natCast_ne_zero.mpr hn.ne')
  have hmod : (x / t) % n = (y / t) % n := by
    unfold slot at hs
    omega
  have hdvd : (n : ℤ) ∣ x / t - y / t :=
    Int.dvd_of_emod_eq_zero (Int.emod_eq_emod_iff_emod_sub_eq_zero.mp hmod)
  have hzero := Int.eq_zero_of_abs_lt_dvd hdvd (abs_lt.mpr ⟨by omega, by omega⟩)
  omega

/-- Two cells of one slot, both among the `n` cells from `a` on, are the same cell. -/
theorem down_eq_of_slot (ht : 0 < t) (hn : 0 < n) (hs : slot t n x = slot t n y) (ha : t ∣ a)
    (hx : a ≤ x) (hx' : x < a + t * n) (hy : a ≤ y) (hy' : y < a + t * n) :
    down t x = down t y := by
  obtain ⟨v, rfl⟩ := ha
  have hlow : ∀ z, t * v ≤ z → v ≤ z / t := fun z hz =>
    (Int.le_ediv_iff_mul_le ht).mpr (by rw [Int.mul_comm]; exact hz)
  have hhigh : ∀ z, z < t * v + t * n → z / t < v + n := fun z hz =>
    (Int.ediv_lt_iff_lt_mul ht).mpr (by rw [Int.mul_comm, Int.mul_add]; exact hz)
  have heq := ediv_eq_of_slot hn hs (hlow x hx) (hhigh x hx') (hlow y hy) (hhigh y hy')
  unfold down
  rw [heq]

end

end Mutty.Lib
