import Mathlib.Data.Int.Basic
import Mathlib.Tactic.NormNum
import Mathlib.Tactic.Ring
import Mathlib.Data.Nat.Bitwise

/-!
# Handles

A `long` handle packs, from the top, 15 bits of page offset, 15 bits of page count, the used bit,
the subpage bit and a 32-bit index into a subpage's bitmap. The accessors and the constructors are
the code's; the theorems say what each of them does to the fields of a handle that is not
negative, which is all a client needs.
-/

namespace Mutty.Buffer

def calculateRunOffset (handle : Int64) : ℤ := (handle >>> 49).toInt32.toInt

def calculateRunPages (handle : Int64) : ℤ := ((handle >>> 34) &&& 0x7fff).toInt32.toInt

def isUsed (handle : Int64) : Bool := ((handle >>> 33) &&& 1) == 1

def isSubpage (handle : Int64) : Bool := ((handle >>> 32) &&& 1) == 1

def calculateBitmapIdx (handle : Int64) : ℤ := handle.toInt32.toInt

def toRunHandle (runOffset runPages inUsed : ℤ) : Int64 :=
  Int64.ofInt runOffset <<< 49 ||| Int64.ofInt runPages <<< 34 ||| Int64.ofInt inUsed <<< 33

/-- `PoolSubpage::toHandle`, for a subpage at `runOffset` of `pages` pages. -/
def toHandle (runOffset pages bitmapIdx : ℤ) : Int64 :=
  Int64.ofInt runOffset <<< 49 ||| Int64.ofInt pages <<< 34 ||| (1 : Int64) <<< 33 |||
    (1 : Int64) <<< 32 ||| Int64.ofInt bitmapIdx

def markUsed (handle : Int64) : Int64 := handle ||| (1 : Int64) <<< 33

def markSubpage (handle : Int64) : Int64 := handle ||| (1 : Int64) <<< 32

def clearUsed (handle : Int64) : Int64 := handle &&& ~~~((1 : Int64) <<< 33)

def clearSubpage (handle : Int64) : Int64 := handle &&& ~~~((1 : Int64) <<< 32)

/-- `PoolChunk::free` clears the used bit and then the subpage bit. -/
def clearFlags (handle : Int64) : Int64 :=
  handle &&& ~~~((1 : Int64) <<< 33) &&& ~~~((1 : Int64) <<< 32)

/-! ### Handles as natural numbers -/

section nat

variable {n m k : ℕ}

theorem eq_ofNat_of_nonneg {h : Int64} (hh : 0 ≤ h) : ∃ n < 2 ^ 63, h = Int64.ofNat n := by
  have h0 : 0 ≤ h.toInt := by simpa using Int64.le_iff_toInt_le.mp hh
  have hlt := h.toInt_lt
  refine ⟨h.toInt.toNat, by omega, Int64.toInt_inj.mp ?_⟩
  rw [Int64.toInt_ofNat_of_lt (by omega)]
  omega

theorem nonneg_ofNat (hn : n < 2 ^ 63) : 0 ≤ Int64.ofNat n := by
  rw [Int64.le_iff_toInt_le, Int64.toInt_ofNat_of_lt hn]
  simp

theorem ofNat_lt_ofNat (hn : n < 2 ^ 63) (hm : m < 2 ^ 63) :
    Int64.ofNat n < Int64.ofNat m ↔ n < m := by
  rw [Int64.lt_iff_toInt_lt, Int64.toInt_ofNat_of_lt hn, Int64.toInt_ofNat_of_lt hm]
  exact Int.ofNat_lt

theorem ofNat_or : Int64.ofNat n ||| Int64.ofNat m = Int64.ofNat (n ||| m) := by
  refine Int64.toBitVec_inj.mp (BitVec.eq_of_toNat_eq ?_)
  simp

theorem ofNat_and : Int64.ofNat n &&& Int64.ofNat m = Int64.ofNat (n &&& m) := by
  refine Int64.toBitVec_inj.mp (BitVec.eq_of_toNat_eq ?_)
  simp

theorem ofNat_shiftRight (hn : n < 2 ^ 63) {j : Int64} (hj : (j.toBitVec.smod 64).toNat = k) :
    Int64.ofNat n >>> j = Int64.ofNat (n / 2 ^ k) := by
  refine Int64.toInt_inj.mp ?_
  rw [Int64.toInt_ofNat_of_lt ((Nat.div_le_self _ _).trans_lt hn), ← Int64.toInt_toBitVec,
    Int64.toBitVec_shiftRight, BitVec.toInt_sshiftRight', hj, Int64.toInt_toBitVec,
    Int64.toInt_ofNat_of_lt hn, Int.shiftRight_eq_div_pow]
  norm_cast

theorem ofNat_shiftLeft {j : Int64} (hj : (j.toBitVec.smod 64).toNat = k) :
    Int64.ofNat n <<< j = Int64.ofNat (n * 2 ^ k) := by
  refine Int64.toBitVec_inj.mp (BitVec.eq_of_toNat_eq ?_)
  rw [Int64.toBitVec_shiftLeft, BitVec.shiftLeft_eq', hj]
  simp [Nat.shiftLeft_eq]

theorem ofNat_toInt32 (hn : n % 2 ^ 32 < 2 ^ 31) : (Int64.ofNat n).toInt32.toInt = (n % 2 ^ 32 : ℕ) := by
  rw [Int64.toInt_toInt32, Int64.toInt_ofNat', Int.bmod_bmod_of_dvd (by decide), Int.bmod_def]
  omega

theorem ofNat_field (hn : n < 2 ^ 63) {j : Int64} (hj : (j.toBitVec.smod 64).toNat = k) (w : ℕ) :
    ((Int64.ofNat n >>> j) &&& Int64.ofNat (2 ^ w - 1)) = Int64.ofNat (n / 2 ^ k % 2 ^ w) := by
  rw [ofNat_shiftRight hn hj, ofNat_and, Nat.and_two_pow_sub_one_eq_mod]

theorem calculateRunOffset_ofNat (hn : n < 2 ^ 63) :
    calculateRunOffset (Int64.ofNat n) = (n / 2 ^ 49 : ℕ) := by
  have hdiv : n / 2 ^ 49 < 2 ^ 14 := by omega
  rw [calculateRunOffset, ofNat_shiftRight (k := 49) hn rfl, ofNat_toInt32 (by omega),
    Nat.mod_eq_of_lt (by omega)]

theorem calculateRunPages_ofNat (hn : n < 2 ^ 63) :
    calculateRunPages (Int64.ofNat n) = (n / 2 ^ 34 % 2 ^ 15 : ℕ) := by
  have hmod : n / 2 ^ 34 % 2 ^ 15 < 2 ^ 15 := Nat.mod_lt _ (by norm_num)
  rw [calculateRunPages, show (0x7fff : Int64) = Int64.ofNat (2 ^ 15 - 1) from rfl,
    ofNat_field (k := 34) hn rfl 15, ofNat_toInt32 (by omega),
    Nat.mod_eq_of_lt (show n / 2 ^ 34 % 2 ^ 15 < 2 ^ 32 by omega)]

theorem ofNat_beq_one (hn : n < 2 ^ 63) : (Int64.ofNat n == 1) = decide (n = 1) := by
  rw [Bool.eq_iff_iff, beq_iff_eq, decide_eq_true_eq, ← Int64.toInt_inj, Int64.toInt_ofNat_of_lt hn]
  simp

theorem isUsed_ofNat (hn : n < 2 ^ 63) : isUsed (Int64.ofNat n) = decide (n / 2 ^ 33 % 2 = 1) := by
  rw [isUsed, show (1 : Int64) = Int64.ofNat (2 ^ 1 - 1) from rfl,
    ofNat_field (k := 33) hn rfl 1]
  exact ofNat_beq_one (by omega)

theorem isSubpage_ofNat (hn : n < 2 ^ 63) :
    isSubpage (Int64.ofNat n) = decide (n / 2 ^ 32 % 2 = 1) := by
  rw [isSubpage, show (1 : Int64) = Int64.ofNat (2 ^ 1 - 1) from rfl,
    ofNat_field (k := 32) hn rfl 1]
  exact ofNat_beq_one (by omega)

theorem or_bit {h b l : ℕ} (hb : b < 2) (hl : l < 2 ^ k) :
    ((h * 2 + b) * 2 ^ k + l) ||| 2 ^ k = (h * 2 + 1) * 2 ^ k + l := by
  refine Nat.eq_of_testBit_eq fun j => ?_
  rw [Nat.testBit_or, mul_comm _ (2 ^ k), mul_comm _ (2 ^ k), Nat.testBit_two_pow_mul_add _ hl,
    Nat.testBit_two_pow_mul_add _ hl, Nat.testBit_two_pow]
  by_cases hjk : j < k
  · simp [hjk, show k ≠ j by omega]
  · simp only [hjk, if_false]
    obtain rfl | hne : j = k ∨ k < j := by omega
    · simp [Nat.testBit_zero]
    · obtain ⟨i, hi⟩ : ∃ i, j - k = i + 1 := ⟨j - k - 1, by omega⟩
      simp only [hi, Nat.testBit_succ, show k ≠ j by omega, decide_false, Bool.or_false]
      congr 1
      omega

theorem and_not_bit {h b l : ℕ} (hk : k < 64) (hb : b < 2) (hl : l < 2 ^ k)
    (hlt : (h * 2 + b) * 2 ^ k + l < 2 ^ 64) :
    ((h * 2 + b) * 2 ^ k + l) &&& (2 ^ 64 - (2 ^ k + 1)) = (h * 2) * 2 ^ k + l := by
  refine Nat.eq_of_testBit_eq fun j => ?_
  by_cases hj64 : j < 64
  · rw [Nat.testBit_and, Nat.testBit_two_pow_sub_succ (Nat.pow_lt_pow_right (by norm_num) hk),
      mul_comm _ (2 ^ k), mul_comm _ (2 ^ k), Nat.testBit_two_pow_mul_add _ hl,
      Nat.testBit_two_pow_mul_add _ hl, Nat.testBit_two_pow]
    by_cases hjk : j < k
    · simp [hjk, show k ≠ j by omega, hj64]
    · simp only [hjk, if_false]
      obtain rfl | hne : j = k ∨ k < j := by omega
      · simp [Nat.testBit_zero]
      · obtain ⟨i, hi⟩ : ∃ i, j - k = i + 1 := ⟨j - k - 1, by omega⟩
        simp only [hi, Nat.testBit_succ, show k ≠ j by omega, decide_false, Bool.not_false,
          Bool.and_true, hj64, decide_true]
        congr 1
        omega
  · have hbig : ∀ x, x < 2 ^ 64 → x.testBit j = false := fun x hx =>
      Nat.testBit_lt_two_pow (hx.trans_le (Nat.pow_le_pow_right (by norm_num) (by omega)))
    have hle : (h * 2) * 2 ^ k + l ≤ (h * 2 + b) * 2 ^ k + l :=
      Nat.add_le_add_right (Nat.mul_le_mul_right _ (by omega)) _
    rw [Nat.testBit_and, hbig _ hlt, hbig _ (hle.trans_lt hlt), Bool.false_and]

end nat

/-! ### Fields -/

/-- The fields of a handle, read off a handle that is not negative. -/
structure Fields (h : Int64) (offset pages : ℕ) (used subpage : Bool) (low : ℕ) : Prop where
  nonneg : 0 ≤ h
  offset_lt : offset < 2 ^ 14
  pages_lt : pages < 2 ^ 15
  low_lt : low < 2 ^ 32
  code : h = Int64.ofNat (((offset * 2 ^ 15 + pages) * 2 + used.toNat) * 2 ^ 33 +
    (subpage.toNat * 2 ^ 32 + low))

section fields

variable {h : Int64} {o p low : ℕ} {u e : Bool}

theorem toNat_lt_two (b : Bool) : b.toNat < 2 := by cases b <;> decide

theorem Fields.mk' (ho : o < 2 ^ 14) (hp : p < 2 ^ 15) (hlow : low < 2 ^ 32)
    (hcode : h = Int64.ofNat (((o * 2 ^ 15 + p) * 2 + u.toNat) * 2 ^ 33 + (e.toNat * 2 ^ 32 + low))) :
    Fields h o p u e low := by
  have hu := toNat_lt_two u
  have he := toNat_lt_two e
  exact ⟨hcode ▸ nonneg_ofNat (by omega), ho, hp, hlow, hcode⟩

theorem exists_fields (hh : 0 ≤ h) : ∃ o p u e low, Fields h o p u e low := by
  obtain ⟨n, hn, rfl⟩ := eq_ofNat_of_nonneg hh
  have hbit : ∀ x : ℕ, (decide (x % 2 = 1)).toNat = x % 2 := fun x => by
    rcases Nat.mod_two_eq_zero_or_one x with hx | hx <;> simp [hx]
  refine ⟨n / 2 ^ 49, n / 2 ^ 34 % 2 ^ 15, decide (n / 2 ^ 33 % 2 = 1), decide (n / 2 ^ 32 % 2 = 1),
    n % 2 ^ 32, .mk' (by omega) (by omega) (by omega) ?_⟩
  rw [hbit, hbit]
  congr 1
  omega

theorem Fields.decode (f : Fields h o p u e low) :
    calculateRunOffset h = o ∧ calculateRunPages h = p ∧ isUsed h = u ∧ isSubpage h = e ∧
      (low < 2 ^ 31 → calculateBitmapIdx h = low) := by
  obtain ⟨-, ho, hp, hlow, rfl⟩ := f
  have hu := toNat_lt_two u
  have he := toNat_lt_two e
  have hdec : ∀ b : Bool, ∀ x : ℕ, x = b.toNat → decide (x = 1) = b := by
    rintro b x rfl
    cases b <;> rfl
  refine ⟨?_, ?_, ?_, ?_, fun hsmall => ?_⟩
  · rw [calculateRunOffset_ofNat (by omega)]
    congr 1
    omega
  · rw [calculateRunPages_ofNat (by omega)]
    congr 1
    omega
  · rw [isUsed_ofNat (by omega)]
    exact hdec u _ (by omega)
  · rw [isSubpage_ofNat (by omega)]
    exact hdec e _ (by omega)
  · rw [calculateBitmapIdx, ofNat_toInt32 (by omega)]
    congr 1
    omega

theorem ofInt_natCast (n : ℕ) : Int64.ofInt (n : ℤ) = Int64.ofNat n := rfl

theorem toRunHandle_fields (ho : o < 2 ^ 14) (hp : p < 2 ^ 15) (u : Bool) :
    Fields (toRunHandle o p (u.toNat : ℕ)) o p u false 0 := by
  have hu := toNat_lt_two u
  refine .mk' ho hp (by norm_num) ?_
  rw [toRunHandle, ofInt_natCast, ofInt_natCast, ofInt_natCast, ofNat_shiftLeft (k := 49) rfl,
    ofNat_shiftLeft (k := 34) rfl, ofNat_shiftLeft (k := 33) rfl, ofNat_or, ofNat_or]
  congr 1
  have h1 := Nat.two_pow_add_eq_or_of_lt (i := 49) (b := p * 2 ^ 34) (by omega) o
  have h2 := Nat.two_pow_add_eq_or_of_lt (i := 34) (b := u.toNat * 2 ^ 33) (by omega)
    (o * 2 ^ 15 + p)
  rw [mul_comm o, ← h1, show 2 ^ 49 * o + p * 2 ^ 34 = 2 ^ 34 * (o * 2 ^ 15 + p) by ring, ← h2]
  simp only [Bool.toNat_false]
  ring

theorem toHandle_fields (ho : o < 2 ^ 14) (hp : p < 2 ^ 15) (hlow : low < 2 ^ 32) :
    Fields (toHandle o p low) o p true true low := by
  refine .mk' ho hp hlow ?_
  rw [toHandle, ofInt_natCast, ofInt_natCast, ofInt_natCast,
    show (1 : Int64) = Int64.ofNat 1 from rfl, ofNat_shiftLeft (k := 49) rfl,
    ofNat_shiftLeft (k := 34) rfl, ofNat_shiftLeft (k := 33) rfl, ofNat_shiftLeft (k := 32) rfl,
    ofNat_or, ofNat_or, ofNat_or, ofNat_or]
  congr 1
  have h1 := Nat.two_pow_add_eq_or_of_lt (i := 49) (b := p * 2 ^ 34) (by omega) o
  have h2 := Nat.two_pow_add_eq_or_of_lt (i := 34) (b := 1 * 2 ^ 33) (by omega) (o * 2 ^ 15 + p)
  have h3 := Nat.two_pow_add_eq_or_of_lt (i := 33) (b := 1 * 2 ^ 32) (by omega)
    ((o * 2 ^ 15 + p) * 2 + 1)
  have h4 := Nat.two_pow_add_eq_or_of_lt (i := 32) (b := low) (by omega)
    (((o * 2 ^ 15 + p) * 2 + 1) * 2 + 1)
  rw [mul_comm o, ← h1, show 2 ^ 49 * o + p * 2 ^ 34 = 2 ^ 34 * (o * 2 ^ 15 + p) by ring, ← h2,
    show 2 ^ 34 * (o * 2 ^ 15 + p) + 1 * 2 ^ 33 = 2 ^ 33 * ((o * 2 ^ 15 + p) * 2 + 1) by ring, ← h3,
    show 2 ^ 33 * ((o * 2 ^ 15 + p) * 2 + 1) + 1 * 2 ^ 32 =
      2 ^ 32 * (((o * 2 ^ 15 + p) * 2 + 1) * 2 + 1) by ring, ← h4]
  simp only [Bool.toNat_true]
  ring

theorem shiftLeft_toInt32 (x : Int64) {j : Int64} {k : ℕ} (hj : (j.toBitVec.smod 64).toNat = k)
    (hk : 32 ≤ k) : (x <<< j).toInt32 = 0 := by
  rw [← Int32.toBitVec_inj]
  refine BitVec.eq_of_getLsbD_eq fun i hi => ?_
  rw [Int64.toBitVec_toInt32, Int64.toBitVec_shiftLeft, BitVec.shiftLeft_eq', hj,
    BitVec.getLsbD_signExtend]
  simp [show i < k by omega, hi]
  omega

/-- The index can be read back whatever the offset and the page count are. -/
theorem calculateBitmapIdx_toHandle (o p : ℤ) {i : ℕ} (hi : i < 2 ^ 31) :
    calculateBitmapIdx (toHandle o p i) = i := by
  rw [calculateBitmapIdx, toHandle, Int64.toInt32_or, Int64.toInt32_or, Int64.toInt32_or,
    Int64.toInt32_or, shiftLeft_toInt32 _ (k := 49) rfl (by decide),
    shiftLeft_toInt32 _ (k := 34) rfl (by decide), shiftLeft_toInt32 _ (k := 33) rfl (by decide),
    shiftLeft_toInt32 _ (k := 32) rfl (by decide)]
  simp only [Int32.zero_or]
  refine (ofNat_toInt32 (by omega)).trans ?_
  rw [Nat.mod_eq_of_lt (by omega)]

theorem Fields.markUsed (f : Fields h o p u e low) : Fields (markUsed h) o p true e low := by
  obtain ⟨-, ho, hp, hlow, rfl⟩ := f
  have he := toNat_lt_two e
  refine .mk' ho hp hlow ?_
  rw [Buffer.markUsed, show (1 : Int64) = Int64.ofNat 1 from rfl, ofNat_shiftLeft (k := 33) rfl,
    ofNat_or, one_mul, or_bit (toNat_lt_two u) (by omega)]
  rfl

theorem Fields.markSubpage (f : Fields h o p u e low) : Fields (markSubpage h) o p u true low := by
  obtain ⟨-, ho, hp, hlow, rfl⟩ := f
  have hu := toNat_lt_two u
  refine .mk' ho hp hlow ?_
  rw [Buffer.markSubpage, show (1 : Int64) = Int64.ofNat 1 from rfl, ofNat_shiftLeft (k := 32) rfl,
    ofNat_or, one_mul, show ((o * 2 ^ 15 + p) * 2 + u.toNat) * 2 ^ 33 + (e.toNat * 2 ^ 32 + low) =
      (((o * 2 ^ 15 + p) * 2 + u.toNat) * 2 + e.toNat) * 2 ^ 32 + low by ring,
    or_bit (toNat_lt_two e) hlow]
  refine congrArg Int64.ofNat ?_
  simp only [Bool.toNat_true]
  ring

theorem Fields.clearUsed (f : Fields h o p u e low) : Fields (clearUsed h) o p false e low := by
  obtain ⟨-, ho, hp, hlow, rfl⟩ := f
  have hu := toNat_lt_two u
  have he := toNat_lt_two e
  refine .mk' ho hp hlow ?_
  have h33 : ~~~((1 : Int64) <<< 33) = Int64.ofNat (2 ^ 64 - (2 ^ 33 + 1)) := by decide
  rw [Buffer.clearUsed, h33, ofNat_and, and_not_bit (by norm_num) hu (by omega) (by omega),
    Bool.toNat_false, add_zero]

theorem Fields.clearSubpage (f : Fields h o p u e low) : Fields (clearSubpage h) o p u false low := by
  obtain ⟨-, ho, hp, hlow, rfl⟩ := f
  have hu := toNat_lt_two u
  have he := toNat_lt_two e
  refine .mk' ho hp hlow ?_
  have h32 : ~~~((1 : Int64) <<< 32) = Int64.ofNat (2 ^ 64 - (2 ^ 32 + 1)) := by decide
  rw [Buffer.clearSubpage, h32, ofNat_and,
    show ((o * 2 ^ 15 + p) * 2 + u.toNat) * 2 ^ 33 + (e.toNat * 2 ^ 32 + low) =
      (((o * 2 ^ 15 + p) * 2 + u.toNat) * 2 + e.toNat) * 2 ^ 32 + low by ring,
    and_not_bit (by norm_num) he hlow (by omega)]
  refine congrArg Int64.ofNat ?_
  simp only [Bool.toNat_false]
  ring

theorem Fields.clearFlags (f : Fields h o p u e low) : Fields (clearFlags h) o p false false low :=
  f.clearUsed.clearSubpage

/-- The offset is at the top of the word, so it decides the order of two handles. -/
theorem Fields.lt_of_offset_lt {h' : Int64} {o' p' low' : ℕ} {u' e' : Bool}
    (f : Fields h o p u e low) (f' : Fields h' o' p' u' e' low') (ho : o < o') : h < h' := by
  have hu := toNat_lt_two u
  have he := toNat_lt_two e
  have hu' := toNat_lt_two u'
  have he' := toNat_lt_two e'
  obtain ⟨-, -, hp, hlow, rfl⟩ := f
  obtain ⟨-, ho', hp', hlow', rfl⟩ := f'
  exact (ofNat_lt_ofNat (by omega) (by omega)).mpr (by omega)

end fields

end Mutty.Buffer
