import Mathlib.Tactic.Ring
import Mathlib.Tactic.Linarith
import Mathlib.Tactic.IntervalCases
import Mathlib.Algebra.Order.Ring.Nat
import Mathlib.Data.List.Sort
import Mathlib.Data.Nat.Log
import Mathlib.Order.Monotone.Basic
import Mutty.Buffer.SizeClasses

/-!
# Closed forms of the size-class tables

For an accepted geometry the constructor enters row `rowAt ps i` at index `i`, with size
`sizeAt i`. The multiples of the page size among them are the sizes of `pageAt k` pages, for
`k < pageClasses d`. `pages2pageIdx` and `pages2pageIdxFloor` are the ceiling and the floor into
the page sizes.
-/

namespace Mutty.Buffer

open Mutty.Lib

/-! ### Logarithms -/

section log2

variable {n v val k : ℕ}

/-- `val` is the argument shifted left by `n - 1` places, and its top bit is among the first `w`. -/
structure Skipped (v w : ℕ) (r : ℕ × ℕ) : Prop where
  pos : 1 ≤ r.1
  shifted : r.2 = v * 2 ^ (r.1 - 1)
  lt : r.2 < 2 ^ 32
  high : 2 ^ (32 - w) ≤ r.2

theorem Skipped.skipZeros {r : ℕ × ℕ} (h : Skipped v (2 * k) r) (hk : 2 * k ≤ 32) :
    Skipped v k (skipZeros k r) := by
  obtain ⟨n, val⟩ := r
  obtain ⟨hpos, hshift, hlt, hhigh⟩ := h
  simp only at hpos hshift hlt hhigh
  simp only [Buffer.skipZeros, Nat.shiftRight_eq_div_pow, Nat.shiftLeft_eq]
  have hsplit : 2 ^ 32 = 2 ^ (32 - k) * 2 ^ k := by rw [← pow_add]; congr 1; omega
  split_ifs with hz
  · have hsmall : val < 2 ^ (32 - k) := (Nat.div_eq_zero_iff_lt (by positivity)).mp hz
    have hmul : val * 2 ^ k < 2 ^ 32 := by
      rw [hsplit]
      exact Nat.mul_lt_mul_of_pos_right hsmall (by positivity)
    rw [Nat.mod_eq_of_lt hmul]
    refine ⟨by simp only; omega, ?_, hmul, ?_⟩
    · simp only
      rw [hshift, mul_assoc, ← pow_add]
      congr 2
      omega
    · simp only
      calc 2 ^ (32 - k) = 2 ^ (32 - 2 * k) * 2 ^ k := by rw [← pow_add]; congr 1; omega
        _ ≤ val * 2 ^ k := Nat.mul_le_mul_right _ hhigh
  · refine ⟨hpos, hshift, hlt, ?_⟩
    have hge : 1 * 2 ^ (32 - k) ≤ val :=
      (Nat.le_div_iff_mul_le (by positivity)).mp (Nat.one_le_iff_ne_zero.mpr hz)
    rwa [one_mul] at hge

theorem numberOfLeadingZeros_eq (hk : k < 32) (h : 2 ^ k ≤ v) (h' : v < 2 ^ (k + 1)) :
    numberOfLeadingZeros v = 31 - k := by
  have hv : v < 2 ^ 32 := h'.trans_le (Nat.pow_le_pow_right (by norm_num) hk)
  have hpos : 0 < v := lt_of_lt_of_le (by positivity) h
  have hcast : ((v : ℤ) % 2 ^ 32).toNat = v := by omega
  have h0 : Skipped v 32 (1, v) := ⟨le_rfl, by simp, hv, hpos⟩
  have h4 := (((h0.skipZeros (k := 16) (by omega)).skipZeros (k := 8) (by omega)).skipZeros
    (k := 4) (by omega)).skipZeros (k := 2) (by omega)
  unfold numberOfLeadingZeros
  simp only [hcast, if_neg hpos.ne']
  generalize skipZeros 2 (skipZeros 4 (skipZeros 8 (skipZeros 16 (1, v)))) = r at h4
  obtain ⟨n, w⟩ := r
  obtain ⟨hn, hw, hlt, hhigh⟩ := h4
  simp only at hn hw hlt hhigh ⊢
  -- `v * 2 ^ (n - 1)` is at least `2 ^ 30`: the shift is one short of `31 - k`, or exact.
  have hlow : 2 ^ (k + (n - 1)) ≤ w := by
    rw [hw, pow_add]
    exact Nat.mul_le_mul_right _ h
  have hup : w < 2 ^ (k + 1 + (n - 1)) := by
    rw [hw, pow_add]
    exact Nat.mul_lt_mul_of_pos_right h' (by positivity)
  have h1 : k + (n - 1) < 32 := (Nat.pow_lt_pow_iff_right (by norm_num)).mp (hlow.trans_lt hlt)
  have h2 : 30 < k + 1 + (n - 1) := (Nat.pow_lt_pow_iff_right (by norm_num)).mp (hhigh.trans_lt hup)
  rw [Nat.shiftRight_eq_div_pow]
  obtain hc | hc : k + (n - 1) = 31 ∨ k + (n - 1) = 30 := by omega
  · rw [hc] at hlow
    have : w / 2 ^ 31 = 1 := by omega
    omega
  · have hup' : w < 2 ^ 31 := by
      have : k + 1 + (n - 1) = 31 := by omega
      rwa [this] at hup
    have : w / 2 ^ 31 = 0 := by omega
    omega

theorem log2_eq (hk : k < 32) (h : 2 ^ k ≤ v) (h' : v < 2 ^ (k + 1)) : log2 v = k := by
  unfold log2
  rw [numberOfLeadingZeros_eq hk h h']
  omega

theorem log2_double_sub_one (hk : k < 31) (h : 2 ^ k < 2 * v) (h' : v ≤ 2 ^ k) :
    log2 ((v : ℤ) * 2 - 1) = k := by
  have hpos : 1 ≤ 2 ^ k := Nat.one_le_two_pow
  have hcast : ((v : ℤ) * 2 - 1) = ((2 * v - 1 : ℕ) : ℤ) := by omega
  rw [hcast]
  exact log2_eq (by omega) (by omega) (by rw [pow_succ]; omega)

end log2

/-! ### Geometry -/

/-- The page and chunk sizes that pass the allocator's validation: `2 ^ pageShifts` bytes a page
and `2 ^ order` pages a chunk. -/
structure Geometry where
  pageShifts : ℕ
  order : ℕ
  pageShifts_ge : 12 ≤ pageShifts
  order_lt : order < 14
  chunk_le : pageShifts + order ≤ 30

namespace Geometry

variable (g : Geometry)

def pages : ℕ := 2 ^ g.order

def chunkSize : ℕ := 2 ^ (g.pageShifts + g.order)

theorem chunkSize_eq : g.chunkSize = g.pages * 2 ^ g.pageShifts := by
  rw [chunkSize, pages, pow_add, mul_comm]

theorem pages_pos : 0 < g.pages := Nat.two_pow_pos _

theorem pages_le : g.pages ≤ 2 ^ 13 :=
  Nat.pow_le_pow_right (by norm_num) (by have := g.order_lt; omega)

theorem le_chunkSize : 4096 ≤ g.chunkSize :=
  Nat.pow_le_pow_right (n := 2) (by norm_num) (g.pageShifts_ge.trans (Nat.le_add_right _ _))

theorem chunkSize_le : g.chunkSize ≤ 2 ^ 30 := Nat.pow_le_pow_right (by norm_num) g.chunk_le

/-- Pages of 8192 bytes, 2048 a chunk: what an allocator without arguments has. -/
def ofDefaults : Geometry := ⟨13, 11, by norm_num, by norm_num, by norm_num⟩

end Geometry

theorem doubleChunkSize_eq_ok {i : ℕ} {chunkSize r : ℤ} (h : doubleChunkSize i chunkSize = .ok r) :
    r = chunkSize * 2 ^ i ∧ (0 < i → r ≤ 2 ^ 30) := by
  induction i generalizing chunkSize with
  | zero => simpa [doubleChunkSize] using h.symm
  | succ i ih =>
    simp only [doubleChunkSize] at h
    split_ifs at h with hc
    obtain ⟨hr, hle⟩ := ih h
    have hc' : ¬ chunkSize > 2 ^ 30 / 2 := hc
    refine ⟨by rw [hr, pow_succ]; ring, fun _ => ?_⟩
    by_cases hi : 0 < i
    · exact hle hi
    · obtain rfl : i = 0 := by omega
      simp only [pow_zero, mul_one] at hr
      omega

theorem exists_geometry {pageSize maxOrder chunkSize pageShifts : ℤ} (hint : pageSize < 2 ^ 31)
    (hc : validateAndCalculateChunkSize pageSize maxOrder = .ok chunkSize)
    (hp : validateAndCalculatePageShifts pageSize = .ok pageShifts) :
    ∃ g : Geometry, pageShifts = g.pageShifts ∧ chunkSize = g.chunkSize := by
  unfold validateAndCalculatePageShifts at hp
  split_ifs at hp with hmin hand
  have hmin' : ¬ pageSize < 4096 := hmin
  obtain ⟨_, ho, hd⟩ := bind_eq_ok.mp hc
  have ho' := require_eq_ok.mp ho
  obtain ⟨hchunk, hle⟩ := doubleChunkSize_eq_ok hd
  obtain ⟨k, hk⟩ := (Nat.and_sub_one_eq_zero_iff_isPowerOfTwo (n := pageSize.toNat) (by omega)).mp
    (not_not.mp hand)
  have hps : pageSize = ((2 ^ k : ℕ) : ℤ) := by omega
  have hk31 : k < 31 := by
    refine (Nat.pow_lt_pow_iff_right (a := 2) (by norm_num)).mp ?_
    rw [← hk]
    omega
  have hk12 : 12 ≤ k := by
    by_contra hlt
    have : 2 ^ k ≤ 2 ^ 11 := Nat.pow_le_pow_right (by norm_num) (by omega)
    omega
  have hshift : pageShifts = k := by
    rw [← Except.ok.inj hp, hps]
    exact log2_eq (by omega) le_rfl (by rw [pow_succ]; have := Nat.two_pow_pos k; omega)
  have hchunk' : chunkSize = ((2 ^ (k + maxOrder.toNat) : ℕ) : ℤ) := by
    rw [hchunk, hps, pow_add]
    push_cast
    rfl
  have hsum : k + maxOrder.toNat ≤ 30 := by
    by_cases hpos : 0 < maxOrder.toNat
    · have hle' := hle hpos
      rw [hchunk'] at hle'
      exact (Nat.pow_le_pow_iff_right (a := 2) (by norm_num)).mp (by exact_mod_cast hle')
    · omega
  exact ⟨⟨k, maxOrder.toNat, hk12, by omega, hsum⟩, hshift, hchunk'⟩

/-! ### The rows -/

def sizeAt (i : ℕ) : ℕ := if i < 4 then (i + 1) * 16 else (5 + i % 4) * 2 ^ (i / 4 + 3)

theorem sizeAt_group (g m : ℕ) (hg : 1 ≤ g) (hm : m < 4) :
    sizeAt (4 * g + m) = (5 + m) * 2 ^ (g + 3) := by
  have hdiv : (4 * g + m) / 4 = g := by omega
  have hmod : (4 * g + m) % 4 = m := by omega
  rw [sizeAt, if_neg (by omega), hdiv, hmod]

theorem sizeAt_lt_succ (i : ℕ) : sizeAt i < sizeAt (i + 1) := by
  by_cases h3 : i < 4
  · interval_cases i <;> decide
  · obtain ⟨g, m, hm, hg, rfl⟩ : ∃ g m, m < 4 ∧ 1 ≤ g ∧ i = 4 * g + m :=
      ⟨i / 4, i % 4, by omega, by omega, by omega⟩
    have hpos := Nat.two_pow_pos (g + 3)
    rw [sizeAt_group g m hg hm]
    by_cases hm3 : m = 3
    · subst hm3
      have hdouble : 2 ^ (g + 1 + 3) = 2 * 2 ^ (g + 3) := by ring
      rw [show 4 * g + 3 + 1 = 4 * (g + 1) + 0 by ring, sizeAt_group (g + 1) 0 (by omega) (by omega),
        hdouble]
      linarith
    · rw [add_assoc, sizeAt_group g (m + 1) hg (by omega)]
      exact Nat.mul_lt_mul_of_pos_right (by omega) hpos

theorem sizeAt_strictMono : StrictMono sizeAt := strictMono_nat_of_lt_succ sizeAt_lt_succ

theorem sizeAt_pos (i : ℕ) : 0 < sizeAt i := by
  have := sizeAt_strictMono.monotone (Nat.zero_le i)
  exact lt_of_lt_of_le (by decide) this

/-- The last class of a group is a power of two. -/
theorem sizeAt_last (g : ℕ) : sizeAt (4 * g + 3) = 2 ^ (g + 6) := by
  by_cases hg : 1 ≤ g
  · rw [sizeAt_group g 3 hg (by omega), show g + 6 = g + 3 + 3 by ring, pow_add _ (g + 3) 3]
    ring
  · obtain rfl : g = 0 := by omega
    decide

namespace SizeClasses

def rowArgs (i : ℕ) : ℕ × ℕ × ℕ := if i < 4 then (4, 4, i) else (i / 4 + 5, i / 4 + 3, i % 4 + 1)

def rowAt (ps i : ℕ) : SizeClass :=
  newRow { pageShifts := ps, chunkSize := 0 } i (rowArgs i).1 (rowArgs i).2.1 (rowArgs i).2.2

theorem newRow_congr {s t : SizeClasses} (h : s.pageShifts = t.pageShifts) (i a b c : ℕ) :
    s.newRow i a b c = t.newRow i a b c := by
  simp only [newRow, h]

@[simp] theorem rowAt_index (ps i : ℕ) : (rowAt ps i).index = i := rfl

@[simp] theorem rowAt_size (ps i : ℕ) : (rowAt ps i).size = sizeAt i := by
  simp only [SizeClass.size, rowAt, newRow, rowArgs, sizeAt, Nat.shiftLeft_eq, one_mul]
  split_ifs
  · ring
  · simp only
    rw [show i / 4 + 5 = i / 4 + 3 + 2 by ring, pow_add _ (i / 4 + 3) 2]
    ring

theorem rowAt_isMultiPageSize (ps i : ℕ) :
    (rowAt ps i).isMultiPageSize = true ↔ 2 ^ ps ∣ sizeAt i := by
  have hsize := rowAt_size ps i
  simp only [SizeClass.size] at hsize
  have hrow : (rowAt ps i).isMultiPageSize = true ↔
      ps ≤ (rowAt ps i).log2Delta ∨ sizeAt i = sizeAt i / 2 ^ ps * 2 ^ ps := by
    rw [← hsize]
    simp [rowAt, newRow, Nat.shiftLeft_eq]
  have hdvd : sizeAt i = sizeAt i / 2 ^ ps * 2 ^ ps ↔ 2 ^ ps ∣ sizeAt i :=
    ⟨fun h => Dvd.intro_left _ h.symm, fun h => (Nat.div_mul_cancel h).symm⟩
  rw [hrow, hdvd]
  refine ⟨fun h => h.elim (fun hle => ?_) id, .inr⟩
  have hdelta : 2 ^ (rowAt ps i).log2Delta ∣ sizeAt i := by
    simp only [rowAt, newRow, rowArgs, sizeAt]
    split_ifs
    · exact Dvd.intro_left _ rfl
    · exact Dvd.intro_left _ rfl
  exact (pow_dvd_pow 2 hle).trans hdelta

theorem log2_small : log2 1 = 0 ∧ log2 2 = 1 ∧ log2 3 = 1 ∧ log2 4 = 2 := by
  decide

/-- `log2Size` of row `i`, as `sizeClass` computes it. -/
theorem rowAt_flags (ps i : ℕ) (hps : 12 ≤ ps) :
    ((rowAt ps i).isSubpage = true ↔ i < 4 * ps - 13) ∧
      ((rowAt ps i).log2DeltaLookup ≠ 0 ↔ i < 28) := by
  obtain ⟨l1, l2, l3, l4⟩ := log2_small
  by_cases h4 : i < 4
  · have hi : i = 0 ∨ i = 1 ∨ i = 2 ∨ i = 3 := by omega
    rcases hi with rfl | rfl | rfl | rfl <;>
      simp [rowAt, newRow, rowArgs, l1, l2, l3] <;> omega
  · obtain ⟨g, m, hm, hg, rfl⟩ : ∃ g m, m < 4 ∧ 1 ≤ g ∧ i = 4 * g + m :=
      ⟨i / 4, i % 4, by omega, by omega, by omega⟩
    have hdiv : (4 * g + m) / 4 = g := by omega
    have hmod : (4 * g + m) % 4 = m := by omega
    have hm' : m = 0 ∨ m = 1 ∨ m = 2 ∨ m = 3 := by omega
    simp only [rowAt, newRow, rowArgs, if_neg h4, hdiv, hmod]
    rcases hm' with rfl | rfl | rfl | rfl <;> norm_num [l1, l2, l3, l4, show Int.toNat 2 = 2 from rfl] <;> omega

/-! ### The constructor -/

structure Tabled (s : SizeClasses) (ps n : ℕ) : Prop where
  pageShifts : s.pageShifts = ps
  rows : s.sizeClasses = (List.range n).map (rowAt ps)
  nPSizes : s.nPSizes = s.sizeClasses.countP (·.isMultiPageSize)
  nSubpages : s.nSubpages = min n (4 * ps - 13)
  smallMaxSizeIdx : s.smallMaxSizeIdx = min n (4 * ps - 13) - 1
  lookupMaxSize : 0 < n → s.lookupMaxSize = sizeAt (min n 28 - 1)

theorem Tabled.nSizes {s : SizeClasses} {ps n : ℕ} (h : Tabled s ps n) : s.nSizes = n := by
  simp [SizeClasses.nSizes, h.rows]

theorem Tabled.lastSize {s : SizeClasses} {ps n : ℕ} (h : Tabled s ps (n + 1)) :
    s.lastSize = sizeAt n := by
  simp [SizeClasses.lastSize, h.rows, List.range_succ]

theorem Tabled.sizeClass {s : SizeClasses} {ps n : ℕ} (hps : 12 ≤ ps) (h : Tabled s ps n)
    {a b c : ℕ} (harg : rowArgs n = (a, b, c)) :
    Tabled (s.sizeClass a b c) ps (n + 1) ∧ (s.sizeClass a b c).chunkSize = s.chunkSize := by
  have hrow : s.newRow s.nSizes a b c = rowAt ps n := by
    rw [rowAt, harg, h.nSizes]
    exact newRow_congr (by simpa using h.pageShifts) _ _ _ _
  obtain ⟨hsub, hlook⟩ := rowAt_flags ps n hps
  refine ⟨⟨h.pageShifts, ?_, ?_, ?_, ?_, fun _ => ?_⟩, rfl⟩
  · simp only [SizeClasses.sizeClass, hrow, h.rows, List.range_succ, List.map_append, List.map_cons,
      List.map_nil]
  · simp only [SizeClasses.sizeClass, hrow, h.nPSizes, List.countP_append, List.countP_singleton]
    split_ifs <;> rfl
  · simp only [SizeClasses.sizeClass, hrow, hsub, h.nSubpages]
    split_ifs <;> omega
  · simp only [SizeClasses.sizeClass, hrow, hsub, h.smallMaxSizeIdx, rowAt_index]
    split_ifs <;> omega
  · simp only [SizeClasses.sizeClass, hrow, hlook, rowAt_size]
    split_ifs with hn
    · congr 1
      omega
    · rw [h.lookupMaxSize (by omega)]
      congr 1
      omega

theorem Tabled.fillGroup {s : SizeClasses} {ps g : ℕ} (hps : 12 ≤ ps) (hg : 1 ≤ g)
    (ns : List ℕ) (m : ℕ) (hns : ns = List.range' (m + 1) (4 - m)) (hm : m ≤ 4)
    (h : Tabled s ps (4 * g + m)) (hlt : 2 ^ (g + 5) < s.chunkSize)
    (hcs : 2 ^ (g + 6) ≤ s.chunkSize) :
    Tabled (fillGroup (g + 5) (g + 3) ns s) ps (4 * g + 4) ∧
      (fillGroup (g + 5) (g + 3) ns s).chunkSize = s.chunkSize := by
  induction ns generalizing s m with
  | nil =>
    have h0 := congrArg List.length hns
    simp only [List.length_nil, List.length_range'] at h0
    obtain rfl : m = 4 := by omega
    exact ⟨h, rfl⟩
  | cons n rest ih =>
    have hm4 : m < 4 := by
      by_contra hge
      simp [show 4 - m = 0 by omega] at hns
    rw [show 4 - m = 4 - (m + 1) + 1 by omega, List.range'_succ] at hns
    obtain ⟨rfl, hrest⟩ := List.cons.inj hns
    have hsmall : s.lastSize < s.chunkSize := by
      obtain ⟨k, hk⟩ : ∃ k, 4 * g + m = k + 1 := ⟨4 * g + m - 1, by omega⟩
      rw [hk] at h
      rw [h.lastSize]
      refine lt_of_lt_of_le ?_ hcs
      rw [← sizeAt_last]
      exact sizeAt_strictMono (by omega)
    have harg : rowArgs (4 * g + m) = (g + 5, g + 3, m + 1) := by
      rw [rowArgs, if_neg (by omega), show (4 * g + m) / 4 = g by omega,
        show (4 * g + m) % 4 = m by omega]
    obtain ⟨hnext, hc⟩ := h.sizeClass hps harg
    rw [SizeClasses.fillGroup, if_pos hsmall]
    have := ih (m + 1) hrest (by omega) hnext (by rwa [hc]) (by rwa [hc])
    rwa [hc] at this

theorem Tabled.firstGroup {s : SizeClasses} {ps : ℕ} (hps : 12 ≤ ps) (h : Tabled s ps 0) :
    Tabled ([0, 1, 2, 3].foldl (fun s nDelta => s.sizeClass 4 4 nDelta) s) ps 4 ∧
      ([0, 1, 2, 3].foldl (fun s nDelta => s.sizeClass 4 4 nDelta) s).chunkSize = s.chunkSize := by
  obtain ⟨h1, c1⟩ := h.sizeClass hps (show rowArgs 0 = (4, 4, 0) from rfl)
  obtain ⟨h2, c2⟩ := h1.sizeClass hps (show rowArgs 1 = (4, 4, 1) from rfl)
  obtain ⟨h3, c3⟩ := h2.sizeClass hps (show rowArgs 2 = (4, 4, 2) from rfl)
  obtain ⟨h4, c4⟩ := h3.sizeClass hps (show rowArgs 3 = (4, 4, 3) from rfl)
  exact ⟨h4, c4.trans (c3.trans (c2.trans c1))⟩

/-- The round for group `g` finds the last size at `2 ^ (g + 5)`. -/
theorem Tabled.groupBody {s : SizeClasses} {ps g K : ℕ} (hps : 12 ≤ ps) (h : Tabled s ps (4 * g))
    (hg : 1 ≤ g) (hcs : s.chunkSize = 2 ^ K) :
    if g + 5 < K then
      ∃ s', groupBody (s, g) = .ok (.inl (s', g + 1)) ∧ Tabled s' ps (4 * (g + 1)) ∧
        s'.chunkSize = 2 ^ K
    else groupBody (s, g) = .ok (.inr s) := by
  have hlast : s.lastSize = 2 ^ (g + 5) := by
    obtain ⟨k, rfl⟩ : ∃ k, g = k + 1 := ⟨g - 1, by omega⟩
    rw [show 4 * (k + 1) = 4 * k + 3 + 1 by ring] at h
    rw [h.lastSize, sizeAt_last]
  have hiff : s.lastSize < s.chunkSize ↔ g + 5 < K := by
    rw [hlast, hcs]
    exact Nat.pow_lt_pow_iff_right (by norm_num)
  split_ifs with hgo
  · have hle : 2 ^ (g + 6) ≤ s.chunkSize := by
      rw [hcs]
      exact Nat.pow_le_pow_right (by norm_num) (by omega)
    obtain ⟨hnext, hc⟩ := Tabled.fillGroup hps hg [1, 2, 3, 4] 0 rfl (by omega) h
      (by rw [← hlast]; exact hiff.mpr hgo) hle
    exact ⟨_, if_pos (hiff.mpr hgo), hnext, hc.trans hcs⟩
  · exact if_neg fun hlt => hgo (hiff.mp hlt)

theorem sizeClassesLoop_spec {ps K : ℕ} (hps : 12 ≤ ps) (hK : ps ≤ K) (hK' : K ≤ 30) :
    ∃ s, sizeClassesLoop { pageShifts := ps, chunkSize := 2 ^ K } = .ok s ∧
      Tabled s ps (4 * (K - 5)) ∧ s.chunkSize = 2 ^ K := by
  have h0 : Tabled { pageShifts := ps, chunkSize := 2 ^ K } ps 0 :=
    ⟨rfl, rfl, rfl, by simp, by simp, fun h => absurd h (by omega)⟩
  obtain ⟨h4, hc4⟩ := h0.firstGroup hps
  unfold sizeClassesLoop
  generalize [0, 1, 2, 3].foldl (fun (s : SizeClasses) nDelta => s.sizeClass 4 4 nDelta)
    (SizeClasses.mk ps (2 ^ K) [] 0 0 0 0 [] [] []) = first at h4 hc4 ⊢
  obtain ⟨s, hs, htab, hcs⟩ := Loop.run_ok groupBody
    (μ := fun p : SizeClasses × ℕ => K - 5 - p.2)
    (I := fun p => Tabled p.1 ps (4 * p.2) ∧ 1 ≤ p.2 ∧ p.2 ≤ K - 5 ∧ p.1.chunkSize = 2 ^ K)
    (Q := fun s => Tabled s ps (4 * (K - 5)) ∧ s.chunkSize = 2 ^ K)
    (fun ⟨s, g⟩ ⟨htab, hg1, hgK, hcs⟩ => by
      simp only at htab hg1 hgK hcs
      have hbody := htab.groupBody hps hg1 hcs
      split_ifs at hbody with hgo
      · obtain ⟨s', hs', htab', hcs'⟩ := hbody
        exact .inl ⟨_, hs', ⟨htab', Nat.le_add_left _ _, by simp only; omega, hcs'⟩,
          by simp only; omega⟩
      · obtain rfl : g = K - 5 := by omega
        exact .inr ⟨s, hbody, htab, hcs⟩)
    32 (first, 1) ⟨h4, le_rfl, by simp only; omega, hc4⟩ (by simp only; omega)
  refine ⟨s, ?_, htab, hcs⟩
  have hreq : s.lastSize = s.chunkSize := by
    rw [show 4 * (K - 5) = 4 * (K - 6) + 3 + 1 by omega] at htab
    rw [htab.lastSize, sizeAt_last, hcs]
    congr 1
    omega
  simp only [hs, bind, Except.bind, require, if_pos hreq]
  rfl

end SizeClasses

/-! ### Page sizes -/

/-- Pages of page class `k`. -/
def pageAt (k : ℕ) : ℕ := if k < 4 then k + 1 else (5 + k % 4) * 2 ^ (k / 4 - 1)

/-- Number of page classes of a chunk of `2 ^ d` pages. -/
def pageClasses (d : ℕ) : ℕ := if d < 2 then d + 1 else 4 * (d - 1)

/-- Index in the size classes of page class `k`. -/
def pageRow (ps k : ℕ) : ℕ :=
  if k = 0 then 4 * ps - 21 else if k = 1 then 4 * ps - 17 else if k = 2 then 4 * ps - 15
  else 4 * ps - 16 + k

theorem pageAt_group (g m : ℕ) (hm : m < 4) : pageAt (4 * (g + 1) + m) = (5 + m) * 2 ^ g := by
  have hdiv : (4 * (g + 1) + m) / 4 = g + 1 := by omega
  have hmod : (4 * (g + 1) + m) % 4 = m := by omega
  rw [pageAt, if_neg (by omega), hdiv, hmod, Nat.add_sub_cancel]

theorem pageAt_lt_succ (k : ℕ) : pageAt k < pageAt (k + 1) := by
  by_cases h3 : k < 4
  · interval_cases k <;> decide
  · obtain ⟨g, m, hm, rfl⟩ : ∃ g m, m < 4 ∧ k = 4 * (g + 1) + m :=
      ⟨k / 4 - 1, k % 4, by omega, by omega⟩
    have hpos := Nat.two_pow_pos g
    rw [pageAt_group g m hm]
    by_cases hm3 : m = 3
    · subst hm3
      have hdouble : 2 ^ (g + 1) = 2 * 2 ^ g := by ring
      rw [show 4 * (g + 1) + 3 + 1 = 4 * (g + 1 + 1) + 0 by ring, pageAt_group (g + 1) 0 (by omega),
        hdouble]
      linarith
    · rw [add_assoc, pageAt_group g (m + 1) (by omega)]
      exact Nat.mul_lt_mul_of_pos_right (by omega) hpos

theorem pageAt_strictMono : StrictMono pageAt := strictMono_nat_of_lt_succ pageAt_lt_succ

theorem pageAt_last (d : ℕ) : pageAt (pageClasses d - 1) = 2 ^ d := by
  by_cases h3 : d < 3
  · interval_cases d <;> decide
  · obtain ⟨e, rfl⟩ : ∃ e, d = e + 3 := ⟨d - 3, by omega⟩
    rw [pageClasses, if_neg (by omega), show 4 * (e + 3 - 1) - 1 = 4 * (e + 1) + 3 by omega,
      pageAt_group e 3 (by omega), pow_add]
    ring

theorem pageClasses_pos (d : ℕ) : 0 < pageClasses d := by
  unfold pageClasses
  split_ifs <;> omega

theorem sizeAt_pageRow {ps : ℕ} (hps : 12 ≤ ps) (k : ℕ) :
    sizeAt (pageRow ps k) = pageAt k * 2 ^ ps := by
  have hrow : ∀ g m e, g + 3 + e = ps → 1 ≤ g → m < 4 → ∀ p, 5 + m = p * 2 ^ e →
      sizeAt (4 * g + m) = p * 2 ^ ps := by
    intro g m e he hg hm p hp
    rw [sizeAt_group g m hg hm, hp, ← he, pow_add _ (g + 3)]
    ring
  by_cases hk : k < 4
  · have hk' : k = 0 ∨ k = 1 ∨ k = 2 ∨ k = 3 := by omega
    rcases hk' with rfl | rfl | rfl | rfl
    · rw [show pageRow ps 0 = 4 * (ps - 6) + 3 by simp [pageRow]; omega]
      exact hrow _ _ 3 (by omega) (by omega) (by omega) 1 rfl
    · rw [show pageRow ps 1 = 4 * (ps - 5) + 3 by simp [pageRow]; omega]
      exact hrow _ _ 2 (by omega) (by omega) (by omega) 2 rfl
    · rw [show pageRow ps 2 = 4 * (ps - 4) + 1 by simp [pageRow]; omega]
      exact hrow _ _ 1 (by omega) (by omega) (by omega) 3 rfl
    · rw [show pageRow ps 3 = 4 * (ps - 4) + 3 by simp [pageRow]; omega]
      exact hrow _ _ 1 (by omega) (by omega) (by omega) 4 rfl
  · obtain ⟨g, m, hm, rfl⟩ : ∃ g m, m < 4 ∧ k = 4 * (g + 1) + m :=
      ⟨k / 4 - 1, k % 4, by omega, by omega⟩
    rw [pageAt_group g m hm, show pageRow ps (4 * (g + 1) + m) = 4 * (ps - 3 + g) + m by
        simp only [pageRow]; split_ifs <;> omega, sizeAt_group _ m (by omega) hm,
      show ps - 3 + g + 3 = g + ps by omega, pow_add]
    ring

theorem pageRow_of_le {ps k : ℕ} (hk : 3 ≤ k) : pageRow ps k = 4 * ps - 16 + k := by
  rw [pageRow, if_neg (by omega), if_neg (by omega), if_neg (by omega)]

theorem pageRow_lt_succ {ps : ℕ} (hps : 12 ≤ ps) (k : ℕ) : pageRow ps k < pageRow ps (k + 1) := by
  obtain rfl | rfl | rfl | hk : k = 0 ∨ k = 1 ∨ k = 2 ∨ 3 ≤ k := by omega
  · simp [pageRow]
    omega
  · simp [pageRow]
    omega
  · simp [pageRow]
    omega
  · rw [pageRow_of_le hk, pageRow_of_le (by omega)]
    omega

theorem pageRow_lt_iff {ps : ℕ} (hps : 12 ≤ ps) (d k : ℕ) :
    pageRow ps k < 4 * (ps + d - 5) ↔ k < pageClasses d := by
  simp only [pageRow, pageClasses]
  split_ifs <;> omega

theorem not_dvd_first {ps i : ℕ} (hps : 12 ≤ ps) (hi : i < 4) : ¬ 2 ^ ps ∣ sizeAt i := by
  intro h
  have hle := Nat.le_of_dvd (sizeAt_pos i) h
  have hpow : 2 ^ 12 ≤ 2 ^ ps := Nat.pow_le_pow_right (by norm_num) hps
  simp only [sizeAt, if_pos hi] at hle
  omega

/-- The page sizes are the multiples of the page size among the size classes. -/
theorem dvd_sizeAt_iff {ps : ℕ} (hps : 12 ≤ ps) (i : ℕ) :
    2 ^ ps ∣ sizeAt i ↔ ∃ k, pageRow ps k = i := by
  constructor
  · intro hdvd
    by_cases hi : i < 4
    · exact absurd hdvd (not_dvd_first hps hi)
    obtain ⟨g, m, hm, hg, rfl⟩ : ∃ g m, m < 4 ∧ 1 ≤ g ∧ i = 4 * g + m :=
      ⟨i / 4, i % 4, by omega, by omega, by omega⟩
    by_cases hgp : ps ≤ g + 3
    · exact ⟨4 * (g + 4 - ps) + m, by simp only [pageRow]; split_ifs <;> omega⟩
    · -- `2 ^ t` divides one of 5, 6, 7 and 8.
      obtain ⟨t, ht⟩ : ∃ t, ps = g + 3 + t := ⟨ps - (g + 3), by omega⟩
      rw [sizeAt_group g m hg hm, ht, pow_add, mul_comm (2 ^ (g + 3))] at hdvd
      have hpow := Nat.dvd_of_mul_dvd_mul_right (Nat.two_pow_pos (g + 3)) hdvd
      have ht3 : t ≤ 3 := by
        by_contra hlt
        have h16 : 2 ^ 4 ∣ 5 + m := (pow_dvd_pow 2 (by omega)).trans hpow
        have := Nat.le_of_dvd (by omega) h16
        omega
      have ht1 : 1 ≤ t := by omega
      have htm : t = 1 ∧ m = 1 ∨ m = 3 := by
        interval_cases t <;> interval_cases m <;> revert hpow <;> decide
      obtain ⟨rfl, rfl⟩ | rfl := htm
      · exact ⟨2, by simp [pageRow]; omega⟩
      · obtain rfl | rfl | rfl : t = 1 ∨ t = 2 ∨ t = 3 := by omega
        · exact ⟨3, by simp [pageRow]; omega⟩
        · exact ⟨1, by simp [pageRow]; omega⟩
        · exact ⟨0, by simp [pageRow]; omega⟩
  · rintro ⟨k, rfl⟩
    rw [sizeAt_pageRow hps]
    exact Dvd.intro_left _ rfl

theorem filter_dvd_sizeAt {ps : ℕ} (hps : 12 ≤ ps) (d : ℕ) :
    (List.range (4 * (ps + d - 5))).filter (fun i => 2 ^ ps ∣ sizeAt i) =
      (List.range (pageClasses d)).map (pageRow ps) := by
  have hmono : StrictMono (pageRow ps) := strictMono_nat_of_lt_succ (pageRow_lt_succ hps)
  have hleft : ((List.range (4 * (ps + d - 5))).filter fun i => 2 ^ ps ∣ sizeAt i).Pairwise
      (· < ·) := List.pairwise_lt_range.filter _
  have hright : ((List.range (pageClasses d)).map (pageRow ps)).Pairwise (· < ·) :=
    List.pairwise_lt_range.map _ fun a b h => hmono h
  refine hleft.eq_of_mem_iff hright fun i => ?_
  simp only [List.mem_filter, List.mem_range, List.mem_map, decide_eq_true_eq, dvd_sizeAt_iff hps]
  constructor
  · rintro ⟨hi, k, rfl⟩
    exact ⟨k, (pageRow_lt_iff hps d k).mp hi, rfl⟩
  · rintro ⟨k, hk, rfl⟩
    exact ⟨(pageRow_lt_iff hps d k).mpr hk, k, rfl⟩

/-! ### The lookup table -/

namespace SizeClasses

/-- `v` is the least class of at least `n` bytes. -/
structure IsCeil (f : ℕ → ℕ) (n v : ℕ) : Prop where
  le : n ≤ f v
  lt : ∀ u < v, f u < n

theorem IsCeil.unique {f : ℕ → ℕ} {n v w : ℕ} (hv : IsCeil f n v) (hw : IsCeil f n w) : v = w := by
  rcases Nat.lt_trichotomy v w with h | h | h
  · have := hw.lt v h
    have := hv.le
    omega
  · exact h
  · have := hv.lt w h
    have := hw.le
    omega

theorem IsCeil.of_pred {f : ℕ → ℕ} (hf : StrictMono f) {n v : ℕ} (hle : n ≤ f v)
    (hlt : 0 < v → f (v - 1) < n) : IsCeil f n v :=
  ⟨hle, fun u hu => (hf.monotone (show u ≤ v - 1 by omega)).trans_lt (hlt (by omega))⟩

/-- Entries of the lookup table for rows below `i`. -/
def lookupEnd (i : ℕ) : ℕ := if i = 0 then 0 else sizeAt (i - 1) / 16

theorem sixteen_dvd_sizeAt (i : ℕ) : 16 ∣ sizeAt i := by
  unfold sizeAt
  split_ifs with h
  · exact Dvd.intro_left _ rfl
  · have h4 : 2 ^ 4 ∣ 2 ^ (i / 4 + 3) := pow_dvd_pow 2 (by omega)
    exact Dvd.dvd.mul_left h4 _

theorem lookupEnd_succ (ps i : ℕ) :
    lookupEnd (i + 1) = lookupEnd i + 1 <<< ((rowAt ps i).log2Delta - 4) := by
  have hdelta : sizeAt i = lookupEnd i * 16 + 2 ^ ((rowAt ps i).log2Delta - 4) * 16 := by
    by_cases hi : i < 4
    · interval_cases i <;> rfl
    · obtain ⟨g, m, hm, hg, rfl⟩ : ∃ g m, m < 4 ∧ 1 ≤ g ∧ i = 4 * g + m :=
        ⟨i / 4, i % 4, by omega, by omega, by omega⟩
      have hpow : 2 ^ (g - 1) * 16 = 2 ^ (g + 3) := by
        rw [show g + 3 = g - 1 + 4 by omega, pow_add]
        norm_num
      have hlog : (rowAt ps (4 * g + m)).log2Delta - 4 = g - 1 := by
        simp only [rowAt, newRow, rowArgs, if_neg hi]
        omega
      have hend : lookupEnd (4 * g + m) * 16 = sizeAt (4 * g + m - 1) := by
        rw [lookupEnd, if_neg (by omega), Nat.div_mul_cancel (sixteen_dvd_sizeAt _)]
      rw [hlog, hpow, hend, sizeAt_group g m hg hm]
      by_cases hm0 : m = 0
      · subst hm0
        rw [show 4 * g + 0 - 1 = 4 * (g - 1) + 3 by omega, sizeAt_last,
          show g - 1 + 6 = g + 3 + 2 by omega, pow_add]
        ring
      · rw [show 4 * g + m - 1 = 4 * g + (m - 1) by omega, sizeAt_group g (m - 1) hg (by omega),
          ← Nat.succ_mul]
        congr 1
        omega
  have hpos := Nat.two_pow_pos ((rowAt ps i).log2Delta - 4)
  rw [lookupEnd, if_neg (by omega), Nat.add_sub_cancel, hdelta, Nat.shiftLeft_eq, one_mul]
  omega

theorem fillLookup_eq {s : SizeClasses} (i times : ℕ) (tab : List ℕ)
    (h : (tab.length + times) * 16 ≤ s.lookupMaxSize) :
    s.fillLookup i times tab = tab ++ List.replicate times i := by
  induction times generalizing tab with
  | zero => simp [fillLookup]
  | succ n ih =>
    have hsize : lookupSize tab ≤ s.lookupMaxSize := by
      unfold lookupSize
      rw [Nat.shiftLeft_eq]
      split_ifs <;> omega
    rw [fillLookup, if_pos hsize, ih _ (by simp only [List.length_append, List.length_singleton]; omega),
      List.append_assoc, List.replicate_succ, List.singleton_append]

/-- Entry `j` is the least class of at least `16 (j + 1)` bytes. -/
def LookupOk (tab : List ℕ) : Prop :=
  ∀ j v, tab[j]? = some v → IsCeil sizeAt ((j + 1) * 16) v

theorem LookupOk.append {tab : List ℕ} {i n : ℕ} (h : LookupOk tab) (hlen : tab.length = lookupEnd i)
    (hn : lookupEnd i + n = lookupEnd (i + 1)) : LookupOk (tab ++ List.replicate n i) := by
  intro j v hj
  by_cases hjl : j < tab.length
  · rw [List.getElem?_append_left hjl] at hj
    exact h j v hj
  · rw [List.getElem?_append_right (by omega), List.getElem?_replicate] at hj
    split_ifs at hj with hjn
    obtain rfl := Option.some.inj hj
    have hend : lookupEnd (i + 1) * 16 = sizeAt i := by
      rw [lookupEnd, if_neg (by omega), Nat.add_sub_cancel, Nat.div_mul_cancel (sixteen_dvd_sizeAt _)]
    refine .of_pred sizeAt_strictMono (by omega) fun hpos => ?_
    have hpred : lookupEnd i * 16 = sizeAt (i - 1) := by
      rw [lookupEnd, if_neg (by omega), Nat.div_mul_cancel (sixteen_dvd_sizeAt _)]
    omega

theorem fillLookups_spec {s : SizeClasses} (ps : ℕ) (hmax : s.lookupMaxSize = 4096) (m i : ℕ)
    (tab : List ℕ) (hi : i ≤ 28) (hm : 28 ≤ i + m) (hlen : tab.length = lookupEnd i)
    (hok : LookupOk tab) :
    ∃ r, s.fillLookups ((List.range' i m).map (rowAt ps)) tab = .ok r ∧ r.length = 256 ∧
      LookupOk r := by
  have hdone : ∀ i tab, tab.length = lookupEnd i → i = 28 → tab.length = 256 ∧ ¬ lookupSize tab ≤ s.lookupMaxSize := by
    rintro i tab hlen rfl
    have hl : tab.length = 256 := hlen.trans (by decide)
    refine ⟨hl, ?_⟩
    rw [lookupSize, if_neg (by rintro rfl; simp at hl), hl, hmax]
    decide
  induction m generalizing i tab with
  | zero =>
    obtain ⟨hl, hend⟩ := hdone i tab hlen (by omega)
    exact ⟨tab, if_neg hend, hl, hok⟩
  | succ m ih =>
    rw [List.range'_succ, List.map_cons, fillLookups]
    by_cases h28 : i = 28
    · obtain ⟨hl, hend⟩ := hdone i tab hlen h28
      exact ⟨tab, if_neg hend, hl, hok⟩
    · have hnext := lookupEnd_succ ps i
      have hmono : lookupEnd (i + 1) ≤ 256 := by
        rw [lookupEnd, if_neg (by omega), Nat.add_sub_cancel]
        have : sizeAt i ≤ sizeAt 27 := sizeAt_strictMono.monotone (by omega)
        have h27 : sizeAt 27 = 4096 := by decide
        omega
      have hpos : 0 < 1 <<< ((rowAt ps i).log2Delta - 4) := by
        rw [Nat.shiftLeft_eq]
        positivity
      have hsize : lookupSize tab ≤ s.lookupMaxSize := by
        unfold lookupSize
        rw [Nat.shiftLeft_eq]
        split_ifs <;> omega
      rw [if_pos hsize, rowAt_index, fillLookup_eq _ _ _ (by omega)]
      have hlen' : (tab ++ List.replicate (1 <<< ((rowAt ps i).log2Delta - 4)) i).length =
          lookupEnd (i + 1) := by
        rw [List.length_append, List.length_replicate, hlen, hnext]
      exact ih (i + 1) _ (by omega) (by omega) hlen' (hok.append hlen hnext.symm)

/-! ### The finished tables -/

/-- What the constructor leaves for an accepted geometry. -/
structure Made (s : SizeClasses) (g : Geometry) : Prop where
  pageShifts : s.pageShifts = g.pageShifts
  chunkSize : s.chunkSize = g.chunkSize
  nSizes : s.nSizes = 4 * (g.pageShifts + g.order - 5)
  nPSizes : s.nPSizes = pageClasses g.order
  nSubpages : s.nSubpages = min (4 * (g.pageShifts + g.order - 5)) (4 * g.pageShifts - 13)
  smallMaxSizeIdx : s.smallMaxSizeIdx = s.nSubpages - 1
  lookupMaxSize : s.lookupMaxSize = 4096
  sizes : s.sizeIdx2sizeTab = (List.range s.nSizes).map sizeAt
  pageSizes : s.pageIdx2sizeTab =
    (List.range s.nPSizes).map fun k => pageAt k * 2 ^ g.pageShifts
  lookup_length : s.size2idxTab.length = 256
  lookup : LookupOk s.size2idxTab

theorem make_tabled (g : Geometry) :
    ∃ s, make g.pageShifts g.chunkSize = .ok s ∧ Made s g ∧
      s.sizeClasses = (List.range (4 * (g.pageShifts + g.order - 5))).map (rowAt g.pageShifts) := by
  have hps := g.pageShifts_ge
  obtain ⟨s, hs, ht, hc⟩ := sizeClassesLoop_spec (K := g.pageShifts + g.order) hps (by omega)
    g.chunk_le
  have hn : 28 ≤ 4 * (g.pageShifts + g.order - 5) := by omega
  have hmax : s.lookupMaxSize = 4096 := by
    rw [ht.lookupMaxSize (by omega), show min (4 * (g.pageShifts + g.order - 5)) 28 - 1 = 27 by omega]
    decide
  have hmulti : s.sizeClasses.filter (·.isMultiPageSize) =
      ((List.range (pageClasses g.order)).map (pageRow g.pageShifts)).map (rowAt g.pageShifts) := by
    rw [ht.rows, List.filter_map, ← filter_dvd_sizeAt hps]
    congr 1
    refine List.filter_congr fun i _ => ?_
    rw [Bool.eq_iff_iff, Function.comp_apply, rowAt_isMultiPageSize]
    simp
  obtain ⟨tab, htab, hlen, hok⟩ := fillLookups_spec (s := s.idx2SizeTab) g.pageShifts hmax
    (4 * (g.pageShifts + g.order - 5)) 0 [] (by omega) (by omega) rfl (fun j v h => by simp at h)
  have htab' : s.idx2SizeTab.fillLookups s.sizeClasses [] = .ok tab := by
    rw [ht.rows, List.range_eq_range']
    exact htab
  refine ⟨{ s.idx2SizeTab with size2idxTab := tab }, ?_, ?_, ht.rows⟩
  · simp only [make, Geometry.chunkSize, hs, bind, Except.bind]
    rw [show s.idx2SizeTab.sizeClasses = s.sizeClasses from rfl, htab']
    rfl
  · have hnp : s.nPSizes = pageClasses g.order := by
      rw [ht.nPSizes, List.countP_eq_length_filter, hmulti, List.length_map, List.length_map,
        List.length_range]
    refine ⟨ht.pageShifts, hc, ht.nSizes, hnp, ht.nSubpages, ?_, hmax, ?_, ?_, hlen, hok⟩
    · exact ht.smallMaxSizeIdx.trans (by rw [← ht.nSubpages]; rfl)
    · show s.sizeClasses.map SizeClass.size = (List.range s.nSizes).map sizeAt
      rw [ht.nSizes, ht.rows, List.map_map]
      exact List.map_congr_left fun i _ => rowAt_size _ _
    · show (s.sizeClasses.filter (·.isMultiPageSize)).map SizeClass.size = _
      rw [hmulti, List.map_map, List.map_map]
      show _ = (List.range s.nPSizes).map _
      rw [hnp]
      exact List.map_congr_left fun k _ => (rowAt_size _ _).trans (sizeAt_pageRow hps k)

theorem make_spec (g : Geometry) : ∃ s, make g.pageShifts g.chunkSize = .ok s ∧ Made s g := by
  obtain ⟨s, hs, hmade, -⟩ := make_tabled g
  exact ⟨s, hs, hmade⟩

/-! ### The tables in closed form -/

def lookupAt (j : ℕ) : ℕ := ((List.range 28).find? fun v => (j + 1) * 16 ≤ sizeAt v).getD 0

theorem isCeil_lookupAt {j : ℕ} (hj : j < 256) : IsCeil sizeAt ((j + 1) * 16) (lookupAt j) := by
  cases hfind : (List.range 28).find? fun v => (j + 1) * 16 ≤ sizeAt v with
  | none =>
    have hlast := List.find?_eq_none.mp hfind 27 (by decide)
    have h27 : sizeAt 27 = 4096 := by decide
    simp only [h27, decide_eq_true_eq] at hlast
    omega
  | some v =>
    rw [lookupAt, hfind, Option.getD_some]
    obtain ⟨hle, -, hlt⟩ := List.find?_range_eq_some.mp hfind
    refine ⟨of_decide_eq_true hle, fun u hu => ?_⟩
    have := hlt u hu
    simpa using this

/-- What the constructor makes, without running its loops. -/
def tables (g : Geometry) : SizeClasses where
  pageShifts := g.pageShifts
  chunkSize := g.chunkSize
  sizeClasses := (List.range (4 * (g.pageShifts + g.order - 5))).map (rowAt g.pageShifts)
  nPSizes := pageClasses g.order
  nSubpages := min (4 * (g.pageShifts + g.order - 5)) (4 * g.pageShifts - 13)
  smallMaxSizeIdx := min (4 * (g.pageShifts + g.order - 5)) (4 * g.pageShifts - 13) - 1
  lookupMaxSize := 4096
  sizeIdx2sizeTab := (List.range (4 * (g.pageShifts + g.order - 5))).map sizeAt
  pageIdx2sizeTab := (List.range (pageClasses g.order)).map fun k => pageAt k * 2 ^ g.pageShifts
  size2idxTab := (List.range 256).map lookupAt

theorem Made.lookup_eq {s : SizeClasses} {g : Geometry} (h : Made s g) :
    s.size2idxTab = (List.range 256).map lookupAt := by
  apply List.ext_getElem
  · rw [h.lookup_length, List.length_map, List.length_range]
  · intro j hj hj'
    rw [h.lookup_length] at hj
    rw [List.getElem_map, List.getElem_range]
    exact (h.lookup j _ (List.getElem?_eq_getElem _)).unique (isCeil_lookupAt hj)

theorem make_eq_tables (g : Geometry) : make g.pageShifts g.chunkSize = .ok (tables g) := by
  obtain ⟨s, hs, h, hrows⟩ := make_tabled g
  have h1 := h.pageShifts
  have h2 := h.chunkSize
  have h3 := h.nPSizes
  have h4 := h.nSubpages
  have h5 := h.smallMaxSizeIdx
  have h6 := h.lookupMaxSize
  have h7 := h.sizes
  have h8 := h.pageSizes
  rw [h.nSizes] at h7
  rw [h3] at h8
  rw [h4] at h5
  have h9 := h.lookup_eq
  rw [hs]
  cases s
  simp only at h1 h2 h3 h4 h5 h6 h7 h8 h9 hrows
  subst h1 h2 h3 h4 h5 h6 h7 h8 h9 hrows
  rfl

/-! ### Index computations -/

theorem quarter_bounds {c v : ℕ} (hc : 3 ≤ c) (hlt : 2 ^ (c - 1) < v) (hle : v ≤ 2 ^ c) :
    4 ≤ (v - 1) / 2 ^ (c - 3) ∧ (v - 1) / 2 ^ (c - 3) ≤ 7 ∧
      (v - 1) / 2 ^ (c - 3) * 2 ^ (c - 3) < v ∧ v ≤ ((v - 1) / 2 ^ (c - 3) + 1) * 2 ^ (c - 3) := by
  have hpos := Nat.two_pow_pos (c - 3)
  have h4 : 2 ^ (c - 1) = 4 * 2 ^ (c - 3) := by
    rw [show c - 1 = 2 + (c - 3) by omega, pow_add]
    norm_num
  have h8 : 2 ^ c = 8 * 2 ^ (c - 3) := by
    rw [show c = 3 + (c - 3) by omega, pow_add, Nat.add_sub_cancel_left]
    norm_num
  have hmul := Nat.div_mul_le_self (v - 1) (2 ^ (c - 3))
  have hup := Nat.lt_mul_div_succ (v - 1) hpos
  rw [mul_comm] at hup
  refine ⟨?_, ?_, by omega, by omega⟩
  · exact (Nat.le_div_iff_mul_le hpos).mpr (by omega)
  · exact Nat.lt_succ_iff.mp ((Nat.div_lt_iff_lt_mul hpos).mpr (by omega))

/-- The exponent that the code finds with `log2 ((v << 1) - 1)`. -/
theorem exists_clog {v : ℕ} (hv : 1 ≤ v) : ∃ c, 2 ^ c < 2 * v ∧ v ≤ 2 ^ c := by
  refine ⟨Nat.clog 2 v, ?_, Nat.le_pow_clog (by norm_num) v⟩
  by_cases h1 : v = 1
  · subst h1
    norm_num
  · have hlt := Nat.pow_pred_clog_lt_self (b := 2) (by norm_num) (show 1 < v by omega)
    have hpos : 0 < Nat.clog 2 v := Nat.clog_pos (by norm_num) (by omega)
    rw [Nat.pred_eq_sub_one] at hlt
    calc 2 ^ Nat.clog 2 v = 2 * 2 ^ (Nat.clog 2 v - 1) := by
          rw [← pow_succ', Nat.sub_add_cancel hpos]
      _ < 2 * v := by omega

variable {s : SizeClasses} {g : Geometry}

theorem Made.sizeIdx2size (h : Made s g) {i : ℕ} (hi : i < s.nSizes) :
    s.sizeIdx2size i = .ok (sizeAt i) := by
  rw [SizeClasses.sizeIdx2size, fetch_eq_ok, h.sizes]
  simp [hi]

theorem Made.sizeAt_last (h : Made s g) : sizeAt (s.nSizes - 1) = g.chunkSize := by
  have := g.pageShifts_ge
  rw [h.nSizes, show 4 * (g.pageShifts + g.order - 5) - 1 = 4 * (g.pageShifts + g.order - 6) + 3 by
    omega, Buffer.sizeAt_last, Geometry.chunkSize]
  congr 1
  omega

theorem Made.dvd_sizeAt (h : Made s g) {i : ℕ} (hi : s.smallMaxSizeIdx < i) (hi' : i < s.nSizes) :
    2 ^ s.pageShifts ∣ sizeAt i := by
  have hps := g.pageShifts_ge
  rw [h.smallMaxSizeIdx, h.nSubpages] at hi
  rw [h.nSizes] at hi'
  rw [h.pageShifts, dvd_sizeAt_iff hps]
  refine ⟨i - (4 * g.pageShifts - 16), ?_⟩
  rw [pageRow_of_le (by omega)]
  omega

theorem isCeil_quarter {c v : ℕ} (hc : 7 ≤ c) (hlt : 2 ^ c < 2 * v) (hle : v ≤ 2 ^ c) :
    (4 ≤ (v - 1) / 2 ^ (c - 3) ∧ (v - 1) / 2 ^ (c - 3) ≤ 7) ∧
      IsCeil sizeAt v (4 * (c - 6) + ((v - 1) / 2 ^ (c - 3) - 4)) ∧
      sizeAt (4 * (c - 6) + ((v - 1) / 2 ^ (c - 3) - 4)) =
        ((v - 1) / 2 ^ (c - 3) + 1) * 2 ^ (c - 3) := by
  have hhalf : 2 ^ (c - 1) < v := by
    have : 2 ^ c = 2 * 2 ^ (c - 1) := by rw [← pow_succ', Nat.sub_add_cancel (by omega)]
    omega
  obtain ⟨hq4, hq7, hqlo, hqhi⟩ := quarter_bounds (by omega) hhalf hle
  generalize (v - 1) / 2 ^ (c - 3) = q at *
  have hexp : c - 6 + 3 = c - 3 := by omega
  have hsize : sizeAt (4 * (c - 6) + (q - 4)) = (q + 1) * 2 ^ (c - 3) := by
    rw [sizeAt_group _ _ (by omega) (by omega), hexp, show 5 + (q - 4) = q + 1 by omega]
  refine ⟨⟨hq4, hq7⟩, .of_pred sizeAt_strictMono ?_ fun _ => ?_, hsize⟩
  · rw [hsize]
    exact hqhi
  · by_cases hq : q = 4
    · rw [show 4 * (c - 6) + (q - 4) - 1 = 4 * (c - 7) + 3 by omega, Buffer.sizeAt_last,
        show c - 7 + 6 = c - 1 by omega]
      exact hhalf
    · rw [show 4 * (c - 6) + (q - 4) - 1 = 4 * (c - 6) + (q - 5) by omega,
        sizeAt_group _ _ (by omega) (by omega), hexp, show 5 + (q - 5) = q by omega]
      exact hqlo

theorem Made.size2SizeIdx (h : Made s g) {size : ℕ} (h1 : 1 ≤ size) (h2 : size ≤ g.chunkSize) :
    ∃ i, s.size2SizeIdx size = .ok i ∧ IsCeil sizeAt size i ∧ i < s.nSizes := by
  have hrange : ∀ i, IsCeil sizeAt size i → i < s.nSizes := by
    intro i hi
    by_contra hge
    have := g.pageShifts_ge
    have hpos : 0 < s.nSizes := by rw [h.nSizes]; omega
    have := hi.lt (s.nSizes - 1) (by omega)
    rw [h.sizeAt_last] at this
    omega
  suffices hidx : ∃ i, s.size2SizeIdx size = .ok i ∧ IsCeil sizeAt size i by
    obtain ⟨i, hi, hceil⟩ := hidx
    exact ⟨i, hi, hceil, hrange i hceil⟩
  unfold SizeClasses.size2SizeIdx
  rw [if_neg (by omega), if_neg (by rw [h.chunkSize]; omega), h.lookupMaxSize]
  split_ifs with hsmall
  · rw [Nat.shiftRight_eq_div_pow]
    have hj : (size - 1) / 2 ^ 4 < s.size2idxTab.length := by rw [h.lookup_length]; omega
    refine ⟨_, fetch_eq_ok.mpr (List.getElem?_eq_getElem hj), ?_⟩
    have hceil := h.lookup _ _ (List.getElem?_eq_getElem hj)
    refine ⟨by have := hceil.le; omega, fun u hu => ?_⟩
    obtain ⟨c, hc⟩ := sixteen_dvd_sizeAt u
    have := hceil.lt u hu
    omega
  · obtain ⟨c, hlt, hle⟩ := exists_clog h1
    have hc12 : 12 < c := (Nat.pow_lt_pow_iff_right (a := 2) (by norm_num)).mp (by omega)
    have hc31 : c < 31 := by
      refine (Nat.pow_lt_pow_iff_right (a := 2) (by norm_num)).mp ?_
      have := g.chunkSize_le
      omega
    have hlog : (log2 ((size : ℤ) * 2 - 1)).toNat = c := by
      rw [log2_double_sub_one hc31 hlt hle]
      rfl
    obtain ⟨hq4, hceil, -⟩ := isCeil_quarter (by omega) hlt hle
    refine ⟨_, rfl, ?_⟩
    simp only [hlog, if_neg (show ¬ c < 2 + 4 + 1 by omega), Nat.shiftRight_eq_div_pow,
      Nat.shiftLeft_eq, show c - 2 - 1 = c - 3 by omega]
    rw [show (c - (2 + 4)) * 2 ^ 2 + (size - 1) / 2 ^ (c - 3) % 4 =
      4 * (c - 6) + ((size - 1) / 2 ^ (c - 3) - 4) by omega]
    exact hceil

/-- `v` is the greatest class of at most `n` pages. -/
structure IsFloor (f : ℕ → ℕ) (n v : ℕ) : Prop where
  le : f v ≤ n
  lt : ∀ u, v < u → n < f u

theorem IsCeil.isFloor {f : ℕ → ℕ} (hf : StrictMono f) {n v : ℕ} (h : IsCeil f n v) (h0 : f 0 ≤ n) :
    IsFloor f n (if n < f v then v - 1 else v) := by
  split_ifs with hlt
  · have hpos : 0 < v := by
      by_contra h0'
      obtain rfl : v = 0 := by omega
      omega
    exact ⟨(h.lt (v - 1) (by omega)).le, fun u hu => hlt.trans_le (hf.monotone (by omega))⟩
  · exact ⟨by omega, fun u hu => h.le.trans_lt (hf hu)⟩

/-- The index that `pages2pageIdxCompute` computes before rounding down. -/
theorem pageIdx_isCeil (ps : ℕ) {p c : ℕ} (h1 : 1 ≤ p) (hlt : 2 ^ c < 2 * p) (hle : p ≤ 2 ^ c) :
    IsCeil pageAt p ((if ps + c < 2 + ps then 0 else ps + c - (2 + ps)) <<< 2 +
      (((p : ℤ) * 2 ^ ps - 1) / 2 ^ (if ps + c < 2 + ps + 1 then ps else ps + c - 2 - 1) % 4).toNat)
    := by
  have hpos := Nat.two_pow_pos ps
  have hdiv : ∀ e, ((p : ℤ) * 2 ^ ps - 1) / 2 ^ (ps + e) = (((p - 1) / 2 ^ e : ℕ) : ℤ) := by
    intro e
    have hcast : (p : ℤ) * 2 ^ ps - 1 = (p * 2 ^ ps - 1 : ℕ) := by
      have : 1 ≤ p * 2 ^ ps := Nat.mul_pos h1 hpos
      push_cast [Nat.cast_sub this]
      ring
    rw [hcast, show (2 : ℤ) ^ (ps + e) = ((2 ^ (ps + e) : ℕ) : ℤ) by push_cast; ring,
      ← Int.natCast_div, pow_add, ← Nat.div_div_eq_div_mul]
    congr 2
    obtain ⟨r, rfl⟩ : ∃ r, p = r + 1 := ⟨p - 1, by omega⟩
    rw [Nat.add_sub_cancel, Nat.div_eq_iff hpos]
    constructor
    · have : (r + 1) * 2 ^ ps = r * 2 ^ ps + 2 ^ ps := by ring
      omega
    · have : (r + 1) * 2 ^ ps = r * 2 ^ ps + 2 ^ ps := by ring
      omega
  by_cases hc : c < 3
  · have hp4 : p ≤ 4 := hle.trans (Nat.pow_le_pow_right (by norm_num) (show c ≤ 2 by omega))
    have h0 := hdiv 0
    rw [pow_zero, Nat.div_one, Nat.add_zero] at h0
    have hgroup : (if ps + c < 2 + ps then 0 else ps + c - (2 + ps)) = 0 := by
      split_ifs <;> omega
    rw [hgroup, if_pos (show ps + c < 2 + ps + 1 by omega), h0, Nat.zero_shiftLeft, Nat.zero_add]
    have hmod : (((p - 1 : ℕ) : ℤ) % 4).toNat = p - 1 := by omega
    rw [hmod]
    exact .of_pred pageAt_strictMono (by simp only [pageAt]; split_ifs <;> omega)
      fun _ => by simp only [pageAt]; split_ifs <;> omega
  · have hhalf : 2 ^ (c - 1) < p := by
      have : 2 ^ c = 2 * 2 ^ (c - 1) := by rw [← pow_succ', Nat.sub_add_cancel (by omega)]
      omega
    obtain ⟨hq4, hq7, hqlo, hqhi⟩ := quarter_bounds (by omega) hhalf hle
    rw [if_neg (show ¬ ps + c < 2 + ps by omega), if_neg (show ¬ ps + c < 2 + ps + 1 by omega),
      show ps + c - 2 - 1 = ps + (c - 3) by omega, hdiv, Nat.shiftLeft_eq]
    generalize (p - 1) / 2 ^ (c - 3) = q at *
    have hidx : (ps + c - (2 + ps)) * 2 ^ 2 + ((q : ℤ) % 4).toNat = 4 * (c - 3 + 1) + (q - 4) := by
      omega
    rw [hidx]
    refine .of_pred pageAt_strictMono ?_ fun _ => ?_
    · rw [pageAt_group _ _ (by omega), show 5 + (q - 4) = q + 1 by omega]
      exact hqhi
    · by_cases hq : q = 4
      · by_cases hc3 : c = 3
        · subst hc3
          subst hq
          exact hhalf
        · rw [show 4 * (c - 3 + 1) + (q - 4) - 1 = 4 * (c - 4 + 1) + 3 by omega,
            pageAt_group _ _ (by omega)]
          refine lt_of_eq_of_lt ?_ hhalf
          rw [show c - 1 = 3 + (c - 4) by omega, pow_add]
          norm_num
      · rw [show 4 * (c - 3 + 1) + (q - 4) - 1 = 4 * (c - 3 + 1) + (q - 5) by omega,
          pageAt_group _ _ (by omega), show 5 + (q - 5) = q by omega]
        exact hqlo

theorem Made.pages2pageIdx (h : Made s g) {p : ℕ} (h1 : 1 ≤ p) (h2 : p ≤ g.pages) :
    ∃ k, IsCeil pageAt p k ∧ k < s.nPSizes ∧ s.pages2pageIdx p = .ok k ∧
      s.pages2pageIdxFloor p = .ok ((if p < pageAt k then k - 1 else k : ℕ) : ℤ) := by
  obtain ⟨c, hlt, hle⟩ := exists_clog h1
  have hps := g.pageShifts_ge
  have hsum := g.chunk_le
  have hsize : ¬ (p : ℤ) * 2 ^ s.pageShifts > s.chunkSize := by
    rw [h.pageShifts, h.chunkSize, g.chunkSize_eq]
    have := Nat.mul_le_mul_right (2 ^ g.pageShifts) h2
    exact not_lt.mpr (by exact_mod_cast this)
  have hlog : (log2 ((p : ℤ) * 2 ^ s.pageShifts * 2 - 1)).toNat = s.pageShifts + c := by
    have hc : c < g.order + 1 := (Nat.pow_lt_pow_iff_right (a := 2) (by norm_num)).mp (by
      rw [pow_succ]
      unfold Geometry.pages at h2
      omega)
    have hpos := Nat.two_pow_pos g.pageShifts
    have hlog2 := log2_double_sub_one (k := g.pageShifts + c) (v := p * 2 ^ g.pageShifts)
      (by omega) (by rw [pow_add]; nlinarith) (by rw [pow_add]; nlinarith)
    rw [h.pageShifts]
    push_cast at hlog2
    rw [hlog2]
    rfl
  have hceil := pageIdx_isCeil s.pageShifts h1 hlt hle
  simp only [SizeClasses.pages2pageIdx, pages2pageIdxFloor, pages2pageIdxCompute, if_neg hsize, hlog]
  generalize (if s.pageShifts + c < 2 + s.pageShifts then 0
    else s.pageShifts + c - (2 + s.pageShifts)) <<< 2 + _ = k at hceil ⊢
  have hk : k < s.nPSizes := by
    by_contra hge
    have hpos := pageClasses_pos g.order
    have := hceil.lt (pageClasses g.order - 1) (by rw [← h.nPSizes] at hpos ⊢; omega)
    rw [pageAt_last] at this
    unfold Geometry.pages at h2
    omega
  refine ⟨k, hceil, hk, rfl, ?_⟩
  have hfetch : fetch s.pageIdx2sizeTab k = .ok (pageAt k * 2 ^ g.pageShifts) := by
    rw [fetch_eq_ok, h.pageSizes]
    simp [hk]
  have hcmp : ((pageAt k * 2 ^ g.pageShifts : ℕ) : ℤ) > (p : ℤ) * 2 ^ s.pageShifts ↔ p < pageAt k := by
    rw [h.pageShifts]
    push_cast
    exact mul_lt_mul_iff_left₀ (by positivity) |>.trans Int.ofNat_lt
  have hk0 : p < pageAt k → 1 ≤ k := by
    intro hlt'
    by_contra h0
    obtain rfl : k = 0 := by omega
    exact absurd hlt' (not_lt.mpr h1)
  simp only [if_true, hfetch, bind, Except.bind, hcmp, pure, Except.pure]
  split_ifs with hlt'
  · rw [Nat.cast_sub (hk0 hlt'), Nat.cast_one]
  · rfl

/-- `pages2pageIdxFloor` files a run of `p` pages under the greatest page class of at most `p`
pages. -/
theorem Made.pages2pageIdxFloor (h : Made s g) {p : ℕ} (h1 : 1 ≤ p) (h2 : p ≤ g.pages) :
    ∃ k : ℕ, s.pages2pageIdxFloor p = .ok k ∧ IsFloor pageAt p k ∧ k < s.nPSizes := by
  obtain ⟨k, hceil, hk, -, hfloor⟩ := h.pages2pageIdx h1 h2
  refine ⟨_, hfloor, hceil.isFloor pageAt_strictMono h1, ?_⟩
  split_ifs <;> omega

end SizeClasses

end Mutty.Buffer
