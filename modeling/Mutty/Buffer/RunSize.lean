import Mathlib.Data.Nat.Prime.Basic
import Mathlib.Tactic.IntervalCases
import Mutty.Buffer.SizeIndex
import Mutty.Buffer.Pool

/-!
# The run of a subpage

An element of a subpage has a size `o * 2 ^ a` with `o` one of 1, 3, 5 and 7. The loops of
`calculateRunSize` look for the least common multiple of it and of the page size, page by page, and
the limit on the number of elements does not stop them before. The sum of pages is an `int`,
though: with pages of half a gigabyte it can leave the range.
-/

namespace Mutty.Buffer

open Mutty.Lib SizeClasses

/-! ### The sizes of small elements -/

/-- The odd part of a number below `2 ^ 32`. -/
def oddPart (n : ℕ) : ℕ := n / Nat.gcd n (2 ^ 31)

structure Small (ps size o a : ℕ) : Prop where
  eq : size = o * 2 ^ a
  odd : o % 2 = 1
  le : o ≤ 7
  ge : 4 ≤ a
  fits : a ≤ ps ∨ o = 1 ∧ a = ps + 1

theorem small_sizeAt {ps i : ℕ} (hps : 12 ≤ ps) (hi : i + 13 < 4 * ps) :
    ∃ o a, Small ps (sizeAt i) o a := by
  by_cases h4 : i < 4
  · have hle : 4 ≤ ps := by omega
    interval_cases i
    · exact ⟨1, 4, by decide, by decide, by decide, by decide, .inl hle⟩
    · exact ⟨1, 5, by decide, by decide, by decide, by decide, .inl (by omega)⟩
    · exact ⟨3, 4, by decide, by decide, by decide, by decide, .inl hle⟩
    · exact ⟨1, 6, by decide, by decide, by decide, by decide, .inl (by omega)⟩
  · obtain ⟨g, m, rfl, hg, hm⟩ : ∃ g m, i = 4 * g + m ∧ 1 ≤ g ∧ m < 4 :=
      ⟨i / 4, i % 4, by omega, by omega, by omega⟩
    rw [sizeAt_group g m hg hm]
    interval_cases m
    · exact ⟨5, g + 3, by ring, by decide, by decide, by omega, .inl (by omega)⟩
    · exact ⟨3, g + 4, by ring, by decide, by decide, by omega, .inl (by omega)⟩
    · exact ⟨7, g + 3, by ring, by decide, by decide, by omega, .inl (by omega)⟩
    · exact ⟨1, g + 6, by ring, by decide, by decide, by omega, by omega⟩

section

variable {ps size o a : ℕ}

theorem Small.gcd_eq (h : Small ps size o a) {n : ℕ} (ha : a ≤ n) : Nat.gcd (2 ^ n) size = 2 ^ a := by
  have hcop : Nat.Coprime o (2 ^ n) :=
    Nat.Coprime.pow_right n (Nat.coprime_two_right.mpr (Nat.odd_iff.mpr h.odd))
  rw [h.eq, hcop.gcd_mul_left_cancel_right]
  exact Nat.gcd_eq_right (pow_dvd_pow 2 ha)

theorem Small.pos (h : Small ps size o a) : 0 < size := by
  have ho : 0 < o := by
    have := h.odd
    omega
  rw [h.eq]
  exact Nat.mul_pos ho (Nat.two_pow_pos a)

theorem Small.oddPart_eq (h : Small ps size o a) (ha : a ≤ 31) : oddPart size = o := by
  rw [oddPart, Nat.gcd_comm, h.gcd_eq ha, h.eq, Nat.mul_div_cancel _ (Nat.two_pow_pos a)]

theorem Small.lcm_eq (h : Small ps size o a) (ha : a ≤ ps) : Nat.lcm (2 ^ ps) size = o * 2 ^ ps := by
  rw [Nat.lcm_eq_mul_div, h.gcd_eq ha, h.eq, ← mul_assoc, Nat.mul_div_cancel _ (Nat.two_pow_pos a), mul_comm]

theorem Small.lcm_eq_double (h : Small ps size 1 (ps + 1)) : Nat.lcm (2 ^ ps) size = 2 * 2 ^ ps := by
  rw [h.eq, one_mul, Nat.lcm_eq_right (pow_dvd_pow 2 (Nat.le_succ ps)), pow_succ, mul_comm]

theorem Small.elements (h : Small ps size o a) (hps : 4 ≤ ps) :
    ∃ n, Nat.lcm (2 ^ ps) size = n * size ∧ 0 < n ∧ n ≤ 2 ^ (ps - 4) := by
  have hpow : 0 < 2 ^ (ps - 4) := Nat.two_pow_pos _
  rcases h.fits with ha | ⟨rfl, rfl⟩
  · refine ⟨2 ^ (ps - a), ?_, Nat.two_pow_pos _, Nat.pow_le_pow_right (by norm_num) ?_⟩
    · rw [h.lcm_eq ha, h.eq, mul_left_comm, ← pow_add, Nat.sub_add_cancel ha]
    · have := h.ge
      omega
  · refine ⟨1, ?_, Nat.one_pos, hpow⟩
    rw [h.lcm_eq_double, h.eq, pow_succ]
    ring

theorem Small.lcm_le (h : Small ps size o a) : Nat.lcm (2 ^ ps) size ≤ 7 * 2 ^ ps := by
  rcases h.fits with ha | ⟨rfl, rfl⟩
  · rw [h.lcm_eq ha]
    exact Nat.mul_le_mul_right _ h.le
  · rw [h.lcm_eq_double]
    omega

theorem Small.lcm_lt_iff (h : Small ps size o a) (hps : ps ≤ 30) (hsize : size ≤ 2 ^ 30) :
    Nat.lcm (2 ^ ps) size < 2 ^ 31 ↔ oddPart size * 2 ^ ps < 2 ^ 31 := by
  rcases h.fits with ha | ⟨rfl, rfl⟩
  · rw [h.lcm_eq ha, h.oddPart_eq (by omega)]
  · rw [h.lcm_eq_double, h.oddPart_eq (by omega)]
    have heq := h.eq
    rw [pow_succ] at heq
    omega

end

/-! ### The loops -/

section

variable {k : Config} {ps size l n : ℕ}

theorem growRunSize_cases (elemSize : ℕ) (r : ℤ) :
    PoolChunk.growRunSize k elemSize r =
        .ok (.inl (wrap32 (r + 2 ^ k.sizes.pageShifts))) ∨
      PoolChunk.growRunSize k elemSize r =
        .ok (.inr (wrap32 (r + 2 ^ k.sizes.pageShifts))) := by
  simp only [PoolChunk.growRunSize]
  split_ifs
  · exact .inl rfl
  · exact .inr rfl

theorem shrinkRunSize_cases (elemSize : ℕ) (r : ℤ) :
    PoolChunk.shrinkRunSize k elemSize r = .ok (.inl (r - 2 ^ k.sizes.pageShifts)) ∨
      PoolChunk.shrinkRunSize k elemSize r = .ok (.inr r) := by
  simp only [PoolChunk.shrinkRunSize]
  split_ifs
  · exact .inl rfl
  · exact .inr rfl

theorem dvd_searchRunSize (hps : k.sizes.pageShifts ≤ 31) {elemSize : ℕ} {r : ℤ}
    (h : PoolChunk.searchRunSize k elemSize = .ok r) : (2 : ℤ) ^ k.sizes.pageShifts ∣ r := by
  obtain ⟨grown, hgrow, hshrink⟩ := bind_eq_ok.mp h
  have hgrown : (2 : ℤ) ^ k.sizes.pageShifts ∣ grown := by
    refine Loop.run_invariant (I := fun r => (2 : ℤ) ^ k.sizes.pageShifts ∣ r)
      (fun r r' hr hbody => ?_) (fun r r' hr hbody => ?_) (dvd_zero _) hgrow
    all_goals
      have hsum := dvd_wrap32 hps (Int.dvd_add hr (dvd_refl ((2 : ℤ) ^ k.sizes.pageShifts)))
      rcases growRunSize_cases (k := k) elemSize r with hcase | hcase <;> rw [hcase] at hbody <;>
        cases hbody
      exact hsum
  refine Loop.run_invariant (I := fun r => (2 : ℤ) ^ k.sizes.pageShifts ∣ r)
    (fun r r' hr hbody => ?_) (fun r r' hr hbody => ?_) hgrown hshrink
  all_goals
    rcases shrinkRunSize_cases (k := k) elemSize r with hcase | hcase <;> rw [hcase] at hbody <;>
      cases hbody
  · exact Int.dvd_sub hr (dvd_refl _)
  · exact hr

theorem calculateRunSize_ok {g : Geometry} (made : k.sizes.Made g) {i elemSize runSize : ℕ}
    (hsize : k.sizes.sizeIdx2size i = .ok elemSize)
    (h : PoolChunk.calculateRunSize k i = .ok runSize) :
    2 ^ k.sizes.pageShifts ∣ runSize ∧ 0 < runSize / elemSize := by
  have hps : k.sizes.pageShifts ≤ 31 := by
    have := g.chunk_le
    rw [made.pageShifts]
    omega
  obtain ⟨size, hsize', h⟩ := bind_eq_ok.mp h
  obtain rfl : elemSize = size := Except.ok.inj (hsize.symm.trans hsize')
  obtain ⟨found, hfound, h⟩ := bind_eq_ok.mp h
  obtain ⟨_, hpos, h⟩ := bind_eq_ok.mp h
  obtain ⟨_, -, h⟩ := bind_eq_ok.mp h
  obtain ⟨_, hge, h⟩ := bind_eq_ok.mp h
  have hge' : (elemSize : ℤ) ≤ found := require_eq_ok.mp hge
  obtain ⟨n, rfl⟩ : ∃ n : ℕ, found = n := ⟨found.toNat, by omega⟩
  obtain rfl : n = runSize := Except.ok.inj h
  refine ⟨by exact_mod_cast dvd_searchRunSize hps hfound, ?_⟩
  have hpos' : 0 < (n : ℤ).tdiv elemSize := require_eq_ok.mp hpos
  rw [Int.tdiv_eq_ediv_of_nonneg (by omega)] at hpos'
  exact_mod_cast hpos'

theorem tdiv_natCast (m n : ℕ) : (m : ℤ).tdiv n = ((m / n : ℕ) : ℤ) := by
  rw [Int.tdiv_eq_ediv_of_nonneg (Int.natCast_nonneg m)]
  exact (Int.natCast_ediv m n).symm

theorem wrap32_natCast {m : ℕ} (h : m < 2 ^ 31) : wrap32 m = m :=
  wrap32_of_lt (by omega) (by omega)

theorem growRunSize_eq (hps : k.sizes.pageShifts = ps) {r : ℕ} (hr : r + 2 ^ ps < 2 ^ 31) :
    PoolChunk.growRunSize k size r =
      if (r + 2 ^ ps) / size < 2 ^ (ps - 4) ∧ ¬ size ∣ r + 2 ^ ps then
        .ok (.inl ((r + 2 ^ ps : ℕ) : ℤ))
      else .ok (.inr ((r + 2 ^ ps : ℕ) : ℤ)) := by
  have hsum : wrap32 ((r : ℤ) + 2 ^ k.sizes.pageShifts) = ((r + 2 ^ ps : ℕ) : ℤ) := by
    rw [hps, ← wrap32_natCast hr]
    push_cast
    rfl
  have hmul : ((r + 2 ^ ps : ℕ) : ℤ) ≠ (((r + 2 ^ ps) / size : ℕ) : ℤ) * size ↔
      ¬ size ∣ r + 2 ^ ps := by
    rw [← Int.natCast_mul, Ne, Int.natCast_inj, Nat.dvd_iff_div_mul_eq, eq_comm]
  have hlt : (((r + 2 ^ ps) / size : ℕ) : ℤ) < 2 ^ (k.sizes.pageShifts - 4) ↔
      (r + 2 ^ ps) / size < 2 ^ (ps - 4) := by
    rw [hps]
    exact_mod_cast Iff.rfl
  simp only [PoolChunk.growRunSize, hsum, tdiv_natCast, hmul, hlt]

/-- The first loop, when `l` is the least multiple of page size and element size. -/
theorem run_growRunSize (hps : k.sizes.pageShifts = ps) (hl : l < 2 ^ 31) (hpage : 2 ^ ps ∣ l)
    (hn : l = n * size) (hpos : 0 < size) (hmax : n ≤ 2 ^ (ps - 4))
    (hfirst : ∀ r, 0 < r → 2 ^ ps ∣ r → size ∣ r → l ≤ r) (fuel r : ℕ) (hr : 2 ^ ps ∣ r) (hlt : r < l)
    (hfuel : l ≤ r + fuel * 2 ^ ps) :
    Loop.run (PoolChunk.growRunSize k size) fuel r = .ok (l : ℤ) := by
  induction fuel generalizing r with
  | zero => omega
  | succ fuel ih =>
    have hP := Nat.two_pow_pos ps
    have hnext : 2 ^ ps ∣ r + 2 ^ ps := Nat.dvd_add hr (dvd_refl _)
    have hle : r + 2 ^ ps ≤ l := by
      have := Nat.le_of_dvd (by omega) (Nat.dvd_sub hpage hr)
      omega
    have hbody : PoolChunk.growRunSize k size r = _ := growRunSize_eq hps (by omega)
    by_cases hlast : r + 2 ^ ps = l
    · have hdvd : size ∣ r + 2 ^ ps := ⟨n, by rw [hlast, hn, mul_comm]⟩
      rw [if_neg (fun h => h.2 hdvd), hlast] at hbody
      exact Loop.run_done hbody fuel
    · have hnot : ¬ size ∣ r + 2 ^ ps := fun hd => hlast (le_antisymm hle (hfirst _ (by omega) hnext hd))
      have hcount : (r + 2 ^ ps) / size < 2 ^ (ps - 4) := by
        refine lt_of_lt_of_le ((Nat.div_lt_iff_lt_mul hpos).mpr ?_) hmax
        omega
      rw [if_pos ⟨hcount, hnot⟩] at hbody
      rw [Loop.run_next hbody]
      refine ih _ hnext (by omega) ?_
      rw [Nat.succ_mul] at hfuel
      omega

theorem run_shrinkRunSize (hps : k.sizes.pageShifts = ps) (hmax : l / size ≤ 2 ^ (ps - 4)) (fuel : ℕ) :
    Loop.run (PoolChunk.shrinkRunSize k size) (fuel + 1) l = .ok (l : ℤ) := by
  have hbody : PoolChunk.shrinkRunSize k size l = .ok (.inr (l : ℤ)) := by
    have hle : ¬ ((l / size : ℕ) : ℤ) > 2 ^ (k.sizes.pageShifts - 4) := by
      rw [hps, not_lt]
      exact_mod_cast hmax
    simp only [PoolChunk.shrinkRunSize, tdiv_natCast, hle, if_false]
  exact Loop.run_done hbody fuel

theorem Small.searchRunSize {o a : ℕ} (h : Small ps size o a) (hps : k.sizes.pageShifts = ps)
    (h4 : 4 ≤ ps) (hl : Nat.lcm (2 ^ ps) size < 2 ^ 31) :
    PoolChunk.searchRunSize k size = .ok (Nat.lcm (2 ^ ps) size : ℤ) := by
  obtain ⟨n, hn, hn0, hmax⟩ := h.elements h4
  have hpos := h.pos
  have hP := Nat.two_pow_pos ps
  have hsize : Nat.lcm (2 ^ ps) size ≤ size * 2 ^ ps :=
    Nat.le_of_dvd (Nat.mul_pos hpos hP) (Nat.lcm_dvd (dvd_mul_left _ _) (dvd_mul_right _ _))
  have hgrow := run_growRunSize hps hl (Nat.dvd_lcm_left _ _) hn hpos hmax
    (fun r hr h1 h2 => Nat.le_of_dvd hr (Nat.lcm_dvd h1 h2)) (size + 1) 0 (dvd_zero _)
    (Nat.lcm_pos hP hpos) (by rw [Nat.succ_mul]; omega)
  have hcount : Nat.lcm (2 ^ ps) size / size ≤ 2 ^ (ps - 4) := by
    rw [hn, Nat.mul_div_cancel _ hpos]
    exact hmax
  have hshrink := run_shrinkRunSize hps hcount (Nat.lcm (2 ^ ps) size)
  unfold PoolChunk.searchRunSize
  rw [show (0 : ℤ) = ((0 : ℕ) : ℤ) from rfl, hgrow]
  exact hshrink

theorem searchRunSize_lt {r : ℤ} (h : PoolChunk.searchRunSize k size = .ok r) : r < 2 ^ 31 := by
  obtain ⟨grown, hgrow, hshrink⟩ := bind_eq_ok.mp h
  have hgrown : grown < 2 ^ 31 := by
    refine Loop.run_invariant (I := fun _ => True) (Q := fun r : ℤ => r < 2 ^ 31)
      (fun _ _ _ _ => trivial) (fun r r' _ hbody => ?_) trivial hgrow
    rcases growRunSize_cases (k := k) size r with hcase | hcase <;> rw [hcase] at hbody <;>
      cases hbody
    exact wrap32_lt _
  refine Loop.run_invariant (I := fun r : ℤ => r < 2 ^ 31) (Q := fun r : ℤ => r < 2 ^ 31)
    (fun r r' hr hbody => ?_) (fun r r' hr hbody => ?_) hgrown hshrink
  all_goals
    rcases shrinkRunSize_cases (k := k) size r with hcase | hcase <;> rw [hcase] at hbody <;>
      cases hbody
  · have : (0 : ℤ) < 2 ^ k.sizes.pageShifts := by positivity
    linarith
  · exact hr

/-- The run for elements of class `i` is cut into elements without a rest. -/
structure WastesNothing (k : Config) (i size : ℕ) : Prop where
  loops : PoolChunk.searchRunSize k size = .ok (Nat.lcm (2 ^ k.sizes.pageShifts) size : ℤ)
  pages : Nat.lcm (2 ^ k.sizes.pageShifts) size ≤ 7 * 2 ^ k.sizes.pageShifts
  elements : Nat.lcm (2 ^ k.sizes.pageShifts) size / size ≤ 2 ^ k.sizes.pageShifts / 16
  asserts : 8 * 2 ^ k.sizes.pageShifts ≤ k.sizes.chunkSize →
    PoolChunk.calculateRunSize k i = .ok (Nat.lcm (2 ^ k.sizes.pageShifts) size)

theorem Small.calculateRunSize {i o a : ℕ} (h : Small ps size o a) (hps : k.sizes.pageShifts = ps)
    (h4 : 4 ≤ ps) (hsize : k.sizes.sizeIdx2size i = .ok size) (hl : Nat.lcm (2 ^ ps) size < 2 ^ 31)
    (hchunk : Nat.lcm (2 ^ ps) size ≤ k.sizes.chunkSize) :
    PoolChunk.calculateRunSize k i = .ok (Nat.lcm (2 ^ ps) size) := by
  obtain ⟨n, hn, hn0, -⟩ := h.elements h4
  have hpos := h.pos
  have hge : size ≤ Nat.lcm (2 ^ ps) size := by
    rw [hn]
    exact Nat.le_mul_of_pos_left size hn0
  have hdiv : 0 < Nat.lcm (2 ^ ps) size / size := Nat.div_pos hge hpos
  have h1 : (Nat.lcm (2 ^ ps) size : ℤ).tdiv size > 0 := by
    rw [tdiv_natCast]
    exact_mod_cast hdiv
  have h2 : (Nat.lcm (2 ^ ps) size : ℤ) ≤ k.sizes.chunkSize := by exact_mod_cast hchunk
  have h3 : (Nat.lcm (2 ^ ps) size : ℤ) ≥ size := by exact_mod_cast hge
  exact bind_eq_ok.mpr ⟨size, hsize, bind_eq_ok.mpr ⟨_, h.searchRunSize hps h4 hl,
    bind_eq_ok.mpr ⟨(), require_eq_ok.mpr h1, bind_eq_ok.mpr ⟨(), require_eq_ok.mpr h2,
      bind_eq_ok.mpr ⟨(), require_eq_ok.mpr h3, rfl⟩⟩⟩⟩⟩

theorem Small.wastesNothing_iff_lt {i o a : ℕ} (h : Small ps size o a) (hps : k.sizes.pageShifts = ps)
    (h4 : 4 ≤ ps) (hsize : k.sizes.sizeIdx2size i = .ok size) (hchunk : k.sizes.chunkSize ≤ 2 ^ 30) :
    WastesNothing k i size ↔ Nat.lcm (2 ^ ps) size < 2 ^ 31 := by
  subst hps
  constructor
  · intro hw
    have hlt := searchRunSize_lt hw.loops
    omega
  · intro hl
    obtain ⟨n, hn, -, hmax⟩ := h.elements h4
    have hle := h.lcm_le
    refine ⟨h.searchRunSize rfl h4 hl, hle, ?_, fun h8 => ?_⟩
    · rw [hn, Nat.mul_div_cancel _ h.pos]
      refine hmax.trans (Nat.le_of_eq ?_)
      rw [show 16 = 2 ^ 4 by norm_num, Nat.pow_div h4 (by norm_num)]
    · exact h.calculateRunSize rfl h4 hsize hl (by omega)

end

section

variable {pageSize maxOrder chunkSize pageShifts : ℤ}

theorem wastesNothing_iff (hint : pageSize < 2 ^ 31)
    (hc : validateAndCalculateChunkSize pageSize maxOrder = .ok chunkSize)
    (hp : validateAndCalculatePageShifts pageSize = .ok pageShifts) (k : Config)
    (hk : SizeClasses.make pageShifts.toNat chunkSize.toNat = .ok k.sizes) (i : ℕ)
    (hi : i ≤ k.sizes.smallMaxSizeIdx) :
    ∃ size, k.sizes.sizeIdx2size i = .ok size ∧
      (WastesNothing k i size ↔ oddPart size * 2 ^ pageShifts.toNat < 2 ^ 31) := by
  obtain ⟨g, s, hps, rfl, hs, made⟩ := exists_made hint hc hp
  rw [hps, Int.toNat_natCast, hs] at hk
  obtain rfl := Except.ok.inj hk
  have h12 := g.pageShifts_ge
  have hle := g.chunk_le
  have hsub := made.nSubpages
  have hn := made.nSizes
  rw [made.smallMaxSizeIdx] at hi
  obtain ⟨o, a, h⟩ := small_sizeAt (i := i) h12 (by omega)
  have hsize : sizeAt i ≤ 2 ^ 30 := by
    have hlast := made.sizeAt_last
    have hmono := sizeAt_strictMono.monotone (show i ≤ k.sizes.nSizes - 1 by omega)
    have := g.chunkSize_le
    omega
  refine ⟨sizeAt i, made.sizeIdx2size (by omega), ?_⟩
  rw [hps, ← h.lcm_lt_iff (by omega) hsize]
  exact h.wastesNothing_iff_lt made.pageShifts (by omega) (made.sizeIdx2size (by omega))
    (by rw [made.chunkSize]; exact g.chunkSize_le)

theorem wastesNothing_default : ∃ (k : Config) (size : ℕ), SizeClasses.make 13 16777216 = .ok k.sizes ∧
    k.sizes.sizeIdx2size 6 = .ok size ∧ WastesNothing k 6 size := by
  obtain ⟨s, hs, made⟩ := make_spec .ofDefaults
  have hsmall : 6 ≤ s.smallMaxSizeIdx := by
    rw [made.smallMaxSizeIdx, made.nSubpages]
    norm_num [Geometry.ofDefaults]
  obtain ⟨size, hsize, hiff⟩ := wastesNothing_iff (by norm_num) validate_default.1 validate_default.2
    ⟨s, fun _ => 0, fun _ => 0, 0, 0, 0, 0⟩ hs 6 hsmall
  have h112 : s.sizeIdx2size 6 = .ok (sizeAt 6) := made.sizeIdx2size (by rw [made.nSizes]; norm_num [Geometry.ofDefaults])
  obtain rfl : sizeAt 6 = size := Except.ok.inj (h112.symm.trans hsize)
  exact ⟨⟨s, fun _ => 0, fun _ => 0, 0, 0, 0, 0⟩, sizeAt 6, hs, hsize, hiff.mpr (by decide)⟩

end

/-- With pages of half a gigabyte the sum passes the largest `int` at four pages and is back at zero
after eight. -/
theorem searchRunSize_halfGigabyte {k : Config} (hps : k.sizes.pageShifts = 29) :
    PoolChunk.searchRunSize k 80 = .ok 0 := by
  have hbody : ∀ r, PoolChunk.growRunSize k 80 r =
      if (wrap32 (r + 536870912)).tdiv 80 < 33554432 ∧
          wrap32 (r + 536870912) ≠ (wrap32 (r + 536870912)).tdiv 80 * 80 then
        .ok (.inl (wrap32 (r + 536870912)))
      else .ok (.inr (wrap32 (r + 536870912))) := by
    intro r
    simp only [PoolChunk.growRunSize, hps]
    norm_num
  have hgrow : Loop.run (PoolChunk.growRunSize k 80) (80 + 1) 0 = .ok 0 := by
    rw [funext hbody]
    rfl
  have hshrink : PoolChunk.shrinkRunSize k 80 0 = .ok (.inr 0) := by
    simp only [PoolChunk.shrinkRunSize, hps]
    rfl
  unfold PoolChunk.searchRunSize
  rw [hgrow]
  exact Loop.run_done hshrink 0

theorem runSize_overflows : ∃ k : Config,
    validateAndCalculateChunkSize 536870912 0 = .ok 536870912 ∧
    validateAndCalculatePageShifts 536870912 = .ok 29 ∧
    SizeClasses.make 29 536870912 = .ok k.sizes ∧ 4 ≤ k.sizes.smallMaxSizeIdx ∧
    k.sizes.sizeIdx2size 4 = .ok 80 ∧ PoolChunk.searchRunSize k 80 = .ok 0 ∧
    ¬ WastesNothing k 4 80 := by
  obtain ⟨s, hs, made⟩ := make_spec ⟨29, 0, by norm_num, by norm_num, by norm_num⟩
  have hsmall : 4 ≤ s.smallMaxSizeIdx := by
    rw [made.smallMaxSizeIdx, made.nSubpages]
    norm_num
  have hsize : s.sizeIdx2size 4 = .ok 80 := made.sizeIdx2size (by rw [made.nSizes]; norm_num)
  have hsearch : PoolChunk.searchRunSize ⟨s, fun _ => 0, fun _ => 0, 0, 0, 0, 0⟩ 80 = .ok 0 :=
    searchRunSize_halfGigabyte made.pageShifts
  refine ⟨⟨s, fun _ => 0, fun _ => 0, 0, 0, 0, 0⟩, by decide, by decide, hs, hsmall, hsize, hsearch,
    fun hw => ?_⟩
  have heq : (0 : ℤ) = (Nat.lcm (2 ^ s.pageShifts) 80 : ℕ) :=
    Except.ok.inj (hsearch.symm.trans hw.loops)
  have hpos := Nat.lcm_pos (Nat.two_pow_pos s.pageShifts) (show 0 < 80 by norm_num)
  omega

end Mutty.Buffer
