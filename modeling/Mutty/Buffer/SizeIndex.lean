import Mathlib.Order.Bounds.Defs
import Mutty.Buffer.SizeTables

/-!
# Sizes and indices

Between a size and its class there are four pieces of code: the table of the classes, the lookup
table for small sizes, the bit computations of an index, and the rounding of `normalizeSize`. For
every geometry that the allocator accepts they agree. Above the chunk size only the rounding is left,
and it is done in 32 bits.
-/

namespace Mutty.Buffer

open Mutty.Lib

namespace SizeClasses

variable {s : SizeClasses} {g : Geometry}

/-! ### Rounding -/

theorem roundUp_eq {n d : ℕ} (hn : 1 ≤ n) (hd : 0 < d) :
    (n + (d - 1)) / d * d = ((n - 1) / d + 1) * d := by
  rw [show n + (d - 1) = n - 1 + d by omega, Nat.add_div_right _ hd]

theorem wrap32_of_lt {x : ℤ} (h0 : -2 ^ 31 ≤ x) (h : x < 2 ^ 31) : wrap32 x = x := by
  unfold wrap32
  omega

theorem wrap32_lt (x : ℤ) : wrap32 x < 2 ^ 31 := by
  unfold wrap32
  omega

theorem dvd_wrap32 {ps : ℕ} (hps : ps ≤ 31) {x : ℤ} (hx : (2 : ℤ) ^ ps ∣ x) :
    (2 : ℤ) ^ ps ∣ wrap32 x := by
  have h31 : (2 : ℤ) ^ ps ∣ 2 ^ 31 := pow_dvd_pow 2 hps
  have h32 : (2 : ℤ) ^ ps ∣ 2 ^ 32 := pow_dvd_pow 2 (by omega)
  unfold wrap32
  rw [Int.emod_def]
  exact Int.dvd_sub (Int.dvd_sub (Int.dvd_add hx h31) (h32.mul_right _)) h31

/-- The reduction to 32 bits does not show in the leading zeros. -/
theorem log2_wrap32_sub (x y : ℤ) : log2 (wrap32 x - y) = log2 (x - y) := by
  have hmod : (wrap32 x - y) % 2 ^ 32 = (x - y) % 2 ^ 32 := by
    unfold wrap32
    omega
  simp only [log2, numberOfLeadingZeros, hmod]

theorem normalizeSizeCompute_of_le {n c : ℕ} (hc : c < 31) (hlt : 2 ^ c < 2 * n) (hle : n ≤ 2 ^ c) :
    normalizeSizeCompute n =
      (((n - 1) / 2 ^ (if c < 7 then 4 else c - 3) + 1) * 2 ^ (if c < 7 then 4 else c - 3) : ℕ) := by
  have hn : 1 ≤ n := by
    have := Nat.two_pow_pos c
    omega
  have hx : log2 (wrap32 ((n : ℤ) * 2) - 1) = c := by
    rw [log2_wrap32_sub]
    exact log2_double_sub_one hc hlt hle
  have hdelta : (if (c : ℤ) < 2 + 4 + 1 then 4 else ((c : ℤ) - 2 - 1).toNat) =
      if c < 7 then 4 else c - 3 := by
    split_ifs <;> omega
  simp only [normalizeSizeCompute, hx, hdelta]
  set e := if c < 7 then 4 else c - 3 with he
  have hsmall : 2 ^ e ≤ 2 ^ 28 := by
    refine Nat.pow_le_pow_right (by norm_num) ?_
    rw [he]
    split_ifs <;> omega
  have hbound : n ≤ 2 ^ 30 := hle.trans (Nat.pow_le_pow_right (by norm_num) (by omega))
  have hpos := Nat.two_pow_pos e
  have hsum : (n : ℤ) + (2 ^ e - 1) = ((n + (2 ^ e - 1) : ℕ) : ℤ) := by
    rw [Nat.cast_add, Nat.cast_sub hpos]
    push_cast
    rfl
  rw [hsum, wrap32_of_lt (by omega) (by omega), ← roundUp_eq hn hpos]
  push_cast
  rfl

theorem normalizeSizeCompute_eq_sizeAt {n i : ℕ} (h1 : 1 ≤ n) (hn : n ≤ 2 ^ 30)
    (h : IsCeil sizeAt n i) : normalizeSizeCompute n = sizeAt i := by
  obtain ⟨c, hlt, hle⟩ := exists_clog h1
  have hc : c < 31 := (Nat.pow_lt_pow_iff_right (a := 2) (by norm_num)).mp (by omega)
  rw [normalizeSizeCompute_of_le hc hlt hle]
  by_cases hsmall : c < 7
  · -- the first group has steps of 16
    have hfirst : 2 ^ c ≤ 2 ^ 6 := Nat.pow_le_pow_right (by norm_num) (by omega)
    have hsize : ∀ j < 4, sizeAt j = (j + 1) * 16 := fun j hj => if_pos hj
    have hceil : IsCeil sizeAt n ((n - 1) / 16) := by
      refine .of_pred sizeAt_strictMono ?_ fun hpos => ?_
      · rw [hsize _ (by omega)]
        omega
      · rw [hsize _ (by omega)]
        omega
    rw [h.unique hceil, hsize _ (by omega), if_pos hsmall]
    norm_num
  · obtain ⟨-, hceil, hsize⟩ := isCeil_quarter (not_lt.mp hsmall) hlt hle
    rw [h.unique hceil, hsize, if_neg hsmall]

theorem Made.normalizeSize (h : Made s g) {size i : ℕ} (h1 : 1 ≤ size) (h2 : size ≤ g.chunkSize)
    (hi : s.size2SizeIdx size = .ok i) : s.normalizeSize size = .ok (sizeAt i) := by
  obtain ⟨j, hj, hceil, hlt⟩ := h.size2SizeIdx h1 h2
  obtain rfl : i = j := Except.ok.inj (hi.symm.trans hj)
  have hcompute := normalizeSizeCompute_eq_sizeAt h1 (h2.trans g.chunkSize_le) hceil
  have hne : (size : ℤ) ≠ 0 := by omega
  simp only [SizeClasses.normalizeSize, if_neg hne]
  by_cases hsmall : (size : ℤ) ≤ s.lookupMaxSize
  · rw [SizeClasses.size2SizeIdx, if_neg (by omega), if_neg (by rw [h.chunkSize]; omega),
      if_pos (by exact_mod_cast hsmall)] at hi
    rw [if_pos hsmall, if_neg (by omega), Int.toNat_natCast, hi]
    exact bind_eq_ok.mpr ⟨i, rfl, bind_eq_ok.mpr ⟨_, h.sizeIdx2size hlt,
      bind_eq_ok.mpr ⟨(), require_eq_ok.mpr hcompute.symm, rfl⟩⟩⟩
  · rw [if_neg hsmall, hcompute]
    rfl

/-- The step is 256 MiB here, and the sum may leave the 32 bits. -/
theorem normalizeSizeCompute_of_gt {n : ℕ} (h : 2 ^ 30 < n) (h' : n < 2 ^ 31) :
    normalizeSizeCompute n =
      if n ≤ 2 ^ 31 - 2 ^ 28 then (((n - 1) / 2 ^ 28 + 1) * 2 ^ 28 : ℤ) else -2 ^ 31 := by
  have hx : log2 (wrap32 ((n : ℤ) * 2) - 1) = 31 := by
    have hcast : (n : ℤ) * 2 - 1 = ((2 * n - 1 : ℕ) : ℤ) := by omega
    rw [log2_wrap32_sub, hcast, log2_eq (k := 31) (by norm_num) (by omega) (by omega)]
    rfl
  have hdelta : (if (31 : ℤ) < 2 + 4 + 1 then 4 else ((31 : ℤ) - 2 - 1).toNat) = 28 := by decide
  simp only [normalizeSizeCompute, hx, hdelta]
  unfold wrap32
  split_ifs with hle <;> omega

/-- Above the chunk size, rounding up works as long as the next multiple of 256 MiB is an `int`. -/
theorem normalizeSizeCompute_of_huge {n : ℕ} (h : 4096 < n) (h' : n < 2 ^ 31) :
    (n : ℤ) ≤ normalizeSizeCompute n ↔ n ≤ 2 ^ 31 - 2 ^ 28 := by
  by_cases hn : n ≤ 2 ^ 30
  · obtain ⟨c, hlt, hle⟩ := exists_clog (show 1 ≤ n by omega)
    have hc : c < 31 := (Nat.pow_lt_pow_iff_right (a := 2) (by norm_num)).mp (by omega)
    have hc12 : 12 < c := (Nat.pow_lt_pow_iff_right (a := 2) (by norm_num)).mp (by omega)
    obtain ⟨-, hceil, hsize⟩ := isCeil_quarter (by omega) hlt hle
    have hround : n ≤ ((n - 1) / 2 ^ (c - 3) + 1) * 2 ^ (c - 3) := by
      rw [← hsize]
      exact hceil.le
    rw [normalizeSizeCompute_of_le hc hlt hle, if_neg (by omega)]
    exact iff_of_true (by exact_mod_cast hround) (by omega)
  · rw [normalizeSizeCompute_of_gt (by omega) h']
    split_ifs with hle
    · exact iff_of_true (by omega) hle
    · exact iff_of_false (by omega) hle

theorem normalizeSizeCompute_lt (size : ℤ) : normalizeSizeCompute size < 2 ^ 31 := by
  have hwrap : ∀ x : ℤ, wrap32 x < 2 ^ 31 := by
    intro x
    unfold wrap32
    omega
  have hpos : ∀ n : ℕ, (0 : ℤ) < 2 ^ n := fun n => by positivity
  exact (Int.ediv_mul_le _ (hpos _).ne').trans_lt (hwrap _)

theorem Made.normalizeSize_of_gt (h : Made s g) {size : ℤ} (hsize : g.chunkSize < size) :
    s.normalizeSize size = .ok (normalizeSizeCompute size) := by
  have hchunk := g.le_chunkSize
  have hmax := h.lookupMaxSize
  rw [SizeClasses.normalizeSize, if_neg (by omega), if_neg (by omega)]
  rfl

/-! ### Lookups -/

theorem getElem?_range_map {α : Type*} {f : ℕ → α} {N j : ℕ} {a : α} :
    ((List.range N).map f)[j]? = some a ↔ j < N ∧ f j = a := by
  rw [List.getElem?_map, Option.map_eq_some_iff]
  constructor
  · intro h
    obtain ⟨i, hi, rfl⟩ := h
    obtain ⟨hlt, hij⟩ := List.getElem?_eq_some_iff.mp hi
    rw [List.getElem_range] at hij
    subst hij
    exact ⟨by simpa using hlt, rfl⟩
  · intro h
    exact ⟨j, List.getElem?_range h.1, h.2⟩

theorem fetch_range_eq_ok {f : ℕ → ℕ} {N j m : ℕ} :
    fetch ((List.range N).map f) j = .ok m ↔ j < N ∧ f j = m :=
  fetch_eq_ok.trans getElem?_range_map

theorem isLeast_fetch {f : ℕ → ℕ} {N n i : ℕ} (h : IsCeil f n i) (hi : i < N) :
    IsLeast {j | ∃ m, fetch ((List.range N).map f) j = .ok m ∧ n ≤ m} i := by
  refine ⟨⟨f i, fetch_range_eq_ok.mpr ⟨hi, rfl⟩, h.le⟩, ?_⟩
  intro j hj
  obtain ⟨m, hm, hle⟩ := hj
  obtain ⟨-, rfl⟩ := fetch_range_eq_ok.mp hm
  by_contra hlt
  exact absurd hle (not_le.mpr (h.lt j (not_le.mp hlt)))

theorem isGreatest_fetch {f : ℕ → ℕ} {N n i : ℕ} (h : IsFloor f n i) (hi : i < N) :
    IsGreatest {j | ∃ m, fetch ((List.range N).map f) j = .ok m ∧ m ≤ n} i := by
  refine ⟨⟨f i, fetch_range_eq_ok.mpr ⟨hi, rfl⟩, h.le⟩, ?_⟩
  intro j hj
  obtain ⟨m, hm, hle⟩ := hj
  obtain ⟨-, rfl⟩ := fetch_range_eq_ok.mp hm
  by_contra hlt
  exact absurd hle (not_le.mpr (h.lt j (not_le.mp hlt)))

theorem IsCeil.mul_right {f : ℕ → ℕ} {n i d : ℕ} (h : IsCeil f n i) (hd : 0 < d) :
    IsCeil (fun k => f k * d) (n * d) i :=
  ⟨Nat.mul_le_mul_right d h.le, fun u hu => Nat.mul_lt_mul_of_pos_right (h.lt u hu) hd⟩

theorem IsFloor.mul_right {f : ℕ → ℕ} {n i d : ℕ} (h : IsFloor f n i) (hd : 0 < d) :
    IsFloor (fun k => f k * d) (n * d) i :=
  ⟨Nat.mul_le_mul_right d h.le, fun u hu => Nat.mul_lt_mul_of_pos_right (h.lt u hu) hd⟩

/-! ### Closed forms -/

theorem sizeIdx2sizeCompute_eq (i : ℕ) : sizeIdx2sizeCompute i = sizeAt i := by
  have hdiv : i >>> 2 = i / 4 := Nat.shiftRight_eq_div_pow i 2
  simp only [sizeIdx2sizeCompute, hdiv]
  by_cases hi : i < 4
  · rw [sizeAt, if_pos hi, if_pos (by omega), if_pos (by omega), Nat.shiftLeft_eq,
      Nat.mod_eq_of_lt hi]
    norm_num
  · rw [sizeAt, if_neg hi, if_neg (by omega), if_neg (by omega)]
    simp only [Nat.shiftLeft_eq, show i / 4 + 4 - 1 = i / 4 + 3 by omega]
    rw [pow_add]
    ring

theorem Made.pageIdx2sizeCompute_eq (h : Made s g) (k : ℕ) :
    s.pageIdx2sizeCompute k = pageAt k * 2 ^ g.pageShifts := by
  have hdiv : k >>> 2 = k / 4 := Nat.shiftRight_eq_div_pow k 2
  simp only [pageIdx2sizeCompute, hdiv, h.pageShifts]
  by_cases hk : k < 4
  · rw [pageAt, if_pos hk, if_pos (by omega), if_pos (by omega), Nat.shiftLeft_eq,
      Nat.mod_eq_of_lt hk, Nat.add_sub_cancel_left, Nat.zero_add]
  · obtain ⟨e, he⟩ : ∃ e, k / 4 = e + 1 := ⟨k / 4 - 1, by omega⟩
    rw [pageAt, if_neg hk, if_neg (by omega), if_neg (by omega), he]
    simp only [Nat.shiftLeft_eq, Nat.add_sub_cancel,
      show g.pageShifts + 2 - 1 = g.pageShifts + 1 by omega,
      show e + 1 + g.pageShifts - 1 = e + g.pageShifts by omega]
    rw [pow_add, pow_add, pow_add]
    ring

theorem make_rows (h : make g.pageShifts g.chunkSize = .ok s) :
    s.sizeClasses = (List.range s.nSizes).map (rowAt g.pageShifts) := by
  obtain ⟨t, ht, htab, -⟩ := sizeClassesLoop_spec (K := g.pageShifts + g.order) g.pageShifts_ge
    (Nat.le_add_right _ _) g.chunk_le
  obtain ⟨u, hu, hrest⟩ := bind_eq_ok.mp h
  obtain rfl : t = u := Except.ok.inj (ht.symm.trans hu)
  obtain ⟨tab, -, hs⟩ := bind_eq_ok.mp hrest
  obtain rfl := Except.ok.inj hs
  show t.sizeClasses = (List.range t.nSizes).map _
  rw [htab.nSizes]
  exact htab.rows

theorem make_isSubpage_iff (h : make g.pageShifts g.chunkSize = .ok s) (made : Made s g) {i : ℕ}
    {c : SizeClass} (hc : s.sizeClasses[i]? = some c) :
    c.isSubpage = true ↔ i ≤ s.smallMaxSizeIdx := by
  rw [make_rows h] at hc
  obtain ⟨hi, rfl⟩ := getElem?_range_map.mp hc
  have hps := g.pageShifts_ge
  have hsub := made.nSubpages
  have hmax := made.smallMaxSizeIdx
  rw [(rowAt_flags g.pageShifts i hps).1]
  rw [made.nSizes] at hi
  omega

/-! ### For every accepted geometry -/

theorem validate_default : validateAndCalculateChunkSize 8192 11 = .ok 16777216 ∧
    validateAndCalculatePageShifts 8192 = .ok 13 := by
  decide

variable {pageSize maxOrder chunkSize pageShifts : ℤ}

theorem exists_made (hint : pageSize < 2 ^ 31)
    (hc : validateAndCalculateChunkSize pageSize maxOrder = .ok chunkSize)
    (hp : validateAndCalculatePageShifts pageSize = .ok pageShifts) :
    ∃ (g : Geometry) (s : SizeClasses), pageShifts.toNat = g.pageShifts ∧
      chunkSize = g.chunkSize ∧ make g.pageShifts g.chunkSize = .ok s ∧ Made s g := by
  obtain ⟨g, hps, hcs⟩ := exists_geometry hint hc hp
  obtain ⟨s, hs, made⟩ := make_spec g
  exact ⟨g, s, by omega, hcs, hs, made⟩

/-- The class of a size is the least one that holds it, and it is the size that the request is rounded
up to. -/
theorem size2SizeIdx_isLeast (hint : pageSize < 2 ^ 31)
    (hc : validateAndCalculateChunkSize pageSize maxOrder = .ok chunkSize)
    (hp : validateAndCalculatePageShifts pageSize = .ok pageShifts) :
    ∃ s, make pageShifts.toNat chunkSize.toNat = .ok s ∧
      s.sizeIdx2sizeTab.Pairwise (· < ·) ∧ s.sizeIdx2sizeTab.getLast? = some chunkSize.toNat ∧
      ∀ size : ℕ, 1 ≤ size → size ≤ chunkSize → ∃ i n, s.size2SizeIdx size = .ok i ∧
        IsLeast {j | ∃ m, s.sizeIdx2size j = .ok m ∧ size ≤ m} i ∧
        s.sizeIdx2size i = .ok n ∧ s.normalizeSize size = .ok n := by
  obtain ⟨g, s, hps, rfl, hs, made⟩ := exists_made hint hc hp
  refine ⟨s, hps ▸ hs, ?_, ?_, ?_⟩
  · rw [made.sizes, List.pairwise_map]
    exact List.pairwise_lt_range.imp fun h => sizeAt_strictMono h
  · have hn : s.nSizes = s.nSizes - 1 + 1 := by
      have := made.nSizes
      have := g.pageShifts_ge
      omega
    rw [made.sizes, hn, List.range_succ, List.map_append, List.map_singleton,
      List.getLast?_concat, made.sizeAt_last]
    rfl
  · intro size h1 h2
    obtain ⟨i, hi, hceil, hlt⟩ := made.size2SizeIdx h1 (by omega)
    refine ⟨i, sizeAt i, hi, ?_, made.sizeIdx2size hlt, made.normalizeSize h1 (by omega) hi⟩
    simp only [SizeClasses.sizeIdx2size, made.sizes]
    exact isLeast_fetch hceil hlt

theorem size2SizeIdx_isLeast_default : ∃ s, make 13 16777216 = .ok s ∧
    s.sizeIdx2sizeTab.getLast? = some 16777216 ∧ ∃ i n, s.size2SizeIdx 4097 = .ok i ∧
      IsLeast {j | ∃ m, s.sizeIdx2size j = .ok m ∧ 4097 ≤ m} i ∧
      s.sizeIdx2size i = .ok n ∧ s.normalizeSize 4097 = .ok n := by
  obtain ⟨s, hs, -, hlast, h⟩ :=
    size2SizeIdx_isLeast (by norm_num) validate_default.1 validate_default.2
  exact ⟨s, hs, hlast, h 4097 (by norm_num) (by norm_num)⟩

theorem pages2pageIdx_isLeast_isGreatest (hint : pageSize < 2 ^ 31)
    (hc : validateAndCalculateChunkSize pageSize maxOrder = .ok chunkSize)
    (hp : validateAndCalculatePageShifts pageSize = .ok pageShifts) :
    ∃ s, make pageShifts.toNat chunkSize.toNat = .ok s ∧
      (∀ pages : ℕ, 1 ≤ pages → pages ≤ chunkSize.toNat >>> pageShifts.toNat → ∃ k l : ℕ,
        (s.pages2pageIdx pages = .ok k ∧ k < s.nPSizes ∧
          IsLeast {j | ∃ m, s.pageIdx2size j = .ok m ∧ pages <<< pageShifts.toNat ≤ m} k) ∧
        (s.pages2pageIdxFloor pages = .ok l ∧ l < s.nPSizes ∧
          IsGreatest {j | ∃ m, s.pageIdx2size j = .ok m ∧ m ≤ pages <<< pageShifts.toNat} l)) ∧
      ∀ request run : ℕ, 1 ≤ request → request ≤ chunkSize.toNat >>> pageShifts.toNat →
        1 ≤ run → run ≤ chunkSize.toNat >>> pageShifts.toNat → ∀ k l : ℤ,
          s.pages2pageIdx request = .ok k → s.pages2pageIdxFloor run = .ok l → k ≤ l →
            request ≤ run := by
  obtain ⟨g, s, hps, rfl, hs, made⟩ := exists_made hint hc hp
  have hpages : (g.chunkSize : ℤ).toNat >>> pageShifts.toNat = g.pages := by
    rw [Int.toNat_natCast, Nat.shiftRight_eq_div_pow, hps, g.chunkSize_eq,
      Nat.mul_div_cancel _ (Nat.two_pow_pos _)]
  rw [hpages]
  have hpos := Nat.two_pow_pos g.pageShifts
  refine ⟨s, hps ▸ hs, ?_, ?_⟩
  · intro pages h1 h2
    obtain ⟨k, hceil, hk, hkok, -⟩ := made.pages2pageIdx h1 h2
    obtain ⟨l, hlok, hfloor, hl⟩ := made.pages2pageIdxFloor h1 h2
    simp only [pageIdx2size, made.pageSizes, hps, Nat.shiftLeft_eq]
    exact ⟨k, l, ⟨hkok, hk, isLeast_fetch (hceil.mul_right hpos) hk⟩,
      hlok, hl, isGreatest_fetch (hfloor.mul_right hpos) hl⟩
  · intro request run h1 h2 h1' h2' k l hk hl hkl
    obtain ⟨k', hceil, -, hkok, -⟩ := made.pages2pageIdx h1 h2
    obtain ⟨l', hlok, hfloor, -⟩ := made.pages2pageIdxFloor h1' h2'
    obtain rfl := Except.ok.inj (hk.symm.trans hkok)
    obtain rfl := Except.ok.inj (hl.symm.trans hlok)
    calc request ≤ pageAt k' := hceil.le
      _ ≤ pageAt l' := pageAt_strictMono.monotone (by omega)
      _ ≤ run := hfloor.le

theorem pages2pageIdx_default : ∃ s, make 13 16777216 = .ok s ∧ ∃ k l : ℕ,
    (s.pages2pageIdx 9 = .ok k ∧ k < s.nPSizes ∧
      IsLeast {j | ∃ m, s.pageIdx2size j = .ok m ∧ 9 <<< 13 ≤ m} k) ∧
    (s.pages2pageIdxFloor 9 = .ok l ∧ l < s.nPSizes ∧
      IsGreatest {j | ∃ m, s.pageIdx2size j = .ok m ∧ m ≤ 9 <<< 13} l) := by
  obtain ⟨s, hs, h, -⟩ :=
    pages2pageIdx_isLeast_isGreatest (by norm_num) validate_default.1 validate_default.2
  exact ⟨s, hs, h 9 (by norm_num) (by decide)⟩

theorem closed_forms_eq_tables (hint : pageSize < 2 ^ 31)
    (hc : validateAndCalculateChunkSize pageSize maxOrder = .ok chunkSize)
    (hp : validateAndCalculatePageShifts pageSize = .ok pageShifts) :
    ∃ s, make pageShifts.toNat chunkSize.toNat = .ok s ∧
      (∀ i < s.nSizes, s.sizeIdx2size i = .ok (sizeIdx2sizeCompute i)) ∧
      (∀ k < s.nPSizes, s.pageIdx2size k = .ok (s.pageIdx2sizeCompute k)) ∧
      (∀ i c, s.sizeClasses[i]? = some c → (c.isSubpage = true ↔ i ≤ s.smallMaxSizeIdx)) ∧
      s.nSubpages = s.smallMaxSizeIdx + 1 ∧ s.smallMaxSizeIdx < s.nSizes ∧
      ∀ i n, s.smallMaxSizeIdx < i → s.sizeIdx2size i = .ok n → 2 ^ pageShifts.toNat ∣ n := by
  obtain ⟨g, s, hps, rfl, hs, made⟩ := exists_made hint hc hp
  have hge := g.pageShifts_ge
  have hsub := made.nSubpages
  have hmax := made.smallMaxSizeIdx
  have hn := made.nSizes
  refine ⟨s, hps ▸ hs, ?_, ?_, fun i c hrow => make_isSubpage_iff hs made hrow, by omega,
    by omega, ?_⟩
  · intro i hi
    rw [sizeIdx2sizeCompute_eq]
    exact made.sizeIdx2size hi
  · intro k hk
    rw [made.pageIdx2sizeCompute_eq, pageIdx2size, made.pageSizes]
    exact fetch_range_eq_ok.mpr ⟨hk, rfl⟩
  · intro i n hi hok
    rw [SizeClasses.sizeIdx2size, made.sizes] at hok
    obtain ⟨hlt, rfl⟩ := fetch_range_eq_ok.mp hok
    rw [hps, ← made.pageShifts]
    exact made.dvd_sizeAt hi hlt

theorem closed_forms_eq_tables_default : ∃ s, make 13 16777216 = .ok s ∧
    s.nSubpages = s.smallMaxSizeIdx + 1 ∧
    ∀ i < s.nSizes, s.sizeIdx2size i = .ok (sizeIdx2sizeCompute i) := by
  obtain ⟨s, hs, hsize, -, -, hsub, -⟩ :=
    closed_forms_eq_tables (by norm_num) validate_default.1 validate_default.2
  exact ⟨s, hs, hsub, hsize⟩

theorem normalizeSize_huge (hint : pageSize < 2 ^ 31)
    (hc : validateAndCalculateChunkSize pageSize maxOrder = .ok chunkSize)
    (hp : validateAndCalculatePageShifts pageSize = .ok pageShifts) :
    ∃ s, make pageShifts.toNat chunkSize.toNat = .ok s ∧
      ∀ size : ℤ, chunkSize < size → size ≤ 2 ^ 31 - 1 →
        ∃ r, s.normalizeSize size = .ok r ∧ (size ≤ r ↔ size ≤ 2 ^ 31 - 2 ^ 28) := by
  obtain ⟨g, s, hps, rfl, hs, made⟩ := exists_made hint hc hp
  refine ⟨s, hps ▸ hs, ?_⟩
  intro size hlt hle
  have hchunk := g.le_chunkSize
  refine ⟨_, made.normalizeSize_of_gt hlt, ?_⟩
  lift size to ℕ using by omega
  rw [normalizeSizeCompute_of_huge (by omega) (by omega)]
  omega

theorem normalizeSize_huge_default : ∃ s, make 13 16777216 = .ok s ∧
    ∃ r, s.normalizeSize 16785408 = .ok r ∧ 16785408 ≤ r := by
  obtain ⟨s, hs, h⟩ := normalizeSize_huge (by norm_num) validate_default.1 validate_default.2
  obtain ⟨r, hr, hiff⟩ := h 16785408 (by norm_num) (by norm_num)
  exact ⟨s, hs, r, hr, hiff.mpr (by norm_num)⟩

theorem normalizeSize_intMax : ∃ s, make 13 16777216 = .ok s ∧
    s.normalizeSize 2147483647 = .ok (-2147483648) ∧ ¬ (2147483647 : ℤ) ≤ -2147483648 := by
  obtain ⟨g, s, hps, hcs, hs, made⟩ :=
    exists_made (by norm_num) validate_default.1 validate_default.2
  have hcs' : g.chunkSize = 16777216 := by omega
  refine ⟨s, ?_, ?_, by norm_num⟩
  · rw [← hcs', show 13 = g.pageShifts from hps]
    exact hs
  · have hcompute := normalizeSizeCompute_of_gt (n := 2147483647) (by norm_num) (by norm_num)
    rw [if_neg (by norm_num)] at hcompute
    rw [made.normalizeSize_of_gt (by omega)]
    exact congrArg _ hcompute

end SizeClasses

end Mutty.Buffer
