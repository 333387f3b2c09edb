import Mutty.Buffer.PoolSubpage
import Mutty.Buffer.SizeTables

/-!
# What a handle keeps

The chunks that pass the allocator's validation have at most `2 ^ 13` pages, so the offset and the
page count of a run fit into their fields and the sign bit of the handle stays clear. Every field
can then be read back, a flag can be changed without another field changing, and the handles of
runs are ordered by offset, as the queues of free runs assume.
-/

namespace Mutty.Buffer

open Mutty.Lib

/-- What the accessors read. -/
structure Decodes (h : Int64) (runOffset runPages : ℤ) (used subpage : Bool) (bitmapIdx : ℤ) :
    Prop where
  nonneg : 0 ≤ h
  runOffset : calculateRunOffset h = runOffset
  runPages : calculateRunPages h = runPages
  used : isUsed h = used
  subpage : isSubpage h = subpage
  bitmapIdx : calculateBitmapIdx h = bitmapIdx

/-- The fields can be read, also after one of the two flags has been set or cleared. -/
structure Lossless (h : Int64) (runOffset runPages : ℤ) (used subpage : Bool) (bitmapIdx : ℤ) :
    Prop where
  decodes : Decodes h runOffset runPages used subpage bitmapIdx
  markUsed : Decodes (markUsed h) runOffset runPages true subpage bitmapIdx
  clearUsed : Decodes (clearUsed h) runOffset runPages false subpage bitmapIdx
  markSubpage : Decodes (markSubpage h) runOffset runPages used true bitmapIdx
  clearSubpage : Decodes (clearSubpage h) runOffset runPages used false bitmapIdx
  clearFlags : Decodes (clearFlags h) runOffset runPages false false bitmapIdx

section fields

variable {h : Int64} {o p low : ℕ} {u e : Bool}

theorem Fields.decodes (f : Fields h o p u e low) (hlow : low < 2 ^ 31) : Decodes h o p u e low := by
  obtain ⟨hoffset, hpages, hused, hsubpage, hindex⟩ := f.decode
  exact ⟨f.nonneg, hoffset, hpages, hused, hsubpage, hindex hlow⟩

theorem Fields.lossless (f : Fields h o p u e low) (hlow : low < 2 ^ 31) : Lossless h o p u e low where
  decodes := f.decodes hlow
  markUsed := f.markUsed.decodes hlow
  clearUsed := f.clearUsed.decodes hlow
  markSubpage := f.markSubpage.decodes hlow
  clearSubpage := f.clearSubpage.decodes hlow
  clearFlags := f.clearFlags.decodes hlow

end fields

section geometry

variable {g : Geometry} {o p : ℤ} {inUsed : ℤ}

theorem Geometry.exists_run (ho : 0 ≤ o) (hp : 0 < p) (hend : o + p ≤ g.pages) :
    ∃ o' p' : ℕ, o = o' ∧ p = p' ∧ o' < 2 ^ 14 ∧ p' < 2 ^ 15 := by
  have hpages := g.pages_le
  exact ⟨o.toNat, p.toNat, by omega, by omega, by omega, by omega⟩

theorem Geometry.toRunHandle_fields (ho : 0 ≤ o) (hp : 0 < p) (hend : o + p ≤ g.pages)
    (hu : inUsed = 0 ∨ inUsed = 1) :
    ∃ o' p' : ℕ, o = o' ∧ p = p' ∧ Fields (toRunHandle o p inUsed) o' p' (inUsed == 1) false 0 := by
  obtain ⟨o', p', rfl, rfl, ho', hp'⟩ := g.exists_run ho hp hend
  refine ⟨o', p', rfl, rfl, ?_⟩
  have hfields := Buffer.toRunHandle_fields ho' hp' (inUsed == 1)
  rcases hu with rfl | rfl
  · exact hfields
  · exact hfields

theorem Geometry.toRunHandle_lossless (ho : 0 ≤ o) (hp : 0 < p) (hend : o + p ≤ g.pages)
    (hu : inUsed = 0 ∨ inUsed = 1) : Lossless (toRunHandle o p inUsed) o p (inUsed == 1) false 0 := by
  obtain ⟨o', p', hoffset, hpages, f⟩ := g.toRunHandle_fields ho hp hend hu
  rw [hoffset, hpages] at f ⊢
  exact f.lossless (by norm_num)

theorem Geometry.handle_lossless {s : PoolSubpage} {i : ℤ} (hrun : s.runOffset = o)
    (hsize : s.runSize = p * 2 ^ s.pageShifts) (ho : 0 ≤ o) (hp : 0 < p) (hend : o + p ≤ g.pages)
    (h0 : 0 ≤ i) (hi : i < 2 ^ 31) : Lossless (s.handle i) o p true true i := by
  obtain ⟨o', p', rfl, rfl, ho', hp'⟩ := g.exists_run ho hp hend
  obtain ⟨low, rfl⟩ := Int.eq_ofNat_of_zero_le h0
  have hlow : low < 2 ^ 31 := by omega
  have hpages : s.runSize / 2 ^ s.pageShifts = p' := by
    rw [hsize]
    exact Int.mul_ediv_cancel _ (by positivity)
  rw [PoolSubpage.handle, hrun, hpages]
  exact (toHandle_fields ho' hp' (by omega)).lossless hlow

/-- Neither the page count nor a flag can outweigh the offset. -/
theorem Geometry.toRunHandle_lt_iff {o' p' inUsed' : ℤ} (ho : 0 ≤ o) (hp : 0 < p)
    (hend : o + p ≤ g.pages) (hu : inUsed = 0 ∨ inUsed = 1) (ho' : 0 ≤ o') (hp' : 0 < p')
    (hend' : o' + p' ≤ g.pages) (hu' : inUsed' = 0 ∨ inUsed' = 1) (hne : o ≠ o') :
    toRunHandle o p inUsed < toRunHandle o' p' inUsed' ↔ o < o' := by
  obtain ⟨m, n, hm, hn, f⟩ := g.toRunHandle_fields ho hp hend hu
  obtain ⟨m', n', hm', hn', f'⟩ := g.toRunHandle_fields ho' hp' hend' hu'
  constructor
  · intro hlt
    by_contra hge
    have hgt := f'.lt_of_offset_lt f (by omega)
    exact Int64.lt_asymm hlt hgt
  · intro hlt
    exact f.lt_of_offset_lt f' (by omega)

theorem Geometry.pages_eq_shiftRight : ((g.chunkSize : ℕ) : ℤ) >>> g.pageShifts = g.pages := by
  rw [Int.shiftRight_eq_div_pow, g.chunkSize_eq]
  push_cast
  exact Int.mul_ediv_cancel _ (by positivity)

end geometry

/-- In every chunk that the allocator accepts, the handles of runs and of elements of subpages keep
what they are made from. -/
theorem handles_lossless {pageSize maxOrder chunkSize pageShifts : ℤ} (hint : pageSize < 2 ^ 31)
    (hchunk : validateAndCalculateChunkSize pageSize maxOrder = .ok chunkSize)
    (hshifts : validateAndCalculatePageShifts pageSize = .ok pageShifts) {o p : ℤ} (ho : 0 ≤ o)
    (hp : 0 < p) (hend : o + p ≤ chunkSize >>> pageShifts.toNat) :
    chunkSize >>> pageShifts.toNat ≤ 2 ^ 13 ∧
      (∀ inUsed : ℤ, inUsed = 0 ∨ inUsed = 1 →
        Lossless (toRunHandle o p inUsed) o p (inUsed == 1) false 0) ∧
      (∀ (s : PoolSubpage) (i : ℤ), s.runOffset = o → s.runSize = p * 2 ^ s.pageShifts → 0 ≤ i →
        i < 2 ^ 31 → Lossless (s.handle i) o p true true i) ∧
      ∀ o' p' inUsed inUsed' : ℤ, 0 ≤ o' → 0 < p' → o' + p' ≤ chunkSize >>> pageShifts.toNat →
        (inUsed = 0 ∨ inUsed = 1) → (inUsed' = 0 ∨ inUsed' = 1) → o ≠ o' →
        (toRunHandle o p inUsed < toRunHandle o' p' inUsed' ↔ o < o') := by
  obtain ⟨g, rfl, rfl⟩ := exists_geometry hint hchunk hshifts
  rw [Int.toNat_natCast, g.pages_eq_shiftRight] at hend ⊢
  refine ⟨by exact_mod_cast g.pages_le, ?_, ?_, ?_⟩
  · intro inUsed hu
    exact g.toRunHandle_lossless ho hp hend hu
  · intro s i hrun hsize h0 hi
    exact g.handle_lossless hrun hsize ho hp hend h0 hi
  · intro o' p' inUsed inUsed' ho' hp' hend' hu hu' hne
    exact g.toRunHandle_lt_iff ho hp hend hu ho' hp' hend' hu' hne

theorem handles_lossless_last_page : Lossless (toRunHandle 8191 1 0) 8191 1 false false 0 ∧
    toRunHandle 0 8191 0 < toRunHandle 8191 1 0 := by
  have hchunk : validateAndCalculateChunkSize 4096 13 = .ok 33554432 := by decide
  have hshifts : validateAndCalculatePageShifts 4096 = .ok 12 := by decide
  obtain ⟨-, hrun, -, -⟩ := handles_lossless (o := 8191) (p := 1) (by norm_num) hchunk hshifts
    (by norm_num) (by norm_num) (by decide)
  obtain ⟨-, -, -, horder⟩ := handles_lossless (o := 0) (p := 8191) (by norm_num) hchunk hshifts
    (by norm_num) (by norm_num) (by decide)
  exact ⟨hrun 0 (.inl rfl), (horder 8191 1 0 0 (by norm_num) (by norm_num) (by decide) (.inl rfl)
    (.inl rfl) (by norm_num)).mpr (by norm_num)⟩

end Mutty.Buffer
