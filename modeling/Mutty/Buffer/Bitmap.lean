import Mathlib.Algebra.Order.Ring.Int
import Mathlib.Data.List.Perm.Subperm
import Mutty.Buffer.PoolSubpage

/-!
# The search for a free element

As long as an element of a subpage is free, its hint or the search through the words of its bitmap
finds one: the bits past the last element are clear, but they are found only when all elements
before them are in use.
-/

namespace Mutty.Buffer.PoolSubpage

open Mutty.Lib

variable {p p' : PoolSubpage} {i e : ℕ} {es : List ℕ}

/-- The bitmap has a bit for each element. -/
structure Roomy (p : PoolSubpage) : Prop where
  pos : 0 < p.elemSize
  some_elem : 0 < p.maxNumElems
  words : p.maxNumElems ≤ 64 * p.bitmapLength
  last : 64 * p.bitmapLength < p.maxNumElems + 64
  room : p.bitmapLength ≤ p.bitmap.length

/-- The elements `es` are in use, and the hint is one of the others. -/
structure Tracks (p : PoolSubpage) (es : List ℕ) : Prop where
  elements : Elements p es
  roomy : Roomy p
  hint : p.nextAvail = -1 ∨ ∃ i : ℕ, p.nextAvail = i ∧ (i : ℤ) < p.maxNumElems ∧ i ∉ es

/-! ### Words -/

theorem getLsbD_sshiftRight_one {bits : BitVec 64} {j : ℕ} (hj : j + 1 < 64) :
    (bits.sshiftRight 1).getLsbD j = bits.getLsbD (j + 1) := by
  rw [BitVec.getLsbD_sshiftRight, if_pos (by omega), Nat.add_comm 1 j]
  simp only [show ¬ 64 ≤ j by omega, decide_false, Bool.not_false, Bool.true_and]

theorem exists_clear_iff {bits : BitVec 64} :
    ~~~bits ≠ 0 ↔ ∃ j < 64, bits.getLsbD j = false := by
  constructor
  · intro hne
    by_contra hall
    refine hne (BitVec.eq_of_getLsbD_eq fun j hj => ?_)
    have hset : bits.getLsbD j = true := Bool.eq_true_of_not_eq_false fun hclear =>
      hall ⟨j, hj, hclear⟩
    rw [BitVec.getLsbD_not, hset]
    simp
  · rintro ⟨j, hj, hclear⟩ heq
    have hbit := congrArg (·.getLsbD j) heq
    simp only [BitVec.getLsbD_not, hclear, hj, decide_true, Bool.not_false, Bool.and_self] at hbit
    simp at hbit

/-- The loop over one word stops at the first clear bit. -/
theorem findNextAvail0From_spec (i : ℤ) {n : ℕ} {bits : BitVec 64} (hn : n ≤ 64)
    (hclear : ∃ j < n, bits.getLsbD j = false) :
    ∃ j < n, bits.getLsbD j = false ∧ (∀ l < j, bits.getLsbD l = true) ∧
      p.findNextAvail0From i n bits =
        if i * 64 + (64 - n + j) < p.maxNumElems then i * 64 + (64 - n + j) else -1 := by
  induction n generalizing bits with
  | zero =>
    obtain ⟨j, hj, -⟩ := hclear
    omega
  | succ n ih =>
    cases hzero : bits.getLsbD 0 with
    | false =>
      refine ⟨0, by omega, hzero, fun l hl => absurd hl (by omega), ?_⟩
      rw [findNextAvail0From, if_pos hzero]
      simp only [Nat.cast_add, Nat.cast_one, Nat.cast_zero, add_zero,
        show (63 - n : ℤ) = 64 - (n + 1) by ring]
    | true =>
      obtain ⟨j, hj, hbit⟩ := hclear
      have hj0 : j ≠ 0 := by
        rintro rfl
        rw [hzero] at hbit
        cases hbit
      have hshift : ∃ j < n, (bits.sshiftRight 1).getLsbD j = false :=
        ⟨j - 1, by omega, by rw [getLsbD_sshiftRight_one (by omega), Nat.sub_add_cancel (by omega), hbit]⟩
      obtain ⟨l, hl, hclear, hbefore, hfind⟩ := ih (by omega) hshift
      rw [getLsbD_sshiftRight_one (by omega)] at hclear
      refine ⟨l + 1, by omega, hclear, fun m hm => ?_, ?_⟩
      · cases m with
        | zero => exact hzero
        | succ m =>
          rw [← getLsbD_sshiftRight_one (by omega)]
          exact hbefore m (by omega)
      · rw [findNextAvail0From, if_neg (by simp [hzero]), hfind]
        simp only [Nat.cast_add, Nat.cast_one,
          show (64 - n + l : ℤ) = 64 - (n + 1) + (l + 1) by ring]

theorem bit_eq_getLsbD {w : BitVec 64} (hw : p.bitmap[i / 64]? = some w) :
    p.bit i = w.getLsbD (i % 64) := by
  rw [bit, hw]
  rfl

theorem findNextAvailFrom_spec {n : ℕ} (hroom : i + n ≤ p.bitmap.length)
    (hfrom : 64 * i ≤ e) (hbefore : e < 64 * (i + n)) (hmax : (e : ℤ) < p.maxNumElems)
    (hfree : p.bit e = false) :
    ∃ k : ℕ, p.findNextAvailFrom n i = .ok (k : ℤ) ∧ (k : ℤ) < p.maxNumElems ∧
      p.bit k = false := by
  induction n generalizing i with
  | zero => omega
  | succ n ih =>
    have hi : i < p.bitmap.length := by omega
    have hget := List.getElem?_eq_getElem hi
    have hword : p.word i = .ok p.bitmap[i] := by
      rw [word, if_pos (Int.natCast_nonneg i), Int.toNat_natCast, fetch_eq_ok]
      exact hget
    simp only [findNextAvailFrom, hword, bind, Except.bind]
    by_cases hclear : ~~~p.bitmap[i] ≠ 0
    · rw [if_pos hclear]
      obtain ⟨j, hj, hbit, hall, hfind⟩ := findNextAvail0From_spec (p := p) i le_rfl
        (exists_clear_iff.mp hclear)
      have hat : p.bit (64 * i + j) = false := by
        rw [bit_eq_getLsbD (w := p.bitmap[i]) (by rw [show (64 * i + j) / 64 = i by omega]; exact hget),
          show (64 * i + j) % 64 = j by omega]
        exact hbit
      -- the first clear bit of the word comes no later than the element
      have hle : 64 * i + j ≤ e := by
        by_contra hlt
        have hdiv : e / 64 = i := by omega
        have hset := hall (e % 64) (by omega)
        rw [bit_eq_getLsbD (w := p.bitmap[i]) (by rw [hdiv]; exact hget), hset] at hfree
        cases hfree
      refine ⟨64 * i + j, ?_, by push_cast; omega, hat⟩
      rw [findNextAvail0, hfind, if_pos (by push_cast; omega)]
      simp only [pure, Except.pure]
      push_cast
      ring_nf
    · rw [if_neg hclear]
      have hnot : ¬ e / 64 = i := by
        intro hdiv
        refine hclear (exists_clear_iff.mpr ⟨e % 64, by omega, ?_⟩)
        rw [← bit_eq_getLsbD (w := p.bitmap[i]) (by rw [hdiv]; exact hget)]
        exact hfree
      have hnext := ih (i := i + 1) (by omega) (by omega) (by omega)
      rwa [Nat.cast_add, Nat.cast_one] at hnext

/-! ### Elements -/

theorem exists_free (h : Elements p es) (hn : 0 < p.numAvail) :
    ∃ e : ℕ, (e : ℤ) < p.maxNumElems ∧ p.bit e = false := by
  by_contra hall
  have hmem : ∀ e : ℕ, (e : ℤ) < p.maxNumElems → e ∈ es := by
    intro e he
    rw [← h.bits]
    exact Bool.eq_true_of_not_eq_false fun hclear => hall ⟨e, he, hclear⟩
  have hcount := h.count
  have hsub : List.range p.maxNumElems.toNat ⊆ es := fun e he =>
    hmem e (by have := List.mem_range.mp he; omega)
  have hle := (List.nodup_range.subperm hsub).length_le
  rw [List.length_range] at hle
  omega

theorem Elements.mem_of_full (h : Elements p es) (hn : p.numAvail = 0) (hi : (i : ℤ) < p.maxNumElems) :
    i ∈ es := by
  by_contra hfree
  have hsub : i :: es ⊆ List.range p.maxNumElems.toNat := by
    intro e he
    rcases List.mem_cons.mp he with rfl | he
    · exact List.mem_range.mpr (by omega)
    · exact List.mem_range.mpr (by have := h.lt e he; omega)
  have hle := ((List.nodup_cons.mpr ⟨hfree, h.nodup⟩).subperm hsub).length_le
  rw [List.length_range, List.length_cons] at hle
  have hcount := h.count
  omega

theorem Tracks.numAvail_nonneg (h : Tracks p es) : 0 ≤ p.numAvail := by
  have hsub : es ⊆ List.range p.maxNumElems.toNat := fun e he =>
    List.mem_range.mpr (by have := h.elements.lt e he; omega)
  have hle := (h.elements.nodup.subperm hsub).length_le
  rw [List.length_range] at hle
  have hcount := h.elements.count
  have hpos := h.roomy.some_elem
  omega

def setBits (p : PoolSubpage) : ℕ := (List.range (64 * p.bitmap.length)).countP p.bit

theorem Elements.setBits_eq (h : Elements p es) : p.setBits = es.length := by
  rw [setBits, List.countP_eq_length_filter]
  refine List.Perm.length_eq ((List.perm_ext_iff_of_nodup (List.nodup_range.filter _) h.nodup).mpr ?_)
  intro i
  rw [List.mem_filter, h.bits, List.mem_range, and_iff_right_iff_imp]
  intro hi
  rw [← h.bits, bit] at hi
  by_contra hge
  rw [List.getElem?_eq_none (by omega)] at hi
  cases hi

variable {k : ℤ}

theorem Tracks.lt_room (h : Tracks p es) (hi : (i : ℤ) < p.maxNumElems) :
    i / 64 < p.bitmap.length := by
  have := h.roomy.words
  have := h.roomy.room
  omega

theorem word_of_lt (hi : i / 64 < p.bitmap.length) :
    p.word ((i : ℤ) / 64) = .ok p.bitmap[i / 64] := by
  rw [word, if_pos (by omega), show ((i : ℤ) / 64).toNat = i / 64 by omega, fetch_eq_ok]
  exact List.getElem?_eq_getElem hi

theorem Tracks.getNextAvail (h : Tracks p es) (hn : 0 < p.numAvail) :
    ∃ i : ℕ, p.getNextAvail = .ok ((i : ℤ), { p with nextAvail := -1 }) ∧
      (i : ℤ) < p.maxNumElems ∧ i ∉ es := by
  rcases h.hint with hnone | ⟨i, hi, hlt, hfree⟩
  · obtain ⟨e, he, hclear⟩ := exists_free h.elements hn
    have hwords := h.roomy.words
    have hroom := h.roomy.room
    obtain ⟨i, hi, hlt, hbit⟩ := findNextAvailFrom_spec (i := 0) (n := p.bitmapLength.toNat)
      (by omega) (by omega) (by omega) he hclear
    refine ⟨i, ?_, hlt, ?_⟩
    · rw [PoolSubpage.getNextAvail, if_neg (by omega)]
      have hsame : { p with nextAvail := -1 } = p := by rw [← hnone]
      simp only [findNextAvail, Nat.cast_zero] at hi ⊢
      simp only [hi, bind, Except.bind, pure, Except.pure, hsame]
    · rw [← h.elements.bits, hbit]
      simp
  · refine ⟨i, ?_, hlt, hfree⟩
    rw [PoolSubpage.getNextAvail, if_pos (by omega), hi]
    rfl

theorem Tracks.setBit (h : Tracks p es) (hi : (i : ℤ) < p.maxNumElems) (hfree : i ∉ es) :
    ∃ p', PoolSubpage.setBit { p with nextAvail := -1 } i = .ok p' ∧
      p'.bitmap.length = p.bitmap.length := by
  have hroom := h.lt_room hi
  have hclear : p.bitmap[i / 64].getLsbD (i % 64) = false := by
    rw [← bit_eq_getLsbD (List.getElem?_eq_getElem hroom)]
    exact Bool.eq_false_of_not_eq_true fun hset => hfree ((h.elements.bits i).mp hset)
  have hword := word_of_lt (p := { p with nextAvail := -1 }) hroom
  simp only [PoolSubpage.setBit, hword, bind, Except.bind, require,
    show ((i : ℤ) % 64).toNat = i % 64 by omega, if_pos hclear, pure, Except.pure]
  exact ⟨_, rfl, List.length_set⟩

theorem Tracks.clearBit (h : Tracks p es) (hi : i ∈ es) :
    ∃ p', p.clearBit i = .ok p' ∧ p'.bitmap.length = p.bitmap.length := by
  have hroom := h.lt_room (h.elements.lt i hi)
  have hset : p.bitmap[i / 64].getLsbD (i % 64) = true := by
    rw [← bit_eq_getLsbD (List.getElem?_eq_getElem hroom)]
    exact (h.elements.bits i).mpr hi
  simp only [PoolSubpage.clearBit, word_of_lt hroom, bind, Except.bind, require,
    show ((i : ℤ) % 64).toNat = i % 64 by omega, if_pos hset, pure, Except.pure]
  exact ⟨_, rfl, List.length_set⟩

theorem Roomy.of_eq (h : Roomy p) (hsame : SameRun p p') (hlen : p'.bitmap.length = p.bitmap.length)
    (hwords : p'.bitmapLength = p.bitmapLength) : Roomy p' where
  pos := by
    rw [hsame.elemSize]
    exact h.pos
  some_elem := by
    rw [hsame.maxNumElems]
    exact h.some_elem
  words := by
    rw [hsame.maxNumElems, hwords]
    exact h.words
  last := by
    rw [hsame.maxNumElems, hwords]
    exact h.last
  room := by
    rw [hwords, hlen]
    exact h.room

theorem Tracks.take (h : Tracks p es) (hn : 0 < p.numAvail) :
    ∃ (i : ℕ) (p₁ p₂ : PoolSubpage), p.getNextAvail = .ok ((i : ℤ), p₁) ∧
      p₁.setBit i = .ok p₂ ∧ (i : ℤ) < p.maxNumElems ∧ i ∉ es ∧
      Tracks { p₂ with numAvail := p₂.numAvail - 1 } (i :: es) := by
  obtain ⟨i, hget, hlt, hfree⟩ := h.getNextAvail hn
  obtain ⟨p₂, hset, hlen⟩ := h.setBit hlt hfree
  obtain ⟨j, hj, -, helems, hsame, -⟩ := h.elements.take hn.ne' hget hset
  obtain rfl : i = j := by exact_mod_cast hj
  obtain ⟨-, -, -, hp₂, -⟩ := setBit_eq_ok hset
  refine ⟨i, _, p₂, hget, hset, hlt, hfree, helems, ?_, .inl ?_⟩
  · refine h.roomy.of_eq ⟨hsame.chunk, hsame.pageShifts, hsame.runOffset, hsame.runSize,
      hsame.elemSize, hsame.maxNumElems⟩ hlen ?_
    show p₂.bitmapLength = p.bitmapLength
    rw [hp₂]
  · show p₂.nextAvail = -1
    rw [hp₂]

theorem Tracks.give (h : Tracks p (i :: es)) :
    ∃ p', p.clearBit i = .ok p' ∧ p'.numAvail = p.numAvail ∧
      Tracks { p' with nextAvail := i, numAvail := p'.numAvail + 1 } es := by
  obtain ⟨p', hclear, hlen⟩ := h.clearBit List.mem_cons_self
  obtain ⟨helems, hsame, -, havail⟩ := h.elements.give hclear
  obtain ⟨-, -, -, hp', -⟩ := clearBit_eq_ok hclear
  have hmax : p'.maxNumElems = p.maxNumElems := hsame.maxNumElems
  refine ⟨p', hclear, havail, helems, ?_, .inr ⟨i, rfl, ?_, ?_⟩⟩
  · refine h.roomy.of_eq ⟨hsame.chunk, hsame.pageShifts, hsame.runOffset, hsame.runSize,
      hsame.elemSize, hsame.maxNumElems⟩ hlen ?_
    show p'.bitmapLength = p.bitmapLength
    rw [hp']
  · show (i : ℤ) < p'.maxNumElems
    rw [hmax]
    exact h.elements.lt i List.mem_cons_self
  · exact (List.nodup_cons.mp h.elements.nodup).1

theorem Tracks.perm {es' : List ℕ} (h : Tracks p es) (hp : es.Perm es') : Tracks p es' :=
  ⟨h.elements.perm hp, h.roomy, h.hint.imp_right fun ⟨i, hi, hlt, hfree⟩ =>
    ⟨i, hi, hlt, fun hmem => hfree (hp.mem_iff.mpr hmem)⟩⟩

/-- A new subpage: with elements of 16 bytes or more, one bit for each 16 bytes is enough. -/
theorem make_tracks (chunk : ChunkId) (pageShifts : ℕ) (runOffset : ℤ) {runSize elemSize : ℤ}
    (hpos : 0 < runSize) (hdvd : 4096 ∣ runSize) (hmin : 16 ≤ elemSize) (hle : elemSize ≤ runSize) :
    ∃ p, make chunk pageShifts runOffset runSize elemSize = .ok p ∧ Tracks p [] ∧
      p.doNotDestroy = true ∧ p.maxNumElems = runSize / elemSize := by
  have helem : 0 < elemSize := by omega
  have hmax : 0 < runSize / elemSize := by
    have : 1 ≤ runSize / elemSize := (Int.le_ediv_iff_mul_le helem).mpr (by omega)
    omega
  have hsmall : runSize / elemSize ≤ runSize / 16 := by
    refine (Int.le_ediv_iff_mul_le (by norm_num)).mpr ?_
    calc runSize / elemSize * 16 ≤ runSize / elemSize * elemSize :=
          mul_le_mul_of_nonneg_left hmin hmax.le
      _ ≤ runSize := Int.ediv_mul_le _ helem.ne'
  have hroom : runSize / elemSize / 64 + (if runSize / elemSize % 64 ≠ 0 then 1 else 0) ≤
      ((List.replicate (runSize / 2 ^ 10).toNat 0#64).length : ℤ) := by
    rw [List.length_replicate]
    generalize runSize / elemSize = m at hsmall
    split_ifs <;> omega
  obtain ⟨p, hp⟩ : ∃ p, make chunk pageShifts runOffset runSize elemSize = .ok p := by
    simp only [make, if_pos helem.ne', if_pos hroom]
    exact ⟨_, rfl⟩
  obtain ⟨helems, -, -, -, -, hsize, hmaxp, hd⟩ := make_eq_ok hp helem hpos.le
  refine ⟨p, hp, ⟨helems, ?_, ?_⟩, hd, hmaxp⟩
  · simp only [make, if_pos helem.ne', if_pos hroom] at hp
    obtain rfl := Except.ok.inj hp
    refine ⟨helem, hmax, ?_, ?_, hroom⟩
    · simp only
      generalize runSize / elemSize = m
      split_ifs <;> omega
    · simp only
      generalize runSize / elemSize = m
      split_ifs <;> omega
  · simp only [make, if_pos helem.ne', if_pos hroom] at hp
    obtain rfl := Except.ok.inj hp
    exact .inr ⟨0, rfl, hmax, List.not_mem_nil⟩

end Mutty.Buffer.PoolSubpage
