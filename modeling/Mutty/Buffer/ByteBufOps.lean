import Mutty.Buffer.BufferOps
import Mutty.Buffer.ByteBuf

/-!
# What reading and writing does

Each operation on the bytes or the indices of a buffer keeps `PoolInv` and leaves the other buffers
alone. Writing keeps what is there to be read and puts the new bytes behind it, in the old block or
after a move to another one.
-/

namespace Mutty.Buffer

open Mutty.Lib Prog

variable {k : Config} {g : Geometry} {small plain : Prop} {σ σ' : Pool} {b : BufId}
  {buf new : PooledByteBuf} {u : ThreadId} {c : ChunkId} {x : PoolChunk} {bytes : List UInt8}

/-! ### Growing -/

namespace PooledByteBufAllocator

theorem int32_eq {x : ℤ} (h : IsInt x) : int32 x = .ok x := if_pos h

/-- The loop goes through powers of two, and ends at the first one that is large enough. -/
theorem doubleCapacity_run {minNewCapacity : ℤ} (hlt : minNewCapacity < calculateThreshold) :
    ∃ c, Loop.run (doubleCapacity minNewCapacity) 32 64 = .ok c ∧ minNewCapacity ≤ c ∧
      ∃ e : ℕ, 6 ≤ e ∧ c = 2 ^ e := by
  have hbody : ∀ c : ℤ, (∃ e : ℕ, 6 ≤ e ∧ e ≤ 22 ∧ c = 2 ^ e) →
      (∃ c', doubleCapacity minNewCapacity c = .ok (.inl c') ∧
        (∃ e : ℕ, 6 ≤ e ∧ e ≤ 22 ∧ c' = 2 ^ e) ∧ 22 - Nat.log 2 c'.toNat < 22 - Nat.log 2 c.toNat) ∨
      (∃ r, doubleCapacity minNewCapacity c = .ok (.inr r) ∧ minNewCapacity ≤ r ∧
        ∃ e : ℕ, 6 ≤ e ∧ r = 2 ^ e) := by
    rintro c ⟨e, h6, h22, rfl⟩
    have hlog : ∀ n : ℕ, Nat.log 2 ((2 : ℤ) ^ n).toNat = n := by
      intro n
      rw [show ((2 : ℤ) ^ n).toNat = 2 ^ n from by norm_cast, Nat.log_pow (by norm_num)]
    unfold doubleCapacity
    split_ifs with hmore
    · have he : e < 22 := by
        by_contra hge
        obtain rfl : e = 22 := by omega
        unfold calculateThreshold at hlt
        norm_num at hmore
        omega
      have hsucc : (2 : ℤ) ^ e * 2 = 2 ^ (e + 1) := (pow_succ _ _).symm
      have hint : IsInt (2 ^ (e + 1)) := by
        have hle : (2 : ℤ) ^ (e + 1) ≤ 2 ^ 22 := pow_le_pow_right₀ (by norm_num) (by omega)
        have hpos : (0 : ℤ) < 2 ^ (e + 1) := by positivity
        exact ⟨by omega, by omega⟩
      refine .inl ⟨2 ^ (e + 1), ?_, ⟨e + 1, by omega, by omega, rfl⟩, ?_⟩
      · rw [hsucc, int32_eq hint]
        rfl
      · rw [hlog, hlog]
        omega
    · exact .inr ⟨_, rfl, not_lt.mp hmore, e, h6, rfl⟩
  obtain ⟨c, hrun, hc⟩ := Loop.run_ok (doubleCapacity minNewCapacity) hbody 32 64
    ⟨6, le_refl _, by omega, rfl⟩ (by omega)
  exact ⟨c, hrun, hc⟩

theorem calculateNewCapacity_spec {minNewCapacity maxCapacity : ℤ} (h0 : 0 ≤ minNewCapacity)
    (hle : minNewCapacity ≤ maxCapacity) (hmax : maxCapacity < 2 ^ 31) :
    ∃ c, calculateNewCapacity minNewCapacity maxCapacity = .ok c ∧ minNewCapacity ≤ c ∧
      c ≤ maxCapacity ∧
      (minNewCapacity ≤ calculateThreshold → (∃ e : ℕ, 6 ≤ e ∧ c = 2 ^ e) ∨ c = maxCapacity) ∧
      (calculateThreshold < minNewCapacity → calculateThreshold ∣ c ∨ c = maxCapacity) := by
  have hreq : require (minNewCapacity ≥ 0) = .ok () := require_eq_ok.mpr h0
  have hstart : calculateNewCapacity minNewCapacity maxCapacity =
      if minNewCapacity = calculateThreshold then .ok calculateThreshold
      else if minNewCapacity > calculateThreshold then do
        let newCapacity ← int32 (minNewCapacity / calculateThreshold * calculateThreshold)
        let limit ← int32 (maxCapacity - calculateThreshold)
        if newCapacity > limit then return maxCapacity
        else int32 (newCapacity + calculateThreshold)
      else do
        let newCapacity ← Loop.run (doubleCapacity minNewCapacity) 32 64
        return min newCapacity maxCapacity := by
    rw [calculateNewCapacity, hreq]
    exact if_neg (not_lt.mpr hle)
  rw [hstart]
  rcases lt_trichotomy minNewCapacity calculateThreshold with hlt | heq | hgt
  · rw [if_neg hlt.ne, if_neg (not_lt.mpr hlt.le)]
    obtain ⟨c, hrun, hc, e, he, rfl⟩ := doubleCapacity_run hlt
    rw [hrun]
    refine ⟨min (2 ^ e) maxCapacity, rfl, le_min hc hle, min_le_right _ _, fun _ => ?_, fun hgt => ?_⟩
    · rcases min_choice ((2 : ℤ) ^ e) maxCapacity with hm | hm
      · exact .inl ⟨e, he, hm⟩
      · exact .inr hm
    · exact absurd hlt (not_lt.mpr hgt.le)
  · rw [if_pos heq]
    refine ⟨_, rfl, heq.le, heq ▸ hle, fun _ => .inl ⟨22, by omega, by norm_num [calculateThreshold]⟩,
      fun hgt => absurd heq hgt.ne'⟩
  · rw [if_neg hgt.ne', if_pos hgt]
    -- the multiple below, and the next one
    set m := minNewCapacity / calculateThreshold * calculateThreshold with hm
    have hthreshold : 0 < calculateThreshold := by decide
    have hlow : m ≤ minNewCapacity := Int.ediv_mul_le _ hthreshold.ne'
    have hhigh : minNewCapacity < m + calculateThreshold := by
      have hnext := Int.lt_ediv_add_one_mul_self minNewCapacity hthreshold
      rw [add_mul, one_mul] at hnext
      exact hnext
    have hm0 : 0 ≤ m :=
      mul_nonneg (Int.ediv_nonneg h0 hthreshold.le) hthreshold.le
    rw [int32_eq ⟨by omega, by omega⟩, int32_eq (x := maxCapacity - calculateThreshold) ⟨by omega, by omega⟩]
    show ∃ c, (if m > maxCapacity - calculateThreshold then (.ok maxCapacity : Checked ℤ)
      else int32 (m + calculateThreshold)) = .ok c ∧ _
    split_ifs with hclamp
    · exact ⟨maxCapacity, rfl, hle, le_refl _, fun _ => .inr rfl, fun _ => .inr rfl⟩
    · refine ⟨m + calculateThreshold, int32_eq ⟨by omega, by omega⟩, by omega, by omega, fun hle' => ?_,
        fun _ => .inl ?_⟩
      · exact absurd hgt (not_lt.mpr hle')
      · exact Int.dvd_add (Dvd.intro_left _ hm.symm) (dvd_refl _)

end PooledByteBufAllocator

/-! ### Bytes -/

theorem PoolInv.withMemory (h : PoolInv k g small plain σ) (hx : σ.chunk c = some x)
    (memory : ℤ → UInt8) : PoolInv k g small plain (σ.withMemory c x memory) := by
  refine h.sameBufs rfl rfl (fun buf hbuf c' hc' => ?_) (h.cached.withMemory hx memory)
  obtain ⟨y, hy⟩ := (h.live buf hbuf c' hc').chunk
  obtain ⟨heq, hkept⟩ := withMemory_chunk hx memory c'
  exact ⟨heq, hkept y hy⟩

/-- The bytes are at `p` now, and everything else is as before. -/
structure Stores (p : Pointer) (bytes : List UInt8) (σ σ' : Pool) : Prop where
  bufs : σ'.bufs = σ.bufs
  evolves : Evolves [⟨p.1, p.2, bytes.length⟩] [] σ σ'
  bytes : ∀ y, σ'.chunk p.1 = some y → ∀ i : ℕ, i < bytes.length →
    some (y.memory (p.2 + i)) = bytes[i]?

theorem PoolInv.store (h : PoolInv k g small plain σ) (p : Pointer) (bytes : List UInt8) :
    Ends (store p bytes) σ fun _ σ' => PoolInv k g small plain σ' ∧ Stores p bytes σ σ' := by
  refine ends_bind (ends_getChunk fun x hx => ends_ite (fun _ => ends_update ?_) fun _ => ends_fail _)
  refine ⟨h.withMemory hx _, rfl, evolves_withMemory hx fun i hi => ?_, fun y hy i hi => ?_⟩
  · exact if_neg fun hrange => hi ⟨rfl, hrange⟩
  · obtain rfl := Option.some.inj ((Function.update_self p.1 _ _).symm.trans hy)
    have hindex : (p.2 + i - p.2).toNat = i := by omega
    rw [List.getElem?_eq_getElem hi, Option.some.injEq]
    refine (if_pos ⟨by omega, by omega⟩).trans ?_
    rw [hindex, List.getD_eq_getElem _ _ hi]

/-! ### Writing -/

theorem targetCapacity_ok {n t : ℤ} (h : buf.targetCapacity n = .ok t) :
    0 ≤ n ∧ t = SizeClasses.wrap32 (buf.writerIndex + n) ∧ 0 ≤ t ∧ t ≤ buf.maxCapacity := by
  obtain ⟨_, hn, h⟩ := bind_eq_ok.mp h
  obtain ⟨_, ht, h⟩ := bind_eq_ok.mp h
  rw [require_eq_ok] at hn ht
  obtain rfl := Except.ok.inj h
  exact ⟨hn, rfl, ht⟩

theorem IndexInv.target_eq {n t : ℤ} (hindex : IndexInv buf) (hpos : 0 ≤ buf.length) (hint : n < 2 ^ 31)
    (h : buf.targetCapacity n = .ok t) : t = buf.writerIndex + n := by
  obtain ⟨h0, ht, hpos', -⟩ := targetCapacity_ok h
  have hw := hindex.length hpos
  have hrange := hindex.range
  have hr := hindex.reader
  have hrw := hindex.writer
  rw [ht] at hpos' ⊢
  unfold SizeClasses.wrap32 at hpos' ⊢
  omega

/-- A live buffer has a capacity that a pooled chunk can have. -/
def FitsChunk (k : Config) (buf : PooledByteBuf) : Prop :=
  buf.chunk.isSome = true → 0 ≤ buf.length ∧ buf.length ≤ k.sizes.chunkSize

/-- The capacity is at most `maxCapacity`, unless it is that of a chunk of its own. -/
structure Capped (k : Config) (buf : PooledByteBuf) : Prop where
  nonneg : 0 ≤ buf.maxCapacity
  range : buf.maxCapacity < 2 ^ 31
  length : buf.length ≤ k.sizes.chunkSize → buf.length ≤ buf.maxCapacity

theorem capped_of_size {m : ℤ} (h0 : 0 ≤ buf.maxCapacity) (hrange : buf.maxCapacity < 2 ^ 31)
    (hm : m ≤ buf.maxCapacity) (hlength : m ≤ k.sizes.chunkSize → buf.length = m)
    (hfits : 0 ≤ buf.length → m ≤ buf.length) : Capped k buf := by
  refine ⟨h0, hrange, fun hle => ?_⟩
  by_cases hchunk : m ≤ k.sizes.chunkSize
  · exact (hlength hchunk).trans_le hm
  · by_cases hpos : 0 ≤ buf.length
    · exact absurd ((hfits hpos).trans hle) hchunk
    · omega

theorem Resizes.capped {n : ℤ} (h : Resizes k n buf new) (hcap : Capped k buf) : Capped k new := by
  rcases h.checked with hn | rfl
  · have hmax := h.maxCapacity
    exact capped_of_size (hmax ▸ hcap.nonneg) (hmax ▸ hcap.range) (hmax ▸ hn) h.length h.fits
  · exact hcap

theorem Resizes.request_le {n : ℤ} (h : Resizes k n buf new) (hfit : FitsChunk k new)
    (hlive : buf.chunk.isSome = true) : n ≤ k.sizes.chunkSize := by
  obtain ⟨hpos, hle⟩ := hfit (h.live.trans hlive)
  exact (h.fits hpos).trans hle

/-- Buffer `b` has room for `n` bytes more. -/
structure Grows (k : Config) (g : Geometry) (small plain : Prop) (b : BufId) (n : ℤ)
    (buf new : PooledByteBuf) (σ σ' : Pool) : Prop where
  moves : Moves k g small plain b buf.length buf new σ σ'
  capped : Capped k buf → Capped k new
  maxCapacity : new.maxCapacity = buf.maxCapacity
  live : new.chunk.isSome = buf.chunk.isSome
  readerIndex : new.readerIndex = buf.readerIndex
  writerIndex : new.writerIndex = buf.writerIndex
  nonneg : 0 ≤ n
  length : 0 ≤ buf.length
  fits : 0 ≤ new.length → buf.writerIndex + n ≤ new.length
  target : buf.writerIndex + n ≤ buf.maxCapacity
  grown : new = buf ∨ ∃ m : ℤ, buf.length < buf.writerIndex + n ∧
    (m ≤ k.sizes.chunkSize → new.length = m) ∧
    PooledByteBufAllocator.calculateNewCapacity (buf.writerIndex + n) buf.maxCapacity = .ok m

theorem PoolInv.ensureWritable (made : k.sizes.Made g) (h : PoolInv k g small plain σ)
    (hb : σ.bufs[b]? = some buf) (hmax : buf.maxCapacity < 2 ^ 31) {n : ℤ} (hint : n < 2 ^ 31) :
    Ends (PooledByteBuf.ensureWritable k u b n) σ fun _ σ' =>
      ∃ new, Grows k g (small ∧ FitsChunk k new) plain b n buf new σ σ' := by
  have hindex := h.index buf (List.mem_of_getElem? hb)
  refine ends_bind (ends_getBuf fun buf₀ hb₀ => ends_bind (ends_check fun t ht => ?_))
  obtain rfl : buf = buf₀ := Option.some.inj (hb.symm.trans hb₀)
  obtain ⟨h0, -, hpos, hle⟩ := targetCapacity_ok ht
  refine ends_when (fun hgrow => ends_bind (ends_check fun m hm => ?_)) fun hroom => ?_
  swap
  · have hlen : 0 ≤ buf.length := hpos.trans (not_lt.mp hroom)
    have heq := hindex.target_eq hlen hint ht
    exact ⟨buf, (h.mono And.left).self_moves hb _, fun hcap => hcap, rfl, rfl, rfl, rfl, h0, hlen,
      fun _ => heq ▸ not_lt.mp hroom, heq ▸ hle, .inl rfl⟩
  -- there is not enough room, so that the capacity is calculated
  have hcalc : 0 ≤ buf.length → t = buf.writerIndex + n := fun hlen => hindex.target_eq hlen hint ht
  obtain ⟨m', hm', hlow, hhigh, -⟩ :=
    PooledByteBufAllocator.calculateNewCapacity_spec hpos hle hmax
  have hnot : ¬ buf.writableBytes ≥ n := by
    unfold PooledByteBuf.writableBytes
    have := hindex.reader
    have := hindex.writer
    intro hroom
    have := hcalc (by omega)
    omega
  rw [PooledByteBuf.newCapacity, if_neg hnot] at hm
  obtain rfl : m' = m := Except.ok.inj (hm'.symm.trans hm)
  have hsmall : PoolInv k g (small ∧ (buf.chunk.isSome = true → m' ≤ k.sizes.chunkSize)) plain σ :=
    h.mono And.left
  refine (hsmall.capacity made hb (hhigh.trans_lt hmax) And.right).mono ?_
  rintro _ σ' ⟨new, hres, hmoves⟩
  have hlen := hres.nonneg (hpos.trans hlow)
  have heq := hcalc hlen
  have hw := hindex.length hlen
  have hrw := hindex.writer
  rw [min_eq_left (hgrow.le.trans hlow)] at hmoves
  refine ⟨new, hmoves.mono fun hs => ⟨hs.1, hres.request_le hs.2⟩, hres.capped, hres.maxCapacity, hres.live,
    ?_, ?_, h0, hlen, fun hnew => ?_, heq ▸ hle, .inr ⟨m', heq ▸ hgrow, hres.length, heq ▸ hm⟩⟩
  · rw [hres.readerIndex (hpos.trans hlow), min_eq_left (by omega)]
  · rw [hres.writerIndex (hpos.trans hlow), min_eq_left (by omega)]
  · exact heq ▸ hlow.trans (hres.fits hnew)

/-- Buffer `b`, which was `buf`, is `new` now and has the bytes at its end. -/
structure Wrote (k : Config) (g : Geometry) (small plain : Prop) (b : BufId) (bytes : List UInt8)
    (buf new : PooledByteBuf) (σ σ' : Pool) : Prop where
  inv : PoolInv k g small plain σ'
  bufs : σ'.bufs = σ.bufs.set b new
  capped : Capped k buf → Capped k new
  live : new.chunk.isSome = buf.chunk.isSome
  readerIndex : new.readerIndex = buf.readerIndex
  writerIndex : new.writerIndex = buf.writerIndex + bytes.length
  fits : bytes = [] ∧ new = buf ∨ new.writerIndex ≤ new.length
  kept : ∀ i, 0 ≤ i → i < buf.writerIndex → σ'.byteAt new i = σ.byteAt buf i
  written : ∀ i : ℕ, i < bytes.length → σ'.byteAt new (buf.writerIndex + i) = bytes[i]?
  others : ∀ j, j ≠ b → Intact j σ σ'

theorem Wrote.mono {small' : Prop} (h : Wrote k g small plain b bytes buf new σ σ') (hs : small' → small) :
    Wrote k g small' plain b bytes buf new σ σ' := { h with inv := h.inv.mono hs }

theorem PoolInv.wrote_nil (h : PoolInv k g small plain σ) (hb : σ.bufs[b]? = some buf) :
    Wrote k g small plain b [] buf buf σ σ := by
  have hmoves := h.self_moves hb buf.writerIndex
  exact ⟨h, hmoves.bufs, fun hcap => hcap, rfl, rfl, (add_zero _).symm, .inl ⟨rfl, rfl⟩,
    hmoves.bytes, fun _ hi => absurd hi (Nat.not_lt_zero _), hmoves.others⟩

theorem PoolInv.wrote {σ₁ : Pool} (h : PoolInv k g small plain σ) (hb : σ.bufs[b]? = some buf)
    (hc : buf.chunk = some c) (hfit : buf.writerIndex + bytes.length ≤ buf.length)
    (h₁ : PoolInv k g small plain σ₁) (hst : Stores (c, buf.offset + buf.writerIndex) bytes σ σ₁) :
    Wrote k g small plain b bytes buf { buf with writerIndex := buf.writerIndex + bytes.length } σ
      { σ₁ with bufs := σ₁.bufs.set b { buf with writerIndex := buf.writerIndex + bytes.length } } := by
  set new : PooledByteBuf := { buf with writerIndex := buf.writerIndex + bytes.length } with hnew
  have hmem := List.mem_of_getElem? hb
  have hindex := h.index buf hmem
  have hlen : b < σ.bufs.length := (List.getElem?_eq_some_iff.mp hb).1
  have hb₁ : σ₁.bufs[b]? = some buf := by rw [hst.bufs, hb]
  have hblock₁ := h₁.live buf (List.mem_of_getElem? hb₁) c hc
  have hs : SameBlock buf new := ⟨rfl, rfl, rfl, rfl, rfl⟩
  have hr := hindex.reader
  have hw := hindex.writer
  have hinv : PoolInv k g small plain { σ₁ with bufs := σ₁.bufs.set b new } := by
    refine h₁.keepBlock hb₁ hs ⟨hr, ?_, fun _ => hfit, hindex.range, hindex.maxLength⟩ ?_ ?_
    · show buf.readerIndex ≤ buf.writerIndex + bytes.length
      omega
    · intro c' hc' hblock
      obtain rfl : c = c' := Option.some.inj (hc.symm.trans hc')
      exact hblock.sameBlock hs hblock.tmpBuf hblock.length fun hp => (hblock.pooled hp).length
    · exact fun _ => rfl
  have hbufs : σ₁.bufs.set b new = σ.bufs.set b new := by rw [hst.bufs]
  refine ⟨hinv, hbufs, fun hcap => ⟨hcap.nonneg, hcap.range, hcap.length⟩, rfl, rfl, rfl,
    .inr hfit, fun i h0 hi => ?_, fun i hi => ?_, fun j hj => ?_⟩
  · refine hblock₁.byteAt_eq hst.evolves (h.chunk_lt hmem hc) fun e he hhas => ?_
    obtain rfl := List.mem_singleton.mp he
    have hlo : buf.offset + buf.writerIndex ≤ buf.offset + i := hhas.2.1
    omega
  · obtain ⟨y, hy⟩ := hblock₁.chunk
    have hat : buf.offset + buf.writerIndex + (i : ℤ) = buf.offset + (buf.writerIndex + i) := by omega
    rw [← hst.bytes y hy i hi, hat]
    exact hblock₁.byteAt hy _
  · have hself : (σ₁.bufs.set b new)[b]? = some new := by rw [hbufs, List.getElem?_set_self hlen]
    refine h.intact_of_ne hinv ⟨hst.evolves.count, hst.evolves.chunk, hst.evolves.kept⟩ hself ?_ hj ?_
    · intro e he
      obtain rfl := List.mem_singleton.mp he
      refine ⟨hc, ?_, fun _ => ?_⟩
      · show buf.offset ≤ buf.offset + buf.writerIndex
        omega
      · have := hblock₁.length
        show buf.offset + buf.writerIndex + bytes.length ≤ buf.offset + buf.maxLength
        omega
    · rw [hbufs, List.getElem?_set_ne hj.symm]

theorem Grows.wrote {σ₁ : Pool} {mid : PooledByteBuf} {n : ℤ} {small' : Prop}
    (h : Grows k g small' plain b n buf mid σ σ₁) (hindex : IndexInv buf)
    (h' : Wrote k g small plain b bytes mid new σ₁ σ') (hfit : new.writerIndex ≤ new.length) :
    Wrote k g small plain b bytes buf new σ σ' where
  inv := h'.inv
  bufs := by rw [h'.bufs, h.moves.bufs, List.set_set]
  capped hcap := h'.capped (h.capped hcap)
  live := h'.live.trans h.live
  readerIndex := h'.readerIndex.trans h.readerIndex
  writerIndex := by rw [h'.writerIndex, h.writerIndex]
  fits := .inr hfit
  kept i h0 hi := by
    rw [h'.kept i h0 (h.writerIndex ▸ hi)]
    exact h.moves.bytes i h0 (hi.trans_le (hindex.length h.length))
  written i hi := by
    rw [← h.writerIndex]
    exact h'.written i hi
  others j hj := (h.moves.others j hj).trans (h'.others j hj)

theorem Wrote.append {σ₁ : Pool} {mid : PooledByteBuf} {bytes' : List UInt8}
    {small' : Prop} (h : Wrote k g small' plain b bytes buf mid σ σ₁)
    (h' : Wrote k g small plain b bytes' mid new σ₁ σ') (hpos : 0 ≤ buf.writerIndex) :
    Wrote k g small plain b (bytes ++ bytes') buf new σ σ' where
  inv := h'.inv
  bufs := by rw [h'.bufs, h.bufs, List.set_set]
  capped hcap := h'.capped (h.capped hcap)
  live := h'.live.trans h.live
  readerIndex := h'.readerIndex.trans h.readerIndex
  writerIndex := by
    rw [h'.writerIndex, h.writerIndex, List.length_append]
    push_cast
    omega
  fits := by
    rcases h'.fits with ⟨rfl, rfl⟩ | hfit
    · rw [List.append_nil]
      exact h.fits
    · exact .inr hfit
  kept i h0 hi := by
    have hw := h.writerIndex
    rw [h'.kept i h0 (by omega)]
    exact h.kept i h0 hi
  written i hi := by
    have hw := h.writerIndex
    rw [List.length_append] at hi
    by_cases hlt : i < bytes.length
    · rw [h'.kept _ (by omega) (by omega), h.written i hlt, List.getElem?_append_left hlt]
    · have hat : buf.writerIndex + (i : ℤ) = mid.writerIndex + ((i - bytes.length : ℕ) : ℤ) := by omega
      rw [hat, h'.written _ (by omega), List.getElem?_append_right (not_lt.mp hlt)]
  others j hj := (h.others j hj).trans (h'.others j hj)

theorem ends_deref {α : Type} {o : Option α} {Q : α → Pool → Prop} (h : ∀ a, o = some a → Q a σ) :
    Ends (deref o) σ Q := by
  cases o with
  | none => exact ends_fail _
  | some a => exact ends_pure (h a rfl)

/-- `setBytes` writes to any place where the two views of the block agree about the chunk. -/
theorem PoolInv.setBytes (h : PoolInv k g small plain σ) (hb : σ.bufs[b]? = some buf) (index : ℤ)
    (bytes : List UInt8) :
    Ends (PooledByteBuf.setBytes b index bytes) σ fun _ σ' => PoolInv k g small plain σ' ∧
      SizeClasses.wrap32 (index + bytes.length) ≤ buf.length ∧
      ∃ c, buf.memory = some c ∧ Stores (c, buf.offset + index) bytes σ σ' := by
  refine ends_bind (ends_getBuf fun buf₀ hb₀ => ends_bind (ends_assert fun hfit => ends_bind
    (ends_deref fun c hc => ?_)))
  obtain rfl : buf = buf₀ := Option.some.inj (hb.symm.trans hb₀)
  exact (h.store _ bytes).mono fun _ σ' hend => ⟨hend.1, hfit, c, hc, hend.2⟩

theorem PoolInv.chunk_of_memory (h : PoolInv k g small plain σ) (hbuf : buf ∈ σ.bufs)
    (hmemory : buf.memory = some c) : buf.chunk = some c := by
  cases hc : buf.chunk with
  | none =>
    rw [(h.empty buf hbuf hc).1] at hmemory
    cases hmemory
  | some c' => exact (h.live buf hbuf c' hc).memory.symm.trans hmemory

theorem PoolInv.writeBytes (made : k.sizes.Made g) (h : PoolInv k g small plain σ)
    (hb : σ.bufs[b]? = some buf) (hmax : buf.maxCapacity < 2 ^ 31)
    (hint : (bytes.length : ℤ) < 2 ^ 31) :
    Ends (PooledByteBuf.writeBytes k u b bytes) σ fun _ σ' =>
      ∃ new, Wrote k g (small ∧ FitsChunk k new) plain b bytes buf new σ σ' := by
  refine ends_bind ((h.ensureWritable made hb hmax hint).mono ?_)
  rintro _ σ₁ ⟨mid, hgrow⟩
  have hindex := h.index buf (List.mem_of_getElem? hb)
  have hlen : b < σ.bufs.length := (List.getElem?_eq_some_iff.mp hb).1
  have hmid : σ₁.bufs[b]? = some mid := by
    rw [hgrow.moves.bufs, List.getElem?_set_self hlen]
  refine ends_bind (ends_getBuf fun mid₀ hmid₀ => ?_)
  obtain rfl : mid = mid₀ := Option.some.inj (hmid.symm.trans hmid₀)
  refine ends_bind ((hgrow.moves.inv.setBytes hmid _ bytes).mono ?_)
  rintro _ σ₂ ⟨hinv₂, hfit, c, hc, hst⟩
  have hc' := hgrow.moves.inv.chunk_of_memory (List.mem_of_getElem? hmid) hc
  -- the sum is an `int`, and so the check of `setBytes` is exact
  have hroom : mid.writerIndex + bytes.length ≤ mid.length := by
    have htarget := hgrow.target
    have hr := hindex.reader
    have hw := hindex.writer
    rw [hgrow.writerIndex, SizeClasses.wrap32_of_lt (by omega) (by omega)] at hfit
    rw [hgrow.writerIndex]
    exact hfit
  have hwrote := hgrow.moves.inv.wrote hmid hc' hroom hinv₂ hst
  exact ends_update ⟨_, hgrow.wrote hindex (hwrote.mono fun hs => ⟨hs.1, hs.2⟩) hroom⟩

/-! ### Reading from a descriptor -/

structure Changes (k : Config) (g : Geometry) (small plain : Prop) (b : BufId) (buf new : PooledByteBuf)
    (σ σ' : Pool) : Prop where
  inv : PoolInv k g small plain σ'
  bufs : σ'.bufs = σ.bufs.set b new
  capped : Capped k buf → Capped k new

theorem Changes.mono {small' : Prop} (h : Changes k g small plain b buf new σ σ') (hs : small' → small) :
    Changes k g small' plain b buf new σ σ' := { h with inv := h.inv.mono hs }

theorem Wrote.changes (h : Wrote k g small plain b bytes buf new σ σ') :
    Changes k g small plain b buf new σ σ' := ⟨h.inv, h.bufs, h.capped⟩

theorem Changes.trans {σ₁ : Pool} {mid : PooledByteBuf} {small' : Prop}
    (h : Changes k g small' plain b buf mid σ σ₁) (h' : Changes k g small plain b mid new σ₁ σ') :
    Changes k g small plain b buf new σ σ' :=
  ⟨h'.inv, by rw [h'.bufs, h.bufs, List.set_set], fun hcap => h'.capped (h.capped hcap)⟩

theorem PoolInv.withIndices (h : PoolInv k g small plain σ) (hb : σ.bufs[b]? = some buf) {r w : ℤ}
    (hr : 0 ≤ r) (hrw : r ≤ w) (hw : 0 ≤ buf.length → w ≤ buf.length) :
    Changes k g small plain b buf { buf with readerIndex := r, writerIndex := w } σ
      { σ with bufs := σ.bufs.set b { buf with readerIndex := r, writerIndex := w } } := by
  set new : PooledByteBuf := { buf with readerIndex := r, writerIndex := w } with hnew
  have hindex := h.index buf (List.mem_of_getElem? hb)
  have hs : SameBlock buf new := ⟨rfl, rfl, rfl, rfl, rfl⟩
  refine ⟨h.keepBlock hb hs ⟨hr, hrw, hw, hindex.range, hindex.maxLength⟩ ?_ fun _ => rfl, rfl,
    fun hcap => ⟨hcap.nonneg, hcap.range, hcap.length⟩⟩
  intro c _ hblock
  exact hblock.sameBlock hs hblock.tmpBuf hblock.length fun hp => (hblock.pooled hp).length

theorem PoolInv.beginWrite_eq (h : PoolInv k g small plain σ) (hbuf : buf ∈ σ.bufs) (hp : plain)
    {p : Pointer} (hbegin : beginWrite buf = some p) :
    ∃ c, buf.chunk = some c ∧ p = (c, buf.offset + buf.writerIndex) := by
  unfold beginWrite at hbegin
  cases hc : buf.chunk with
  | none =>
    rw [(h.empty buf hbuf hc).2] at hbegin
    cases hbegin
  | some c =>
    rw [(h.live buf hbuf c hc).tmpBuf hp] at hbegin
    exact ⟨c, rfl, (Option.some.inj hbegin).symm⟩

theorem PoolInv.receive (made : k.sizes.Made g) (h : PoolInv k g small plain σ)
    (hb : σ.bufs[b]? = some buf) (hmax : buf.maxCapacity < 2 ^ 31) {writable : ℕ}
    {received : List UInt8} (hlength : buf.length = buf.writerIndex + writable)
    (hrest : received.length ≤ writable + extraSize) :
    Ends (receive k u b writable received) σ fun _ σ' => ∃ new,
      Changes k g (small ∧ FitsChunk k new) plain b buf new σ σ' ∧
      (plain → Wrote k g (small ∧ FitsChunk k new) plain b received buf new σ σ') := by
  have hmem := List.mem_of_getElem? hb
  have hr := (h.index buf hmem).reader
  have hrw := (h.index buf hmem).writer
  refine ends_bind (ends_getBuf fun buf₀ hb₀ => ends_bind (ends_deref fun p hp => ends_bind
    ((h.store p (received.take writable)).mono ?_)))
  obtain rfl : buf = buf₀ := Option.some.inj (hb.symm.trans hb₀)
  rintro _ σ₁ ⟨h₁, hst⟩
  -- what has gone to the rest of the block
  set first := received.take writable with hfirst
  have hle : first.length ≤ writable := by
    rw [hfirst, List.length_take]
    exact min_le_left _ _
  set mid : PooledByteBuf := { buf with writerIndex := buf.writerIndex + first.length } with hmid
  have hb₁ : σ₁.bufs[b]? = some buf := by rw [hst.bufs, hb]
  have hchanges : Changes k g small plain b buf mid σ { σ₁ with bufs := σ₁.bufs.set b mid } := by
    have hset := h₁.withIndices hb₁ (w := buf.writerIndex + first.length) hr (by omega) (by omega)
    exact ⟨hset.inv, by rw [hset.bufs, hst.bufs], hset.capped⟩
  have hwrote : plain → Wrote k g small plain b first buf mid σ { σ₁ with bufs := σ₁.bufs.set b mid } := by
    intro hplain
    obtain ⟨c, hc, rfl⟩ := h.beginWrite_eq hmem hplain hp
    exact h.wrote hb hc (by omega) h₁ hst
  refine ends_ite (fun hall => ends_update ?_) fun hmore => ends_bind (ends_update ?_)
  · have heq : first = received := List.take_of_length_le hall
    rw [← heq]
    exact ⟨mid, hchanges.mono And.left, fun hplain => (hwrote hplain).mono And.left⟩
  · have hfull : first.length = writable := by
      rw [hfirst, List.length_take]
      omega
    have hrecord : { buf with writerIndex := buf.length } = mid := by rw [hmid, hfull, hlength]
    have hat : (σ₁.bufs.set b mid)[b]? = some mid :=
      List.getElem?_set_self (List.getElem?_eq_some_iff.mp hb₁).1
    have hint : ((received.drop writable).length : ℤ) < 2 ^ 31 := by
      unfold extraSize at hrest
      rw [List.length_drop]
      omega
    rw [hrecord]
    refine (hchanges.inv.writeBytes made hat hmax hint).mono ?_
    rintro _ σ' ⟨new, hnew⟩
    refine ⟨new, hchanges.trans hnew.changes, fun hplain => ?_⟩
    have happend := (hwrote hplain).append hnew (hr.trans hrw)
    rwa [hfirst, List.take_append_drop] at happend

theorem readv_length_le {writableBytes : ℤ} {arrived : Option (List UInt8)} {received : List UInt8}
    (h : readv writableBytes arrived = some received) :
    0 ≤ writableBytes ∧ received.length ≤ writableBytes.toNat + extraSize := by
  unfold readv at h
  split_ifs at h with hneg
  obtain ⟨arrived, -, rfl⟩ := Option.map_eq_some_iff.mp h
  refine ⟨not_lt.mp hneg, (List.length_take_le _ _).trans ?_⟩
  split_ifs <;> omega

/-- `readFd` writes what `readv` reads behind the writer index, if that is where `m_tmpBuf` leads. -/
theorem PoolInv.readFd (made : k.sizes.Made g) (h : PoolInv k g small plain σ)
    (hb : σ.bufs[b]? = some buf) (hmax : buf.maxCapacity < 2 ^ 31) (arrived : Option (List UInt8)) :
    Ends (readFd k u b arrived) σ fun _ σ' => ∃ new,
      Changes k g (small ∧ FitsChunk k new) plain b buf new σ σ' ∧
      (plain → Wrote k g (small ∧ FitsChunk k new) plain b ((readv buf.writableBytes arrived).getD []) buf new
        σ σ') := by
  refine ends_bind (ends_getBuf fun buf₀ hb₀ => ?_)
  obtain rfl : buf = buf₀ := Option.some.inj (hb.symm.trans hb₀)
  cases hread : readv buf.writableBytes arrived with
  | none =>
    have hnil : Wrote k g (small ∧ FitsChunk k buf) plain b [] buf buf σ σ := (h.wrote_nil hb).mono And.left
    exact ends_pure ⟨buf, hnil.changes, fun _ => hnil⟩
  | some received =>
    obtain ⟨hroom, hrest⟩ := readv_length_le hread
    have hlength : buf.length = buf.writerIndex + buf.writableBytes.toNat := by
      unfold PooledByteBuf.writableBytes at hroom ⊢
      omega
    exact ends_bind ((h.receive made hb hmax hlength hrest).mono fun _ σ' hend => ends_pure hend)

/-! ### Retrieving -/

structure Takes (k : Config) (g : Geometry) (small plain : Prop) (b : BufId) (len : ℕ)
    (buf new : PooledByteBuf) (σ σ' : Pool) : Prop where
  changes : Changes k g small plain b buf new σ σ'
  live : new.chunk = buf.chunk
  length : new.length = buf.length
  readable : (len : ℤ) ≤ buf.readableBytes
  some_left : (len : ℤ) < buf.readableBytes →
    new.readerIndex = buf.readerIndex + len ∧ new.writerIndex = buf.writerIndex
  none_left : (len : ℤ) = buf.readableBytes → new.readerIndex = 0 ∧ new.writerIndex = 0
  bytes : ∀ i, σ'.byteAt new i = σ.byteAt buf i
  others : ∀ j, j ≠ b → Intact j σ σ'

theorem sizeT_of_nonneg {x : ℤ} (h : 0 ≤ x) : sizeT x = x := if_neg (not_lt.mpr h)

theorem intact_of_bufs {bufs : List PooledByteBuf} (hbufs : ∀ j, j ≠ b → bufs[j]? = σ.bufs[j]?) :
    ∀ j, j ≠ b → Intact j σ { σ with bufs := bufs } :=
  fun j hj _ hd _ => ⟨(hbufs j hj).trans hd, fun _ _ _ => rfl⟩

theorem PoolInv.readableBytes_nonneg (h : PoolInv k g small plain σ) (hb : σ.bufs[b]? = some buf) :
    0 ≤ buf.readableBytes := by
  have hw := (h.index buf (List.mem_of_getElem? hb)).writer
  unfold PooledByteBuf.readableBytes
  omega

theorem PoolInv.retrieveAll (h : PoolInv k g small plain σ) (hb : σ.bufs[b]? = some buf) :
    Ends (PooledByteBuf.retrieveAll b) σ fun _ σ' =>
      ∃ new, Takes k g small plain b buf.readableBytes.toNat buf new σ σ' := by
  refine ends_bind (ends_getBuf fun buf₀ hb₀ => ends_update ?_)
  obtain rfl : buf = buf₀ := Option.some.inj (hb.symm.trans hb₀)
  have hpos := h.readableBytes_nonneg hb
  refine ⟨_, h.withIndices hb le_rfl le_rfl fun h0 => h0, rfl, rfl, by omega, fun hlt => by omega,
    fun _ => ⟨rfl, rfl⟩, fun _ => rfl, intact_of_bufs fun j hj => List.getElem?_set_ne hj.symm⟩

theorem PoolInv.retrieve (h : PoolInv k g small plain σ) (hb : σ.bufs[b]? = some buf) (len : ℕ) :
    Ends (PooledByteBuf.retrieve b len) σ fun _ σ' => ∃ new, Takes k g small plain b len buf new σ σ' := by
  have hindex := h.index buf (List.mem_of_getElem? hb)
  have hr := hindex.reader
  have hpos := h.readableBytes_nonneg hb
  refine ends_bind (ends_getBuf fun buf₀ hb₀ => ends_bind (ends_assert fun hle => ?_))
  obtain rfl : buf = buf₀ := Option.some.inj (hb.symm.trans hb₀)
  rw [sizeT_of_nonneg hpos] at hle ⊢
  refine ends_ite (fun hlt => ends_update ?_) fun hge => ?_
  · have hlt' := hlt
    unfold PooledByteBuf.readableBytes at hlt'
    refine ⟨_, h.withIndices hb (r := buf.readerIndex + len) (w := buf.writerIndex) (by omega) (by omega)
      hindex.length, rfl, rfl, hle, fun _ => ⟨rfl, rfl⟩, fun heq => absurd heq hlt.ne, fun _ => rfl,
      intact_of_bufs fun j hj => List.getElem?_set_ne hj.symm⟩
  · have heq : buf.readableBytes.toNat = len := by omega
    exact heq ▸ h.retrieveAll hb

theorem ends_load {Q : List UInt8 → Pool → Prop} {p : Pointer} {n : ℕ}
    (h : ∀ x, σ.chunk p.1 = some x → Q ((List.range n).map fun i => x.memory (p.2 + i)) σ) :
    Ends (load p n) σ Q := by
  refine ends_bind (ends_getChunk fun x hx => ends_ite (fun _ => ends_pure (h x hx)) fun _ => ends_fail _)

theorem PoolInv.retrieveAsString (h : PoolInv k g small plain σ) (hb : σ.bufs[b]? = some buf) (len : ℕ) :
    Ends (PooledByteBuf.retrieveAsString b len) σ fun _ σ' =>
      ∃ new, Takes k g small plain b len buf new σ σ' := by
  refine ends_bind (ends_getBuf fun _ _ => ends_bind (ends_assert fun _ => ends_bind
    (ends_deref fun _ _ => ends_bind (ends_load fun _ _ => ends_bind ?_))))
  exact (h.retrieve hb len).mono fun _ _ hend => ends_pure hend

theorem PoolInv.retrieveAllAsString (h : PoolInv k g small plain σ) (hb : σ.bufs[b]? = some buf) :
    Ends (PooledByteBuf.retrieveAllAsString b) σ fun _ σ' =>
      ∃ new, Takes k g small plain b buf.readableBytes.toNat buf new σ σ' := by
  refine ends_bind (ends_getBuf fun buf₀ hb₀ => ?_)
  obtain rfl : buf = buf₀ := Option.some.inj (hb.symm.trans hb₀)
  have hpos := h.readableBytes_nonneg hb
  rw [sizeT_of_nonneg hpos]
  exact h.retrieveAsString hb _

theorem PoolInv.retrieveUntil (h : PoolInv k g small plain σ) (hb : σ.bufs[b]? = some buf)
    (stop : Pointer) :
    Ends (retrieveUntil b stop) σ fun _ σ' =>
      ∃ new, Takes k g small plain b (lengthUntil buf stop) buf new σ σ' := by
  refine ends_bind (ends_getBuf fun buf₀ hb₀ => ends_bind (ends_deref fun first hfirst => ends_bind
    (ends_deref fun _ _ => ends_bind (ends_assert fun _ => ends_bind (ends_assert fun _ => ?_)))))
  obtain rfl : buf = buf₀ := Option.some.inj (hb.symm.trans hb₀)
  rw [lengthUntil, hfirst]
  exact h.retrieve hb _

/-! ### The internal buffer -/

theorem PoolInv.internalBuffer (h : PoolInv k g small plain σ) (hb : σ.bufs[b]? = some buf)
    {index : ℤ} (length : ℤ) (hplain : plain → index = 0) :
    Ends (PooledByteBuf.internalBuffer b index length) σ fun _ σ' =>
      ∃ new, Changes k g small plain b buf new σ σ' := by
  refine ends_bind (ends_getBuf fun buf₀ hb₀ => ends_bind (ends_assert fun _ => ends_bind
    (ends_deref fun c hc => ends_update ?_)))
  obtain rfl : buf = buf₀ := Option.some.inj (hb.symm.trans hb₀)
  have hmem := List.mem_of_getElem? hb
  have hchunk := h.chunk_of_memory hmem hc
  have hindex := h.index buf hmem
  set new : PooledByteBuf := { buf with tmpBuf := some (c, buf.offset + index) } with hnew
  have hs : SameBlock buf new := ⟨rfl, rfl, rfl, rfl, rfl⟩
  refine ⟨new, h.keepBlock hb hs
    ⟨hindex.reader, hindex.writer, hindex.length, hindex.range, hindex.maxLength⟩ ?_ fun hnone => ?_, rfl,
    fun hcap => ⟨hcap.nonneg, hcap.range, hcap.length⟩⟩
  · intro c' hc' hblock
    obtain rfl : c = c' := Option.some.inj (hchunk.symm.trans hc')
    refine hblock.sameBlock hs (fun hp => ?_) hblock.length fun hp => (hblock.pooled hp).length
    rw [hnew, hplain hp, add_zero]
  · rw [hchunk] at hnone
    cases hnone

end Mutty.Buffer
