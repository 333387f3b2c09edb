import Mutty.Buffer.Ownership
import Mutty.Buffer.SizeIndex

/-!
# What the operations on buffers do

Every operation on buffers keeps `PoolInv`. What it writes, it writes to the block of its own buffer,
so that the bytes of the others stay. A resized buffer has its first bytes still, in the old block or
in another one. In every state that whole operations reach, the byte ranges of live buffers and
cached blocks are apart.
-/

namespace Mutty.Buffer

open Mutty.Lib Prog

variable {k : Config} {g : Geometry} {small plain : Prop} {σ σ' : Pool} {T F : List Token} {t : Token}
  {b : BufId} {buf buf' d : PooledByteBuf} {bufs : List PooledByteBuf} {th : Thread} {u : ThreadId}
  {req : ℤ} {c : ChunkId} {x : PoolChunk}

/-! ### Threads -/

theorem PoolInv.sameChunks_of_persists (h : PoolInv k g small plain σ) (hp : Persists σ σ')
    (hc : Cached k g plain σ' (F ++ σ.bufs.flatMap (PooledByteBuf.tokensIn σ))) :
    SameChunks σ.bufs σ σ' := by
  refine h.sameChunks hp.evolves (fun _ hbuf => hbuf) (fun _ _ c hc => ?_) hc.held fun t ht => ?_
  · cases hc
  · exact List.mem_append_left _ (List.mem_append_right _ ht)

theorem PoolInv.trim (made : k.sizes.Made g) (h : PoolInv k g small plain σ) :
    Ends (PoolThreadCache.trim k u) σ fun _ σ' =>
      PoolInv k g small plain σ' ∧ σ'.bufs = σ.bufs ∧ Persists σ σ' := by
  refine (h.cached.trim made).mono ?_
  rintro _ σ' ⟨hcached, hsame⟩
  have hchunks := h.sameChunks_of_persists (F := []) hsame.persists hcached
  exact ⟨h.sameBufs hsame.bufs hsame.recycled hchunks hcached, hsame.bufs, hsame.persists⟩

theorem make_queue {cache : PoolThreadCache} (h : PoolThreadCache.make k = .ok cache)
    (sizeClass : SizeClassType) {r : MemoryRegionCache} (hr : r ∈ cache.regions sizeClass) :
    r.queue = [] := by
  obtain ⟨_, -, h⟩ := bind_eq_ok.mp h
  obtain ⟨normal, hnormal, h⟩ := bind_eq_ok.mp h
  split_ifs at h
  obtain rfl := Except.ok.inj h
  cases sizeClass with
  | small =>
    simp only [PoolThreadCache.regions, PoolThreadCache.createSubPageCaches] at hr
    split_ifs at hr
    · rw [List.eq_of_mem_replicate hr]
      rfl
    · cases hr
  | normal =>
    simp only [PoolThreadCache.createNormalCaches] at hnormal
    split_ifs at hnormal
    · obtain ⟨count, -, hnormal⟩ := bind_eq_ok.mp hnormal
      obtain rfl := Except.ok.inj hnormal
      rw [List.eq_of_mem_replicate hr]
      rfl
    · obtain rfl := Except.ok.inj hnormal
      cases hr

theorem make_tokens {cache : PoolThreadCache} (h : PoolThreadCache.make k = .ok cache) :
    cache.tokens = [] := by
  refine List.append_eq_nil_iff.mpr ⟨List.flatMap_eq_nil_iff.mpr fun r hr => ?_,
    List.flatMap_eq_nil_iff.mpr fun r hr => ?_⟩
  · rw [MemoryRegionCache.tokens, make_queue h .small hr, List.map_nil]
  · rw [MemoryRegionCache.tokens, make_queue h .normal hr, List.map_nil]

theorem PoolInv.attach (h : PoolInv k g small plain σ) :
    Ends (attach k) σ fun _ σ' =>
      PoolInv k g small plain σ' ∧ σ'.bufs = σ.bufs ∧ Persists σ σ' := by
  refine ends_bind (ends_check fun cache hcache => ends_update ?_)
  set σ' : Pool := { σ with threads := σ.threads ++ [{ cache := cache, stack := [] }] }
  have htokens : cacheTokens σ' = cacheTokens σ := by
    simp [σ', cacheTokens, make_tokens hcache]
  have hrec : recycled σ' = recycled σ := by
    simp [σ', recycled]
  refine ⟨h.of_recycled rfl (h.sameChunks_of_eq rfl) ⟨?_, ?_⟩ (hrec ▸ h.nodup) (hrec ▸ h.dead),
    rfl, persists_of_eq rfl rfl⟩
  · rw [htokens]
    exact h.cached.held.of_eq rfl rfl rfl rfl
  · intro th hth sizeClass i r hr e he
    rcases List.mem_append.mp hth with hold | hnew
    · exact h.cached.entries th hold sizeClass i r hr e he
    · obtain rfl := List.mem_singleton.mp hnew
      rw [make_queue hcache sizeClass (List.mem_of_getElem? hr)] at he
      cases he

def Pool.withStack (σ : Pool) (u : ThreadId) (th : Thread) (stack : List BufId) : Pool :=
  { σ with threads := σ.threads.set u { th with stack := stack } }

theorem Cached.withStack (h : Cached k g plain σ F) (hu : σ.threads[u]? = some th)
    (stack : List BufId) : Cached k g plain (σ.withStack u th stack) F := by
  refine ⟨Held.of_eq (σ := σ) (h.held.perm (List.Perm.append_left F ?_)) rfl rfl rfl rfl, ?_⟩
  · exact (flatMap_set_same (f := fun th : Thread => th.cache.tokens)
      (x := { th with stack := stack }) hu rfl).symm
  · intro th' hth' c j r hr
    rcases List.mem_or_eq_of_mem_set hth' with hold | rfl
    · exact h.entries th' hold c j r hr
    · exact h.entries th (List.mem_of_getElem? hu) c j r hr

theorem PoolInv.recycle (h : PoolInv k g small plain σ) (hb : b ∉ recycled σ)
    (hbuf : σ.bufs[b]? = some buf) (hnone : buf.chunk = none) :
    Ends (PooledByteBuf.recycle u b) σ fun _ σ' =>
      PoolInv k g small plain σ' ∧ σ'.bufs = σ.bufs ∧ Persists σ σ' := by
  refine ends_bind (ends_getThread fun th hu => ends_update ?_)
  have hperm : (recycled (σ.withStack u th (b :: th.stack))).Perm (b :: recycled σ) :=
    flatMap_set_cons (f := Thread.stack) (x := { th with stack := b :: th.stack }) hu (.refl _)
  refine ⟨h.of_recycled rfl (h.sameChunks_of_eq rfl) (h.cached.withStack hu _) ?_ fun d hd => ?_, rfl,
    persists_of_eq rfl rfl⟩
  · exact hperm.nodup_iff.mpr (List.nodup_cons.mpr ⟨hb, h.nodup⟩)
  · rcases List.mem_cons.mp (hperm.mem_iff.mp hd) with rfl | hold
    · exact ⟨buf, hbuf, hnone⟩
    · exact h.dead d hold

/-- The object of buffer `b`, recycled or new, is there for a block. -/
structure Prepared (maxCapacity : ℤ) (b : BufId) (buf : PooledByteBuf) (σ σ' : Pool) : Prop where
  self : σ'.bufs[b]? = some buf
  chunk : buf.chunk = none
  maxCapacity : buf.maxCapacity = maxCapacity
  readerIndex : buf.readerIndex = 0
  writerIndex : buf.writerIndex = 0
  unused : ∀ d, σ.bufs[b]? = some d → d.chunk = none
  others : ∀ j, j ≠ b → σ'.bufs[j]? = σ.bufs[j]?
  persists : Persists σ σ'
  recycled : b ∉ recycled σ'

theorem IndexInv.reset (h : IndexInv buf) (maxCapacity : ℤ) :
    IndexInv { buf with maxCapacity := maxCapacity, readerIndex := 0, writerIndex := 0 } :=
  ⟨le_refl _, le_refl _, fun h0 => h0, h.range, h.maxLength⟩

theorem PoolInv.newInstance (h : PoolInv k g small plain σ) (maxCapacity : ℤ) :
    Ends (PooledByteBuf.newInstance u maxCapacity) σ fun b σ' =>
      PoolInv k g small plain σ' ∧ ∃ buf, Prepared maxCapacity b buf σ σ' := by
  refine ends_bind (ends_getThread fun th hu => ?_)
  cases hstack : th.stack with
  | cons b stack =>
    refine ends_bind (ends_update (ends_bind (ends_getBuf fun buf hbuf => ends_bind (ends_update
      (ends_pure ?_)))))
    have hperm : (recycled σ).Perm (b :: recycled (σ.withStack u th stack)) :=
      flatMap_set_uncons (f := Thread.stack) (x := { th with stack := stack }) hu
        (by rw [hstack])
    have hnodup := List.nodup_cons.mp (hperm.nodup_iff.mp h.nodup)
    have hpop : PoolInv k g small plain (σ.withStack u th stack) :=
      h.of_recycled rfl (h.sameChunks_of_eq rfl) (h.cached.withStack hu _) hnodup.2
        fun d hd => h.dead d (hperm.mem_iff.mpr (List.mem_cons_of_mem _ hd))
    obtain ⟨buf', hbuf', hnone⟩ := h.dead b (hperm.mem_iff.mpr List.mem_cons_self)
    obtain rfl : buf = buf' := Option.some.inj (hbuf.symm.trans hbuf')
    refine ⟨hpop.keepBlock hbuf ⟨rfl, rfl, rfl, rfl, rfl⟩
      ((h.index buf (List.mem_of_getElem? hbuf)).reset maxCapacity) (fun c hc => ?_) fun _ => rfl, _,
      ⟨List.getElem?_set_self (List.getElem?_eq_some_iff.mp hbuf).1, hnone, rfl, rfl, rfl,
        fun d hd => ?_, fun j hj => List.getElem?_set_ne hj.symm, persists_of_eq rfl rfl, hnodup.1⟩⟩
    · rw [hnone] at hc
      cases hc
    · exact Option.some.inj (hbuf.symm.trans hd) ▸ hnone
  | nil =>
    refine ends_bind (ends_look (ends_bind (ends_update (ends_pure ?_))))
    set fresh : PooledByteBuf := { PooledByteBuf.new with maxCapacity := maxCapacity }
    have hb : σ.bufs.length ∉ recycled σ := by
      intro hmem
      obtain ⟨buf, hbuf, -⟩ := h.dead _ hmem
      exact lt_irrefl _ (List.getElem?_eq_some_iff.mp hbuf).1
    refine ⟨h.addBuf rfl ⟨le_refl _, le_refl _, fun _ => le_refl _, by norm_num [fresh, PooledByteBuf.new],
      fun hlt => ?_⟩ ⟨rfl, rfl⟩, fresh,
      ⟨List.getElem?_concat_length, rfl, rfl, rfl, rfl, fun d hd => ?_, fun j hj => ?_,
        persists_of_eq rfl rfl, hb⟩⟩
    · exact absurd hlt (lt_irrefl 0)
    · exact absurd (List.getElem?_eq_some_iff.mp hd).1 (lt_irrefl _)
    · rcases lt_or_gt_of_ne hj with hlt | hgt
      · exact List.getElem?_append_left hlt
      · rw [List.getElem?_eq_none (by simpa using Nat.succ_le_of_lt hgt), List.getElem?_eq_none hgt.le]

/-! ### Blocks -/

/-- Buffer `b` has got a block for `req` bytes, of a pooled chunk or a chunk `c` of its own. -/
structure Acquires (k : Config) (g : Geometry) (plain : Prop) (F : List Token) (b : BufId) (req : ℤ)
    (buf new : PooledByteBuf) (c : ChunkId) (σ σ' : Pool) : Prop where
  bufs : σ'.bufs = σ.bufs.set b new
  cached : Cached k g plain σ' (new.tokensIn σ' ++ F)
  chunk : new.chunk = some c
  block : BlockInv k plain σ' new c
  fresh : isPooled σ' c = false → σ.chunkCount ≤ c
  sized : req ≤ k.sizes.chunkSize → new.length = req ∧ isPooled σ' c = true
  length : 0 ≤ new.length → req ≤ new.length
  range : new.length < 2 ^ 31
  maxLength : new.length < 0 → new.maxLength < 0
  readerIndex : new.readerIndex = buf.readerIndex
  writerIndex : new.writerIndex = buf.writerIndex
  maxCapacity : new.maxCapacity = buf.maxCapacity
  recycled : σ'.threads.map Thread.stack = σ.threads.map Thread.stack
  persists : Persists σ σ'

theorem Gets.acquires (h : Gets k g plain F b req u t σ σ') (hb : σ.bufs[b]? = some buf)
    (h0 : 0 ≤ req) (hint : req < 2 ^ 31) : ∃ new, Acquires k g plain F b req buf new t.chunk σ σ' := by
  obtain ⟨buf', buffer, hpoints, hb', hbufs⟩ := h.bufs
  obtain rfl : buf = buf' := Option.some.inj (hb.symm.trans hb')
  have hpool : isPooled σ' t.chunk = true := h.cached.held.isPooled List.mem_cons_self
  refine ⟨buf.filled k t req u buffer, ?_⟩
  have htmp : plain → (buf.filled k t req u buffer).tmpBuf = some (t.chunk, t.offset k) := by
    intro hp
    cases buffer with
    | none => rfl
    | some ptr =>
      rw [hpoints hp ptr rfl]
      rfl
  exact
    { bufs := hbufs
      cached := by
        rw [PooledByteBuf.tokensIn_of_pooled rfl hpool]
        exact h.cached
      chunk := rfl
      block := ⟨(h.cached.held.tokens t List.mem_cons_self).exists_chunk,
        (h.cached.held.tokens t List.mem_cons_self).nonneg, rfl, htmp, h.bound, fun _ => ⟨rfl, h0⟩,
        fun hp => absurd (hp.symm.trans hpool) Bool.false_ne_true⟩
      fresh := fun hp => absurd (hp.symm.trans hpool) Bool.false_ne_true
      sized := fun _ => ⟨rfl, hpool⟩
      length := fun _ => le_refl _
      range := hint
      maxLength := fun hlt => absurd h0 (not_le.mpr hlt)
      readerIndex := rfl
      writerIndex := rfl
      maxCapacity := rfl
      recycled := h.recycled
      persists := h.persists }

theorem NewUnpooled.persists (hn : NewUnpooled σ c x σ') : Persists σ σ' := by
  have hother : ∀ d, d < σ.chunkCount → σ'.chunk d = σ.chunk d := by
    intro d hd
    rw [hn.chunk, Function.update_of_ne]
    rintro rfl
    exact absurd hn.name hd.ne
  refine ⟨by rw [hn.chunkCount]; omega, fun d y hd hy => ?_, fun d y hd hy _ => ?_⟩
  · rw [hother d hd] at hy
    exact ⟨y, hy, rfl, rfl, rfl⟩
  · exact ⟨y, by rw [hother d hd, hy]⟩

theorem Cached.allocateHuge (h : Cached k g plain σ F) (hb : σ.bufs[b]? = some buf) (a : ArenaId)
    {capacity : ℤ} (hgt : k.sizes.chunkSize < req) (hcap : 0 ≤ capacity → req ≤ capacity)
    (hint : capacity < 2 ^ 31) :
    Ends (PoolArena.allocateHuge k a b capacity) σ fun _ σ' =>
      ∃ new c, Acquires k g plain F b req buf new c σ σ' := by
  refine ends_bind ((ends_newUnpooledChunk a capacity).mono ?_)
  rintro c σ₁ ⟨x, hn⟩
  refine ends_bind (ends_assert fun _ => ends_bind (ends_getChunk fun y hy =>
    ends_bind (ends_getBuf fun buf' hb' => ends_update ?_)))
  rw [hn.bufs] at hb'
  obtain rfl : buf = buf' := Option.some.inj (hb.symm.trans hb')
  set new : PooledByteBuf := { buf with
    chunk := some c, memory := some c, cache := none, handle := 0, offset := 0, length := capacity,
    maxLength := capacity, tmpBuf := some (c, 0) }
  set σ₂ : Pool := { σ₁ with bufs := σ₁.bufs.set b new } with hσ₂
  have hx : σ₂.chunk c = some x := by rw [hσ₂, hn.chunk, Function.update_self]
  have hpool : isPooled σ₂ c = false := by
    rw [isPooled_eq hx, hn.unpooled]
    rfl
  have hsame : Persists σ₁ σ₂ := persists_of_eq rfl rfl
  have hhandle : (0 : Int64) ≤ new.handle := le_refl (0 : Int64)
  refine ⟨new, c, ?_⟩
  change Acquires k g plain F b req buf new c σ σ₂
  exact
    { bufs := by rw [← hn.bufs]
      cached := by
        rw [PooledByteBuf.tokensIn_of_huge rfl hpool, List.nil_append]
        exact (h.of_threads hn.threads (h.held.newUnpooled hn)).withBufs _
      chunk := rfl
      block := ⟨⟨x, hx⟩, hhandle, rfl, fun _ => rfl, le_refl _,
        fun hp => absurd (hpool.symm.trans hp) Bool.false_ne_true, fun _ => rfl⟩
      fresh := fun _ => hn.name.ge
      sized := fun hle => absurd hgt (not_lt.mpr hle)
      length := hcap
      range := hint
      maxLength := fun hlt => hlt
      readerIndex := rfl
      writerIndex := rfl
      maxCapacity := rfl
      recycled := by rw [← hn.threads]
      persists := trans_of Persists hn.persists hsame }

/-- Rounding up a size above the chunk size gives a size that is large enough, or a negative one. -/
theorem SizeClasses.Made.normalizeSize_huge_cases (made : k.sizes.Made g) (hgt : k.sizes.chunkSize < req)
    (hint : req < 2 ^ 31) {n : ℤ} (h : k.sizes.normalizeSize req = .ok n) :
    (0 ≤ n → req ≤ n) ∧ n < 2 ^ 31 := by
  have hchunk := g.le_chunkSize
  have hsize := made.chunkSize
  rw [made.normalizeSize_of_gt (by omega)] at h
  obtain rfl := Except.ok.inj h
  refine ⟨fun h0 => ?_, normalizeSizeCompute_lt req⟩
  lift req to ℕ using by omega
  by_cases hle : req ≤ 2 ^ 31 - 2 ^ 28
  · exact (normalizeSizeCompute_of_huge (by omega) (by omega)).mpr hle
  · rw [normalizeSizeCompute_of_gt (by omega) (by omega), if_neg hle] at h0
    omega

theorem Cached.acquire (made : k.sizes.Made g) (h : Cached k g plain σ F)
    (hb : σ.bufs[b]? = some buf) (a : ArenaId) (hint : req < 2 ^ 31) :
    Ends (PoolArena.allocateFor k a u b req) σ fun _ σ' =>
      ∃ new c, Acquires k g plain F b req buf new c σ σ' := by
  by_cases h0 : 0 ≤ req
  swap
  · refine ends_bind (ends_check fun i hi => ?_)
    rw [sizeIdxOf, if_pos (not_le.mp h0)] at hi
    cases hi
  by_cases hle : req ≤ k.sizes.chunkSize
  · refine (h.allocateFor made a h0 hle).mono ?_
    rintro _ σ' ⟨t, hgets⟩
    obtain ⟨new, hacq⟩ := hgets.acquires hb h0 hint
    exact ⟨new, t.chunk, hacq⟩
  · rw [not_le] at hle
    refine ends_bind (ends_check fun i hi => ?_)
    have hnat : k.sizes.chunkSize < req.toNat := by omega
    rw [sizeIdxOf, if_neg (by omega), SizeClasses.size2SizeIdx, if_neg (by omega), if_pos hnat] at hi
    obtain rfl := Except.ok.inj hi
    have hsmall : ¬ k.sizes.nSizes ≤ k.sizes.smallMaxSizeIdx := by
      have := g.pageShifts_ge
      rw [made.smallMaxSizeIdx, made.nSubpages, made.nSizes]
      omega
    rw [if_neg hsmall, if_neg (lt_irrefl _)]
    refine ends_bind (ends_check fun n hn => ?_)
    obtain ⟨hcap, hrange⟩ := made.normalizeSize_huge_cases hle hint hn
    exact h.allocateHuge hb a hle hcap hrange

def Pool.withMemory (σ : Pool) (c : ChunkId) (x : PoolChunk) (memory : ℤ → UInt8) : Pool :=
  σ.withChunk c { x with memory := memory }

theorem Cached.withMemory (h : Cached k g plain σ F) (hx : σ.chunk c = some x) (memory : ℤ → UInt8) :
    Cached k g plain (σ.withMemory c x memory) F :=
  h.of_threads rfl (h.held.sameChunk hx rfl rfl rfl rfl rfl rfl)

theorem withMemory_chunk (hx : σ.chunk c = some x) (memory : ℤ → UInt8) (e : ChunkId) :
    isPooled (σ.withMemory c x memory) e = isPooled σ e ∧
      ∀ y, σ.chunk e = some y → ∃ y', (σ.withMemory c x memory).chunk e = some y' := by
  by_cases he : e = c
  · subst he
    have hself : (σ.withMemory e x memory).chunk e = some { x with memory := memory } :=
      Function.update_self e _ _
    exact ⟨by rw [isPooled_eq hself, isPooled_eq hx], fun _ _ => ⟨_, hself⟩⟩
  · have hother : (σ.withMemory c x memory).chunk e = σ.chunk e := Function.update_of_ne he _ _
    exact ⟨by rw [isPooled, isPooled, hother], fun y hy => ⟨y, by rw [hother, hy]⟩⟩

theorem evolves_withMemory (hx : σ.chunk c = some x) {e : Extent} {memory : ℤ → UInt8}
    (hmem : ∀ i, ¬ e.Has c i → memory i = x.memory i) :
    Evolves [e] [] σ (σ.withMemory c x memory) := by
  refine ⟨le_refl _, fun d y hd hy => ?_, fun d y _ _ hy _ => ((withMemory_chunk hx memory d).2 y hy)⟩
  by_cases hdc : d = c
  · subst hdc
    obtain rfl : { x with memory := memory } = y :=
      Option.some.inj ((Function.update_self d _ _).symm.trans hy)
    exact ⟨x, hx, rfl, fun i hi => hmem i (hi e (List.mem_singleton_self e))⟩
  · have hother : (σ.withMemory c x memory).chunk d = σ.chunk d := Function.update_of_ne hdc _ _
    exact ⟨y, hother ▸ hy, rfl, fun _ _ => rfl⟩

/-- `length` bytes have been copied from `srcOffset` of chunk `c` to `dstOffset` of chunk `d`. -/
structure Copies (c : ChunkId) (srcOffset : ℤ) (d : ChunkId) (dstOffset length : ℤ) (σ σ' : Pool) :
    Prop where
  bufs : σ'.bufs = σ.bufs
  threads : σ'.threads = σ.threads
  nonneg : 0 ≤ length
  pooled : ∀ e, isPooled σ' e = isPooled σ e ∧ ∀ y, σ.chunk e = some y → ∃ y', σ'.chunk e = some y'
  evolves : Evolves [⟨d, dstOffset, length⟩] [] σ σ'
  bytes : ∀ x y, σ.chunk c = some x → σ'.chunk d = some y → ∀ i, 0 ≤ i → i < length →
    y.memory (dstOffset + i) = x.memory (srcOffset + i)

theorem Cached.memoryCopy (h : Cached k g plain σ F) {dst : PooledByteBuf} {e : ChunkId}
    (hdst : dst.memory = some e) (srcOffset length : ℤ) :
    Ends (PoolArena.memoryCopy (some c) srcOffset dst length) σ fun _ σ' =>
      Cached k g plain σ' F ∧ Copies c srcOffset e dst.offset length σ σ' := by
  unfold PoolArena.memoryCopy
  rw [hdst]
  refine ends_ite (fun hzero => ends_pure ⟨h, ?_⟩) fun _ => ends_bind (ends_getChunk fun x hx =>
    ends_bind (ends_getChunk fun y hy => ends_ite (fun hin => ends_update ?_) fun _ => ends_fail _))
  · subst hzero
    refine ⟨rfl, rfl, le_refl _, fun _ => ⟨rfl, fun y hy => ⟨y, hy⟩⟩, ?_, fun _ _ _ _ i h0 hi => ?_⟩
    · exact ⟨le_refl _, fun _ z _ hz => ⟨z, hz, rfl, fun _ _ => rfl⟩, fun _ z _ _ hz _ => ⟨z, hz⟩⟩
    · omega
  · refine ⟨h.withMemory hy _, rfl, rfl, hin.1.2.1, withMemory_chunk hy _, evolves_withMemory hy ?_, ?_⟩
    · intro i hi
      refine if_neg fun hrange => hi ⟨rfl, hrange⟩
    · intro x' y' hx' hy' i h0 hi
      obtain rfl : x = x' := Option.some.inj (hx.symm.trans hx')
      obtain rfl := Option.some.inj ((Function.update_self e _ _).symm.trans hy')
      have hindex : dst.offset + i - dst.offset + srcOffset = srcOffset + i := by omega
      exact (if_pos ⟨by omega, by omega⟩).trans (by rw [hindex])

theorem evolves_delete (hchunk : σ'.chunk = Function.update σ.chunk c none)
    (hcount : σ'.chunkCount = σ.chunkCount) : Evolves [] [c] σ σ' := by
  refine ⟨hcount.ge, fun d y _ hy => ⟨y, ?_, rfl, fun _ _ => rfl⟩, fun d y _ hd hy _ => ⟨y, ?_⟩⟩
  · rw [hchunk] at hy
    by_cases hdc : d = c
    · rw [hdc, Function.update_self] at hy
      cases hy
    · rwa [Function.update_of_ne hdc] at hy
  · rw [hchunk, Function.update_of_ne (by simpa using hd), hy]

theorem Cached.freeBlock (made : k.sizes.Made g) (h : Cached k g plain σ (buf.tokensIn σ ++ F))
    (hc : buf.chunk = some c) (hblock : BlockInv k plain σ buf c) (cache : Option ThreadId) :
    Ends (PoolArena.free k c buf.tmpBuf buf.handle buf.maxLength cache) σ fun _ σ' =>
      Cached k g plain σ' F ∧ σ'.bufs = σ.bufs ∧
        σ'.threads.map Thread.stack = σ.threads.map Thread.stack ∧ Evolves [] [c] σ σ' := by
  cases hp : isPooled σ c with
  | true =>
    rw [PooledByteBuf.tokensIn_of_pooled hc hp] at h
    have hpoints : Points k plain ⟨c, buf.handle, buf.maxLength⟩ buf.tmpBuf := by
      intro hplain ptr hptr
      rw [hblock.tmpBuf hplain, (hblock.pooled hp).offset] at hptr
      exact (Option.some.inj hptr).symm
    refine (Cached.free (t := ⟨c, buf.handle, buf.maxLength⟩) made h hpoints cache).mono ?_
    rintro _ σ' ⟨hcached, hsame⟩
    have hev := hsame.persists.evolves
    exact ⟨hcached, hsame.bufs, hsame.recycled, hev.count, hev.chunk,
      fun d y hd _ => hev.kept d y hd List.not_mem_nil⟩
  | false =>
    rw [PooledByteBuf.tokensIn_of_huge hc hp, List.nil_append] at h
    refine ends_bind (ends_getChunk fun x hx => ?_)
    have hun : x.unpooled = true := by
      rw [isPooled_eq hx] at hp
      simpa using hp
    rw [if_pos hun]
    refine ends_bind (ends_getChunk fun y hy => ends_update ?_)
    obtain rfl : x = y := Option.some.inj (hx.symm.trans hy)
    have hinv := h.held.unpooled c x hx hun
    exact ⟨h.of_threads rfl (h.held.destroyChunk hx hinv.no_slot hinv.tokens rfl rfl rfl rfl), rfl, rfl,
      evolves_delete rfl rfl⟩

/-! ### Allocating and freeing -/

theorem Acquires.chunk_ne {new : PooledByteBuf} (h : Acquires k g plain F b req buf new c σ σ')
    (hinv : PoolInv k g small plain σ) (hp : isPooled σ' c = false) : ∀ d ∈ σ.bufs, d.chunk ≠ some c :=
  fun _ hd hdc => absurd (hinv.chunk_lt hd hdc) (not_lt.mpr (h.fresh hp))

structure Allocates (k : Config) (req maxCapacity : ℤ) (b : BufId) (buf : PooledByteBuf)
    (σ σ' : Pool) : Prop where
  self : σ'.bufs[b]? = some buf
  live : buf.chunk.isSome = true
  maxCapacity : buf.maxCapacity = maxCapacity
  readerIndex : buf.readerIndex = 0
  writerIndex : buf.writerIndex = 0
  length : req ≤ k.sizes.chunkSize → buf.length = req
  fits : 0 ≤ buf.length → req ≤ buf.length
  unused : ∀ d, σ.bufs[b]? = some d → d.chunk = none
  others : ∀ j, j ≠ b → σ'.bufs[j]? = σ.bufs[j]? ∧ Intact j σ σ'

theorem PoolInv.allocate (made : k.sizes.Made g) (h : PoolInv k g small plain σ) (a : ArenaId)
    (hint : req < 2 ^ 31) (hsmall : small → req ≤ k.sizes.chunkSize) (maxCapacity : ℤ) :
    Ends (PoolArena.allocate k a u req maxCapacity) σ fun b σ' =>
      PoolInv k g small plain σ' ∧ ∃ buf, Allocates k req maxCapacity b buf σ σ' := by
  refine ends_bind ((h.newInstance maxCapacity).mono ?_)
  rintro b σ₁ ⟨hinv, buf, hprep⟩
  refine ends_bind ((hinv.cached.acquire made hprep.self a hint).mono ?_)
  rintro _ σ' ⟨new, c, hacq⟩
  have hlt := (List.getElem?_eq_some_iff.mp hprep.self).1
  have hchunks := hinv.sameChunks_of_persists hacq.persists hacq.cached
  have hcached : Cached k g plain σ' (new.tokensIn σ' ++
      (σ₁.bufs.eraseIdx b).flatMap (PooledByteBuf.tokensIn σ₁)) := by
    have hperm := flatMap_eraseIdx_perm (f := PooledByteBuf.tokensIn σ₁) hprep.self
    rw [PooledByteBuf.tokensIn_of_none hprep.chunk, List.nil_append] at hperm
    exact hacq.cached.perm (hperm.append_left _)
  have hindex : IndexInv new := by
    have hr := hacq.readerIndex.trans hprep.readerIndex
    have hw := hacq.writerIndex.trans hprep.writerIndex
    refine ⟨hr.ge, by rw [hr, hw], fun h0 => ?_, hacq.range, hacq.maxLength⟩
    rw [hw]
    exact h0
  have hinv' : PoolInv k g small plain σ' := by
    refine hinv.setBuf hprep.recycled hlt hacq.bufs hacq.recycled
      (hchunks.mono fun _ => mem_of_mem_eraseIdx) hcached ?_ hindex ?_ ?_ fun hnone => ?_
    · intro c' hc'
      obtain rfl : c = c' := Option.some.inj (hacq.chunk.symm.trans hc')
      exact hacq.block
    · intro c' hc' hp d hd
      obtain rfl : c = c' := Option.some.inj (hacq.chunk.symm.trans hc')
      exact hacq.chunk_ne hinv hp d (mem_of_mem_eraseIdx hd)
    · intro hs c' hc'
      obtain rfl : c = c' := Option.some.inj (hacq.chunk.symm.trans hc')
      exact (hacq.sized (hsmall hs)).2
    · rw [hacq.chunk] at hnone
      cases hnone
  have hothers : ∀ j, j ≠ b → σ'.bufs[j]? = σ.bufs[j]? := by
    intro j hj
    rw [hacq.bufs, List.getElem?_set_ne hj.symm]
    exact hprep.others j hj
  refine ends_pure ⟨hinv', new, ?_⟩
  exact
    { self := by rw [hacq.bufs, List.getElem?_set_self hlt]
      live := by rw [hacq.chunk]; rfl
      maxCapacity := hacq.maxCapacity.trans hprep.maxCapacity
      readerIndex := hacq.readerIndex.trans hprep.readerIndex
      writerIndex := hacq.writerIndex.trans hprep.writerIndex
      length := fun hle => (hacq.sized hle).1
      fits := hacq.length
      unused := hprep.unused
      others := fun j hj => ⟨hothers j hj, h.intact_of_persists hinv'
        (trans_of Persists hprep.persists hacq.persists) (hothers j hj)⟩ }

theorem set_self (hb : σ.bufs[b]? = some buf) : σ.bufs.set b buf = σ.bufs := by
  obtain ⟨hlt, rfl⟩ := List.getElem?_eq_some_iff.mp hb
  exact List.set_getElem_self hlt

theorem PoolInv.gone (h : PoolInv k g small plain σ) (hb : σ.bufs[b]? = some buf)
    (hc : buf.chunk = some c) : ∀ d ∈ σ.bufs.eraseIdx b, ∀ e ∈ [c], d.chunk = some e →
      isPooled σ e = true := by
  intro d hd e he hde
  obtain rfl := List.mem_singleton.mp he
  by_contra hp
  exact h.own_ne hb hc (Bool.not_eq_true _ ▸ hp) d hd hde

structure Frees (k : Config) (g : Geometry) (small plain : Prop) (b : BufId) (buf dead : PooledByteBuf)
    (σ σ' : Pool) : Prop where
  inv : PoolInv k g small plain σ'
  bufs : σ'.bufs = σ.bufs.set b dead
  chunk : dead.chunk = none
  length : dead.length = buf.length
  maxCapacity : dead.maxCapacity = buf.maxCapacity
  others : ∀ j, j ≠ b → Intact j σ σ'

theorem PoolInv.deallocate (made : k.sizes.Made g) (h : PoolInv k g small plain σ)
    (hb : σ.bufs[b]? = some buf) :
    Ends (PooledByteBuf.deallocate k u b) σ fun _ σ' =>
      ∃ dead, Frees k g small plain b buf dead σ σ' := by
  refine ends_bind (ends_getBuf fun buf₀ hb₀ => ?_)
  obtain rfl : buf = buf₀ := Option.some.inj (hb.symm.trans hb₀)
  refine ends_ite (fun _ => ?_) fun hhandle => ends_pure ?_
  swap
  · refine ⟨buf, h, (set_self hb).symm, ?_, rfl, rfl, fun j _ d hd _ => ⟨hd, fun _ _ _ => rfl⟩⟩
    cases hc : buf.chunk with
    | none => rfl
    | some c => exact absurd (h.live buf (List.mem_of_getElem? hb) c hc).handle hhandle
  refine ends_bind (ends_update ?_)
  set gone : PooledByteBuf := { buf with handle := -1, memory := none } with hgone
  cases hc : buf.chunk with
  | none => exact ends_fail _
  | some c =>
    have hblock := h.live buf (List.mem_of_getElem? hb) c hc
    have hrec := h.not_recycled hb hc
    have hlen : b < σ.bufs.length := (List.getElem?_eq_some_iff.mp hb).1
    set dead : PooledByteBuf := { gone with tmpBuf := none, chunk := none } with hdead
    have hsplit := (h.split hb).withBufs (σ.bufs.set b gone)
    refine ends_bind ((Cached.freeBlock made hsplit hc (hblock.of_chunk rfl) buf.cache).mono ?_)
    rintro _ σ₂ ⟨hcached, hbufs, hstacks, hev⟩
    refine ends_bind (ends_getBuf fun buf₂ hb₂ => ends_bind (ends_update ?_))
    rw [hbufs, List.getElem?_set_self hlen] at hb₂
    obtain rfl : gone = buf₂ := Option.some.inj hb₂
    have hset : σ₂.bufs.set b dead = σ.bufs.set b dead := by
      rw [hbufs]
      exact List.set_set _
    have hev' : Evolves [] [c] σ { σ₂ with bufs := σ₂.bufs.set b dead } := ⟨hev.count, hev.chunk, hev.kept⟩
    have hinv : PoolInv k g small plain { σ₂ with bufs := σ₂.bufs.set b dead } := by
      refine h.setBuf hrec hlen hset hstacks ?_ ?_ ?_ ?_ ?_ ?_ fun _ => ⟨rfl, rfl⟩
      · exact h.sameChunks hev' (fun _ => mem_of_mem_eraseIdx) (h.gone hb hc)
          (hcached.withBufs _).held fun t ht => List.mem_append_left _ ht
      · rw [PooledByteBuf.tokensIn_of_none rfl, List.nil_append]
        exact hcached.withBufs _
      · intro c' hc'
        cases hc'
      · have hindex := h.index buf (List.mem_of_getElem? hb)
        exact ⟨hindex.reader, hindex.writer, hindex.length, hindex.range, hindex.maxLength⟩
      · intro c' hc'
        cases hc'
      · intro _ c' hc'
        cases hc'
    have hat : (σ₂.bufs.set b dead)[b]? = some dead := by
      rw [hset, List.getElem?_set_self hlen]
    refine (hinv.recycle ?_ hat rfl).mono ?_
    · rw [recycled, hstacks]
      exact hrec
    · rintro _ σ' ⟨hinv', hbufs', hpers⟩
      have hothers : ∀ j, j ≠ b → σ'.bufs[j]? = σ.bufs[j]? := by
        intro j hj
        rw [hbufs', hset, List.getElem?_set_ne hj.symm]
      refine ⟨dead, hinv', hbufs'.trans hset, rfl, rfl, rfl, fun j hj => ?_⟩
      refine h.intact hinv' (hev'.trans hpers.evolves) (hothers j hj) ?_
      intro _ _ _ _ _ _ _ e he
      cases he

/-! ### Resizing -/

/-- Buffer `b`, which was `buf`, is `new` now, with the first `m` bytes that it had. -/
structure Moves (k : Config) (g : Geometry) (small plain : Prop) (b : BufId) (m : ℤ)
    (buf new : PooledByteBuf) (σ σ' : Pool) : Prop where
  inv : PoolInv k g small plain σ'
  bufs : σ'.bufs = σ.bufs.set b new
  bytes : ∀ i, 0 ≤ i → i < m → σ'.byteAt new i = σ.byteAt buf i
  others : ∀ j, j ≠ b → Intact j σ σ'

theorem Moves.mono {small' : Prop} {m : ℤ} {new : PooledByteBuf}
    (h : Moves k g small plain b m buf new σ σ') (hs : small' → small) :
    Moves k g small' plain b m buf new σ σ' := { h with inv := h.inv.mono hs }

theorem Acquires.sameBlock {new₀ new : PooledByteBuf} {e : ChunkId} {T : List Token}
    (hacq : Acquires k g plain T b req buf new₀ e σ σ') (hs : SameBlock new₀ new)
    (htmp : new.tmpBuf = new₀.tmpBuf) (hlength : new.length = new₀.length) : BlockInv k plain σ' new e := by
  refine hacq.block.sameBlock hs (fun hp => htmp.trans (hacq.block.tmpBuf hp)) ?_ fun hp => ?_
  · exact hlength.trans_le hacq.block.length
  · exact hlength ▸ (hacq.block.pooled hp).length

theorem Acquires.held_apart {new₀ new : PooledByteBuf} {e : ChunkId}
    (hacq : Acquires k g plain (σ.bufs.flatMap (PooledByteBuf.tokensIn σ)) b req buf new₀ e σ σ')
    (hb : σ.bufs[b]? = some buf) (hs : SameBlock new₀ new) :
    Cached k g plain σ' (buf.tokensIn σ ++ (new.tokensIn σ' ++
      (σ.bufs.eraseIdx b).flatMap (PooledByteBuf.tokensIn σ))) := by
  refine hacq.cached.perm ?_
  rw [hs.tokensIn]
  have hperm := flatMap_eraseIdx_perm (f := PooledByteBuf.tokensIn σ) hb
  exact (hperm.append_left _).trans (List.perm_append_comm_assoc _ _ _)

/-- The end of `reallocate`: the bytes are copied to the block that the buffer has got, and the old
block is freed. -/
theorem Acquires.move {new₀ new : PooledByteBuf} {σ₁ : Pool} {e : ChunkId} {m : ℤ}
    (made : k.sizes.Made g) (h : PoolInv k g small plain σ) (hb : σ.bufs[b]? = some buf)
    (hc : buf.chunk = some c)
    (hacq : Acquires k g plain (σ.bufs.flatMap (PooledByteBuf.tokensIn σ)) b req buf new₀ e σ σ₁)
    (hsmall : small → req ≤ k.sizes.chunkSize) (hs : SameBlock new₀ new)
    (htmp : new.tmpBuf = new₀.tmpBuf) (hlength : new.length = new₀.length) (hm : m ≤ req)
    (hindex : 0 ≤ m → IndexInv new) (cache : Option ThreadId) :
    Ends (do PoolArena.memoryCopy buf.memory buf.offset new₀ m
             PoolArena.free k c buf.tmpBuf buf.handle buf.maxLength cache)
      { σ₁ with bufs := σ.bufs.set b new } fun _ σ' =>
      0 ≤ m ∧ Moves k g small plain b m buf new σ σ' := by
  set σ₂ : Pool := { σ₁ with bufs := σ.bufs.set b new } with hσ₂
  have hblock := h.live buf (List.mem_of_getElem? hb) c hc
  have hlen : b < σ.bufs.length := (List.getElem?_eq_some_iff.mp hb).1
  have hclt := h.chunk_lt (List.mem_of_getElem? hb) hc
  have hnew : new.chunk = some e := hs.chunk.trans hacq.chunk
  have hnewblock := hacq.sameBlock hs htmp hlength
  obtain ⟨hsame, -⟩ := h.sameChunks_of_persists hacq.persists hacq.cached buf (List.mem_of_getElem? hb)
    c hc
  have hall := hacq.held_apart hb hs
  rw [hblock.memory]
  refine ends_bind (((hall.withBufs (σ.bufs.set b new)).memoryCopy hacq.block.memory buf.offset m).mono ?_)
  rintro _ σ₃ ⟨hcached₃, hcopy⟩
  have hpooled₃ : ∀ c', isPooled σ₃ c' = isPooled σ₁ c' := fun c' => (hcopy.pooled c').1
  obtain ⟨x₁, hx₁⟩ := hblock.sameChunk hc hclt hacq.persists.evolves (fun hmem => by cases hmem)
    hall.held (fun t ht => List.mem_append_left _ (List.mem_append_left _ ht)) |>.2
  have hblock₃ : BlockInv k plain σ₃ buf c :=
    hblock.transport ((hpooled₃ c).trans hsame) ((hcopy.pooled c).2 x₁ hx₁)
  have htokens : buf.tokensIn σ₃ = buf.tokensIn σ := by
    refine PooledByteBuf.tokensIn_congr fun c' hc' => ?_
    obtain rfl : c = c' := Option.some.inj (hc.symm.trans hc')
    exact (hpooled₃ c).trans hsame
  rw [← htokens] at hcached₃
  refine (Cached.freeBlock made hcached₃ hc hblock₃ cache).mono ?_
  rintro _ σ' ⟨hcached, hbufs, hstacks, hfreed⟩
  -- everything that has happened to the memory
  have hev : Evolves [⟨e, new.offset, m⟩] [c] σ σ' := by
    have hset : Persists σ₁ σ₂ := persists_of_eq rfl rfl
    rw [hs.offset]
    exact ((trans_of Persists hacq.persists hset).evolves.trans hcopy.evolves).trans hfreed
  obtain ⟨y₁, hy₁⟩ := hnewblock.chunk
  obtain ⟨y₃, hy₃⟩ := (hcopy.pooled e).2 y₁ hy₁
  have hnew₃ : BlockInv k plain σ₃ new e := hnewblock.transport (hpooled₃ e) ⟨y₃, hy₃⟩
  have htokens₃ : new.tokensIn σ₃ = new.tokensIn σ₁ :=
    PooledByteBuf.tokensIn_congr fun c' _ => hpooled₃ c'
  have hkept := hnew₃.sameChunk hnew (hcached₃.held.chunk_lt_count hy₃) hfreed (fun hmem => ?_)
    hcached.held fun t ht => List.mem_append_left _ (List.mem_append_left _ (htokens₃ ▸ ht))
  swap
  · obtain rfl := List.mem_singleton.mp hmem
    rw [hpooled₃]
    by_contra hp
    exact absurd hclt (not_lt.mpr (hacq.fresh (Bool.not_eq_true _ ▸ hp)))
  have heq : isPooled σ' e = isPooled σ₁ e := hkept.1.trans (hpooled₃ e)
  refine ⟨hcopy.nonneg, ?_⟩
  have hinv : PoolInv k g small plain σ' := by
    refine h.setBuf (h.not_recycled hb hc) hlen (hbufs.trans hcopy.bufs) ?_ ?_ ?_ ?_
      (hindex hcopy.nonneg) ?_ ?_ fun hnone => ?_
    · rw [hstacks, hcopy.threads]
      exact hacq.recycled
    · exact h.sameChunks hev (fun _ => mem_of_mem_eraseIdx) (h.gone hb hc) hcached.held
        fun t ht => List.mem_append_left _ (List.mem_append_right _ ht)
    · have htokens' : new.tokensIn σ' = new.tokensIn σ₁ := by
        refine PooledByteBuf.tokensIn_congr fun c' hc' => ?_
        obtain rfl : e = c' := Option.some.inj (hnew.symm.trans hc')
        exact heq
      rw [htokens']
      exact hcached
    · intro c' hc'
      obtain rfl : e = c' := Option.some.inj (hnew.symm.trans hc')
      exact hnewblock.transport heq hkept.2
    · intro c' hc' hp d hd
      obtain rfl : e = c' := Option.some.inj (hnew.symm.trans hc')
      exact hacq.chunk_ne h (heq ▸ hp) d (mem_of_mem_eraseIdx hd)
    · intro hsm c' hc'
      obtain rfl : e = c' := Option.some.inj (hnew.symm.trans hc')
      rw [heq]
      exact (hacq.sized (hsmall hsm)).2
    · rw [hnew] at hnone
      cases hnone
  have hbufs' : σ'.bufs = σ.bufs.set b new := hbufs.trans hcopy.bufs
  have hself : σ'.bufs[b]? = some new := by rw [hbufs', List.getElem?_set_self hlen]
  refine ⟨hinv, hbufs', fun i h0 hi => ?_, fun j hj => ?_⟩
  · have hnew' : BlockInv k plain σ' new e := hnewblock.transport heq hkept.2
    obtain ⟨x, hx⟩ := hblock.chunk
    obtain ⟨x', hx', -, -, hmem⟩ := hacq.persists.chunk c x₁ hclt hx₁
    obtain rfl : x = x' := Option.some.inj (hx.symm.trans hx')
    rw [hnew'.byteAt_eq hfreed (hcached₃.held.chunk_lt_count hy₃) (fun _ he => by cases he),
      hnew₃.byteAt hy₃, hblock.byteAt hx, ← hmem, hs.offset]
    exact congrArg some (hcopy.bytes x₁ y₃ hx₁ hy₃ i h0 hi)
  · refine h.intact_of_ne hinv hev hself ?_ hj (by rw [hbufs', List.getElem?_set_ne hj.symm])
    intro ext hext
    obtain rfl := List.mem_singleton.mp hext
    refine ⟨hnew, le_refl _, fun hp => ?_⟩
    have hpos := (hacq.block.pooled (heq ▸ hp)).length
    have hreq := hacq.length hpos
    have hle := hacq.block.length
    have hmax := hs.maxLength
    show new.offset + m ≤ new.offset + new.maxLength
    omega

/-- What `capacity(n)` makes of a buffer. -/
structure Resizes (k : Config) (n : ℤ) (buf new : PooledByteBuf) : Prop where
  maxCapacity : new.maxCapacity = buf.maxCapacity
  live : new.chunk.isSome = buf.chunk.isSome
  length : n ≤ k.sizes.chunkSize → new.length = n
  fits : 0 ≤ new.length → n ≤ new.length
  nonneg : 0 ≤ n → 0 ≤ buf.length
  checked : n ≤ buf.maxCapacity ∨ new = buf
  readerIndex : 0 ≤ n → new.readerIndex = min buf.readerIndex n
  writerIndex : 0 ≤ n → new.writerIndex = min buf.writerIndex n

theorem trimIndicesToCapacity_sameBlock (buf : PooledByteBuf) (n : ℤ) : SameBlock buf (buf.trimIndicesToCapacity n) := by
  unfold PooledByteBuf.trimIndicesToCapacity
  split_ifs <;> exact ⟨rfl, rfl, rfl, rfl, rfl⟩

theorem trimIndicesToCapacity_rest (buf : PooledByteBuf) (n : ℤ) :
    (buf.trimIndicesToCapacity n).length = buf.length ∧
    (buf.trimIndicesToCapacity n).tmpBuf = buf.tmpBuf ∧
    (buf.trimIndicesToCapacity n).maxCapacity = buf.maxCapacity := by
  unfold PooledByteBuf.trimIndicesToCapacity
  split_ifs <;> exact ⟨rfl, rfl, rfl⟩

theorem trimIndicesToCapacity_indices (buf : PooledByteBuf) (n : ℤ) (h : buf.readerIndex ≤ buf.writerIndex) :
    (buf.trimIndicesToCapacity n).readerIndex = min buf.readerIndex n ∧
      (buf.trimIndicesToCapacity n).writerIndex = min buf.writerIndex n := by
  unfold PooledByteBuf.trimIndicesToCapacity
  split_ifs with hgt
  · exact ⟨rfl, (min_eq_right hgt.le).symm⟩
  · exact ⟨(min_eq_left (by omega)).symm, (min_eq_left (by omega)).symm⟩

theorem PoolInv.moves (h : PoolInv k g small plain σ) (hb : σ.bufs[b]? = some buf)
    (hs : SameBlock buf buf') (hindex : IndexInv buf')
    (hlive : ∀ c, buf.chunk = some c → BlockInv k plain σ buf c → BlockInv k plain σ buf' c)
    (htmp : buf'.tmpBuf = buf.tmpBuf) (m : ℤ) :
    Moves k g small plain b m buf buf' σ { σ with bufs := σ.bufs.set b buf' } where
  inv := h.keepBlock hb hs hindex hlive fun _ => htmp
  bufs := rfl
  bytes i _ _ := by
    rw [Pool.byteAt, Pool.byteAt, hs.memory, hs.offset]
  others j hj d hd _ := ⟨by rw [List.getElem?_set_ne hj.symm, hd], fun _ _ _ => rfl⟩

theorem PoolInv.self_moves (h : PoolInv k g small plain σ) (hb : σ.bufs[b]? = some buf) (m : ℤ) :
    Moves k g small plain b m buf buf σ σ :=
  ⟨h, (set_self hb).symm, fun _ _ _ => rfl, fun _ _ _ hd _ => ⟨hd, fun _ _ _ => rfl⟩⟩

theorem PoolInv.reallocate (made : k.sizes.Made g) (h : PoolInv k g small plain σ)
    (hb : σ.bufs[b]? = some buf) (a : ArenaId) {n : ℤ} (hne : n ≠ buf.length) (hint : n < 2 ^ 31)
    (hsmall : small → n ≤ k.sizes.chunkSize) :
    Ends (PoolArena.reallocate k a u b n) σ fun _ σ' =>
      ∃ new, Resizes k n buf new ∧ Moves k g small plain b (min buf.length n) buf new σ σ' := by
  refine ends_bind (ends_getBuf fun buf₀ hb₀ => ends_bind (ends_assert fun hn => ?_))
  obtain rfl : buf = buf₀ := Option.some.inj (hb.symm.trans hb₀)
  rw [if_neg hne.symm]
  cases hc : buf.chunk with
  | none => exact ends_fail _
  | some c =>
    have hindex := h.index buf (List.mem_of_getElem? hb)
    have hlen : b < σ.bufs.length := (List.getElem?_eq_some_iff.mp hb).1
    refine ends_bind ((h.cached.acquire made hb a hint).mono ?_)
    rintro _ σ₁ ⟨new₀, e, hacq⟩
    refine ends_bind (ends_getBuf fun new' hnew' => ?_)
    rw [hacq.bufs, List.getElem?_set_self hlen] at hnew'
    obtain rfl : new₀ = new' := Option.some.inj hnew'
    have hr := hacq.readerIndex
    have hw := hacq.writerIndex
    have hlive : new₀.chunk.isSome = buf.chunk.isSome := by
      rw [hacq.chunk, hc]
      rfl
    refine ends_bind (ends_when (fun hshrink => ends_update ?_) fun hgrow => ?_)
    · -- the indices are cut first
      obtain ⟨htrim, htmp, hmax⟩ := trimIndicesToCapacity_rest new₀ n
      obtain ⟨hr', hw'⟩ := trimIndicesToCapacity_indices new₀ n (by rw [hr, hw]; exact hindex.writer)
      have hs := trimIndicesToCapacity_sameBlock new₀ n
      rw [if_neg hshrink, min_eq_right (not_lt.mp hshrink), hacq.bufs, List.set_set]
      refine (hacq.move made h hb hc hsmall hs htmp htrim le_rfl (fun h0 => ?_) new₀.cache).mono ?_
      · refine ⟨?_, ?_, fun hpos => ?_, htrim ▸ hacq.range, fun hneg => ?_⟩
        · rw [hr', hr]
          exact le_min hindex.reader h0
        · rw [hr', hw', hr, hw]
          exact min_le_min_right n hindex.writer
        · rw [htrim] at hpos
          rw [hw', htrim]
          exact (min_le_right _ _).trans (hacq.length hpos)
        · rw [htrim] at hneg
          rw [hs.maxLength]
          exact hacq.maxLength hneg
      · rintro _ σ' ⟨-, hmoves⟩
        refine ⟨_, ⟨hmax.trans hacq.maxCapacity, ?_, fun hle => ?_, ?_, fun h0 => ?_, .inl hn.2, fun _ => ?_,
          fun _ => ?_⟩, hmoves⟩
        · rw [hs.chunk, hlive]
        · rw [htrim]
          exact (hacq.sized hle).1
        · rw [htrim]
          exact hacq.length
        · exact h0.trans (not_lt.mp hshrink)
        · rw [hr', hr]
        · rw [hw', hw]
    · rw [not_not] at hgrow
      rw [if_pos hgrow, min_eq_left hgrow.le]
      have hwle : 0 ≤ buf.length → buf.writerIndex ≤ n := fun h0 => (hindex.length h0).trans hgrow.le
      have hstate : σ₁ = { σ₁ with bufs := σ.bufs.set b new₀ } := by rw [← hacq.bufs]
      rw [hstate]
      refine (hacq.move made h hb hc hsmall ⟨rfl, rfl, rfl, rfl, rfl⟩ rfl rfl hgrow.le (fun h0 => ?_)
        new₀.cache).mono ?_
      · refine ⟨hr ▸ hindex.reader, by rw [hr, hw]; exact hindex.writer, fun hpos => ?_, hacq.range,
          hacq.maxLength⟩
        rw [hw]
        exact (hwle h0).trans (hacq.length hpos)
      · rintro _ σ' ⟨h0, hmoves⟩
        refine ⟨_, ⟨hacq.maxCapacity, hlive, fun hle => (hacq.sized hle).1, hacq.length, fun _ => h0,
          .inl hn.2, fun _ => ?_, fun _ => ?_⟩, hmoves⟩
        · rw [hr, min_eq_left (hindex.writer.trans (hwle h0))]
        · rw [hw, min_eq_left (hwle h0)]

theorem PoolInv.lengthen (h : PoolInv k g small plain σ) (hb : σ.bufs[b]? = some buf) {n : ℤ}
    (hint : n < 2 ^ 31) (hcheck : 0 ≤ n ∧ n ≤ buf.maxCapacity) (hgrow : buf.length < n ∧ n ≤ buf.maxLength) :
    Resizes k n buf { buf with length := n } ∧
      Moves k g small plain b (min buf.length n) buf { buf with length := n } σ
        { σ with bufs := σ.bufs.set b { buf with length := n } } := by
  have hindex := h.index buf (List.mem_of_getElem? hb)
  -- a negative length has no block to grow in
  have hpos : 0 ≤ buf.length := by
    by_contra hneg
    have := hindex.maxLength (not_le.mp hneg)
    omega
  have hwle := hindex.length hpos
  have hrle := hindex.writer
  set long : PooledByteBuf := { buf with length := n } with hlong
  have hs : SameBlock buf long := ⟨rfl, rfl, rfl, rfl, rfl⟩
  refine ⟨⟨rfl, rfl, fun _ => rfl, fun _ => le_refl _, fun _ => hpos, .inl hcheck.2, fun _ => ?_, fun _ => ?_⟩,
    h.moves hb hs ⟨hindex.reader, hindex.writer, fun _ => ?_, hint, fun hneg => ?_⟩ ?_ rfl _⟩
  · exact (min_eq_left (by show buf.readerIndex ≤ n; omega)).symm
  · exact (min_eq_left (by show buf.writerIndex ≤ n; omega)).symm
  · show buf.writerIndex ≤ n
    omega
  · exact absurd hcheck.1 (not_le.mpr hneg)
  · intro c _ hblock
    exact hblock.sameBlock hs hblock.tmpBuf hgrow.2 fun _ => hcheck.1

theorem PoolInv.shorten (h : PoolInv k g small plain σ) (hb : σ.bufs[b]? = some buf) {n : ℤ}
    (hint : n < 2 ^ 31) (hcheck : 0 ≤ n ∧ n ≤ buf.maxCapacity) (hshrink : n ≤ buf.length) {new : PooledByteBuf}
    (hnew : new = ({ buf with length := n } : PooledByteBuf).trimIndicesToCapacity n) :
    Resizes k n buf new ∧ Moves k g small plain b (min buf.length n) buf new σ
      { σ with bufs := σ.bufs.set b new } := by
  have hindex := h.index buf (List.mem_of_getElem? hb)
  set short : PooledByteBuf := { buf with length := n } with hshort
  obtain ⟨hchunk, hhandle, hmemory, hoffset, hmaxLength⟩ := trimIndicesToCapacity_sameBlock short n
  obtain ⟨hlen, htmp, hmax⟩ := trimIndicesToCapacity_rest short n
  obtain ⟨hr, hw⟩ := trimIndicesToCapacity_indices short n hindex.writer
  rw [← hnew] at hchunk hhandle hmemory hoffset hmaxLength hlen htmp hmax hr hw
  have hs : SameBlock buf new := ⟨hchunk, hhandle, hmemory, hoffset, hmaxLength⟩
  refine ⟨⟨hmax, ?_, fun _ => hlen, fun _ => hlen.ge, fun h0 => h0.trans hshrink, .inl hcheck.2,
    fun _ => hr, fun _ => hw⟩, h.moves hb hs ⟨?_, ?_, fun _ => ?_, hlen ▸ hint, fun hneg => ?_⟩ ?_ htmp _⟩
  · rw [hchunk]
  · rw [hr]
    exact le_min hindex.reader hcheck.1
  · rw [hr, hw]
    exact min_le_min_right n hindex.writer
  · rw [hw, hlen]
    exact min_le_right _ _
  · rw [hlen] at hneg
    exact absurd hcheck.1 (not_le.mpr hneg)
  · intro c _ hblock
    have hle : n ≤ buf.maxLength := hshrink.trans hblock.length
    refine hblock.sameBlock hs (fun hp => htmp.trans (hblock.tmpBuf hp)) (hlen.trans_le hle) fun _ => ?_
    rw [hlen]
    exact hcheck.1

theorem PoolInv.capacity (made : k.sizes.Made g) (h : PoolInv k g small plain σ)
    (hb : σ.bufs[b]? = some buf) {n : ℤ} (hint : n < 2 ^ 31)
    (hsmall : small → buf.chunk.isSome = true → n ≤ k.sizes.chunkSize) :
    Ends (PooledByteBuf.capacity k u b n) σ fun _ σ' =>
      ∃ new, Resizes k n buf new ∧ Moves k g small plain b (min buf.length n) buf new σ σ' := by
  refine ends_bind (ends_getBuf fun buf₀ hb₀ => ?_)
  obtain rfl : buf = buf₀ := Option.some.inj (hb.symm.trans hb₀)
  refine ends_ite (fun hsame => ends_pure ?_) fun hne => ends_ite (fun _ => ends_fail _) fun hcheck => ?_
  · have hindex := h.index buf (List.mem_of_getElem? hb)
    have hmoves := h.self_moves hb (min buf.length n)
    refine ⟨buf, ⟨rfl, rfl, fun _ => hsame.symm, fun _ => hsame.le, fun h0 => hsame ▸ h0, .inr rfl,
      fun h0 => ?_, fun h0 => ?_⟩, hmoves⟩
    · have := hindex.length (hsame ▸ h0)
      have := hindex.writer
      omega
    · have := hindex.length (hsame ▸ h0)
      omega
  rw [not_or, not_lt, not_lt] at hcheck
  refine ends_ite (fun hgrow => ends_update ?_) fun _ => ends_ite (fun hshrink => ends_update ?_) fun _ => ?_
  · exact ⟨_, h.lengthen hb hint hcheck hgrow⟩
  · exact ⟨_, h.shorten hb hint hcheck (not_lt.mp hshrink.1) rfl⟩
  · cases hc : buf.chunk with
    | none => exact ends_fail _
    | some c =>
      refine ends_bind (ends_getChunk fun x _ => h.reallocate made hb x.arena hne hint fun hs => ?_)
      exact hsmall hs (by rw [hc]; rfl)

/-! ### Runs of the machine -/

/-- The sizes that are asked for are those of pooled buffers. -/
def Sized (k : Config) (_ : Pool) : PoolAction → Prop
  | .allocate _ _ reqCapacity _ => 0 ≤ reqCapacity ∧ reqCapacity ≤ k.sizes.chunkSize
  | .capacity _ _ newCapacity => newCapacity ≤ k.sizes.chunkSize
  | _ => True

instance (σ : Pool) : (a : PoolAction) → Decidable (Sized k σ a)
  | .allocate _ _ reqCapacity _ =>
    inferInstanceAs (Decidable (0 ≤ reqCapacity ∧ reqCapacity ≤ k.sizes.chunkSize))
  | .capacity _ _ newCapacity => inferInstanceAs (Decidable (newCapacity ≤ k.sizes.chunkSize))
  | .attach => isTrue trivial
  | .deallocate _ _ => isTrue trivial
  | .trim _ => isTrue trivial

def PoolAction.request : PoolAction → Option ℤ
  | .allocate _ _ reqCapacity _ => some reqCapacity
  | .capacity _ _ newCapacity => some newCapacity
  | _ => none

theorem getBuf_eq (hb : σ.bufs[b]? = some buf) : getBuf b σ = .ok (buf, σ) := by
  have hlook : (look fun σ => σ.bufs[b]?) σ = .ok (some buf, σ) := by
    rw [← hb]
    rfl
  exact run_bind hlook

theorem ends_getBuf_none {Q : PooledByteBuf → Pool → Prop} (hb : σ.bufs[b]? = none) :
    Ends (getBuf b) σ Q := by
  refine ends_getBuf fun buf hbuf => ?_
  rw [hb] at hbuf
  cases hbuf

theorem ends_of_buf {α : Type} {p : PoolM α} {Q : α → Pool → Prop} (hnone : σ.bufs[b]? = none → Ends p σ Q)
    (hsome : ∀ buf, σ.bufs[b]? = some buf → Ends p σ Q) : Ends p σ Q := by
  cases hb : σ.bufs[b]? with
  | none => exact hnone hb
  | some buf => exact hsome buf hb

theorem PoolInv.run (made : k.sizes.Made g) (h : PoolInv k g small plain σ) {a : PoolAction}
    (hint : ∀ n ∈ a.request, n < 2 ^ 31) (hsmall : small → ∀ n ∈ a.request, n ≤ k.sizes.chunkSize) :
    Ends (a.run k) σ fun _ σ' => PoolInv k g small plain σ' := by
  cases a with
  | attach => exact h.attach.mono fun _ _ hend => hend.1
  | allocate a u req maxCapacity =>
    refine ends_bind ((h.allocate made a (hint req rfl) (fun hs => hsmall hs req rfl) maxCapacity).mono ?_)
    exact fun _ _ hend => ends_pure hend.1
  | deallocate u b =>
    refine ends_of_buf (b := b) (fun hb => ends_bind (ends_getBuf_none hb)) fun buf hb => ?_
    refine (h.deallocate made hb).mono ?_
    rintro _ σ' ⟨dead, hfree⟩
    exact hfree.inv
  | capacity u b n =>
    refine ends_of_buf (b := b) (fun hb => ends_bind (ends_getBuf_none hb)) fun buf hb => ?_
    refine (h.capacity made hb (hint n rfl) fun hs _ => hsmall hs n rfl).mono ?_
    rintro _ σ' ⟨new, -, hmoves⟩
    exact hmoves.inv
  | trim u => exact (h.trim made).mono fun _ _ hend => hend.1

theorem Sized.request {a : PoolAction} (h : Sized k σ a) : ∀ n ∈ a.request, n ≤ k.sizes.chunkSize := by
  intro n hn
  cases a with
  | allocate a u req maxCapacity =>
    obtain rfl := Option.some.inj hn
    exact h.2
  | capacity u b m =>
    obtain rfl := Option.some.inj hn
    exact h
  | attach => cases hn
  | deallocate u b => cases hn
  | trim u => cases hn

theorem SizeClasses.Made.chunkSize_lt (made : k.sizes.Made g) : (k.sizes.chunkSize : ℤ) < 2 ^ 31 := by
  have := g.chunkSize_le
  rw [made.chunkSize]
  omega

theorem Pool.initial_held : Held k g Pool.initial [] := by
  refine ⟨?_, ?_, ?_, ?_, fun _ _ => rfl, fun _ _ => rfl⟩
  · intro c x hx
    cases hx
  · intro c x hx
    cases hx
  · intro t ht
    cases ht
  · intro s p hp
    cases hp

theorem Pool.initial_inv : PoolInv k g small plain Pool.initial := by
  refine ⟨⟨Pool.initial_held, ?_⟩, ?_, ?_, List.nodup_nil, ?_, List.nodup_nil, ?_, ?_⟩
  · intro th hth
    cases hth
  · intro buf hbuf
    cases hbuf
  · intro buf hbuf
    cases hbuf
  · intro _ buf hbuf
    cases hbuf
  · intro b hb
    cases hb
  · intro buf hbuf
    cases hbuf

/-- The sizes of an arena without running the constructor. -/
theorem arenaSizes_eq {pageSize maxOrder : ℤ} (g : Geometry)
    (hchunk : validateAndCalculateChunkSize pageSize maxOrder = .ok g.chunkSize)
    (hshifts : validateAndCalculatePageShifts pageSize = .ok g.pageShifts) :
    arenaSizes pageSize maxOrder = .ok (SizeClasses.tables g) := by
  refine bind_eq_ok.mpr ⟨g.chunkSize, hchunk, bind_eq_ok.mpr ⟨g.pageShifts, hshifts, ?_⟩⟩
  rw [Int.toNat_natCast, Int.toNat_natCast]
  exact SizeClasses.make_eq_tables g

theorem arenaSizes_made {pageSize maxOrder : ℤ} (hint : pageSize < 2 ^ 31) {z : SizeClasses}
    (h : arenaSizes pageSize maxOrder = .ok z) :
    ∃ g, z.Made g ∧ validateAndCalculateChunkSize pageSize maxOrder = .ok z.chunkSize := by
  obtain ⟨chunkSize, hchunk, h⟩ := bind_eq_ok.mp h
  obtain ⟨pageShifts, hshifts, h⟩ := bind_eq_ok.mp h
  obtain ⟨g, hps, hcs⟩ := exists_geometry hint hchunk hshifts
  obtain ⟨z', hz', hmade⟩ := SizeClasses.make_spec g
  rw [hps, hcs, Int.toNat_natCast, Int.toNat_natCast] at h
  obtain rfl : z' = z := Except.ok.inj (hz'.symm.trans h)
  refine ⟨g, hmade, ?_⟩
  rw [hchunk, hcs, hmade.chunkSize]

theorem PoolInv.reach (h : System.Reach (poolMachine k) (Sized k) σ) :
    ∃ g, k.sizes.Made g ∧ PoolInv k g True True σ := by
  induction h with
  | init hi =>
    obtain ⟨⟨pageSize, maxOrder, hint, hsizes⟩, rfl⟩ := hi
    obtain ⟨g, made, -⟩ := arenaSizes_made hint hsizes
    exact ⟨g, made, Pool.initial_inv⟩
  | step _ hg hs ih =>
    obtain ⟨g, made, hinv⟩ := ih
    obtain ⟨⟨_, σ₁⟩, hrun, rfl⟩ := Option.map_eq_some_iff.mp hs
    have hle := Sized.request hg
    exact ⟨g, made, hinv.run made (fun n hn => (hle n hn).trans_lt made.chunkSize_lt) (fun _ => hle) _ _
      (toOption_eq_some.mp hrun)⟩

/-- The byte ranges `[offset, offset + maxLength)` of the buffers that have a chunk. -/
def PooledByteBuf.extents (buf : PooledByteBuf) : List Extent :=
  buf.chunk.toList.map fun c => ⟨c, buf.offset, buf.maxLength⟩

/-- The byte ranges of all live buffers and of the blocks in all thread caches. -/
def extents (k : Config) (σ : Pool) : List Extent :=
  σ.bufs.flatMap PooledByteBuf.extents ++ (cacheTokens σ).map (Token.extent k)

theorem PoolInv.extents_eq (h : PoolInv k g True plain σ) : extents k σ =
    (σ.bufs.flatMap (PooledByteBuf.tokensIn σ) ++ cacheTokens σ).map (Token.extent k) := by
  rw [extents, List.map_append, List.map_flatMap]
  congr 1
  refine List.flatMap_congr fun buf hbuf => ?_
  cases hc : buf.chunk with
  | none => simp [PooledByteBuf.extents, PooledByteBuf.tokensIn_of_none hc, hc]
  | some c =>
    have hp := h.pooled trivial buf hbuf c hc
    have hoff := ((h.live buf hbuf c hc).pooled hp).offset
    simp [PooledByteBuf.extents, PooledByteBuf.tokensIn_of_pooled hc hp, hc, Token.extent, ← hoff]

/-- In every state that whole operations of any threads reach, the blocks of live buffers and of
cache entries are apart, inside their chunks, and no shorter than the buffers. -/
theorem blocks_apart (h : System.Reach (poolMachine k) (Sized k) σ) :
    (extents k σ).Pairwise Extent.Apart ∧
      (∀ e ∈ extents k σ, 0 ≤ e.offset ∧ e.offset + e.size ≤ k.sizes.chunkSize) ∧
      ∀ buf ∈ σ.bufs, buf.chunk.isSome = true → 0 ≤ buf.length ∧ buf.length ≤ buf.maxLength := by
  obtain ⟨g, made, hinv⟩ := PoolInv.reach h
  rw [hinv.extents_eq]
  refine ⟨hinv.cached.held.pairwise_apart, fun e he => ?_, fun buf hbuf hsome => ?_⟩
  · obtain ⟨t, ht, rfl⟩ := List.mem_map.mp he
    exact hinv.cached.held.extent_le made ht
  · obtain ⟨c, hc⟩ := Option.isSome_iff_exists.mp hsome
    have hlive := hinv.live buf hbuf c hc
    exact ⟨(hlive.pooled (hinv.pooled trivial buf hbuf c hc)).length, hlive.length⟩

def smallGeometry : Geometry := ⟨12, 3, by norm_num, by norm_num, by norm_num⟩

/-- Pages of 4096 bytes, eight a chunk, with caches. -/
def smallConfig : Config :=
  { sizes := match arenaSizes 4096 3 with
      | .ok sizes => sizes
      | .error _ => { pageShifts := 12, chunkSize := 32768 }
    freeMinThreshold := fun l => ListKind.exactThreshold 32768 l.maxUsage
    freeMaxThreshold := fun l => ListKind.exactThreshold 32768 l.minUsage
    smallCacheSize := 256
    normalCacheSize := 64
    maxCachedBufferCapacity := 32768
    freeSweepAllocationThreshold := 8192 }

theorem arenaSizes_small : arenaSizes 4096 3 =
    .ok (SizeClasses.tables smallGeometry) :=
  arenaSizes_eq _ (by decide) (by decide)

theorem smallConfig_eq : smallConfig = { smallConfig with
    sizes := SizeClasses.tables smallGeometry } := by
  simp [smallConfig, arenaSizes_small]

theorem smallConfig_init : (poolMachine smallConfig).init Pool.initial := by
  refine ⟨⟨4096, 3, by norm_num, ?_⟩, rfl⟩
  rw [arenaSizes_small, smallConfig_eq]

theorem smallConfig_chunkSize : smallConfig.sizes.chunkSize = 32768 := by
  rw [smallConfig_eq]
  rfl

/-- A run and an element are allocated, the element goes to the cache, and the other buffer moves
to a small block: two blocks in the cache and one in use. -/
theorem blocks_apart_after_move :
    ∃ σ, System.Reach (poolMachine smallConfig) (Sized smallConfig) σ ∧
      extents smallConfig σ = [⟨0, 24576, 16⟩, ⟨0, 20480, 64⟩, ⟨0, 0, 20480⟩] ∧
      (extents smallConfig σ).Pairwise Extent.Apart := by
  obtain ⟨σ, -, hreach, hp⟩ := System.exists_reach (M := poolMachine smallConfig)
    (G := Sized smallConfig)
    [.attach, .allocate 0 0 20000 40000, .allocate 0 0 60 60, .deallocate 0 1, .capacity 0 0 10]
    (fun σ => extents smallConfig σ = [⟨0, 24576, 16⟩, ⟨0, 20480, 64⟩, ⟨0, 0, 20480⟩])
    smallConfig_init (by rw [smallConfig_eq]; decide +kernel)
  exact ⟨σ, hreach, of_decide_eq_true hp, (blocks_apart hreach).1⟩

end Mutty.Buffer
