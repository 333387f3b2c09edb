import Mutty.Buffer.Blocks
import Mutty.Buffer.ThreadCache

/-!
# Every block has one owner

A live buffer has a block of a pooled chunk, or a chunk of its own. The tokens of the first kind and
of all cache entries are held by the store together; a chunk of the second kind belongs to one
buffer. `PoolInv` says so, and that a buffer points to its block in the three ways that it has. It
is kept by every operation on buffers, so in every state that whole operations reach, the byte
ranges of live buffers and cached blocks are apart.
-/

namespace Mutty.Buffer

open Mutty.Lib Prog

variable {k : Config} {g : Geometry} {small plain : Prop} {σ σ' : Pool} {T F : List Token} {t : Token}
  {b : BufId} {buf buf' d : PooledByteBuf} {bufs : List PooledByteBuf} {th : Thread} {u : ThreadId}
  {req : ℤ} {c : ChunkId} {x : PoolChunk} {es es' : List Extent} {gone gone' : List ChunkId}

/-! ### Chunks -/

/-- The chunk is there, and blocks of it are handed out. -/
def isPooled (σ : Pool) (c : ChunkId) : Bool := (σ.chunk c).any fun x => !x.unpooled

theorem isPooled_eq (hx : σ.chunk c = some x) : isPooled σ c = !x.unpooled := by
  simp [isPooled, hx]

theorem Held.isPooled (hh : Held k g σ T) (ht : t ∈ T) : isPooled σ t.chunk = true := by
  obtain ⟨x, hx⟩ := (hh.tokens t ht).exists_chunk
  rw [isPooled_eq hx, hh.pooled_of_token ht hx]
  rfl

theorem Held.chunk_lt_count (hh : Held k g σ T) (hx : σ.chunk c = some x) : c < σ.chunkCount := by
  by_contra hge
  rw [hh.freshChunk c (not_lt.mp hge)] at hx
  cases hx

def Extent.Has (e : Extent) (c : ChunkId) (i : ℤ) : Prop :=
  e.chunk = c ∧ e.offset ≤ i ∧ i < e.offset + e.size

/-- No memory has changed but in the ranges `es`, and no chunk that a buffer has for itself has gone
but those of `gone`. -/
structure Evolves (es : List Extent) (gone : List ChunkId) (σ σ' : Pool) : Prop where
  count : σ.chunkCount ≤ σ'.chunkCount
  chunk : ∀ c x', c < σ.chunkCount → σ'.chunk c = some x' → ∃ x, σ.chunk c = some x ∧
    x'.unpooled = x.unpooled ∧ ∀ i, (∀ e ∈ es, ¬ e.Has c i) → x'.memory i = x.memory i
  kept : ∀ c x, c < σ.chunkCount → c ∉ gone → σ.chunk c = some x → x.unpooled = true →
    ∃ x', σ'.chunk c = some x'

theorem Persists.evolves (h : Persists σ σ') : Evolves [] [] σ σ' where
  count := h.count
  chunk c x' hc hx' := by
    obtain ⟨x, hx, -, hu, hm⟩ := h.chunk c x' hc hx'
    exact ⟨x, hx, hu, fun _ _ => by rw [hm]⟩
  kept c x hc _ hx hun := h.kept c x hc hx hun

theorem Evolves.trans {σ₁ : Pool} (h : Evolves es gone σ σ₁) (h' : Evolves es' gone' σ₁ σ') :
    Evolves (es ++ es') (gone ++ gone') σ σ' where
  count := h.count.trans h'.count
  chunk c z hc hz := by
    obtain ⟨y, hy, hu', hm'⟩ := h'.chunk c z (hc.trans_le h.count) hz
    obtain ⟨x, hx, hu, hm⟩ := h.chunk c y hc hy
    refine ⟨x, hx, hu'.trans hu, fun i hi => ?_⟩
    rw [hm' i fun e he => hi e (List.mem_append_right _ he),
      hm i fun e he => hi e (List.mem_append_left _ he)]
  kept c x hc hgone hx hun := by
    rw [List.mem_append, not_or] at hgone
    obtain ⟨y, hy⟩ := h.kept c x hc hgone.1 hx hun
    obtain ⟨x', hx', hu, -⟩ := h.chunk c y hc hy
    obtain rfl := Option.some.inj (hx.symm.trans hx')
    exact h'.kept c y (hc.trans_le h.count) hgone.2 hy (hu.trans hun)

/-! ### Buffers -/

def PooledByteBuf.tokens (buf : PooledByteBuf) : List Token :=
  buf.chunk.toList.map fun c => ⟨c, buf.handle, buf.maxLength⟩

/-- The block of a buffer, unless it has a chunk of its own. -/
def PooledByteBuf.tokensIn (σ : Pool) (buf : PooledByteBuf) : List Token :=
  buf.tokens.filter fun t => isPooled σ t.chunk

/-- The chunk that a buffer has for itself. -/
def PooledByteBuf.hugeIn (σ : Pool) (buf : PooledByteBuf) : List ChunkId :=
  buf.chunk.toList.filter fun c => !isPooled σ c

/-- A buffer that has a block of the pooled chunk `c`. -/
structure PooledInv (k : Config) (buf : PooledByteBuf) (c : ChunkId) : Prop where
  offset : buf.offset = Token.offset k ⟨c, buf.handle, buf.maxLength⟩
  length : 0 ≤ buf.length

/-- A buffer that has a block of chunk `c`, or the whole of it. -/
structure BlockInv (k : Config) (plain : Prop) (σ : Pool) (buf : PooledByteBuf) (c : ChunkId) :
    Prop where
  chunk : ∃ x, σ.chunk c = some x
  handle : 0 ≤ buf.handle
  memory : buf.memory = some c
  tmpBuf : plain → buf.tmpBuf = some (c, buf.offset)
  length : buf.length ≤ buf.maxLength
  pooled : isPooled σ c = true → PooledInv k buf c
  huge : isPooled σ c = false → buf.offset = 0

/-- The indices of a buffer. Its length is negative when the size of a chunk of its own has been
rounded up beyond the range of an `int`. -/
structure IndexInv (buf : PooledByteBuf) : Prop where
  reader : 0 ≤ buf.readerIndex
  writer : buf.readerIndex ≤ buf.writerIndex
  length : 0 ≤ buf.length → buf.writerIndex ≤ buf.length
  range : buf.length < 2 ^ 31
  maxLength : buf.length < 0 → buf.maxLength < 0

def recycled (σ : Pool) : List BufId := (σ.threads.map Thread.stack).flatten

/-- If `small` then all blocks are of pooled chunks, and if `plain` then all pointers are to the first
byte of a block. -/
structure PoolInv (k : Config) (g : Geometry) (small plain : Prop) (σ : Pool) : Prop where
  cached : Cached k g plain σ (σ.bufs.flatMap (PooledByteBuf.tokensIn σ))
  live : ∀ buf ∈ σ.bufs, ∀ c, buf.chunk = some c → BlockInv k plain σ buf c
  index : ∀ buf ∈ σ.bufs, IndexInv buf
  own : (σ.bufs.flatMap (PooledByteBuf.hugeIn σ)).Nodup
  pooled : small → ∀ buf ∈ σ.bufs, ∀ c, buf.chunk = some c → isPooled σ c = true
  nodup : (recycled σ).Nodup
  dead : ∀ b ∈ recycled σ, ∃ buf, σ.bufs[b]? = some buf ∧ buf.chunk = none
  empty : ∀ buf ∈ σ.bufs, buf.chunk = none → buf.memory = none ∧ buf.tmpBuf = none

theorem PooledByteBuf.tokensIn_of_none (h : buf.chunk = none) : buf.tokensIn σ = [] := by
  simp [tokensIn, tokens, h]

theorem PooledByteBuf.tokensIn_of_pooled (h : buf.chunk = some c) (hp : isPooled σ c = true) :
    buf.tokensIn σ = [⟨c, buf.handle, buf.maxLength⟩] := by
  simp [tokensIn, tokens, h, hp]

theorem PooledByteBuf.tokensIn_of_huge (h : buf.chunk = some c) (hp : isPooled σ c = false) :
    buf.tokensIn σ = [] := by
  simp [tokensIn, tokens, h, hp]

theorem PooledByteBuf.mem_hugeIn : c ∈ buf.hugeIn σ ↔ buf.chunk = some c ∧ isPooled σ c = false := by
  simp [hugeIn]

structure SameBlock (buf buf' : PooledByteBuf) : Prop where
  chunk : buf'.chunk = buf.chunk
  handle : buf'.handle = buf.handle
  memory : buf'.memory = buf.memory
  offset : buf'.offset = buf.offset
  maxLength : buf'.maxLength = buf.maxLength

theorem SameBlock.tokensIn (h : SameBlock buf buf') : buf'.tokensIn σ = buf.tokensIn σ := by
  rw [PooledByteBuf.tokensIn, PooledByteBuf.tokensIn, PooledByteBuf.tokens, PooledByteBuf.tokens,
    h.chunk, h.handle, h.maxLength]

theorem SameBlock.hugeIn (h : SameBlock buf buf') : buf'.hugeIn σ = buf.hugeIn σ := by
  rw [PooledByteBuf.hugeIn, PooledByteBuf.hugeIn, h.chunk]

theorem BlockInv.transport (h : BlockInv k plain σ buf c) (heq : isPooled σ' c = isPooled σ c)
    (hx : ∃ x, σ'.chunk c = some x) : BlockInv k plain σ' buf c :=
  ⟨hx, h.handle, h.memory, h.tmpBuf, h.length, fun hp => h.pooled (heq ▸ hp),
    fun hp => h.huge (heq ▸ hp)⟩

theorem BlockInv.of_chunk (h : BlockInv k plain σ buf c) (hchunk : σ'.chunk = σ.chunk) :
    BlockInv k plain σ' buf c :=
  h.transport (by rw [isPooled, isPooled, hchunk]) (hchunk ▸ h.chunk)

theorem BlockInv.sameBlock (h : BlockInv k plain σ buf c) (hs : SameBlock buf buf')
    (htmp : plain → buf'.tmpBuf = some (c, buf.offset))
    (hlength : buf'.length ≤ buf.maxLength) (hpos : isPooled σ c = true → 0 ≤ buf'.length) :
    BlockInv k plain σ buf' c where
  chunk := h.chunk
  handle := hs.handle ▸ h.handle
  memory := hs.memory.trans h.memory
  tmpBuf hp := by
    rw [hs.offset]
    exact htmp hp
  length := hs.maxLength ▸ hlength
  pooled hp := by
    refine ⟨?_, hpos hp⟩
    rw [hs.offset, hs.handle, hs.maxLength]
    exact (h.pooled hp).offset
  huge hp := hs.offset.trans (h.huge hp)

/-! ### Frames -/

theorem PooledByteBuf.tokensIn_congr (h : ∀ c, buf.chunk = some c → isPooled σ' c = isPooled σ c) :
    buf.tokensIn σ' = buf.tokensIn σ := by
  refine List.filter_congr fun t ht => ?_
  obtain ⟨c, hc, rfl⟩ := List.mem_map.mp ht
  exact h c (Option.mem_toList.mp hc)

def SameChunks (bufs : List PooledByteBuf) (σ σ' : Pool) : Prop :=
  ∀ buf ∈ bufs, ∀ c, buf.chunk = some c → isPooled σ' c = isPooled σ c ∧ ∃ x, σ'.chunk c = some x

theorem SameChunks.tokensIn (h : SameChunks bufs σ σ') :
    bufs.flatMap (PooledByteBuf.tokensIn σ') = bufs.flatMap (PooledByteBuf.tokensIn σ) := by
  exact List.flatMap_congr fun buf hbuf => PooledByteBuf.tokensIn_congr fun c hc => (h buf hbuf c hc).1

theorem SameChunks.hugeIn (h : SameChunks bufs σ σ') :
    bufs.flatMap (PooledByteBuf.hugeIn σ') = bufs.flatMap (PooledByteBuf.hugeIn σ) := by
  refine List.flatMap_congr fun buf hbuf => List.filter_congr fun c hc => ?_
  rw [(h buf hbuf c (Option.mem_toList.mp hc)).1]

theorem SameChunks.block (h : SameChunks bufs σ σ') (hbuf : buf ∈ bufs) (hc : buf.chunk = some c)
    (hinv : BlockInv k plain σ buf c) : BlockInv k plain σ' buf c := by
  obtain ⟨heq, hx⟩ := h buf hbuf c hc
  exact hinv.transport heq hx

/-- The chunk of a block that is still held stays, and so does one that a buffer has for itself. -/
theorem BlockInv.sameChunk (h : BlockInv k plain σ buf c) (hc : buf.chunk = some c)
    (hcount : c < σ.chunkCount) (he : Evolves es gone σ σ')
    (hgone : c ∈ gone → isPooled σ c = true) (hheld : Held k g σ' T) (hT : ∀ t ∈ buf.tokensIn σ, t ∈ T) :
    isPooled σ' c = isPooled σ c ∧ ∃ x, σ'.chunk c = some x := by
  obtain ⟨x, hx⟩ := h.chunk
  cases hp : isPooled σ c with
  | true =>
    rw [PooledByteBuf.tokensIn_of_pooled hc hp] at hT
    have ht := hT _ (List.mem_singleton_self _)
    exact ⟨hheld.isPooled ht, (hheld.tokens _ ht).exists_chunk⟩
  | false =>
    have hun : x.unpooled = true := by
      rw [isPooled_eq hx] at hp
      simpa using hp
    have hnot : c ∉ gone := fun hmem => by
      rw [hgone hmem] at hp
      cases hp
    obtain ⟨x', hx'⟩ := he.kept c x hcount hnot hx hun
    obtain ⟨y, hy, hu, -⟩ := he.chunk c x' hcount hx'
    obtain rfl := Option.some.inj (hx.symm.trans hy)
    exact ⟨by rw [isPooled_eq hx', hu, hun]; rfl, x', hx'⟩

theorem PoolInv.mono {small' : Prop} (h : PoolInv k g small plain σ) (hs : small' → small) :
    PoolInv k g small' plain σ :=
  ⟨h.cached, h.live, h.index, h.own, fun hs' => h.pooled (hs hs'), h.nodup, h.dead, h.empty⟩

theorem PoolInv.chunk_lt (h : PoolInv k g small plain σ) (hbuf : buf ∈ σ.bufs)
    (hc : buf.chunk = some c) : c < σ.chunkCount := by
  obtain ⟨x, hx⟩ := (h.live buf hbuf c hc).chunk
  exact h.cached.held.chunk_lt_count hx

theorem PoolInv.sameChunks (h : PoolInv k g small plain σ) (he : Evolves es gone σ σ')
    (hbufs : ∀ buf ∈ bufs, buf ∈ σ.bufs)
    (hgone : ∀ buf ∈ bufs, ∀ c ∈ gone, buf.chunk = some c → isPooled σ c = true)
    (hheld : Held k g σ' T) (hT : ∀ t ∈ bufs.flatMap (PooledByteBuf.tokensIn σ), t ∈ T) :
    SameChunks bufs σ σ' := fun buf hbuf c hc =>
  (h.live buf (hbufs buf hbuf) c hc).sameChunk hc (h.chunk_lt (hbufs buf hbuf) hc) he
    (fun hmem => hgone buf hbuf c hmem hc) hheld
    fun t ht => hT t (List.mem_flatMap.mpr ⟨buf, hbuf, ht⟩)

theorem PoolInv.sameChunks_of_eq (h : PoolInv k g small plain σ) (hchunk : σ'.chunk = σ.chunk) :
    SameChunks σ.bufs σ σ' := by
  intro buf hbuf c hc
  rw [isPooled, isPooled, hchunk]
  exact ⟨rfl, (h.live buf hbuf c hc).chunk⟩

theorem SameChunks.mono {bufs' : List PooledByteBuf} (h : SameChunks bufs σ σ')
    (hsub : ∀ buf ∈ bufs', buf ∈ bufs) : SameChunks bufs' σ σ' :=
  fun buf hbuf => h buf (hsub buf hbuf)

theorem mem_of_mem_eraseIdx (hbuf : buf ∈ σ.bufs.eraseIdx b) : buf ∈ σ.bufs :=
  (List.eraseIdx_sublist σ.bufs b).mem hbuf

theorem set_perm_eraseIdx (hlt : b < bufs.length) : (bufs.set b d).Perm (d :: bufs.eraseIdx b) := by
  have hperm := List.getElem_cons_eraseIdx_perm (l := bufs.set b d) (n := b) (by simpa using hlt)
  rw [List.getElem_set_self, List.eraseIdx_set_eq] at hperm
  exact hperm.symm

theorem PoolInv.setBuf (h : PoolInv k g small plain σ) (hb : b ∉ recycled σ)
    (hlt : b < σ.bufs.length) (hbufs : σ'.bufs = σ.bufs.set b d)
    (hrec : σ'.threads.map Thread.stack = σ.threads.map Thread.stack)
    (hchunks : SameChunks (σ.bufs.eraseIdx b) σ σ')
    (hcached : Cached k g plain σ' (d.tokensIn σ' ++
      (σ.bufs.eraseIdx b).flatMap (PooledByteBuf.tokensIn σ)))
    (hlive : ∀ c, d.chunk = some c → BlockInv k plain σ' d c) (hindex : IndexInv d)
    (hown : ∀ c, d.chunk = some c → isPooled σ' c = false →
      ∀ buf ∈ σ.bufs.eraseIdx b, buf.chunk ≠ some c)
    (hpooled : small → ∀ c, d.chunk = some c → isPooled σ' c = true)
    (hempty : d.chunk = none → d.memory = none ∧ d.tmpBuf = none) : PoolInv k g small plain σ' := by
  have hperm : σ'.bufs.Perm (d :: σ.bufs.eraseIdx b) := hbufs ▸ set_perm_eraseIdx hlt
  have hcases : ∀ buf ∈ σ'.bufs, buf = d ∨ buf ∈ σ.bufs.eraseIdx b :=
    fun buf hbuf => List.mem_cons.mp (hperm.mem_iff.mp hbuf)
  refine ⟨hcached.perm ?_, fun buf hbuf c hc => ?_, fun buf hbuf => ?_, ?_,
    fun hs buf hbuf c hc => ?_, ?_, fun i hi => ?_, fun buf hbuf => ?_⟩
  · rw [← hchunks.tokensIn]
    exact (hperm.flatMap_right _).symm
  · rcases hcases buf hbuf with rfl | hold
    · exact hlive c hc
    · exact hchunks.block hold hc (h.live buf (mem_of_mem_eraseIdx hold) c hc)
  · rcases hcases buf hbuf with rfl | hold
    · exact hindex
    · exact h.index buf (mem_of_mem_eraseIdx hold)
  · refine (hperm.flatMap_right _).nodup_iff.mpr ?_
    rw [List.flatMap_cons, hchunks.hugeIn]
    refine List.nodup_append.mpr ⟨?_, ((List.eraseIdx_sublist σ.bufs b).flatMap _).nodup h.own, ?_⟩
    · exact (List.filter_sublist).nodup (by cases d.chunk <;> simp)
    · rintro c hc _ hc' rfl
      obtain ⟨hd, hp⟩ := PooledByteBuf.mem_hugeIn.mp hc
      obtain ⟨buf, hbuf, hmem⟩ := List.mem_flatMap.mp hc'
      exact hown c hd hp buf hbuf (PooledByteBuf.mem_hugeIn.mp hmem).1
  · rcases hcases buf hbuf with rfl | hold
    · exact hpooled hs c hc
    · rw [(hchunks buf hold c hc).1]
      exact h.pooled hs buf (mem_of_mem_eraseIdx hold) c hc
  · rw [recycled, hrec]
    exact h.nodup
  · rw [recycled, hrec] at hi
    have hne : b ≠ i := by
      rintro rfl
      exact hb hi
    rw [hbufs, List.getElem?_set_ne hne]
    exact h.dead i hi
  · rcases hcases buf hbuf with rfl | hold
    · exact hempty
    · exact h.empty buf (mem_of_mem_eraseIdx hold)

theorem PoolInv.of_recycled (h : PoolInv k g small plain σ) (hbufs : σ'.bufs = σ.bufs)
    (hchunks : SameChunks σ.bufs σ σ')
    (hcached : Cached k g plain σ' (σ.bufs.flatMap (PooledByteBuf.tokensIn σ)))
    (hnodup : (recycled σ').Nodup)
    (hdead : ∀ b ∈ recycled σ', ∃ buf, σ.bufs[b]? = some buf ∧ buf.chunk = none) :
    PoolInv k g small plain σ' where
  cached := by
    rw [hbufs, hchunks.tokensIn]
    exact hcached
  live buf hbuf c hc := by
    rw [hbufs] at hbuf
    exact hchunks.block hbuf hc (h.live buf hbuf c hc)
  index := hbufs ▸ h.index
  own := by
    rw [hbufs, hchunks.hugeIn]
    exact h.own
  pooled hs buf hbuf c hc := by
    rw [hbufs] at hbuf
    rw [(hchunks buf hbuf c hc).1]
    exact h.pooled hs buf hbuf c hc
  nodup := hnodup
  dead := hbufs ▸ hdead
  empty := hbufs ▸ h.empty

theorem PoolInv.sameBufs (h : PoolInv k g small plain σ) (hbufs : σ'.bufs = σ.bufs)
    (hrec : σ'.threads.map Thread.stack = σ.threads.map Thread.stack)
    (hchunks : SameChunks σ.bufs σ σ')
    (hcached : Cached k g plain σ' (σ.bufs.flatMap (PooledByteBuf.tokensIn σ))) :
    PoolInv k g small plain σ' := by
  have heq : recycled σ' = recycled σ := by rw [recycled, recycled, hrec]
  exact h.of_recycled hbufs hchunks hcached (heq ▸ h.nodup) (heq ▸ h.dead)

theorem Cached.withBufs (h : Cached k g plain σ F) (bufs : List PooledByteBuf) :
    Cached k g plain { σ with bufs := bufs } F := ⟨h.held.of_eq rfl rfl rfl rfl, h.entries⟩

theorem PoolInv.not_recycled (h : PoolInv k g small plain σ) (hb : σ.bufs[b]? = some buf)
    (hc : buf.chunk = some c) : b ∉ recycled σ := by
  intro hmem
  obtain ⟨buf', hb', hnone⟩ := h.dead b hmem
  obtain rfl : buf = buf' := Option.some.inj (hb.symm.trans hb')
  rw [hc] at hnone
  cases hnone

theorem PoolInv.keepBlock (h : PoolInv k g small plain σ) (hb : σ.bufs[b]? = some buf)
    (hs : SameBlock buf buf') (hindex : IndexInv buf')
    (hlive : ∀ c, buf.chunk = some c → BlockInv k plain σ buf c → BlockInv k plain σ buf' c)
    (hempty : buf.chunk = none → buf'.tmpBuf = buf.tmpBuf) :
    PoolInv k g small plain { σ with bufs := σ.bufs.set b buf' } := by
  have hmem := List.mem_of_getElem? hb
  refine ⟨?_, fun d hd c hc => ?_, fun d hd => ?_, ?_, fun hsmall d hd c hc => ?_, h.nodup,
    fun i hi => ?_, fun d hd hnone => ?_⟩
  · refine (h.cached.withBufs _).perm (List.Perm.symm ?_)
    exact flatMap_set_same (f := PooledByteBuf.tokensIn σ) hb hs.tokensIn
  · rcases List.mem_or_eq_of_mem_set hd with hold | rfl
    · exact (h.live d hold c hc).of_chunk rfl
    · rw [hs.chunk] at hc
      exact (hlive c hc (h.live buf hmem c hc)).of_chunk rfl
  · rcases List.mem_or_eq_of_mem_set hd with hold | rfl
    · exact h.index d hold
    · exact hindex
  · exact (flatMap_set_same (f := PooledByteBuf.hugeIn σ) hb hs.hugeIn).nodup_iff.mpr h.own
  · rcases List.mem_or_eq_of_mem_set hd with hold | rfl
    · exact h.pooled hsmall d hold c hc
    · exact h.pooled hsmall buf hmem c (hs.chunk.symm.trans hc)
  · obtain ⟨d, hd, hnone⟩ := h.dead i hi
    by_cases hne : b = i
    · subst hne
      obtain rfl : buf = d := Option.some.inj (hb.symm.trans hd)
      exact ⟨buf', List.getElem?_set_self (List.getElem?_eq_some_iff.mp hb).1, hs.chunk.trans hnone⟩
    · exact ⟨d, by rw [List.getElem?_set_ne hne, hd], hnone⟩
  · rcases List.mem_or_eq_of_mem_set hd with hold | rfl
    · exact h.empty d hold hnone
    · have hdead := hs.chunk.symm.trans hnone
      obtain ⟨hmemory, htmp⟩ := h.empty buf hmem hdead
      exact ⟨hs.memory.trans hmemory, (hempty hdead).trans htmp⟩

theorem PoolInv.addBuf (h : PoolInv k g small plain σ) (hnone : d.chunk = none) (hindex : IndexInv d)
    (hempty : d.memory = none ∧ d.tmpBuf = none) :
    PoolInv k g small plain { σ with bufs := σ.bufs ++ [d] } := by
  have hcases : ∀ buf ∈ σ.bufs ++ [d], buf ∈ σ.bufs ∨ buf = d := fun buf hbuf =>
    (List.mem_append.mp hbuf).imp_right List.mem_singleton.mp
  have hdead : ∀ c, d.chunk ≠ some c := by
    intro c hc
    rw [hnone] at hc
    cases hc
  refine ⟨?_, fun buf hbuf c hc => ?_, fun buf hbuf => ?_, ?_, fun hs buf hbuf c hc => ?_, h.nodup,
    fun b hb => ?_, fun buf hbuf hdead => ?_⟩
  · rw [List.flatMap_append, List.flatMap_singleton, PooledByteBuf.tokensIn_of_none hnone,
      List.append_nil]
    exact h.cached.withBufs _
  · rcases hcases buf hbuf with hold | rfl
    · exact (h.live buf hold c hc).of_chunk rfl
    · exact absurd hc (hdead c)
  · rcases hcases buf hbuf with hold | rfl
    · exact h.index buf hold
    · exact hindex
  · rw [List.flatMap_append, List.flatMap_singleton, PooledByteBuf.hugeIn, hnone, Option.toList_none,
      List.filter_nil, List.append_nil]
    exact h.own
  · rcases hcases buf hbuf with hold | rfl
    · exact h.pooled hs buf hold c hc
    · exact absurd hc (hdead c)
  · obtain ⟨buf, hbuf, hnone⟩ := h.dead b hb
    exact ⟨buf, by rw [List.getElem?_append_left (List.getElem?_eq_some_iff.mp hbuf).1, hbuf], hnone⟩
  · rcases hcases buf hbuf with hold | rfl
    · exact h.empty buf hold hdead
    · exact hempty

/-! ### Bytes -/

/-- Byte `i` behind `m_memory + m_offset`. -/
def Pool.byteAt (σ : Pool) (buf : PooledByteBuf) (i : ℤ) : Option UInt8 :=
  (buf.memory.bind σ.chunk).map fun x => x.memory (buf.offset + i)

theorem BlockInv.byteAt (h : BlockInv k plain σ buf c) (hx : σ.chunk c = some x) (i : ℤ) :
    σ.byteAt buf i = some (x.memory (buf.offset + i)) := by
  rw [Pool.byteAt, h.memory, Option.bind_some, hx]
  rfl

theorem PoolInv.split (h : PoolInv k g small plain σ) (hb : σ.bufs[b]? = some buf) :
    Cached k g plain σ (buf.tokensIn σ ++ (σ.bufs.eraseIdx b).flatMap (PooledByteBuf.tokensIn σ)) :=
  h.cached.perm (flatMap_eraseIdx_perm hb)

theorem PoolInv.own_ne (h : PoolInv k g small plain σ) (hb : σ.bufs[b]? = some buf)
    (hc : buf.chunk = some c) (hp : isPooled σ c = false) : ∀ d ∈ σ.bufs.eraseIdx b, d.chunk ≠ some c := by
  intro d hd hdc
  have hnodup := (flatMap_eraseIdx_perm (f := PooledByteBuf.hugeIn σ) hb).nodup_iff.mp h.own
  rw [List.nodup_append] at hnodup
  refine hnodup.2.2 c (PooledByteBuf.mem_hugeIn.mpr ⟨hc, hp⟩) c ?_ rfl
  exact List.mem_flatMap.mpr ⟨d, hd, PooledByteBuf.mem_hugeIn.mpr ⟨hdc, hp⟩⟩

theorem PoolInv.apart (h : PoolInv k g small plain σ) (hb : σ.bufs[b]? = some buf)
    (hd : d ∈ σ.bufs.eraseIdx b) (hc : buf.chunk = some c) (hdc : d.chunk = some c) :
    buf.offset + buf.maxLength ≤ d.offset ∨ d.offset + d.maxLength ≤ buf.offset := by
  cases hp : isPooled σ c with
  | false => exact absurd hdc (h.own_ne hb hc hp d hd)
  | true =>
    have hpair := (h.split hb).held.pairwise_apart
    rw [PooledByteBuf.tokensIn_of_pooled hc hp, List.append_assoc, List.map_append,
      List.pairwise_append] at hpair
    have hmem : (⟨c, d.handle, d.maxLength⟩ : Token) ∈
        (σ.bufs.eraseIdx b).flatMap (PooledByteBuf.tokensIn σ) := by
      refine List.mem_flatMap.mpr ⟨d, hd, ?_⟩
      rw [PooledByteBuf.tokensIn_of_pooled hdc hp]
      exact List.mem_singleton_self _
    have hapart := hpair.2.2 _ (List.mem_singleton_self _) _
      (List.mem_map_of_mem (List.mem_append_left _ hmem)) rfl
    rw [((h.live buf (List.mem_of_getElem? hb) c hc).pooled hp).offset,
      ((h.live d (mem_of_mem_eraseIdx hd) c hdc).pooled hp).offset]
    exact hapart

theorem PoolInv.in_chunk (made : k.sizes.Made g) (h : PoolInv k g small plain σ) (hbuf : buf ∈ σ.bufs)
    (hc : buf.chunk = some c) (hp : isPooled σ c = true) :
    ∃ x, σ.chunk c = some x ∧ x.memorySize = k.sizes.chunkSize ∧ 0 ≤ buf.offset ∧
      buf.offset + buf.maxLength ≤ x.memorySize := by
  have hblock := h.live buf hbuf c hc
  have hheld := h.cached.held
  have ht : (⟨c, buf.handle, buf.maxLength⟩ : Token) ∈
      σ.bufs.flatMap (PooledByteBuf.tokensIn σ) ++ cacheTokens σ := by
    refine List.mem_append_left _ (List.mem_flatMap.mpr ⟨buf, hbuf, ?_⟩)
    rw [PooledByteBuf.tokensIn_of_pooled hc hp]
    exact List.mem_singleton_self _
  obtain ⟨x, hx⟩ := hblock.chunk
  have hsize := (hheld.chunks c x hx (hheld.pooled_of_token ht hx)).memorySize
  obtain ⟨hlo, hhi⟩ := hheld.extent_le made ht
  rw [← (hblock.pooled hp).offset] at hlo hhi
  exact ⟨x, hx, hsize, hlo, hsize ▸ hhi⟩

/-- A live buffer is as before, and so are the bytes of its block. -/
def Intact (b : BufId) (σ σ' : Pool) : Prop :=
  ∀ buf, σ.bufs[b]? = some buf → buf.chunk.isSome = true → σ'.bufs[b]? = some buf ∧
    ∀ i, 0 ≤ i → i < buf.maxLength → σ'.byteAt buf i = σ.byteAt buf i

theorem Intact.trans {σ₁ : Pool} (h : Intact b σ σ₁) (h' : Intact b σ₁ σ') : Intact b σ σ' := by
  intro buf hb hlive
  obtain ⟨hb₁, hbytes⟩ := h buf hb hlive
  obtain ⟨hb', hbytes'⟩ := h' buf hb₁ hlive
  exact ⟨hb', fun i h0 hi => (hbytes' i h0 hi).trans (hbytes i h0 hi)⟩

theorem BlockInv.byteAt_eq (h : BlockInv k plain σ' buf c) (he : Evolves es gone σ σ')
    (hlt : c < σ.chunkCount) {i : ℤ} (hi : ∀ e ∈ es, ¬ e.Has c (buf.offset + i)) :
    σ'.byteAt buf i = σ.byteAt buf i := by
  obtain ⟨x', hx'⟩ := h.chunk
  obtain ⟨x, hx, -, hmem⟩ := he.chunk c x' hlt hx'
  rw [h.byteAt hx', Pool.byteAt, h.memory, Option.bind_some, hx, Option.map_some, hmem _ hi]

/-- Bytes are only written where no block is. -/
theorem PoolInv.intact (h : PoolInv k g small plain σ) (h' : PoolInv k g small plain σ')
    (he : Evolves es gone σ σ') (hsame : σ'.bufs[b]? = σ.bufs[b]?)
    (hes : ∀ buf c, σ'.bufs[b]? = some buf → buf.chunk = some c → ∀ i, 0 ≤ i → i < buf.maxLength →
      ∀ e ∈ es, ¬ e.Has c (buf.offset + i)) : Intact b σ σ' := by
  intro buf hb hsome
  obtain ⟨c, hc⟩ := Option.isSome_iff_exists.mp hsome
  have hb' : σ'.bufs[b]? = some buf := hsame.trans hb
  refine ⟨hb', fun i h0 hi => ?_⟩
  exact (h'.live buf (List.mem_of_getElem? hb') c hc).byteAt_eq he
    (h.chunk_lt (List.mem_of_getElem? hb) hc) (hes buf c hb' hc i h0 hi)

theorem PoolInv.intact_of_persists (h : PoolInv k g small plain σ) (h' : PoolInv k g small plain σ')
    (hp : Persists σ σ') (hsame : σ'.bufs[b]? = σ.bufs[b]?) : Intact b σ σ' :=
  h.intact h' hp.evolves hsame fun _ _ _ _ _ _ _ e he => by cases he

/-- The range is in the block of the buffer, or in the chunk that it has for itself. -/
structure Extent.Of (σ : Pool) (buf : PooledByteBuf) (e : Extent) : Prop where
  chunk : buf.chunk = some e.chunk
  offset : buf.offset ≤ e.offset
  stop : isPooled σ e.chunk = true → e.offset + e.size ≤ buf.offset + buf.maxLength

/-- What is written to the block of one buffer is not seen in the others. -/
theorem PoolInv.intact_of_ne (h : PoolInv k g small plain σ) (h' : PoolInv k g small plain σ')
    (he : Evolves es gone σ σ') (hb : σ'.bufs[b]? = some buf) (hes : ∀ e ∈ es, e.Of σ' buf) {j : BufId}
    (hne : j ≠ b) (hsame : σ'.bufs[j]? = σ.bufs[j]?) : Intact j σ σ' := by
  refine h.intact h' he hsame fun d c hd hc i h0 hi e hin => ?_
  rintro ⟨rfl, hlo, hhi⟩
  have hmem : d ∈ σ'.bufs.eraseIdx b := List.mem_eraseIdx_iff_getElem?.mpr ⟨j, hne, hd⟩
  have hof := hes e hin
  cases hp : isPooled σ' e.chunk with
  | false => exact h'.own_ne hb hof.chunk hp d hmem hc
  | true =>
    have := hof.offset
    have := hof.stop hp
    rcases h'.apart hb hmem hof.chunk hc with hap | hap
    · omega
    · omega

end Mutty.Buffer
