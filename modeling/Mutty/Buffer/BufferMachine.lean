import Mutty.Buffer.ByteBufOps

/-!
# What an operation on buffers does

`Effect` says once what each operation of the machine does to the buffers and to their bytes, and
`BufferInv` holds in every state of it. The two views of a buffer, behind `m_tmpBuf` for reading and
behind `m_memory + m_offset` for writing, are the same as long as no internal buffer has been taken
that starts behind the first byte. Resizing and growing keep the bytes of the buffer and of the others.
-/

namespace Mutty.Buffer

open Mutty.Lib Prog

variable {k : Config} {g : Geometry} {small plain : Prop} {σ σ' : Pool} {s s' : BufferState} {b : BufId}
  {buf new : PooledByteBuf} {u : ThreadId} {a : BufferAction} {e : Option (BufId × Event)}

/-! ### One operation -/

/-- The operations of `Buffer`, and those that make and destroy it. -/
def BufferAction.streams : BufferAction → Bool
  | .pool (.capacity _ _ _) => false
  | .ensureWritable _ _ _ => false
  | .setBytes _ _ _ => false
  | .internalBuffer _ _ _ => false
  | .duplicateInternalBuffer _ _ _ => false
  | _ => true

/-- An internal buffer is taken from the first byte on. -/
def BufferAction.fromStart : BufferAction → Bool
  | .internalBuffer _ index _ => index = 0
  | .duplicateInternalBuffer _ index _ => index = 0
  | _ => true

/-- All live buffers have capacities that a pooled chunk can have. -/
def FitChunks (k : Config) (σ : Pool) : Prop := ∀ buf ∈ σ.bufs, FitsChunk k buf

/-- What action `a` does, by the event that it reports. -/
inductive Effect (k : Config) (g : Geometry) (small plain : Prop) (a : BufferAction) (σ σ' : Pool) :
    Option (BufId × Event) → Prop
  | quiet (inv : PoolInv k g small plain σ') (bufs : σ'.bufs = σ.bufs) (kept : ∀ j, Intact j σ σ') :
    Effect k g small plain a σ σ' none
  | stored (inv : PoolInv k g small plain σ') (bufs : σ'.bufs = σ.bufs) (hnot : a.streams = false) :
    Effect k g small plain a σ σ' none
  | freed {b : BufId} {buf dead : PooledByteBuf} (hb : σ.bufs[b]? = some buf)
      (h : Frees k g small plain b buf dead σ σ') : Effect k g small plain a σ σ' none
  | changed {b : BufId} {buf new : PooledByteBuf} (hb : σ.bufs[b]? = some buf)
      (h : Changes k g small plain b buf new σ σ') (hnot : a.streams = false) : Effect k g small plain a σ σ' none
  | allocated {b : BufId} {buf : PooledByteBuf} {req maxCapacity : ℤ} (inv : PoolInv k g small plain σ')
      (h : Allocates k req maxCapacity b buf σ σ') (capped : Capped k buf) :
    Effect k g small plain a σ σ' (some (b, .allocated))
  | wrote {b : BufId} {buf new : PooledByteBuf} {bytes : List UInt8} (hb : σ.bufs[b]? = some buf)
      (h : Changes k g small plain b buf new σ σ')
      (hwrote : plain → Wrote k g small plain b bytes buf new σ σ') :
    Effect k g small plain a σ σ' (some (b, .wrote bytes))
  | retrieved {b : BufId} {buf new : PooledByteBuf} {len : ℕ} (hb : σ.bufs[b]? = some buf)
      (h : Takes k g small plain b len buf new σ σ') :
    Effect k g small plain a σ σ' (some (b, .retrieved len))
  | cleared {b : BufId} {buf new : PooledByteBuf} (hb : σ.bufs[b]? = some buf)
      (h : Takes k g small plain b buf.readableBytes.toNat buf new σ σ') :
    Effect k g small plain a σ σ' (some (b, .cleared))

theorem mem_set_self (hb : σ.bufs[b]? = some buf) (hbufs : σ'.bufs = σ.bufs.set b new) : new ∈ σ'.bufs := by
  rw [hbufs]
  exact List.mem_set (List.getElem?_eq_some_iff.mp hb).1 new

theorem Changes.fitChunks (h : Changes k g (small ∧ FitsChunk k new) plain b buf new σ σ')
    (hb : σ.bufs[b]? = some buf) : Changes k g (small ∧ FitChunks k σ') plain b buf new σ σ' :=
  h.mono fun hs => ⟨hs.1, hs.2 new (mem_set_self hb h.bufs)⟩

theorem Wrote.fitChunks {bytes : List UInt8}
    (h : Wrote k g (small ∧ FitsChunk k new) plain b bytes buf new σ σ') (hb : σ.bufs[b]? = some buf) :
    Wrote k g (small ∧ FitChunks k σ') plain b bytes buf new σ σ' :=
  h.mono fun hs => ⟨hs.1, hs.2 new (mem_set_self hb h.bufs)⟩

theorem Takes.mono {small' : Prop} {len : ℕ} (h : Takes k g small plain b len buf new σ σ')
    (hs : small' → small) : Takes k g small' plain b len buf new σ σ' :=
  { h with changes := h.changes.mono hs }

theorem validate_ok {initialCapacity maxCapacity : ℤ} {r : Unit}
    (h : PooledByteBufAllocator.validate initialCapacity maxCapacity = .ok r) :
    0 ≤ initialCapacity ∧ initialCapacity ≤ maxCapacity := by
  obtain ⟨_, h0, h⟩ := bind_eq_ok.mp h
  split_ifs at h with hgt
  exact ⟨require_eq_ok.mp h0, not_lt.mp hgt⟩

theorem PoolInv.effect_pool (made : k.sizes.Made g) (h : PoolInv k g small plain σ) {act : PoolAction}
    (hints : ∀ x ∈ (BufferAction.pool act).ints, IsInt x) :
    Ends ((BufferAction.pool act).run k) σ fun e σ' =>
      Effect k g (small ∧ FitChunks k σ') plain (.pool act) σ σ' e := by
  cases act with
  | attach =>
    refine ends_bind (h.attach.mono ?_)
    rintro _ σ' ⟨hinv, hbufs, hper⟩
    refine ends_pure (.quiet (hinv.mono And.left) hbufs fun j => ?_)
    exact h.intact_of_persists hinv hper (by rw [hbufs])
  | allocate a u req maxCapacity =>
    refine ends_bind (ends_ite (fun _ => ends_pure (ends_pure ?_)) fun _ => ends_bind (ends_check fun _ hval =>
      ?_))
    · exact .quiet (h.mono And.left) rfl fun j d hd _ => ⟨hd, fun _ _ _ => rfl⟩
    · obtain ⟨h0, hle⟩ := validate_ok hval
      obtain ⟨-, hint⟩ := hints req List.mem_cons_self
      obtain ⟨-, hmax⟩ := hints maxCapacity (List.mem_cons_of_mem _ List.mem_cons_self)
      have hsmall : PoolInv k g (small ∧ req ≤ k.sizes.chunkSize) plain σ := h.mono And.left
      refine ends_bind ((hsmall.allocate made a hint And.right maxCapacity).mono ?_)
      rintro b σ' ⟨hinv, buf, hall⟩
      refine ends_pure (ends_pure (.allocated (hinv.mono fun hs => ⟨hs.1, ?_⟩) hall ?_))
      · obtain ⟨hpos, hfit⟩ := hs.2 buf (List.mem_of_getElem? hall.self) hall.live
        exact (hall.fits hpos).trans hfit
      · have heq := hall.maxCapacity
        exact capped_of_size (heq ▸ h0.trans hle) (heq ▸ hmax) (heq ▸ hle) hall.length hall.fits
  | deallocate u b =>
    refine ends_bind (ends_of_buf (b := b) (fun hb => ends_bind (ends_getBuf_none hb)) fun buf hb => ?_)
    refine (h.deallocate made hb).mono ?_
    rintro _ σ' ⟨dead, hfree⟩
    exact ends_pure (.freed hb { hfree with inv := hfree.inv.mono And.left })
  | capacity u b n =>
    refine ends_bind (ends_of_buf (b := b) (fun hb => ends_bind (ends_getBuf_none hb)) fun buf hb => ?_)
    obtain ⟨-, hint⟩ := hints n List.mem_cons_self
    have hsmall : PoolInv k g (small ∧ (buf.chunk.isSome = true → n ≤ k.sizes.chunkSize)) plain σ :=
      h.mono And.left
    refine (hsmall.capacity made hb hint And.right).mono ?_
    rintro _ σ' ⟨new, hres, hmoves⟩
    have hchange : Changes k g (small ∧ FitsChunk k new) plain b buf new σ σ' :=
      ⟨hmoves.inv.mono fun hs => ⟨hs.1, hres.request_le hs.2⟩, hmoves.bufs, hres.capped⟩
    exact ends_pure (.changed hb (hchange.fitChunks hb) rfl)
  | trim u =>
    refine ends_bind ((h.trim made).mono ?_)
    rintro _ σ' ⟨hinv, hbufs, hper⟩
    refine ends_pure (.quiet (hinv.mono And.left) hbufs fun j => ?_)
    exact h.intact_of_persists hinv hper (by rw [hbufs])

structure BufferInv (k : Config) (g : Geometry) (small plain : Prop) (σ : Pool) : Prop where
  pool : PoolInv k g small plain σ
  capped : ∀ buf ∈ σ.bufs, Capped k buf

theorem BufferInv.effect (made : k.sizes.Made g) (hinv : BufferInv k g small plain σ)
    (hints : ∀ x ∈ a.ints, IsInt x) (hplain : plain → a.fromStart = true) :
    Ends (a.run k) σ fun e σ' => Effect k g (small ∧ FitChunks k σ') plain a σ σ' e := by
  obtain ⟨h, hcapped⟩ := hinv
  have hmax : ∀ {b : BufId} {buf : PooledByteBuf}, σ.bufs[b]? = some buf → buf.maxCapacity < 2 ^ 31 :=
    fun hb => (hcapped _ (List.mem_of_getElem? hb)).range
  cases a with
  | pool act => exact h.effect_pool made hints
  | ensureWritable u b n =>
    refine ends_bind (ends_of_buf (b := b) (fun hb => ends_bind (ends_getBuf_none hb)) fun buf hb => ?_)
    refine (h.ensureWritable made hb (hmax hb) (hints n List.mem_cons_self).2).mono ?_
    rintro _ σ' ⟨new, hgrow⟩
    have hchange : Changes k g (small ∧ FitsChunk k new) plain b buf new σ σ' :=
      ⟨hgrow.moves.inv, hgrow.moves.bufs, hgrow.capped⟩
    exact ends_pure (.changed hb (hchange.fitChunks hb) rfl)
  | writeBytes u b src =>
    refine ends_bind (ends_of_buf (b := b) (fun hb => ends_bind (ends_bind (ends_getBuf_none hb))) fun buf hb => ?_)
    refine (h.writeBytes made hb (hmax hb) (hints _ List.mem_cons_self).2).mono ?_
    rintro _ σ' ⟨new, hwrote⟩
    exact ends_pure (.wrote hb (hwrote.changes.fitChunks hb) fun _ => hwrote.fitChunks hb)
  | setBytes b index src =>
    refine ends_bind (ends_of_buf (b := b) (fun hb => ends_bind (ends_getBuf_none hb)) fun buf hb => ?_)
    refine (h.setBytes hb index src).mono ?_
    rintro _ σ' ⟨hinv, -, c, -, hst⟩
    exact ends_pure (.stored (hinv.mono And.left) hst.bufs rfl)
  | retrieve b len =>
    refine ends_bind (ends_of_buf (b := b) (fun hb => ends_bind (ends_getBuf_none hb)) fun buf hb => ?_)
    refine (h.retrieve hb len).mono ?_
    rintro _ σ' ⟨new, htakes⟩
    exact ends_pure (.retrieved hb (htakes.mono And.left))
  | retrieveAll b =>
    refine ends_bind (ends_of_buf (b := b) (fun hb => ends_bind (ends_getBuf_none hb)) fun buf hb => ?_)
    refine (h.retrieveAll hb).mono ?_
    rintro _ σ' ⟨new, htakes⟩
    exact ends_pure (.cleared hb (htakes.mono And.left))
  | retrieveAsString b len =>
    refine ends_bind (ends_of_buf (b := b) (fun hb => ends_bind (ends_getBuf_none hb)) fun buf hb => ?_)
    refine (h.retrieveAsString hb len).mono ?_
    rintro _ σ' ⟨new, htakes⟩
    exact ends_pure (.retrieved hb (htakes.mono And.left))
  | retrieveAllAsString b =>
    refine ends_bind (ends_of_buf (b := b) (fun hb => ends_bind (ends_getBuf_none hb)) fun buf hb => ?_)
    refine (h.retrieveAllAsString hb).mono ?_
    rintro _ σ' ⟨new, htakes⟩
    exact ends_pure (.cleared hb (htakes.mono And.left))
  | retrieveUntil b stop =>
    refine ends_bind (ends_getBuf fun buf hb => ends_bind ((h.retrieveUntil hb stop).mono ?_))
    rintro _ σ' ⟨new, htakes⟩
    exact ends_pure (.retrieved hb (htakes.mono And.left))
  | internalBuffer b index length =>
    refine ends_bind (ends_of_buf (b := b) (fun hb => ends_bind (ends_getBuf_none hb)) fun buf hb => ?_)
    refine (h.internalBuffer hb length fun hp => of_decide_eq_true (hplain hp)).mono ?_
    rintro _ σ' ⟨new, hchange⟩
    exact ends_pure (.changed hb (hchange.mono And.left) rfl)
  | duplicateInternalBuffer b index length =>
    refine ends_bind (ends_of_buf (b := b) (fun hb => ends_bind (ends_getBuf_none hb)) fun buf hb => ?_)
    refine (h.internalBuffer hb length fun hp => of_decide_eq_true (hplain hp)).mono ?_
    rintro _ σ' ⟨new, hchange⟩
    exact ends_pure (.changed hb (hchange.mono And.left) rfl)
  | readFd u b arrived =>
    refine ends_bind (ends_getBuf fun buf hb => ends_bind ((h.readFd made hb (hmax hb) arrived).mono ?_))
    rintro _ σ' ⟨new, hchange, hwrote⟩
    exact ends_pure (.wrote hb (hchange.fitChunks hb) fun hp => (hwrote hp).fitChunks hb)

/-! ### Runs -/

theorem Changes.capped_all (h : Changes k g small plain b buf new σ σ') (hb : σ.bufs[b]? = some buf)
    (hall : ∀ d ∈ σ.bufs, Capped k d) : ∀ d ∈ σ'.bufs, Capped k d := by
  intro d hd
  rw [h.bufs] at hd
  rcases List.mem_or_eq_of_mem_set hd with hold | rfl
  · exact hall d hold
  · exact h.capped (hall buf (List.mem_of_getElem? hb))

theorem Frees.changes {dead : PooledByteBuf} (h : Frees k g small plain b buf dead σ σ') :
    Changes k g small plain b buf dead σ σ' := by
  refine ⟨h.inv, h.bufs, fun hcap => ?_⟩
  have hmax := h.maxCapacity
  refine ⟨hmax ▸ hcap.nonneg, hmax ▸ hcap.range, ?_⟩
  rw [h.length, hmax]
  exact hcap.length

theorem Allocates.capped_all {req maxCapacity : ℤ} (h : Allocates k req maxCapacity b buf σ σ')
    (hcap : Capped k buf) (hall : ∀ d ∈ σ.bufs, Capped k d) : ∀ d ∈ σ'.bufs, Capped k d := by
  intro d hd
  obtain ⟨j, hj⟩ := List.mem_iff_getElem?.mp hd
  by_cases hjb : j = b
  · subst hjb
    obtain rfl : buf = d := Option.some.inj (h.self.symm.trans hj)
    exact hcap
  · rw [(h.others j hjb).1] at hj
    exact hall d (List.mem_of_getElem? hj)

theorem Effect.inv (h : Effect k g small plain a σ σ' e) (hall : ∀ d ∈ σ.bufs, Capped k d) :
    BufferInv k g small plain σ' := by
  cases h with
  | quiet inv bufs _ => exact ⟨inv, bufs ▸ hall⟩
  | stored inv bufs _ => exact ⟨inv, bufs ▸ hall⟩
  | freed hb h => exact ⟨h.inv, h.changes.capped_all hb hall⟩
  | changed hb h _ => exact ⟨h.inv, h.capped_all hb hall⟩
  | allocated inv h capped => exact ⟨inv, h.capped_all capped hall⟩
  | wrote hb h _ => exact ⟨h.inv, h.capped_all hb hall⟩
  | retrieved hb h => exact ⟨h.changes.inv, h.changes.capped_all hb hall⟩
  | cleared hb h => exact ⟨h.changes.inv, h.changes.capped_all hb hall⟩

theorem BufferInv.step (made : k.sizes.Made g) (h : BufferInv k g small plain s.pool)
    (hplain : plain → a.fromStart = true) (hs : (bufferMachine k).step s a = some s') :
    ∃ e, s'.history = BufferState.record s.history e ∧
      Effect k g (small ∧ FitChunks k s'.pool) plain a s.pool s'.pool e := by
  unfold bufferMachine at hs
  dsimp only at hs
  split_ifs at hs with hints
  obtain ⟨⟨e, σ'⟩, hrun, rfl⟩ := Option.map_eq_some_iff.mp hs
  exact ⟨e, rfl, h.effect made hints hplain e σ' (toOption_eq_some.mp hrun)⟩

theorem BufferInv.init (h : (bufferMachine k).init s) :
    ∃ g, k.sizes.Made g ∧ BufferInv k g small plain s.pool := by
  obtain ⟨⟨⟨pageSize, maxOrder, hint, hsizes⟩, hpool⟩, -⟩ := h
  obtain ⟨g, made, -⟩ := arenaSizes_made hint hsizes
  refine ⟨g, made, hpool ▸ Pool.initial_inv, fun buf hbuf => ?_⟩
  rw [hpool] at hbuf
  cases hbuf

theorem BufferInv.reach {G : BufferState → BufferAction → Prop} (hG : ∀ s a, G s a → plain → a.fromStart = true)
    (h : System.Reach (bufferMachine k) G s) :
    ∃ g, k.sizes.Made g ∧ BufferInv k g False plain s.pool := by
  induction h with
  | init hi => exact BufferInv.init hi
  | step _ hg hs ih =>
    obtain ⟨g, made, hinv⟩ := ih
    obtain ⟨e, -, heff⟩ := hinv.step made (hG _ _ hg) hs
    have hnext := heff.inv hinv.capped
    exact ⟨g, made, hnext.pool.mono False.elim, hnext.capped⟩

theorem BufferInv.reach_free (h : System.Reach (bufferMachine k) System.Free s) :
    ∃ g, k.sizes.Made g ∧ BufferInv k g False False s.pool :=
  BufferInv.reach (fun _ _ _ hp => hp.elim) h

/-- As long as capacities stay those of pooled chunks, all chunks are pooled. -/
theorem BufferInv.reach_pooled (h : System.Reach (bufferMachine k) (fun s _ => FitChunks k s.pool) s) :
    ∃ g, k.sizes.Made g ∧ BufferInv k g (FitChunks k s.pool) False s.pool := by
  induction h with
  | init hi => exact BufferInv.init hi
  | step _ hg hs ih =>
    obtain ⟨g, made, hinv⟩ := ih
    obtain ⟨e, -, heff⟩ := hinv.step made False.elim hs
    have hnext := heff.inv hinv.capped
    exact ⟨g, made, hnext.pool.mono fun hfit => ⟨hg, hfit⟩, hnext.capped⟩

theorem block_in_memory (h : System.Reach (bufferMachine k) (fun s _ => FitChunks k s.pool) s)
    (hfit : FitChunks k s.pool) (hbuf : buf ∈ s.pool.bufs) (hlive : buf.chunk.isSome = true) :
    ∃ c x, buf.memory = some c ∧ s.pool.chunk c = some x ∧ 0 ≤ buf.offset ∧
      buf.offset + buf.maxLength ≤ x.memorySize := by
  obtain ⟨g, made, hinv⟩ := BufferInv.reach_pooled h
  obtain ⟨c, hc⟩ := Option.isSome_iff_exists.mp hlive
  obtain ⟨x, hx, -, hlo, hhi⟩ := hinv.pool.in_chunk made hbuf hc (hinv.pool.pooled hfit buf hbuf c hc)
  exact ⟨c, x, (hinv.pool.live buf hbuf c hc).memory, hx, hlo, hhi⟩

/-! ### The two views -/

/-- `m_memory + m_offset` -/
def PooledByteBuf.block (buf : PooledByteBuf) : Option Pointer := buf.memory.map fun c => (c, buf.offset)

/-- Byte `i` behind `m_tmpBuf`. -/
def Pool.tmpAt (σ : Pool) (buf : PooledByteBuf) (i : ℤ) : Option UInt8 :=
  buf.tmpBuf.bind fun p => (σ.chunk p.1).map fun x => x.memory (p.2 + i)

theorem Pool.tmpAt_eq_byteAt (h : buf.tmpBuf = buf.block) (i : ℤ) : σ.tmpAt buf i = σ.byteAt buf i := by
  rw [Pool.tmpAt, h, PooledByteBuf.block, Pool.byteAt]
  cases buf.memory with
  | none => rfl
  | some c => rfl

theorem PoolInv.tmpBuf_eq (h : PoolInv k g small True σ) (hbuf : buf ∈ σ.bufs)
    (hlive : buf.chunk.isSome = true) : buf.tmpBuf = buf.block := by
  obtain ⟨c, hc⟩ := Option.isSome_iff_exists.mp hlive
  have hblock := h.live buf hbuf c hc
  rw [hblock.tmpBuf trivial, PooledByteBuf.block, hblock.memory]
  rfl

/-- In every run in which internal buffers are taken from the first byte on, a live buffer is read
where it is written. -/
theorem views_agree_of_fromStart (h : System.Reach (bufferMachine k) (fun _ a => a.fromStart = true) s)
    (hb : s.pool.bufs[b]? = some buf) (hlive : buf.chunk.isSome = true) :
    buf.tmpBuf = buf.block ∧ buf.tmpBuf.isSome = true ∧
      ∀ index bytes σ', PooledByteBuf.setBytes b index bytes s.pool = .ok ((), σ') →
        ∀ i : ℕ, i < bytes.length → σ'.tmpAt buf (index + i) = bytes[i]? := by
  obtain ⟨g, made, hinv⟩ : ∃ g, k.sizes.Made g ∧ BufferInv k g False True s.pool :=
    BufferInv.reach (fun _ _ hg _ => hg) h
  have hmem := List.mem_of_getElem? hb
  have heq := hinv.pool.tmpBuf_eq hmem hlive
  refine ⟨heq, ?_, fun index bytes σ' hrun i hi => ?_⟩
  · obtain ⟨c, hc⟩ := Option.isSome_iff_exists.mp hlive
    rw [(hinv.pool.live buf hmem c hc).tmpBuf trivial]
    rfl
  · obtain ⟨hinv', -, c, hc, hst⟩ := hinv.pool.setBytes hb index bytes () σ' hrun
    have hblock := hinv'.live buf (hst.bufs ▸ hmem) c (hinv.pool.chunk_of_memory hmem hc)
    obtain ⟨y, hy⟩ := hblock.chunk
    have hat : buf.offset + index + (i : ℤ) = buf.offset + (index + i) := by omega
    rw [Pool.tmpAt_eq_byteAt heq, hblock.byteAt hy, ← hat]
    exact hst.bytes y hy i hi

def BufferState.initial : BufferState := { pool := Pool.initial, history := fun _ => [] }

theorem smallConfig_buffers_init : (bufferMachine smallConfig).init BufferState.initial :=
  ⟨smallConfig_init, rfl⟩

theorem exists_reach_buf {G : BufferState → BufferAction → Prop} [∀ s a, Decidable (G s a)]
    (as : List BufferAction) (b : BufId) (p : BufferState → PooledByteBuf → Bool)
    (hp : ((bufferMachine smallConfig).exec G .initial as).any (fun s => s.pool.bufs[b]?.any (p s)) = true) :
    ∃ s buf, System.Reach (bufferMachine smallConfig) G s ∧ s.pool.bufs[b]? = some buf ∧ p s buf = true := by
  obtain ⟨s, -, hreach, hp⟩ := System.exists_reach (M := bufferMachine smallConfig) as _
    smallConfig_buffers_init hp
  obtain ⟨buf, hb, hbuf⟩ := (Option.any_eq_true _ _).mp hp
  exact ⟨s, buf, hreach, hb, hbuf⟩

/-- A buffer gives its block back after its internal buffer has been taken, and the next one gets it
from the cache. -/
theorem views_agree_after_reuse :
    ∃ s buf, System.Reach (bufferMachine smallConfig) (fun _ a => a.fromStart = true) s ∧
      s.pool.bufs[0]? = some buf ∧ buf.chunk.isSome = true ∧ buf.tmpBuf = buf.block := by
  obtain ⟨s, buf, hreach, hb, hlive⟩ := exists_reach_buf (G := fun _ a => a.fromStart = true)
    [.pool .attach, .pool (.allocate 0 0 64 100), .internalBuffer 0 0 4, .pool (.deallocate 0 0),
      .pool (.allocate 0 0 64 100)] 0 (fun _ buf => buf.chunk.isSome) (by rw [smallConfig_eq]; decide +kernel)
  exact ⟨s, buf, hreach, hb, hlive, (views_agree_of_fromStart hreach hb hlive).1⟩

/-- With an internal buffer that starts behind the first byte, the buffer that gets the block next
is read from there. -/
theorem views_differ_after_reuse :
    ∃ s buf, System.Reach (bufferMachine smallConfig) System.Free s ∧ s.pool.bufs[0]? = some buf ∧
      buf.chunk.isSome = true ∧ buf.tmpBuf ≠ buf.block := by
  obtain ⟨s, buf, hreach, hb, hp⟩ := exists_reach_buf (G := System.Free)
    [.pool .attach, .pool (.allocate 0 0 64 100), .internalBuffer 0 8 4, .pool (.deallocate 0 0),
      .pool (.allocate 0 0 64 100)] 0 (fun _ buf => buf.chunk.isSome ∧ buf.tmpBuf ≠ buf.block)
      (by rw [smallConfig_eq]; decide +kernel)
  exact ⟨s, buf, hreach, hb, of_decide_eq_true hp⟩

/-! ### Resizing -/

/-- The capacity is `n`, the bytes that still fit and the other buffers are as before. -/
structure Resized (b : BufId) (n : ℤ) (buf new : PooledByteBuf) (σ σ' : Pool) : Prop where
  self : σ'.bufs[b]? = some new
  live : new.chunk.isSome = true
  length : new.length = n
  maxLength : n ≤ new.maxLength
  readerIndex : new.readerIndex = min buf.readerIndex n
  writerIndex : new.writerIndex = min buf.writerIndex n
  bytes : ∀ i, 0 ≤ i → i < min buf.length n → σ'.byteAt new i = σ.byteAt buf i
  others : ∀ j, j ≠ b → Intact j σ σ'

/-- There is room for `n` bytes more, and what can be read is as before. -/
structure Room (b : BufId) (n : ℤ) (buf new : PooledByteBuf) (σ σ' : Pool) : Prop where
  self : σ'.bufs[b]? = some new
  writable : n ≤ new.writableBytes
  maxCapacity : new.length ≤ new.maxCapacity
  readerIndex : new.readerIndex = buf.readerIndex
  writerIndex : new.writerIndex = buf.writerIndex
  bytes : ∀ i, buf.readerIndex ≤ i → i < buf.writerIndex → σ'.byteAt new i = σ.byteAt buf i

/-- The capacity that is calculated, if there is not enough room, is one that a pooled chunk can have. -/
def GrowthFits (k : Config) (buf : PooledByteBuf) (n : ℤ) : Prop :=
  buf.length < buf.writerIndex + n → ∀ c : ℤ,
    PooledByteBufAllocator.calculateNewCapacity (buf.writerIndex + n) buf.maxCapacity = .ok c →
      c ≤ k.sizes.chunkSize

theorem Grows.room_iff {n : ℤ} (h : Grows k g small plain b n buf new σ σ') (hb : σ.bufs[b]? = some buf)
    (hindex : IndexInv buf) (hmax : buf.maxCapacity < 2 ^ 31) (hfits : GrowthFits k buf n) :
    (∃ new, Room b n buf new σ σ') ↔ buf.length ≤ buf.maxCapacity := by
  have hself : σ'.bufs[b]? = some new := by
    rw [h.moves.bufs, List.getElem?_set_self (List.getElem?_eq_some_iff.mp hb).1]
  have hr := hindex.reader
  have hrw := hindex.writer
  have hn := h.nonneg
  have htarget := h.target
  constructor
  · rintro ⟨new', hroom⟩
    obtain rfl : new = new' := Option.some.inj (hself.symm.trans hroom.self)
    rcases h.grown with rfl | ⟨m, hlt, -, -⟩
    · exact hroom.maxCapacity
    · exact hlt.le.trans htarget
  · intro hle
    have hroom : buf.writerIndex + n ≤ new.length ∧ new.length ≤ new.maxCapacity := by
      rcases h.grown with rfl | ⟨m, hlt, hlength, hm⟩
      · exact ⟨h.fits h.length, hle⟩
      · obtain ⟨c, hc, hlow, hhigh, -⟩ := PooledByteBufAllocator.calculateNewCapacity_spec (by omega) htarget hmax
        obtain rfl : c = m := Except.ok.inj (hc.symm.trans hm)
        rw [hlength (hfits hlt c hc), h.maxCapacity]
        exact ⟨hlow, hhigh⟩
    refine ⟨new, hself, ?_, hroom.2, h.readerIndex, h.writerIndex, fun i hi hw => ?_⟩
    · rw [PooledByteBuf.writableBytes, h.writerIndex]
      omega
    · exact h.moves.bytes i (hr.trans hi) (hw.trans_le (hindex.length h.length))

end Mutty.Buffer
