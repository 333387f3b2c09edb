import Mutty.Buffer.ArenaOps
import Mutty.Buffer.BufferOps

/-!
# The slots of a thread cache

A freed block is filed under the class of its own size, and a request looks under the class of the
requested size. Both computations meet at the classes, so that a block from a slot is large enough
for every request that looks there. How many blocks a slot takes is another matter: its size is
only used when it is trimmed.
-/

namespace Mutty.Buffer

open Mutty.Lib Prog

variable {k : Config} {g : Geometry} {plain : Prop} {σ σ' : Pool} {T F : List Token} {t : Token} {e : Entry}
  {i : ℕ} {th : Thread} {sizeClass : SizeClassType} {r : MemoryRegionCache} {b : BufId} {req : ℤ}
  {buffer : Option Pointer} {u : ThreadId} {buf : PooledByteBuf} {c : ChunkId} {x : PoolChunk}

/-! ### Blocks of the right size -/

/-- An entry of slot `i` has a block of exactly the slot's class. -/
def SlotExact (k : Config) (σ : Pool) (i : ℕ) (e : Entry) : SizeClassType → Prop
  | .small => isSubpage e.handle = true ∧ ∃ x s p n, σ.chunk e.chunk = some x ∧
      x.subpageAt (calculateRunOffset e.handle) = .ok s ∧ σ.subpage s = some p ∧
      k.sizes.sizeIdx2size i = .ok n ∧ p.elemSize = n
  | .normal => isSubpage e.handle = false ∧ ∃ n,
      k.sizes.sizeIdx2size (i + k.sizes.nSubpages) = .ok n ∧ Runs.runSize k.sizes e.handle = n

theorem EntryInv.slotClass_lt (he : EntryInv k plain sizeClass i e) (hh : Held k g σ T)
    (ht : e.token ∈ T) : slotClass k sizeClass i < k.sizes.nSizes := by
  obtain ⟨j, hj, hsize⟩ := hh.cap_class ht
  have heq : sizeAt (slotClass k sizeClass i) = sizeAt j := by
    have := he.size.symm.trans hsize
    exact_mod_cast this
  rw [sizeAt_strictMono.injective heq]
  exact hj

theorem EntryInv.slotExact (made : k.sizes.Made g) (he : EntryInv k plain sizeClass i e)
    (hh : Held k g σ T) (ht : e.token ∈ T) : SlotExact k σ i e sizeClass := by
  have hsize := made.sizeIdx2size (he.slotClass_lt hh ht)
  have hheld := hh.perm (List.perm_cons_erase ht)
  cases sizeClass with
  | small =>
    have hsub := isSubpage_of_small he.handle
    obtain ⟨x, hx, -⟩ := hh.token_block ht
    obtain ⟨o, m, j, s, p, f, -, hs, hp, hcap, -⟩ := hheld.elem_cases hsub hx
    refine ⟨hsub, x, s, p, _, hx, ?_, hp, hsize, hcap.trans he.size⟩
    have ho : calculateRunOffset e.handle = o := f.decode.1
    rw [ho, PoolChunk.subpageAt, fetchInt_eq hs]
    rfl
  | normal =>
    have hsub := isSubpage_of_normal he.handle
    exact ⟨hsub, _, hsize, ((hh.tokens _ ht).runSize_eq hsub).trans he.size⟩

/-! ### Taking a block out -/

theorem assert_eq {p : Prop} [Decidable p] (h : p) : (assert p : PoolM Unit) σ = .ok ((), σ) :=
  PoolSubpage.check_run (if_pos h)

theorem init_eq {h : Int64} (hh : 0 ≤ h) (hx : σ.chunk c = some x) (hb : σ.bufs[b]? = some buf)
    (offset length maxLength : ℤ) (cache : Option ThreadId) :
    ∃ σ', PooledByteBuf.init b c buffer h offset length maxLength cache σ = .ok ((), σ') := by
  rw [PooledByteBuf.init, run_bind (assert_eq hh), run_bind (getChunk_eq hx),
    run_bind (getBuf_eq hb)]
  exact ⟨_, rfl⟩

theorem Held.initBufWithSubpage_eq (hh : Held k g σ (t :: T)) (hsub : isSubpage t.handle = true)
    (hb : σ.bufs[b]? = some buf) (hreq : req ≤ t.cap) (buffer : Option Pointer) (u : ThreadId) :
    ∃ σ', PoolChunk.initBufWithSubpage k t.chunk b buffer t.handle req u σ = .ok ((), σ') := by
  obtain ⟨x, hx, -⟩ := hh.token_block (t := t) List.mem_cons_self
  obtain ⟨o, m, j, s, p, f, -, hs, hp, hcap, -⟩ := hh.elem_cases hsub hx
  have hat : x.subpageAt (calculateRunOffset t.handle) = .ok s := by
    rw [f.decode.1, PoolChunk.subpageAt, fetchInt_eq hs]
    rfl
  rw [PoolChunk.initBufWithSubpage, run_bind (getChunk_eq hx),
    run_bind (PoolSubpage.check_run hat), run_bind (PoolSubpage.getSubpage_eq hp),
    run_bind (assert_eq (hh.subpageInv hx hs hp).doNotDestroy),
    run_bind (assert_eq (by rw [hcap]; exact hreq))]
  exact init_eq (hh.tokens t List.mem_cons_self).nonneg hx hb _ _ _ _

theorem Held.initBuf_eq (hh : Held k g σ (t :: T)) (hb : σ.bufs[b]? = some buf)
    (hreq : req ≤ t.cap) (buffer : Option Pointer) (u : ThreadId) :
    ∃ σ', PoolChunk.initBuf k t.chunk b buffer t.handle req u σ = .ok ((), σ') := by
  obtain ⟨x, hx, -⟩ := hh.token_block (t := t) List.mem_cons_self
  rw [PoolChunk.initBuf]
  split_ifs with hsub
  · exact init_eq (hh.tokens t List.mem_cons_self).nonneg hx hb _ _ _ _
  · exact hh.initBufWithSubpage_eq (by simpa using hsub) hb hreq buffer u

theorem getThread_eq (hu : σ.threads[u]? = some th) : getThread u σ = .ok (th, σ) := by
  have hlook : (look fun σ => σ.threads[u]?) σ = .ok (some th, σ) := by
    rw [← hu]
    rfl
  exact run_bind hlook

theorem get_eq (hu : σ.threads[u]? = some th) (hr : (th.cache.regions sizeClass)[i]? = some r) :
    MemoryRegionCache.get u sizeClass i σ = .ok (r, σ) := by
  rw [MemoryRegionCache.get, run_bind (getThread_eq hu), hr]
  rfl

theorem set_eq (hu : σ.threads[u]? = some th) :
    MemoryRegionCache.set u sizeClass i r σ = .ok ((), σ.withRegion u th sizeClass i r) := by
  rw [MemoryRegionCache.set, run_bind (getThread_eq hu)]
  rfl

theorem regions_setRegion_self {cache : PoolThreadCache} {z : MemoryRegionCache}
    (hr : (cache.regions sizeClass)[i]? = some r) :
    ((cache.setRegion sizeClass i z).regions sizeClass)[i]? = some z := by
  have hlen := (List.getElem?_eq_some_iff.mp hr).1
  cases sizeClass <;> exact List.getElem?_set_self hlen

theorem indexOf_region {cache : PoolThreadCache} {sizeIdx : ℕ}
    (h : cache.indexOf k sizeClass sizeIdx = some i) : ∃ r, (cache.regions sizeClass)[i]? = some r := by
  simp only [PoolThreadCache.indexOf] at h
  split_ifs at h with hidx
  have := Option.some.inj h
  exact ⟨_, List.getElem?_eq_getElem (by omega)⟩

theorem threads_withRegion {z : MemoryRegionCache} (hu : σ.threads[u]? = some th) :
    (σ.withRegion u th sizeClass i z).threads[u]? =
      some { th with cache := th.cache.setRegion sizeClass i z } :=
  List.getElem?_set_self (List.getElem?_eq_some_iff.mp hu).1

theorem Cached.initBuf_eq (h : Cached k g plain σ (e.token :: F)) (he : EntryInv k plain sizeClass i e)
    (hb : σ.bufs[b]? = some buf) (hreq : req ≤ sizeAt (slotClass k sizeClass i)) :
    ∃ bufs, MemoryRegionCache.initBuf k u sizeClass e b req σ = .ok ((), { σ with bufs := bufs }) := by
  have hle : req ≤ e.token.cap := by
    rw [show e.token.cap = e.normCapacity from rfl, he.size]
    exact hreq
  cases sizeClass with
  | small =>
    have hsub := isSubpage_of_small he.handle
    obtain ⟨σ', hrun⟩ := h.held.initBufWithSubpage_eq hsub hb hle e.buffer u
    obtain ⟨-, _, -, rfl⟩ := h.held.initBufWithSubpage hsub _ _ hrun
    exact ⟨_, hrun⟩
  | normal =>
    obtain ⟨σ', hrun⟩ := h.held.initBuf_eq hb hle e.buffer u
    obtain ⟨_, -, rfl⟩ := h.held.initBuf _ _ hrun
    exact ⟨_, hrun⟩

theorem Cached.allocateRegion_eq (h : Cached k g plain σ F) (hu : σ.threads[u]? = some th)
    (hr : (th.cache.regions sizeClass)[i]? = some r) (hb : σ.bufs[b]? = some buf)
    (hreq : req ≤ sizeAt (slotClass k sizeClass i)) :
    ∃ done σ', MemoryRegionCache.allocate k u sizeClass i b req σ = .ok (done, σ') := by
  rw [MemoryRegionCache.allocate, run_bind (get_eq hu hr)]
  cases hq : r.queue with
  | nil => exact ⟨false, σ, rfl⟩
  | cons e queue =>
    obtain ⟨hpop, he⟩ := h.pop hu hr hq
    obtain ⟨bufs, hinit⟩ := hpop.initBuf_eq (u := u) he hb hreq
    set z : MemoryRegionCache := { r with queue := queue }
    set σ₂ : Pool := { σ.withRegion u th sizeClass i z with bufs := bufs }
    have hu₂ : σ₂.threads[u]? = some { th with cache := th.cache.setRegion sizeClass i z } :=
      threads_withRegion hu
    exact ⟨true, _, (run_bind (set_eq hu)).trans ((run_bind hinit).trans
      ((run_bind (get_eq hu₂ (regions_setRegion_self hr))).trans (run_bind (set_eq hu₂))))⟩

/-! ### Along every run -/

/-- The state in which a cache is asked for a block for buffer `b`: the object of a new buffer is
there already. -/
inductive Asking (σ : Pool) (t : ThreadId) (b : BufId) : Pool → Prop
  | allocate (maxCapacity : ℤ) (σ₁ : Pool) :
      PooledByteBuf.newInstance t maxCapacity σ = .ok (b, σ₁) → Asking σ t b σ₁
  | reallocate (buf : PooledByteBuf) : σ.bufs[b]? = some buf → Asking σ t b σ

theorem Asking.cached {σ₁ : Pool} (h : Asking σ u b σ₁) (hinv : PoolInv k g True True σ) :
    PoolInv k g True True σ₁ ∧ ∃ buf, σ₁.bufs[b]? = some buf := by
  cases h with
  | allocate maxCapacity σ₁ hnew =>
    obtain ⟨hinv', buf, hprep⟩ := hinv.newInstance maxCapacity _ _ hnew
    exact ⟨hinv', buf, hprep.self⟩
  | reallocate buf hbuf => exact ⟨hinv, buf, hbuf⟩

theorem mem_cacheTokens (hth : th ∈ σ.threads) (hr : r ∈ th.cache.regions sizeClass)
    (he : e ∈ r.queue) : e.token ∈ cacheTokens σ := by
  have hmem : e.token ∈ (th.cache.regions sizeClass).flatMap MemoryRegionCache.tokens :=
    List.mem_flatMap.mpr ⟨r, hr, List.mem_map_of_mem he⟩
  refine List.mem_flatMap.mpr ⟨th, hth, ?_⟩
  cases sizeClass with
  | small => exact List.mem_append_left _ hmem
  | normal => exact List.mem_append_right _ hmem

theorem slots_exact (h : System.Reach (poolMachine k) (Sized k) σ) :
    (∀ th ∈ σ.threads, ∀ sizeClass (i : ℕ) r, (th.cache.regions sizeClass)[i]? = some r →
      ∀ e ∈ r.queue, SlotExact k σ i e sizeClass) ∧
    ∀ t b σ₁, Asking σ t b σ₁ → ∀ th (req : ℤ) sizeIdx sizeClass i, σ₁.threads[t]? = some th →
      0 ≤ req → req ≤ k.sizes.chunkSize → sizeIdxOf k req = .ok sizeIdx →
      th.cache.indexOf k sizeClass sizeIdx = some i →
      ∃ done σ', MemoryRegionCache.allocate k t sizeClass i b req σ₁ = .ok (done, σ') ∧
        (done = true → ∃ buf, σ'.bufs[b]? = some buf ∧ buf.length = req ∧ req ≤ buf.maxLength) := by
  obtain ⟨g, made, hinv⟩ := PoolInv.reach h
  refine ⟨?_, ?_⟩
  · intro th hth sizeClass i r hr e he
    have hmem := mem_cacheTokens hth (List.mem_of_getElem? hr) he
    exact (hinv.cached.entries th hth sizeClass i r hr e he).slotExact made hinv.cached.held
      (List.mem_append_right _ hmem)
  · intro t b σ₁ hask th req sizeIdx sizeClass i hth h0 hle hidx hslot
    obtain ⟨hinv₁, buf, hbuf⟩ := hask.cached hinv
    obtain ⟨j, hj, -, hreq, -⟩ := made.sizeIdxOf h0 hle
    obtain rfl : j = sizeIdx := Except.ok.inj (hj.symm.trans hidx)
    rw [← slotClass_indexOf hslot] at hreq
    obtain ⟨r, hr⟩ := indexOf_region hslot
    obtain ⟨done, σ', hrun⟩ := hinv₁.cached.allocateRegion_eq hth hr hbuf hreq
    refine ⟨done, σ', hrun, ?_⟩
    rintro rfl
    rcases hinv₁.cached.allocateRegion hreq _ _ hrun with ⟨hfalse, -⟩ | ⟨-, t', hgets⟩
    · cases hfalse
    · obtain ⟨buf', buffer, -, hbuf', hbufs⟩ := hgets.bufs
      refine ⟨buf'.filled k t' req t buffer, ?_, rfl, hgets.bound⟩
      rw [hbufs]
      exact List.getElem?_set_self (List.getElem?_eq_some_iff.mp hbuf').1

/-- An element of 64 bytes and a run of five pages are cached, and a new buffer of 60 bytes gets the
element. -/
theorem slots_exact_two : ∃ σ, System.Reach (poolMachine smallConfig) (Sized smallConfig) σ ∧
    cacheTokens σ = [⟨0, toHandle 5 1 0, 64⟩, ⟨0, toRunHandle 0 5 1, 20480⟩] ∧
    (∀ th ∈ σ.threads, ∀ sizeClass (i : ℕ) r, (th.cache.regions sizeClass)[i]? = some r →
      ∀ e ∈ r.queue, SlotExact smallConfig σ i e sizeClass) ∧
    ∃ b σ₁ σ' buf, PooledByteBuf.newInstance 0 100 σ = .ok (b, σ₁) ∧
      MemoryRegionCache.allocate smallConfig 0 .small 3 b 60 σ₁ = .ok (true, σ') ∧
      σ'.bufs[b]? = some buf ∧ buf.length = 60 ∧ 60 ≤ buf.maxLength := by
  obtain ⟨σ, -, hreach, hp⟩ := System.exists_reach (M := poolMachine smallConfig)
    (G := Sized smallConfig)
    [.attach, .allocate 0 0 20000 40000, .allocate 0 0 60 60, .deallocate 0 1, .deallocate 0 0]
    (fun σ => cacheTokens σ = [⟨0, toHandle 5 1 0, 64⟩, ⟨0, toRunHandle 0 5 1, 20480⟩] ∧
      (PooledByteBuf.newInstance 0 100 σ).toOption.any fun r =>
        r.2.threads[0]?.any (fun th => th.cache.indexOf smallConfig .small 3 = some 3) ∧
        (MemoryRegionCache.allocate smallConfig 0 .small 3 r.1 60 r.2).toOption.any (fun q => q.1))
    smallConfig_init (by rw [smallConfig_eq]; decide +kernel)
  obtain ⟨htokens, hp⟩ := of_decide_eq_true hp
  obtain ⟨⟨b, σ₁⟩, hnew, hp⟩ := (Option.any_eq_true _ _).mp hp
  obtain ⟨hslot, hp⟩ := of_decide_eq_true hp
  obtain ⟨th, hth, hslot⟩ := (Option.any_eq_true _ _).mp hslot
  obtain ⟨⟨done, σ'⟩, hcall, hdone⟩ := (Option.any_eq_true _ _).mp hp
  have hnew := toOption_eq_some.mp hnew
  have hcall := toOption_eq_some.mp hcall
  obtain ⟨hslots, hserves⟩ := slots_exact hreach
  have hidx : sizeIdxOf smallConfig 60 = .ok 3 := by
    rw [smallConfig_eq]
    decide +kernel
  have hle : (60 : ℤ) ≤ smallConfig.sizes.chunkSize := by
    rw [smallConfig_chunkSize]
    decide
  obtain ⟨done', σ'', hcall', hfits⟩ := hserves 0 b σ₁ (.allocate 100 σ₁ hnew) th 60 3 .small 3 hth
    (by decide) hle hidx (of_decide_eq_true hslot)
  obtain ⟨rfl, rfl⟩ : done = done' ∧ σ' = σ'' := Prod.mk.inj (Except.ok.inj (hcall.symm.trans hcall'))
  obtain ⟨buf, hbuf, hlen, hmax⟩ := hfits hdone
  have htrue : done = true := hdone
  exact ⟨σ, hreach, htokens, hslots, b, σ₁, σ', buf, hnew, htrue ▸ hcall, hbuf, hlen, hmax⟩

/-! ### Code that does not touch the caches -/

def SameThreads (σ σ' : Pool) : Prop := σ'.threads = σ.threads

instance : IsPreorder Pool SameThreads where
  refl _ := rfl
  trans _ _ _ h h' := h'.trans h

theorem Rewired.sameThreads (h : Rewired σ σ') : SameThreads σ σ' := by
  obtain ⟨_, rfl⟩ := h
  rfl

theorem OnLists.sameThreads (h : OnLists σ σ') : SameThreads σ σ' := by
  obtain ⟨_, _, rfl⟩ := h
  rfl

theorem within_getSubpage (s : SubpageId) : Within SameThreads (getSubpage s) := by
  intro σ
  exact ends_getSubpage fun _ _ => refl_of SameThreads σ

theorem within_setChunk (c : ChunkId) (x : PoolChunk) : Within SameThreads (setChunk c x) :=
  within_update fun _ => rfl

theorem within_setSubpage (s : SubpageId) (p : PoolSubpage) :
    Within SameThreads (setSubpage s p) := within_update fun _ => rfl

theorem within_retire (s : SubpageId) (p : PoolSubpage) :
    Within SameThreads (PoolSubpage.retire s p) := by
  refine .ite (within_pure _) ((within_look _).bind fun _ => .ite (within_pure _) ?_)
  exact (within_setSubpage s _).bind fun _ =>
    ((within_removeFromPool s).mono fun _ _ => Rewired.sameThreads).bind fun _ => within_pure _

theorem within_freeElement (s : SubpageId) (head : Node) (bitmapIdx : ℤ) :
    Within SameThreads (PoolSubpage.free s head bitmapIdx) := by
  refine (within_getSubpage s).bind fun p => .ite (within_pure _) ((within_check _).bind fun p' =>
    (within_setSubpage s _).bind fun _ => .ite ?_ (within_retire s _))
  exact ((within_addToPool s head).mono fun _ _ => Rewired.sameThreads).bind fun _ =>
    .ite (within_pure _) (within_retire s _)

theorem within_freeRun (c : ChunkId) (handle : Int64) (buffer : Option Pointer) :
    Within SameThreads (PoolChunk.freeRun k c handle buffer) :=
  (within_getChunk c).bind fun _ => (within_check _).bind fun _ => within_setChunk c _

theorem within_free (c : ChunkId) (handle : Int64) (normCapacity : ℤ) (buffer : Option Pointer) :
    Within SameThreads (PoolChunk.free k c handle normCapacity buffer) := by
  refine .ite ?_ (within_freeRun c handle buffer)
  refine (within_getChunk c).bind fun x => (within_check _).bind fun _ => (within_check _).bind
    fun head => (within_check _).bind fun slot => ?_
  cases slot with
  | none => exact within_fail _
  | some s =>
    refine (within_getSubpage s).bind fun _ => (within_assert _).bind fun _ =>
      (within_freeElement s head _).bind fun _ => .ite (within_pure _) ?_
    exact (within_getSubpage s).bind fun _ => (within_assert _).bind fun _ =>
      (within_getChunk c).bind fun _ => (within_setChunk c _).bind fun _ =>
      within_freeRun c handle buffer

theorem within_move0 (a : ArenaId) (c : ChunkId) (n : ℕ) (l : ListKind) :
    Within SameThreads (PoolChunkList.move0 k a c n l) := by
  induction n generalizing l with
  | zero => exact within_fail _
  | succ n ih =>
    unfold PoolChunkList.move0
    cases l.prevList with
    | none => exact (within_getChunk c).bind fun _ => (within_assert _).bind fun _ => within_pure _
    | some prev =>
      refine (within_getChunk c).bind fun _ => (within_assert _).bind fun _ => .ite (ih prev) ?_
      exact ((within_add0 a prev c).mono fun _ _ => OnLists.sameThreads).bind fun _ => within_pure _

theorem within_freeChunk (c : ChunkId) (handle : Int64) (normCapacity : ℤ)
    (buffer : Option Pointer) :
    Within SameThreads (PoolArena.freeChunk k c handle normCapacity buffer) := by
  refine (within_getChunk c).bind fun x =>
    ((within_getLinks c).mono fun _ _ => OnLists.sameThreads).bind fun links => ?_
  cases links.parent with
  | none => exact within_fail _
  | some l =>
    have hfree : Within SameThreads
        (PoolChunkList.free k x.arena l c handle normCapacity buffer) := by
      refine (within_free c handle normCapacity buffer).bind fun _ => (within_getChunk c).bind
        fun _ => .ite ?_ (within_pure _)
      exact ((within_remove x.arena l c).mono fun _ _ => OnLists.sameThreads).bind fun _ =>
        within_move0 x.arena c 6 l
    refine hfree.bind fun _ => .ite (within_pure _) ?_
    exact (within_getChunk c).bind fun _ => within_update fun _ => rfl

theorem within_initBuf (e : Entry) (b : BufId) (req : ℤ) :
    Within SameThreads (MemoryRegionCache.initBuf k u sizeClass e b req) := by
  have hinit : ∀ offset length maxLength, Within SameThreads
      (PooledByteBuf.init b e.chunk e.buffer e.handle offset length maxLength (some u)) := by
    intro offset length maxLength σ
    exact ends_bind (ends_assert fun _ => ends_bind (ends_getChunk fun _ _ =>
      ends_bind (ends_getBuf fun _ _ => ends_update rfl)))
  have hsub : Within SameThreads
      (PoolChunk.initBufWithSubpage k e.chunk b e.buffer e.handle req u) :=
    (within_getChunk _).bind fun _ => (within_check _).bind fun s => (within_getSubpage s).bind
      fun _ => (within_assert _).bind fun _ => (within_assert _).bind fun _ => hinit _ _ _
  cases sizeClass with
  | small => exact hsub
  | normal => exact .ite (hinit _ _ _) hsub

/-! ### The number of blocks in a slot -/

def slot (σ : Pool) (t : ThreadId) (sizeClass : SizeClassType) (i : ℕ) : Option MemoryRegionCache :=
  σ.threads[t]?.bind fun th => (th.cache.regions sizeClass)[i]?

inductive SlotAction
  | add (e : Entry)
  | allocate (b : BufId) (reqCapacity : ℤ)
  | trim
  | free (max : ℕ)
  | others (σ : Pool)

/-- The operations of one `MemoryRegionCache`, from its construction on. In between, other code may
do anything that leaves the slot as it is. -/
def slotMachine (k : Config) (cacheSize : ℤ) (t : ThreadId) (sizeClass : SizeClassType) (i : ℕ) :
    System Pool SlotAction where
  init σ := slot σ t sizeClass i = some (.new cacheSize)
  step σ
    | .add e => (MemoryRegionCache.add t sizeClass i e σ).toOption.map Prod.snd
    | .allocate b reqCapacity =>
      (MemoryRegionCache.allocate k t sizeClass i b reqCapacity σ).toOption.map Prod.snd
    | .trim => (MemoryRegionCache.trim k t sizeClass i σ).toOption.map Prod.snd
    | .free max => (MemoryRegionCache.free k t sizeClass i max σ).toOption.map Prod.snd
    | .others σ' => if slot σ' t sizeClass i = slot σ t sizeClass i then some σ' else none

/-- The slot has room for the blocks that are added to it. -/
def HasRoom (t : ThreadId) (sizeClass : SizeClassType) (i : ℕ) (σ : Pool) : SlotAction → Prop
  | .add _ => (slot σ t sizeClass i).all (fun r => (r.queue.length : ℤ) < r.size) = true
  | _ => True

instance (σ : Pool) : (a : SlotAction) → Decidable (HasRoom u sizeClass i σ a)
  | .add _ => inferInstanceAs (Decidable (_ = true))
  | .allocate _ _ => isTrue trivial
  | .trim => isTrue trivial
  | .free _ => isTrue trivial
  | .others _ => isTrue trivial

theorem slot_eq_some : slot σ u sizeClass i = some r ↔
    ∃ th, σ.threads[u]? = some th ∧ (th.cache.regions sizeClass)[i]? = some r :=
  Option.bind_eq_some_iff

theorem SameThreads.slot_eq (h : SameThreads σ σ') : slot σ' u sizeClass i = slot σ u sizeClass i := by
  rw [slot, slot, show σ'.threads = σ.threads from h]

/-- The slot is still there, with the same size and no more entries. -/
def Shrinks (t : ThreadId) (sizeClass : SizeClassType) (i : ℕ) (σ σ' : Pool) : Prop :=
  ∀ r, slot σ t sizeClass i = some r → ∃ z, slot σ' t sizeClass i = some z ∧
    z.size = r.size ∧ z.queue.length ≤ r.queue.length

instance : IsPreorder Pool (Shrinks u sizeClass i) where
  refl _ r hr := ⟨r, hr, rfl, le_rfl⟩
  trans _ _ _ h h' := by
    intro r hr
    obtain ⟨z, hz, hsize, hlen⟩ := h r hr
    obtain ⟨w, hw, hsize', hlen'⟩ := h' z hz
    exact ⟨w, hw, hsize'.trans hsize, hlen'.trans hlen⟩

theorem SameThreads.shrinks (h : SameThreads σ σ') : Shrinks u sizeClass i σ σ' := by
  intro r hr
  exact ⟨r, h.slot_eq.trans hr, rfl, le_rfl⟩

theorem slot_withRegion {z : MemoryRegionCache} (hu : σ.threads[u]? = some th)
    (hr : (th.cache.regions sizeClass)[i]? = some r) :
    slot (σ.withRegion u th sizeClass i z) u sizeClass i = some z :=
  slot_eq_some.mpr ⟨_, threads_withRegion hu, regions_setRegion_self hr⟩

theorem shrinks_withRegion {z : MemoryRegionCache} (hu : σ.threads[u]? = some th)
    (hr : (th.cache.regions sizeClass)[i]? = some r) (hsize : z.size = r.size)
    (hlen : z.queue.length ≤ r.queue.length) :
    Shrinks u sizeClass i σ (σ.withRegion u th sizeClass i z) := by
  intro r' hr'
  obtain rfl : r = r' := Option.some.inj ((slot_eq_some.mpr ⟨th, hu, hr⟩).symm.trans hr')
  exact ⟨z, slot_withRegion hu hr, hsize, hlen⟩

theorem shrinks_free (n : ℕ) : Within (Shrinks u sizeClass i)
    (MemoryRegionCache.free k u sizeClass i n) := by
  induction n with
  | zero => exact within_pure _
  | succ n ih =>
    intro σ
    refine ends_bind (ends_get fun th r hu hr => ?_)
    cases hq : r.queue with
    | nil => exact ends_pure (refl_of (Shrinks u sizeClass i) σ)
    | cons e queue =>
      refine ends_bind (ends_set fun th' hu' => ?_)
      obtain rfl : th = th' := Option.some.inj (hu.symm.trans hu')
      have hpop := shrinks_withRegion (z := { r with queue := queue }) hu hr rfl (by simp [hq])
      have hrest := ((within_freeChunk (k := k) e.chunk e.handle e.normCapacity e.buffer).mono
        fun σ₁ σ₂ h => (h.shrinks : Shrinks u sizeClass i σ₁ σ₂)).bind fun _ => ih
      exact (hrest.ends _).mono fun _ _ h => trans_of (Shrinks u sizeClass i) hpop h

theorem shrinks_trim : Within (Shrinks u sizeClass i) (MemoryRegionCache.trim k u sizeClass i) := by
  intro σ
  refine ends_bind (ends_get fun th r hu hr => ends_bind (ends_set fun th' hu' => ?_))
  obtain rfl : th = th' := Option.some.inj (hu.symm.trans hu')
  have hzero := shrinks_withRegion (z := { r with allocations := 0 }) hu hr rfl le_rfl
  exact ((within_when (shrinks_free _)).ends _).mono fun _ _ h =>
    trans_of (Shrinks u sizeClass i) hzero h

theorem shrinks_allocate : Within (Shrinks u sizeClass i)
    (MemoryRegionCache.allocate k u sizeClass i b req) := by
  intro σ
  refine ends_bind (ends_get fun th r hu hr => ?_)
  cases hq : r.queue with
  | nil => exact ends_pure (refl_of (Shrinks u sizeClass i) σ)
  | cons e queue =>
    refine ends_bind (ends_set fun th' hu' => ?_)
    obtain rfl : th = th' := Option.some.inj (hu.symm.trans hu')
    have hpop := shrinks_withRegion (z := { r with queue := queue }) hu hr rfl (by simp [hq])
    refine ends_bind (((within_initBuf e b req).ends _).mono fun _ σ₁ hinit => ?_)
    refine ends_bind (ends_get fun th₁ r₁ hu₁ hr₁ => ends_bind (ends_set fun th₂ hu₂ => ?_))
    obtain rfl : th₁ = th₂ := Option.some.inj (hu₁.symm.trans hu₂)
    have hcount := shrinks_withRegion (z := { r₁ with allocations := r₁.allocations + 1 }) hu₁ hr₁
      rfl le_rfl
    exact ends_pure (trans_of (Shrinks u sizeClass i) hpop
      (trans_of (Shrinks u sizeClass i) hinit.shrinks hcount))

/-- `add` never refuses: one entry more, whatever the size of the slot. -/
theorem ends_add (hr : slot σ u sizeClass i = some r) :
    Ends (MemoryRegionCache.add u sizeClass i e) σ fun added σ' => added = true ∧
      slot σ' u sizeClass i = some { r with queue := r.queue ++ [e] } := by
  refine ends_bind (ends_get fun th r' hu hr' => ends_bind (ends_set fun th' hu' => ends_pure ?_))
  obtain rfl : th = th' := Option.some.inj (hu.symm.trans hu')
  obtain rfl : r = r' := Option.some.inj (hr.symm.trans (slot_eq_some.mpr ⟨th, hu, hr'⟩))
  exact ⟨rfl, slot_withRegion hu hr'⟩

def Bounded (t : ThreadId) (sizeClass : SizeClassType) (i : ℕ) (σ : Pool) : Prop :=
  ∃ r, slot σ t sizeClass i = some r ∧ r.queue.length ≤ r.size

theorem Bounded.shrinks (h : Bounded u sizeClass i σ) (hs : Shrinks u sizeClass i σ σ') :
    Bounded u sizeClass i σ' := by
  obtain ⟨r, hr, hle⟩ := h
  obtain ⟨z, hz, hsize, hlen⟩ := hs r hr
  exact ⟨z, hz, by omega⟩

theorem Bounded.step {cacheSize : ℤ} {a : SlotAction} (h : Bounded u sizeClass i σ)
    (ha : HasRoom u sizeClass i σ a)
    (hs : (slotMachine k cacheSize u sizeClass i).step σ a = some σ') :
    Bounded u sizeClass i σ' := by
  have hrun : ∀ {α : Type} {x : PoolM α}, Within (Shrinks u sizeClass i) x →
      (x σ).toOption.map Prod.snd = some σ' → Bounded u sizeClass i σ' := by
    intro α x hx hs
    obtain ⟨⟨v, σ₁⟩, hok, rfl⟩ := Option.map_eq_some_iff.mp hs
    exact h.shrinks (hx σ v σ₁ (toOption_eq_some.mp hok))
  cases a with
  | add e =>
    obtain ⟨r, hr, -⟩ := h
    obtain ⟨⟨v, σ₁⟩, hok, rfl⟩ := Option.map_eq_some_iff.mp hs
    obtain ⟨-, hadd⟩ := ends_add hr v σ₁ (toOption_eq_some.mp hok)
    have hroom : (r.queue.length : ℤ) < r.size := by simpa [HasRoom, hr] using ha
    refine ⟨_, hadd, ?_⟩
    rw [List.length_append, List.length_singleton]
    push_cast
    omega
  | allocate b req => exact hrun shrinks_allocate hs
  | trim => exact hrun shrinks_trim hs
  | free n => exact hrun (shrinks_free n) hs
  | others σ₁ =>
    simp only [slotMachine] at hs
    split_ifs at hs with hslot
    obtain rfl := Option.some.inj hs
    obtain ⟨r, hr, hle⟩ := h
    exact ⟨r, hslot.trans hr, hle⟩

/-- As long as nothing is added to a full slot, the slot is not overfull. -/
theorem slot_bounded {cacheSize : ℤ} (hsize : 0 ≤ nextPowerofTwo cacheSize)
    (h : (slotMachine k cacheSize u sizeClass i).Reach (HasRoom u sizeClass i) σ) :
    ∃ r, slot σ u sizeClass i = some r ∧ r.queue.length ≤ r.size := by
  refine System.Reach.invariant (I := Bounded u sizeClass i) (fun σ hinit => ?_)
    (fun σ a σ' hb ha hs => hb.step ha hs) h
  exact ⟨_, hinit, hsize⟩

def oneSlot : Pool :=
  { Pool.initial with
    threads := [{
      cache := {
        smallSubPageCaches := [.new 1]
        normalCaches := []
        allocations := 0
        freeSweepAllocationThreshold := 8192 }
      stack := [] }] }

theorem slot_bounded_one : ∃ σ, (slotMachine smallConfig 1 0 .small 0).Reach (HasRoom 0 .small 0) σ ∧
    (slot σ 0 .small 0).map (fun r => r.queue.length) = some 1 ∧
    ∃ r, slot σ 0 .small 0 = some r ∧ r.queue.length ≤ r.size := by
  obtain ⟨σ, -, hreach, hp⟩ := System.exists_reach (M := slotMachine smallConfig 1 0 .small 0)
    (G := HasRoom 0 .small 0) [.add ⟨0, none, toHandle 0 1 0, 16⟩]
    (fun σ => (slot σ 0 .small 0).map (fun r => r.queue.length) = some 1) (s := oneSlot) rfl
    (by rw [smallConfig_eq]; decide +kernel)
  exact ⟨σ, hreach, of_decide_eq_true hp, slot_bounded (by decide) hreach⟩

def tightConfig : Config := { smallConfig with smallCacheSize := 1 }

theorem tightConfig_eq : tightConfig = { tightConfig with
    sizes := SizeClasses.tables smallGeometry } := by
  simp [tightConfig, smallConfig, arenaSizes_small]

theorem tightConfig_init : (poolMachine tightConfig).init Pool.initial := by
  refine ⟨⟨4096, 3, by norm_num, ?_⟩, rfl⟩
  rw [arenaSizes_small, tightConfig_eq]

/-- Two blocks of 16 bytes are freed, and a slot of size 1 takes both. -/
theorem slot_overfull : ∃ σ r, System.Reach (poolMachine tightConfig) (Sized tightConfig) σ ∧
    slot σ 0 .small 0 = some r ∧ r.size = 1 ∧ r.queue.length = 2 := by
  obtain ⟨σ, -, hreach, hp⟩ := System.exists_reach (M := poolMachine tightConfig)
    (G := Sized tightConfig)
    [.attach, .allocate 0 0 16 16, .allocate 0 0 16 16, .deallocate 0 0, .deallocate 0 1]
    (fun σ => (slot σ 0 .small 0).map (fun r => (r.size, r.queue.length)) = some (1, 2))
    tightConfig_init (by rw [tightConfig_eq]; decide +kernel)
  obtain ⟨r, hr, hsize⟩ := Option.map_eq_some_iff.mp (of_decide_eq_true hp)
  obtain ⟨h1, h2⟩ := Prod.mk.inj hsize
  exact ⟨σ, r, hreach, hr, h1, h2⟩

end Mutty.Buffer
