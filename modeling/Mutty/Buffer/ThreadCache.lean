import Mutty.Buffer.ChunkOps
import Mutty.Lib.Owners

/-!
# Blocks in the thread caches

A cache entry holds a token. `Cached k g plain σ F` says that the tokens of all caches together with
the tokens `F`, which the buffers have or an operation is working on, are held by the store. Allocating
from a cache turns one of its tokens into one of `F`, freeing goes the other way, and trimming gives
tokens back to their chunks.
-/

namespace Mutty.Buffer

open Mutty.Lib Prog

def Entry.token (e : Entry) : Token := ⟨e.chunk, e.handle, e.normCapacity⟩

def MemoryRegionCache.tokens (r : MemoryRegionCache) : List Token := r.queue.map Entry.token

def PoolThreadCache.tokens (cache : PoolThreadCache) : List Token :=
  cache.smallSubPageCaches.flatMap MemoryRegionCache.tokens ++
    cache.normalCaches.flatMap MemoryRegionCache.tokens

def cacheTokens (σ : Pool) : List Token := σ.threads.flatMap fun th => th.cache.tokens

def slotClass (k : Config) : SizeClassType → ℕ → ℕ
  | .small, i => i
  | .normal, i => i + k.sizes.nSubpages

/-- If `plain` then a pointer that is kept with a block is one to its first byte. -/
def Points (k : Config) (plain : Prop) (t : Token) (buffer : Option Pointer) : Prop :=
  plain → ∀ ptr, buffer = some ptr → ptr = (t.chunk, t.offset k)

/-- What an entry of region `i` is: an element or a run of the region's size class. -/
structure EntryInv (k : Config) (plain : Prop) (sizeClass : SizeClassType) (i : ℕ) (e : Entry) :
    Prop where
  buffer : Points k plain e.token e.buffer
  handle : PoolArena.getSizeClassType e.handle = sizeClass
  size : e.normCapacity = sizeAt (slotClass k sizeClass i)

def CacheInv (k : Config) (plain : Prop) (σ : Pool) : Prop :=
  ∀ th ∈ σ.threads, ∀ sizeClass (i : ℕ) r, (th.cache.regions sizeClass)[i]? = some r →
    ∀ e ∈ r.queue, EntryInv k plain sizeClass i e

structure Cached (k : Config) (g : Geometry) (plain : Prop) (σ : Pool) (F : List Token) : Prop where
  held : Held k g σ (F ++ cacheTokens σ)
  entries : CacheInv k plain σ

structure SameBufs (σ σ' : Pool) : Prop where
  bufs : σ'.bufs = σ.bufs
  recycled : σ'.threads.map Thread.stack = σ.threads.map Thread.stack
  persists : Persists σ σ'

instance : IsPreorder Pool SameBufs where
  refl σ := ⟨rfl, rfl, refl_of Persists σ⟩
  trans _ _ _ h h' := ⟨h'.bufs.trans h.bufs, h'.recycled.trans h.recycled,
    trans_of Persists h.persists h'.persists⟩

theorem SameOwners.sameBufs {σ σ' : Pool} (h : SameOwners σ σ') : SameBufs σ σ' :=
  ⟨h.bufs, by rw [h.threads], h.persists⟩

variable {k : Config} {g : Geometry} {plain : Prop} {σ σ' : Pool} {F F' : List Token} {t : Token}
  {e : Entry} {n i : ℕ} {th : Thread} {sizeClass : SizeClassType} {r z : MemoryRegionCache} {b : BufId}
  {req : ℤ} {buffer : Option Pointer} {u : ThreadId}

theorem points_none : Points k plain t none := by
  intro _ ptr hptr
  cases hptr

theorem Cached.perm (h : Cached k g plain σ F) (hp : F.Perm F') : Cached k g plain σ F' :=
  ⟨h.held.perm (hp.append_right _), h.entries⟩

theorem Cached.of_threads (h : Cached k g plain σ F) (hthreads : σ'.threads = σ.threads)
    (hheld : Held k g σ' (F' ++ cacheTokens σ)) : Cached k g plain σ' F' where
  held := by
    rw [cacheTokens, hthreads]
    exact hheld
  entries := by
    rw [CacheInv, hthreads]
    exact h.entries

/-! ### One region -/

def Pool.withRegion (σ : Pool) (u : ThreadId) (th : Thread) (sizeClass : SizeClassType) (i : ℕ)
    (r : MemoryRegionCache) : Pool :=
  { σ with threads := σ.threads.set u { th with cache := th.cache.setRegion sizeClass i r } }

theorem tokens_setRegion {cache : PoolThreadCache} (hr : (cache.regions sizeClass)[i]? = some r) :
    ((cache.setRegion sizeClass i z).tokens ++ r.tokens).Perm (cache.tokens ++ z.tokens) := by
  have hset := flatMap_set_perm (f := MemoryRegionCache.tokens) (x := z) hr
  rw [List.perm_iff_count] at hset ⊢
  intro a
  have ha := hset a
  simp only [List.count_append] at ha
  cases sizeClass <;>
    simp only [PoolThreadCache.tokens, PoolThreadCache.setRegion, PoolThreadCache.regions,
      List.count_append] at ha ⊢ <;> omega

theorem cacheTokens_withRegion (hu : σ.threads[u]? = some th)
    (hr : (th.cache.regions sizeClass)[i]? = some r) :
    (cacheTokens (σ.withRegion u th sizeClass i z) ++ r.tokens).Perm
      (cacheTokens σ ++ z.tokens) := by
  have hregion := tokens_setRegion (z := z) hr
  have hthread := flatMap_set_perm (f := fun th : Thread => th.cache.tokens)
    (x := { th with cache := th.cache.setRegion sizeClass i z }) hu
  rw [List.perm_iff_count] at hregion hthread ⊢
  intro a
  have h₁ := hregion a
  have h₂ := hthread a
  simp only [cacheTokens, Pool.withRegion, List.count_append] at h₁ h₂ ⊢
  omega

theorem regions_setRegion (cache : PoolThreadCache) (c c' : SizeClassType) (i j : ℕ)
    (hj : (cache.regions c)[i]? = some r) {q : MemoryRegionCache}
    (h : ((cache.setRegion c i z).regions c')[j]? = some q) :
    (c' = c ∧ j = i ∧ q = z) ∨ (cache.regions c')[j]? = some q := by
  have hlen : i < (cache.regions c).length := (List.getElem?_eq_some_iff.mp hj).1
  have hset : ∀ l : List MemoryRegionCache, i < l.length → (l.set i z)[j]? = some q →
      (j = i ∧ q = z) ∨ l[j]? = some q := by
    intro l hl hq
    by_cases hji : j = i
    · subst hji
      rw [List.getElem?_set_self hl] at hq
      exact .inl ⟨rfl, (Option.some.inj hq).symm⟩
    · rw [List.getElem?_set_ne (Ne.symm hji)] at hq
      exact .inr hq
  cases c <;> cases c' <;>
    simp only [PoolThreadCache.setRegion, PoolThreadCache.regions] at h hlen ⊢
  · exact (hset _ hlen h).imp_left fun h => ⟨trivial, h⟩
  · exact .inr h
  · exact .inr h
  · exact (hset _ hlen h).imp_left fun h => ⟨trivial, h⟩

theorem CacheInv.withRegion (h : CacheInv k plain σ) (hu : σ.threads[u]? = some th)
    (hr : (th.cache.regions sizeClass)[i]? = some r)
    (hq : ∀ e ∈ z.queue, EntryInv k plain sizeClass i e) :
    CacheInv k plain (σ.withRegion u th sizeClass i z) := by
  intro th' hth' c' j q hregion
  rcases List.mem_or_eq_of_mem_set hth' with hold | rfl
  · exact h th' hold c' j q hregion
  · rcases regions_setRegion th.cache sizeClass c' i j hr hregion with ⟨rfl, rfl, rfl⟩ | hold
    · exact hq
    · exact h th (List.mem_of_getElem? hu) c' j q hold

theorem Cached.withRegion (h : Cached k g plain σ F) (hu : σ.threads[u]? = some th)
    (hr : (th.cache.regions sizeClass)[i]? = some r) (hp : (F' ++ z.tokens).Perm (F ++ r.tokens))
    (hq : ∀ e ∈ z.queue, EntryInv k plain sizeClass i e) :
    Cached k g plain (σ.withRegion u th sizeClass i z) F' := by
  refine ⟨Held.of_eq (σ := σ) (h.held.perm ?_) rfl rfl rfl rfl, h.entries.withRegion hu hr hq⟩
  have hc := cacheTokens_withRegion (z := z) hu hr
  rw [List.perm_iff_count] at hc hp ⊢
  intro a
  have h₁ := hc a
  have h₂ := hp a
  simp only [List.count_append] at h₁ h₂ ⊢
  omega

theorem sameBufs_withRegion (hu : σ.threads[u]? = some th) :
    SameBufs σ (σ.withRegion u th sizeClass i r) :=
  ⟨rfl, map_set_same hu rfl, persists_of_eq rfl rfl⟩

theorem ends_getThread {Q : Thread → Pool → Prop}
    (h : ∀ th, σ.threads[u]? = some th → Q th σ) : Ends (getThread u) σ Q := by
  refine ends_bind (ends_look ?_)
  cases hu : σ.threads[u]? with
  | none => exact ends_fail _
  | some th => exact ends_pure (h th hu)

theorem ends_get {Q : MemoryRegionCache → Pool → Prop}
    (h : ∀ th r, σ.threads[u]? = some th → (th.cache.regions sizeClass)[i]? = some r → Q r σ) :
    Ends (MemoryRegionCache.get u sizeClass i) σ Q := by
  refine ends_bind (ends_getThread fun th hu => ?_)
  cases hr : (th.cache.regions sizeClass)[i]? with
  | none => exact ends_fail _
  | some r => exact ends_pure (h th r hu hr)

theorem ends_set {Q : Unit → Pool → Prop}
    (h : ∀ th, σ.threads[u]? = some th → Q () (σ.withRegion u th sizeClass i r)) :
    Ends (MemoryRegionCache.set u sizeClass i r) σ Q :=
  ends_bind (ends_getThread fun th hu => ends_update (h th hu))

theorem Cached.setAllocations (h : Cached k g plain σ F) (hu : σ.threads[u]? = some th)
    (hr : (th.cache.regions sizeClass)[i]? = some r) (hq : z.queue = r.queue) :
    Cached k g plain (σ.withRegion u th sizeClass i z) F := by
  refine h.withRegion hu hr ?_ ?_
  · rw [MemoryRegionCache.tokens, MemoryRegionCache.tokens, hq]
  · rw [hq]
    exact h.entries th (List.mem_of_getElem? hu) sizeClass i r hr

theorem Cached.pop (h : Cached k g plain σ F) (hu : σ.threads[u]? = some th)
    (hr : (th.cache.regions sizeClass)[i]? = some r) {queue : List Entry}
    (hq : r.queue = e :: queue) :
    Cached k g plain (σ.withRegion u th sizeClass i { r with queue := queue }) (e.token :: F) ∧
      EntryInv k plain sizeClass i e := by
  have hentries := h.entries th (List.mem_of_getElem? hu) sizeClass i r hr
  rw [hq] at hentries
  refine ⟨h.withRegion hu hr ?_ fun e' he' => hentries e' (List.mem_cons_of_mem _ he'),
    hentries e List.mem_cons_self⟩
  simp only [MemoryRegionCache.tokens, hq, List.map_cons, List.cons_append]
  exact List.perm_middle.symm

/-! ### Trimming -/

theorem Cached.freeEntries (made : k.sizes.Made g) (n : ℕ) {σ : Pool} (h : Cached k g plain σ F) :
    Ends (MemoryRegionCache.free k u sizeClass i n) σ fun _ σ' =>
      Cached k g plain σ' F ∧ SameBufs σ σ' := by
  induction n generalizing σ with
  | zero => exact ends_pure ⟨h, refl_of SameBufs σ⟩
  | succ n ih =>
    refine ends_bind (ends_get fun th r hu hr => ?_)
    cases hq : r.queue with
    | nil => exact ends_pure ⟨h, refl_of SameBufs σ⟩
    | cons e queue =>
      refine ends_bind (ends_set fun th' hu' => ?_)
      obtain rfl : th = th' := Option.some.inj (hu.symm.trans hu')
      obtain ⟨hpop, -⟩ := h.pop hu hr hq
      refine ends_bind ((hpop.held.freeChunk made e.buffer).mono ?_)
      rintro _ σ₁ ⟨howners, hheld⟩
      refine (ih (hpop.of_threads howners.threads hheld)).mono ?_
      rintro _ σ' ⟨hcached, hbufs⟩
      exact ⟨hcached, trans_of SameBufs (trans_of SameBufs (sameBufs_withRegion hu)
        howners.sameBufs) hbufs⟩

theorem Cached.trimRegion (made : k.sizes.Made g) (h : Cached k g plain σ F) :
    Ends (MemoryRegionCache.trim k u sizeClass i) σ fun _ σ' =>
      Cached k g plain σ' F ∧ SameBufs σ σ' := by
  refine ends_bind (ends_get fun th r hu hr => ends_bind (ends_set fun th' hu' => ?_))
  obtain rfl : th = th' := Option.some.inj (hu.symm.trans hu')
  have hzero := h.setAllocations hu hr (z := { r with allocations := 0 }) rfl
  have hsame : SameBufs σ (σ.withRegion u th sizeClass i { r with allocations := 0 }) :=
    sameBufs_withRegion hu
  refine ends_when (fun _ => ?_) fun _ => ⟨hzero, hsame⟩
  exact (Cached.freeEntries made _ hzero).mono fun _ _ hfree =>
    ⟨hfree.1, trans_of SameBufs hsame hfree.2⟩

theorem Cached.trimFrom (made : k.sizes.Made g) (n : ℕ) {i : ℕ} {σ : Pool}
    (h : Cached k g plain σ F) :
    Ends (PoolThreadCache.trimFrom k u sizeClass i n) σ fun _ σ' =>
      Cached k g plain σ' F ∧ SameBufs σ σ' := by
  induction n generalizing i σ with
  | zero => exact ends_pure ⟨h, refl_of SameBufs σ⟩
  | succ n ih =>
    refine ends_bind ((h.trimRegion made).mono ?_)
    rintro _ σ₁ ⟨hcached, hsame⟩
    exact (ih hcached).mono fun _ _ hrest => ⟨hrest.1, trans_of SameBufs hsame hrest.2⟩

theorem Cached.trim (made : k.sizes.Made g) (h : Cached k g plain σ F) :
    Ends (PoolThreadCache.trim k u) σ fun _ σ' => Cached k g plain σ' F ∧ SameBufs σ σ' := by
  refine ends_bind (ends_getThread fun th _ => ends_bind ((Cached.trimFrom made _ h).mono ?_))
  rintro _ σ₁ ⟨hcached, hsame⟩
  exact (Cached.trimFrom made _ hcached).mono fun _ _ hrest =>
    ⟨hrest.1, trans_of SameBufs hsame hrest.2⟩

/-! ### Allocating -/

/-- Buffer `b` has got the block of token `t`, from a cache or from a chunk. -/
structure Gets (k : Config) (g : Geometry) (plain : Prop) (F : List Token) (b : BufId) (req : ℤ)
    (u : ThreadId) (t : Token) (σ σ' : Pool) : Prop where
  cached : Cached k g plain σ' (t :: F)
  bound : req ≤ t.cap
  bufs : ∃ buf buffer, Points k plain t buffer ∧ σ.bufs[b]? = some buf ∧
    σ'.bufs = σ.bufs.set b (buf.filled k t req u buffer)
  recycled : σ'.threads.map Thread.stack = σ.threads.map Thread.stack
  persists : Persists σ σ'

theorem Gets.of_sameBufs {σ₁ : Pool} (h : Gets k g plain F b req u t σ₁ σ') (hs : SameBufs σ σ₁) :
    Gets k g plain F b req u t σ σ' where
  cached := h.cached
  bound := h.bound
  bufs := by
    rw [← hs.bufs]
    exact h.bufs
  recycled := h.recycled.trans hs.recycled
  persists := trans_of Persists hs.persists h.persists

theorem Gets.sameBufs {σ₁ : Pool} (h : Gets k g plain F b req u t σ σ₁) (hs : SameBufs σ₁ σ')
    (hc : Cached k g plain σ' (t :: F)) : Gets k g plain F b req u t σ σ' where
  cached := hc
  bound := h.bound
  bufs := by
    rw [hs.bufs]
    exact h.bufs
  recycled := hs.recycled.trans h.recycled
  persists := trans_of Persists h.persists hs.persists

theorem Gives.gets (h : Gives k g (F ++ cacheTokens σ) b req u t σ σ') (hc : Cached k g plain σ F)
    (hreq : req ≤ t.cap) : Gets k g plain F b req u t σ σ' where
  cached := by
    refine ⟨?_, ?_⟩
    · rw [cacheTokens, h.threads]
      exact h.held
    · rw [CacheInv, h.threads]
      exact hc.entries
  bound := hreq
  bufs := by
    obtain ⟨buf, hbuf, hbufs⟩ := h.bufs
    exact ⟨buf, none, points_none, hbuf, hbufs⟩
  recycled := by rw [h.threads]
  persists := h.persists

theorem isSubpage_of_small {handle : Int64} (h : PoolArena.getSizeClassType handle = .small) :
    isSubpage handle = true := by
  unfold PoolArena.getSizeClassType at h
  split_ifs at h with hsub
  exact hsub

theorem isSubpage_of_normal {handle : Int64} (h : PoolArena.getSizeClassType handle = .normal) :
    isSubpage handle = false := by
  unfold PoolArena.getSizeClassType at h
  split_ifs at h with hsub
  exact Bool.not_eq_true _ ▸ hsub

theorem Cached.initBuf (h : Cached k g plain σ (e.token :: F)) (he : EntryInv k plain sizeClass i e)
    (hreq : req ≤ sizeAt (slotClass k sizeClass i)) :
    Ends (MemoryRegionCache.initBuf k u sizeClass e b req) σ fun _ σ' =>
      Gets k g plain F b req u e.token σ σ' := by
  have hle : req ≤ e.normCapacity := by
    rw [he.size]
    exact hreq
  have hgets : ∀ {σ'}, Fills k e.token b req u e.buffer σ σ' →
      Gets k g plain F b req u e.token σ σ' := by
    rintro σ' ⟨buf, hbuf, rfl⟩
    exact ⟨⟨h.held.of_eq rfl rfl rfl rfl, h.entries⟩, hle, ⟨buf, e.buffer, he.buffer, hbuf, rfl⟩,
      rfl, persists_of_eq rfl rfl⟩
  cases sizeClass with
  | small =>
    have hsub := isSubpage_of_small he.handle
    exact (h.held.initBufWithSubpage hsub).mono fun _ σ' hinit => hgets hinit.2
  | normal => exact h.held.initBuf.mono fun _ σ' hfill => hgets hfill

def CacheAnswers (k : Config) (g : Geometry) (plain : Prop) (F : List Token) (b : BufId) (req : ℤ)
    (u : ThreadId) (σ : Pool) (done : Bool) (σ' : Pool) : Prop :=
  done = false ∧ SameBufs σ σ' ∧ Cached k g plain σ' F ∨
    done = true ∧ ∃ t, Gets k g plain F b req u t σ σ'

theorem CacheAnswers.sameBufs {σ₁ : Pool} {done : Bool}
    (h : CacheAnswers k g plain F b req u σ done σ₁) (hs : SameBufs σ₁ σ')
    (hc : ∀ F, Cached k g plain σ₁ F → Cached k g plain σ' F) :
    CacheAnswers k g plain F b req u σ done σ' := by
  rcases h with ⟨hd, hsame, hcached⟩ | ⟨hd, t, hgets⟩
  · exact .inl ⟨hd, trans_of SameBufs hsame hs, hc F hcached⟩
  · exact .inr ⟨hd, t, hgets.sameBufs hs (hc _ hgets.cached)⟩

theorem Cached.allocateRegion (h : Cached k g plain σ F)
    (hreq : req ≤ sizeAt (slotClass k sizeClass i)) :
    Ends (MemoryRegionCache.allocate k u sizeClass i b req) σ (CacheAnswers k g plain F b req u σ) := by
  refine ends_bind (ends_get fun th r hu hr => ?_)
  cases hq : r.queue with
  | nil => exact ends_pure (.inl ⟨rfl, refl_of SameBufs σ, h⟩)
  | cons e queue =>
    refine ends_bind (ends_set fun th' hu' => ?_)
    obtain rfl : th = th' := Option.some.inj (hu.symm.trans hu')
    obtain ⟨hpop, he⟩ := h.pop hu hr hq
    refine ends_bind ((hpop.initBuf he hreq).mono fun _ σ₂ hgets => ?_)
    refine ends_bind (ends_get fun th₂ r₂ hu₂ hr₂ => ends_bind (ends_set fun th₃ hu₃ => ?_))
    obtain rfl : th₂ = th₃ := Option.some.inj (hu₂.symm.trans hu₃)
    refine ends_pure (.inr ⟨rfl, e.token, ?_⟩)
    exact (hgets.of_sameBufs (sameBufs_withRegion hu)).sameBufs (sameBufs_withRegion hu₂)
      (hgets.cached.setAllocations hu₂ hr₂ rfl)

def Pool.withCounter (σ : Pool) (u : ThreadId) (th : Thread) (count : ℤ) : Pool :=
  { σ with
    threads := σ.threads.set u { th with cache := { th.cache with allocations := count } } }

theorem sameBufs_withCounter (hu : σ.threads[u]? = some th) (count : ℤ) :
    SameBufs σ (σ.withCounter u th count) := ⟨rfl, map_set_same hu rfl, persists_of_eq rfl rfl⟩

theorem Cached.withCounter (h : Cached k g plain σ F) (hu : σ.threads[u]? = some th) (count : ℤ) :
    Cached k g plain (σ.withCounter u th count) F := by
  refine ⟨Held.of_eq (σ := σ) (h.held.perm (List.Perm.append_left F ?_)) rfl rfl rfl rfl, ?_⟩
  · exact (flatMap_set_same (f := fun th : Thread => th.cache.tokens)
      (x := { th with cache := { th.cache with allocations := count } }) hu rfl).symm
  · intro th' hth' c j r hr
    rcases List.mem_or_eq_of_mem_set hth' with hold | rfl
    · exact h.entries th' hold c j r hr
    · refine h.entries th (List.mem_of_getElem? hu) c j r ?_
      cases c <;> exact hr

theorem slotClass_indexOf {cache : PoolThreadCache} {sizeIdx : ℕ}
    (h : cache.indexOf k sizeClass sizeIdx = some i) : slotClass k sizeClass i = sizeIdx := by
  simp only [PoolThreadCache.indexOf] at h
  split_ifs at h with hidx
  have := Option.some.inj h
  cases sizeClass <;> simp only [slotClass] at hidx this ⊢ <;> omega

theorem Cached.allocateCache (made : k.sizes.Made g) (h : Cached k g plain σ F) {sizeIdx : ℕ}
    (hreq : req ≤ sizeAt sizeIdx) :
    Ends (PoolThreadCache.allocate k u sizeClass b req sizeIdx) σ
      (CacheAnswers k g plain F b req u σ) := by
  refine ends_bind (ends_getThread fun th hu => ?_)
  cases hidx : th.cache.indexOf k sizeClass sizeIdx with
  | none => exact ends_pure (.inl ⟨rfl, refl_of SameBufs σ, h⟩)
  | some i =>
    have hreq' : req ≤ sizeAt (slotClass k sizeClass i) := by
      rw [slotClass_indexOf hidx]
      exact hreq
    refine ends_bind ((h.allocateRegion hreq').mono fun done σ₁ hanswer => ?_)
    refine ends_bind (ends_getThread fun th₁ hu₁ => ends_ite (fun _ => ?_) fun _ => ?_)
    · refine ends_bind (ends_update (ends_bind ?_))
      rcases hanswer with ⟨rfl, hsame, hcached⟩ | ⟨rfl, t, hgets⟩
      · refine ((hcached.withCounter hu₁ 0).trim made).mono fun _ σ' htrim => ends_pure
          (.inl ⟨rfl, ?_, htrim.1⟩)
        exact trans_of SameBufs hsame (trans_of SameBufs (sameBufs_withCounter hu₁ 0) htrim.2)
      · refine ((hgets.cached.withCounter hu₁ 0).trim made).mono fun _ σ' htrim => ends_pure
          (.inr ⟨rfl, t, ?_⟩)
        exact hgets.sameBufs (trans_of SameBufs (sameBufs_withCounter hu₁ 0) htrim.2) htrim.1
    · refine ends_bind (ends_update (ends_pure ?_))
      exact hanswer.sameBufs (sameBufs_withCounter hu₁ _) fun F hF => hF.withCounter hu₁ _

/-- The small path: the cache, a subpage of the size class, or the chunks. -/
theorem Cached.allocateSmall (made : k.sizes.Made g) (h : Cached k g plain σ F) (a : ArenaId)
    {sizeIdx : ℕ} (hi : sizeIdx < k.sizes.nSizes) (hreq : req ≤ sizeAt sizeIdx) :
    Ends (PoolArena.tcacheAllocateSmall k a b req sizeIdx u) σ fun _ σ' =>
      ∃ t, Gets k g plain F b req u t σ σ' := by
  refine ends_bind ((h.allocateCache made hreq).mono ?_)
  rintro done σ₁ (⟨rfl, hsame, hcached⟩ | ⟨rfl, hgets⟩)
  swap
  · exact ends_pure hgets
  refine (hcached.held.allocateSmall made a hi).mono ?_
  rintro _ σ' ⟨t, hcap, hgives⟩
  exact ⟨t, (hgives.gets hcached (by rw [hcap]; exact hreq)).of_sameBufs hsame⟩

theorem Cached.allocateNormal (made : k.sizes.Made g) (h : Cached k g plain σ F) (a : ArenaId)
    {sizeIdx : ℕ} (hi : sizeIdx < k.sizes.nSizes) (hreq : req ≤ sizeAt sizeIdx) :
    Ends (PoolArena.tcacheAllocateNormal k a b req sizeIdx u) σ fun _ σ' =>
      ∃ t, Gets k g plain F b req u t σ σ' := by
  refine ends_bind ((h.allocateCache made hreq).mono ?_)
  rintro done σ₁ (⟨rfl, hsame, hcached⟩ | ⟨rfl, hgets⟩)
  · refine (hcached.held.allocateNormal made a hi).mono ?_
    rintro _ σ' ⟨t, hcap, hgives⟩
    exact ⟨t, (hgives.gets hcached (by rw [hcap]; exact hreq)).of_sameBufs hsame⟩
  · exact ends_pure hgets

theorem Cached.allocateFor (made : k.sizes.Made g) (h : Cached k g plain σ F) (a : ArenaId)
    (h0 : 0 ≤ req) (hle : req ≤ k.sizes.chunkSize) :
    Ends (PoolArena.allocateFor k a u b req) σ fun _ σ' => ∃ t, Gets k g plain F b req u t σ σ' := by
  obtain ⟨i, hidx, hi, hreq, -⟩ := made.sizeIdxOf h0 hle
  refine ends_bind (ends_check fun j hj => ?_)
  obtain rfl : i = j := Except.ok.inj (hidx.symm.trans hj)
  refine ends_ite (fun _ => h.allocateSmall made a hi hreq) fun _ => ?_
  exact ends_ite (fun _ => h.allocateNormal made a hi hreq) fun hnot => absurd hi hnot

/-! ### Freeing -/

/-- The size of a block is that of a class, so it is the size of the class computed from it. -/
theorem Held.sizeIdxOf_eq {T : List Token} (made : k.sizes.Made g) (hh : Held k g σ T) (ht : t ∈ T)
    {idx : ℕ} (hidx : sizeIdxOf k t.cap = .ok idx) : t.cap = sizeAt idx := by
  obtain ⟨j, hj, hsize⟩ := hh.cap_class ht
  rw [hsize, made.sizeIdxOf_sizeAt hj] at hidx
  rw [← Except.ok.inj hidx]
  exact hsize

theorem Cached.push (h : Cached k g plain σ (e.token :: F)) (hu : σ.threads[u]? = some th)
    (hr : (th.cache.regions sizeClass)[i]? = some r) (he : EntryInv k plain sizeClass i e) :
    Cached k g plain (σ.withRegion u th sizeClass i { r with queue := r.queue ++ [e] }) F := by
  refine h.withRegion hu hr ?_ fun e' he' => ?_
  · simp only [MemoryRegionCache.tokens, List.map_append, List.map_cons, List.map_nil]
    rw [← List.append_assoc]
    exact List.perm_append_singleton _ _
  · rcases List.mem_append.mp he' with hold | hnew
    · exact h.entries th (List.mem_of_getElem? hu) sizeClass i r hr e' hold
    · rw [List.mem_singleton.mp hnew]
      exact he

theorem Cached.addEntry (made : k.sizes.Made g) (h : Cached k g plain σ (e.token :: F))
    (hbuf : Points k plain e.token e.buffer) :
    Ends (PoolThreadCache.add k u (PoolArena.getSizeClassType e.handle) e) σ fun added σ' =>
      SameBufs σ σ' ∧ (added = true ∧ Cached k g plain σ' F ∨
        added = false ∧ Cached k g plain σ' (e.token :: F)) := by
  refine ends_bind (ends_check fun idx hidx => ends_bind (ends_getThread fun th hu => ?_))
  cases hi : th.cache.indexOf k (PoolArena.getSizeClassType e.handle) idx with
  | none => exact ends_pure ⟨refl_of SameBufs σ, .inr ⟨rfl, h⟩⟩
  | some i =>
    refine ends_bind (ends_get fun th₁ r hu₁ hr => ends_bind (ends_set fun th₂ hu₂ => ?_))
    obtain rfl : th₁ = th₂ := Option.some.inj (hu₁.symm.trans hu₂)
    refine ends_pure ⟨sameBufs_withRegion hu₁, .inl ⟨rfl, h.push hu₁ hr ⟨hbuf, rfl, ?_⟩⟩⟩
    rw [slotClass_indexOf hi]
    exact h.held.sizeIdxOf_eq made List.mem_cons_self hidx

theorem Cached.free (made : k.sizes.Made g) (h : Cached k g plain σ (t :: F))
    (hbuf : Points k plain t buffer) (cache : Option ThreadId) :
    Ends (PoolArena.free k t.chunk buffer t.handle t.cap cache) σ fun _ σ' =>
      Cached k g plain σ' F ∧ SameBufs σ σ' := by
  have hfree : ∀ {σ₁}, Cached k g plain σ₁ (t :: F) → SameBufs σ σ₁ →
      Ends (PoolArena.freeChunk k t.chunk t.handle t.cap buffer) σ₁ fun _ σ' =>
        Cached k g plain σ' F ∧ SameBufs σ σ' := by
    intro σ₁ hcached hsame
    refine (hcached.held.freeChunk made buffer).mono ?_
    rintro _ σ' ⟨howners, hheld⟩
    exact ⟨hcached.of_threads howners.threads hheld, trans_of SameBufs hsame howners.sameBufs⟩
  refine ends_bind (ends_getChunk fun x hx => ends_ite (fun hunpooled => ?_) fun _ => ?_)
  · rw [h.held.pooled_of_token List.mem_cons_self hx] at hunpooled
    cases hunpooled
  cases cache with
  | none => exact hfree h (refl_of SameBufs σ)
  | some u =>
    refine ends_bind ((Cached.addEntry made (e := ⟨t.chunk, buffer, t.handle, t.cap⟩) h hbuf).mono ?_)
    rintro added σ₁ ⟨hsame, ⟨rfl, hcached⟩ | ⟨rfl, hcached⟩⟩
    · exact ends_pure ⟨hcached, hsame⟩
    · exact hfree hcached hsame

end Mutty.Buffer
