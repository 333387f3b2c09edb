import Mutty.Buffer.RunSize
import Mutty.Buffer.Held
import Mutty.Buffer.PoolArena

/-!
# What the operations on chunks do to tokens

Ring and list operations change links only. Allocating from a chunk or from a subpage adds a token,
freeing takes one back, and neither touches the threads or the buffers.
-/

namespace Mutty.Buffer

open Mutty.Lib Prog

variable {k : Config} {g : Geometry} {σ σ' : Pool} {T : List Token} {c : ChunkId}
  {x : PoolChunk} {s : SubpageId} {p : PoolSubpage} {t : Token} {h : Int64}

/-! ### Frames -/

/-- The chunks that there were are the same ones, with their memory, or gone; one that a buffer has
for itself stays. -/
structure Persists (σ σ' : Pool) : Prop where
  count : σ.chunkCount ≤ σ'.chunkCount
  chunk : ∀ c x', c < σ.chunkCount → σ'.chunk c = some x' → ∃ x, σ.chunk c = some x ∧
    x'.arena = x.arena ∧ x'.unpooled = x.unpooled ∧ x'.memory = x.memory
  kept : ∀ c x, c < σ.chunkCount → σ.chunk c = some x → x.unpooled = true →
    ∃ x', σ'.chunk c = some x'

theorem persists_of_eq (hchunk : σ'.chunk = σ.chunk) (hcount : σ'.chunkCount = σ.chunkCount) :
    Persists σ σ' where
  count := hcount.ge
  chunk c x' _ hx' := ⟨x', by rw [← hchunk, hx'], rfl, rfl, rfl⟩
  kept c x _ hx _ := ⟨x, by rw [hchunk, hx]⟩

theorem persists_delete (hx : σ.chunk c = some x) (hpool : x.unpooled = false)
    (hchunk : σ'.chunk = Function.update σ.chunk c none)
    (hcount : σ'.chunkCount = σ.chunkCount) : Persists σ σ' := by
  refine ⟨hcount.ge, fun d y _ hy => ⟨y, ?_, rfl, rfl, rfl⟩, fun d y _ hy hun => ⟨y, ?_⟩⟩
  · rw [hchunk] at hy
    by_cases hd : d = c
    · rw [hd, Function.update_self] at hy
      cases hy
    · rwa [Function.update_of_ne hd] at hy
  · have hd : d ≠ c := by
      rintro rfl
      obtain rfl := Option.some.inj (hx.symm.trans hy)
      rw [hpool] at hun
      cases hun
    rw [hchunk, Function.update_of_ne hd, hy]

instance : IsPreorder Pool Persists where
  refl _ := persists_of_eq rfl rfl
  trans _ _ _ h h' := by
    refine ⟨h.count.trans h'.count, fun c z hc hz => ?_, fun c x hc hx hun => ?_⟩
    · obtain ⟨y, hy, ha, hu, hm⟩ := h'.chunk c z (hc.trans_le h.count) hz
      obtain ⟨x, hx, ha', hu', hm'⟩ := h.chunk c y hc hy
      exact ⟨x, hx, ha.trans ha', hu.trans hu', hm.trans hm'⟩
    · obtain ⟨y, hy⟩ := h.kept c x hc hx hun
      obtain ⟨x', hx', -, hu, -⟩ := h.chunk c y hc hy
      obtain rfl := Option.some.inj (hx.symm.trans hx')
      exact h'.kept c y (hc.trans_le h.count) hy (hu.trans hun)

/-- Only links have changed. -/
structure SameStore (σ σ' : Pool) : Prop where
  chunk : σ'.chunk = σ.chunk
  chunkCount : σ'.chunkCount = σ.chunkCount
  subpage : σ'.subpage = σ.subpage
  subpageCount : σ'.subpageCount = σ.subpageCount
  threads : σ'.threads = σ.threads
  bufs : σ'.bufs = σ.bufs

structure SameOwners (σ σ' : Pool) : Prop where
  threads : σ'.threads = σ.threads
  bufs : σ'.bufs = σ.bufs
  persists : Persists σ σ'

instance : IsPreorder Pool SameOwners where
  refl σ := ⟨rfl, rfl, refl_of Persists σ⟩
  trans _ _ _ h h' := ⟨h'.threads.trans h.threads, h'.bufs.trans h.bufs,
    trans_of Persists h.persists h'.persists⟩

theorem SameStore.sameOwners (h : SameStore σ σ') : SameOwners σ σ' :=
  ⟨h.threads, h.bufs, persists_of_eq h.chunk h.chunkCount⟩

def OnLists (σ σ' : Pool) : Prop :=
  ∃ chunkLinks listHead, σ' = { σ with chunkLinks := chunkLinks, listHead := listHead }

instance : IsPreorder Pool OnLists where
  refl σ := ⟨σ.chunkLinks, σ.listHead, rfl⟩
  trans := by
    rintro σ _ _ ⟨_, _, rfl⟩ ⟨chunkLinks, listHead, rfl⟩
    exact ⟨chunkLinks, listHead, rfl⟩

theorem OnLists.sameStore (h : OnLists σ σ') : SameStore σ σ' := by
  obtain ⟨chunkLinks, listHead, rfl⟩ := h
  exact ⟨rfl, rfl, rfl, rfl, rfl, rfl⟩

theorem OnLists.ring (h : OnLists σ σ') : σ'.ring = σ.ring := by
  obtain ⟨chunkLinks, listHead, rfl⟩ := h
  rfl

def InSubpages (σ σ' : Pool) : Prop :=
  ∃ subpage ring, σ' = { σ with subpage := subpage, ring := ring }

instance : IsPreorder Pool InSubpages where
  refl σ := ⟨σ.subpage, σ.ring, rfl⟩
  trans := by
    rintro σ _ _ ⟨_, _, rfl⟩ ⟨subpage, ring, rfl⟩
    exact ⟨subpage, ring, rfl⟩

theorem InSubpages.sameOwners (h : InSubpages σ σ') : SameOwners σ σ' := by
  obtain ⟨subpage, ring, rfl⟩ := h
  exact ⟨rfl, rfl, persists_of_eq rfl rfl⟩

theorem InSubpages.chunk (h : InSubpages σ σ') : σ'.chunk = σ.chunk := by
  obtain ⟨subpage, ring, rfl⟩ := h
  rfl

/-- Chunk `c` has handed out memory or got some back: its free bytes are related by `R`. The usage
lists and the other chunks are as before. -/
structure Works (R : ℤ → ℤ → Prop) (c : ChunkId) (σ σ' : Pool) : Prop where
  threads : σ'.threads = σ.threads
  chunkCount : σ'.chunkCount = σ.chunkCount
  chunkLinks : σ'.chunkLinks = σ.chunkLinks
  listHead : σ'.listHead = σ.listHead
  others : ∀ d ≠ c, σ'.chunk d = σ.chunk d
  chunk : ∃ x x', σ.chunk c = some x ∧ σ'.chunk c = some x' ∧ x'.arena = x.arena ∧
    x'.unpooled = x.unpooled ∧ x'.memory = x.memory ∧ R x.runs.freeBytes x'.runs.freeBytes

theorem Works.persists {R : ℤ → ℤ → Prop} (h : Works R c σ σ') : Persists σ σ' where
  count := h.chunkCount.ge
  chunk d x' _ hx' := by
    by_cases hd : d = c
    · subst hd
      obtain ⟨y, y', hy, hy', ha, hu, hm, -⟩ := h.chunk
      obtain rfl : y' = x' := Option.some.inj (hy'.symm.trans hx')
      exact ⟨y, hy, ha, hu, hm⟩
    · exact ⟨x', (h.others d hd).symm.trans hx', rfl, rfl, rfl⟩
  kept d x _ hx _ := by
    by_cases hd : d = c
    · subst hd
      obtain ⟨-, y', -, hy', -⟩ := h.chunk
      exact ⟨y', hy'⟩
    · exact ⟨x, (h.others d hd).trans hx⟩

theorem Works.sameOwners {R : ℤ → ℤ → Prop} (h : Works R c σ σ') (hb : σ'.bufs = σ.bufs) :
    SameOwners σ σ' := ⟨h.threads, hb, h.persists⟩

theorem InSubpages.works {R : ℤ → ℤ → Prop} [Std.Refl R] (h : InSubpages σ σ')
    (hx : σ.chunk c = some x) : Works R c σ σ' := by
  obtain ⟨subpage, ring, rfl⟩ := h
  exact ⟨rfl, rfl, rfl, rfl, fun _ _ => rfl, x, x, hx, hx, rfl, rfl, rfl, refl_of R _⟩

theorem Held.of_eq (hh : Held k g σ T) (hchunk : σ'.chunk = σ.chunk)
    (hcount : σ'.chunkCount = σ.chunkCount) (hsub : σ'.subpage = σ.subpage)
    (hcount' : σ'.subpageCount = σ.subpageCount) : Held k g σ' T where
  chunks c x hx hpool := by
    rw [hchunk] at hx
    exact (hh.chunks c x hx hpool).congr (fun _ _ _ => by rw [hsub]) (.refl _) fun _ => .refl _
  unpooled c x hx := by
    rw [hchunk] at hx
    exact hh.unpooled c x hx
  tokens t ht := (hh.tokens t ht).mono fun y hy => ⟨y, by rw [hchunk]; exact hy,
    fun _ _ q _ hs hq => ⟨hs, q, by rw [hsub]; exact hq, ⟨rfl, rfl, rfl, rfl, rfl, rfl⟩⟩⟩
  alive s q hq hd := by
    rw [hsub] at hq
    rw [hchunk]
    exact hh.alive s q hq hd
  freshChunk d hd := by
    rw [hchunk]
    exact hh.freshChunk d (hcount ▸ hd)
  freshSubpage s hs := by
    rw [hsub]
    exact hh.freshSubpage s (hcount' ▸ hs)

theorem SameStore.held (h : SameStore σ σ') (hh : Held k g σ T) : Held k g σ' T :=
  hh.of_eq h.chunk h.chunkCount h.subpage h.subpageCount

theorem ends_getChunk {Q : PoolChunk → Pool → Prop} (h : ∀ x, σ.chunk c = some x → Q x σ) :
    Ends (getChunk c) σ Q := by
  refine ends_bind (ends_look ?_)
  cases hc : σ.chunk c with
  | none => exact ends_fail _
  | some x => exact ends_pure (h x hc)

theorem ends_getSubpage {Q : PoolSubpage → Pool → Prop} (h : ∀ p, σ.subpage s = some p → Q p σ) :
    Ends (getSubpage s) σ Q := by
  refine ends_bind (ends_look ?_)
  cases hs : σ.subpage s with
  | none => exact ends_fail _
  | some p => exact ends_pure (h p hs)

theorem ends_setChunk {Q : Unit → Pool → Prop} (h : Q () (σ.withChunk c x)) :
    Ends (setChunk c x) σ Q := ends_update h

theorem Pool.withChunk_chunk : (σ.withChunk c x).chunk c = some x := Function.update_self c _ _

theorem Pool.withChunk_of_ne {d : ChunkId} (hd : d ≠ c) : (σ.withChunk c x).chunk d = σ.chunk d :=
  Function.update_of_ne hd _ _

theorem Pool.withChunk_self (hx : σ.chunk c = some x) : σ.withChunk c x = σ := by
  rw [Pool.withChunk, ← hx, Function.update_eq_self]

theorem Pool.eq_of_withChunk {y : PoolChunk} (h : (σ.withChunk c x).chunk c = some y) : x = y :=
  Option.some.inj (withChunk_chunk.symm.trans h)

section

variable {R : Pool → Pool → Prop} [IsPreorder Pool R]

theorem within_getChunk (c : ChunkId) : Within R (getChunk c) := by
  intro σ
  exact ends_getChunk fun _ _ => refl_of R σ

theorem within_when {p : Prop} [Decidable p] {x : PoolM Unit} (h : Within R x) :
    Within R (when p x) := h.ite (within_pure _)

end

/-! ### Links -/

def Rewired (σ σ' : Pool) : Prop := ∃ ring, σ' = { σ with ring := ring }

instance : IsPreorder Pool Rewired where
  refl σ := ⟨σ.ring, rfl⟩
  trans := by
    rintro σ _ _ ⟨_, rfl⟩ ⟨ring, rfl⟩
    exact ⟨ring, rfl⟩

theorem within_modifyRing (n : Node) (f : RingLinks → RingLinks) :
    Within Rewired (PoolSubpage.modifyRing n f) := within_update fun _ => ⟨_, rfl⟩

theorem within_addToPool (s : SubpageId) (head : Node) :
    Within Rewired (PoolSubpage.addToPool s head) := by
  refine (within_look _).bind fun links => (within_assert _).bind fun _ =>
    (within_look _).bind fun l => ?_
  cases l.next with
  | none => exact within_fail _
  | some next =>
    exact (within_modifyRing _ _).bind fun _ => (within_modifyRing _ _).bind fun _ =>
      within_modifyRing _ _

theorem within_removeFromPool (s : SubpageId) : Within Rewired (PoolSubpage.removeFromPool s) := by
  refine (within_look _).bind fun links => ?_
  cases links.prev with
  | none => exact within_fail _
  | some prev =>
    cases links.next with
    | none => exact within_fail _
    | some next =>
      exact (within_modifyRing _ _).bind fun _ => (within_modifyRing _ _).bind fun _ =>
        within_modifyRing _ _

theorem within_getLinks (c : ChunkId) : Within OnLists (PoolChunkList.getLinks c) :=
  (within_getChunk c).bind fun _ => within_look _

theorem within_modifyLinks (c : ChunkId) (f : ChunkLinks → ChunkLinks) :
    Within OnLists (PoolChunkList.modifyLinks c f) :=
  (within_getChunk c).bind fun _ => within_update fun _ => ⟨_, _, rfl⟩

theorem within_setHead (a : ArenaId) (l : ListKind) (c : Option ChunkId) :
    Within OnLists (PoolChunkList.setHead a l c) :=
  within_update fun _ => ⟨_, _, rfl⟩

theorem within_remove (a : ArenaId) (l : ListKind) (c : ChunkId) :
    Within OnLists (PoolChunkList.remove a l c) := by
  refine (within_look _).bind fun head => (within_getLinks c).bind fun links => .ite ?_ ?_
  · refine (within_setHead _ _ _).bind fun _ => ?_
    cases links.next with
    | none => exact within_pure _
    | some next => exact within_modifyLinks _ _
  · cases links.prev with
    | none => exact within_fail _
    | some prev =>
      refine (within_modifyLinks _ _).bind fun _ => ?_
      cases links.next with
      | none => exact within_pure _
      | some next => exact within_modifyLinks _ _

theorem within_add0 (a : ArenaId) (l : ListKind) (c : ChunkId) :
    Within OnLists (PoolChunkList.add0 a l c) := by
  refine (within_look _).bind fun head => ?_
  cases head with
  | none => exact (within_modifyLinks _ _).bind fun _ => within_setHead _ _ _
  | some head =>
    exact (within_modifyLinks _ _).bind fun _ => (within_modifyLinks _ _).bind fun _ =>
      within_setHead _ _ _

theorem within_addFrom (a : ArenaId) (c : ChunkId) (n : ℕ) (l : ListKind) :
    Within OnLists (PoolChunkList.addFrom k a c n l) := by
  induction n generalizing l with
  | zero => exact within_fail _
  | succ n ih =>
    refine (within_getChunk c).bind fun x => .ite ?_ (within_add0 a l c)
    cases l.nextList with
    | none => exact within_fail _
    | some next => exact ih next

theorem within_add (a : ArenaId) (l : ListKind) (c : ChunkId) :
    Within OnLists (PoolChunkList.add k a l c) := within_addFrom a c 6 l

theorem within_leave (a : ArenaId) (l : ListKind) (c : ChunkId) : Within OnLists (do
    PoolChunkList.remove a l c
    match l.nextList with
    | none => fail .null
    | some next => PoolChunkList.add k a next c) := by
  refine (within_remove a l c).bind fun _ => ?_
  cases l.nextList with
  | none => exact within_fail _
  | some next => exact within_add a next c

/-! ### Subpages -/

theorem Held.allocateElement (made : k.sizes.Made g) (hh : Held k g σ T) :
    Ends (PoolSubpage.allocate s) σ fun h σ' =>
      (h = -1 ∧ σ' = σ ∧ ∃ p, σ.subpage s = some p ∧ (p.numAvail = 0 ∨ p.doNotDestroy = false)) ∨
      (InSubpages σ σ' ∧ ∃ p, σ.subpage s = some p ∧ 0 ≤ h ∧ isSubpage h = true ∧
        Held k g σ' (⟨p.chunk, h, p.elemSize⟩ :: T)) := by
  refine ends_bind (ends_getSubpage fun p hp => ends_ite (fun hcond => ?_) fun hcond => ?_)
  · exact ends_pure (.inl ⟨rfl, rfl, p, hp, hcond⟩)
  rw [not_or, Bool.not_eq_false] at hcond
  refine ends_bind (ends_check fun ⟨j, p₁⟩ hg => ends_bind (ends_check fun p₂ hb => ?_))
  refine ends_bind (ends_update ?_)
  obtain ⟨hheld, hnonneg, hsub⟩ : Held k g { σ with
        subpage := Function.update σ.subpage s (some { p₂ with numAvail := p₂.numAvail - 1 }) }
      (⟨p.chunk, p₂.handle j, p.elemSize⟩ :: T) ∧ 0 ≤ p₂.handle j ∧
      isSubpage (p₂.handle j) = true :=
    hh.takeElement made hp hcond.2 hcond.1 hg hb rfl rfl rfl rfl
  refine ends_bind (((within_when (within_removeFromPool s)).ends _).mono ?_)
  rintro _ _ ⟨ring, rfl⟩
  exact ends_pure (.inr ⟨⟨_, ring, rfl⟩, p, hp, hnonneg, hsub, hheld.of_eq rfl rfl rfl rfl⟩)

/-- What `free` leaves behind when it gives the subpage up: `σ₁` is the state before. -/
structure Retired (k : Config) (g : Geometry) (T : List Token) (s : SubpageId) (p : PoolSubpage)
    (σ σ₁ σ' : Pool) (q : PoolSubpage) : Prop where
  held : Held k g σ₁ T
  chunk : σ₁.chunk = σ.chunk
  at_subpage : σ₁.subpage s = some q
  empty : q.numAvail = q.maxNumElems
  same : p.SameRun q
  chunk' : σ'.chunk = σ₁.chunk
  chunkCount : σ'.chunkCount = σ₁.chunkCount
  subpage : σ'.subpage = Function.update σ₁.subpage s (some { q with doNotDestroy := false })
  subpageCount : σ'.subpageCount = σ₁.subpageCount

theorem ends_retire {q : PoolSubpage} {σ₁ : Pool} (hheld : Held k g σ₁ T)
    (hin : InSubpages σ σ₁) (hq : σ₁.subpage s = some q) (hsame : p.SameRun q) :
    Ends (PoolSubpage.retire s q) σ₁ fun kept σ' => InSubpages σ σ' ∧
      (kept = true ∧ Held k g σ' T ∨ kept = false ∧ ∃ σ₁ q, Retired k g T s p σ σ₁ σ' q) := by
  refine ends_ite (fun _ => ends_pure ⟨hin, .inl ⟨rfl, hheld⟩⟩) fun hempty => ?_
  refine ends_bind (ends_look (ends_ite (fun _ => ?_) fun _ => ?_))
  · exact ends_pure ⟨hin, .inl ⟨rfl, hheld⟩⟩
  refine ends_bind (ends_update (ends_bind (((within_removeFromPool s).ends _).mono ?_)))
  rintro _ _ ⟨ring, rfl⟩
  refine ends_pure ⟨trans_of InSubpages hin ⟨_, ring, rfl⟩, .inr ⟨rfl, σ₁, q, hheld, hin.chunk, hq,
    not_not.mp hempty, hsame, rfl, rfl, rfl, rfl⟩⟩

theorem Held.freeElement (hh : Held k g σ (t :: T)) (hx : σ.chunk t.chunk = some x) {o m i : ℕ}
    (f : Fields t.handle o m true true i) (hi : i < 2 ^ 31) (hs : x.subpages[o]? = some (some s))
    (hp : σ.subpage s = some p) (head : Node) :
    Ends (PoolSubpage.free s head i) σ fun kept σ' => InSubpages σ σ' ∧
      (kept = true ∧ Held k g σ' T ∨ kept = false ∧ ∃ σ₁ q, Retired k g T s p σ σ₁ σ' q) := by
  have hpinv := hh.subpageInv hx hs hp
  refine ends_bind (ends_getSubpage fun p₀ hp₀ => ends_ite (fun hzero => ?_) fun _ => ?_)
  · obtain rfl : p = p₀ := Option.some.inj (hp.symm.trans hp₀)
    exact absurd hzero hpinv.elemSize.ne'
  obtain rfl : p = p₀ := Option.some.inj (hp.symm.trans hp₀)
  refine ends_bind (ends_check fun p' hb => ends_bind (ends_update ?_))
  set q : PoolSubpage := { p' with nextAvail := i, numAvail := p'.numAvail + 1 } with hq
  obtain ⟨j, -, -, hsame', -⟩ := PoolSubpage.clearBit_eq_ok hb
  have hsame : p.SameRun q := by
    constructor <;> rw [hq, hsame']
  have hheld : Held k g { σ with subpage := Function.update σ.subpage s (some q) } T :=
    hh.giveElement hx f hi hs hp hb rfl rfl rfl rfl
  have hat : Function.update σ.subpage s (some q) s = some q := Function.update_self _ _ _
  have hin : InSubpages σ { σ with subpage := Function.update σ.subpage s (some q) } :=
    ⟨_, σ.ring, rfl⟩
  refine ends_ite (fun _ => ends_bind (((within_addToPool s head).ends _).mono ?_))
    fun _ => ends_retire hheld hin hat hsame
  rintro _ _ ⟨ring, rfl⟩
  have hheld' : Held k g { σ with
      subpage := Function.update σ.subpage s (some q), ring := ring } T := hheld.of_eq rfl rfl rfl rfl
  refine ends_ite (fun _ => ends_pure ⟨⟨_, ring, rfl⟩, .inl ⟨rfl, hheld'⟩⟩) fun _ => ?_
  exact ends_retire hheld' ⟨_, ring, rfl⟩ hat hsame

/-! ### Chunks -/

theorem ends_freeRun {buffer : Option Pointer} {Q : Unit → Pool → Prop}
    (hQ : ∀ x runs, σ.chunk c = some x → x.runs.free k.sizes h = .ok runs → x.cachedBuffers = [] →
      Q () (σ.withChunk c { x with runs := runs }))
    (hcached : ∀ x, σ.chunk c = some x → x.cachedBuffers = []) :
    Ends (PoolChunk.freeRun k c h buffer) σ Q := by
  refine ends_bind (ends_getChunk fun x hx => ends_bind (ends_check fun runs hr => ends_update ?_))
  have hnil := hcached x hx
  have hQ' := hQ x runs hx hr hnil
  cases buffer with
  | none => exact hQ'
  | some ptr =>
    simp only [hnil, ne_eq, not_true_eq_false, false_and, if_false]
    rw [← hnil]
    exact hQ'

theorem works_withChunk {R : ℤ → ℤ → Prop} {y : PoolChunk} (hx : σ.chunk c = some x)
    (harena : y.arena = x.arena) (hpool : y.unpooled = x.unpooled) (hmem : y.memory = x.memory)
    (hbytes : R x.runs.freeBytes y.runs.freeBytes) : Works R c σ (σ.withChunk c y) :=
  ⟨rfl, rfl, rfl, rfl, fun _ hd => Pool.withChunk_of_ne hd, x, y, hx, Pool.withChunk_chunk, harena,
    hpool, hmem, hbytes⟩

theorem TokenInv.nonneg (ht : TokenInv k σ t) : 0 ≤ t.handle := by
  cases ht with
  | run x o p low i hx f => exact f.nonneg
  | elem x o p i s q hx f => exact f.nonneg

theorem Held.free (made : k.sizes.Made g) (hh : Held k g σ (t :: T)) (buffer : Option Pointer) :
    Ends (PoolChunk.free k t.chunk t.handle t.cap buffer) σ fun _ σ' =>
      Works (· ≤ ·) t.chunk σ σ' ∧ σ'.bufs = σ.bufs ∧ Held k g σ' T := by
  have hcached : ∀ x, σ.chunk t.chunk = some x → x.cachedBuffers = [] := fun x hx =>
    (hh.chunks _ x hx (hh.pooled_of_token List.mem_cons_self hx)).cached
  refine ends_ite (fun hsub => ?_) fun hsub => ?_
  · refine ends_bind (ends_getChunk fun x hx => ends_bind (ends_check fun sizeIdx _ =>
      ends_bind (ends_check fun head _ => ends_bind (ends_check fun slot hslot => ?_))))
    obtain ⟨o, m, i, s, p, f, hi, hs, hp, -, hblock⟩ := hh.elem_cases hsub hx
    have ho : calculateRunOffset t.handle = o := f.decode.1
    have hbit : calculateBitmapIdx t.handle = i := f.decode.2.2.2.2 hi
    obtain rfl : slot = some s := by
      rw [ho, fetchInt, if_pos (Int.natCast_nonneg o), fetch_eq_ok, Int.toNat_natCast, hs] at hslot
      exact (Option.some.inj hslot).symm
    refine ends_bind (ends_getSubpage fun _ _ => ends_bind (ends_assert fun _ => ?_))
    rw [hbit, ho, Int.toNat_natCast]
    refine ends_bind ((hh.freeElement hx f hi hs hp head).mono ?_)
    rintro kept σ' ⟨hin, ⟨rfl, hheld⟩ | ⟨rfl, σ₁, q, hret⟩⟩
    · exact ends_pure ⟨hin.works hx, hin.sameOwners.bufs, hheld⟩
    refine ends_bind (ends_getSubpage fun _ _ => ends_bind (ends_assert fun _ => ?_))
    refine ends_bind (ends_getChunk fun y hy => ends_bind (ends_setChunk ?_))
    obtain rfl : x = y := Option.some.inj (hx.symm.trans (hin.chunk ▸ hy))
    have hx₁ : σ₁.chunk t.chunk = some x := by rw [hret.chunk, hx]
    refine ends_freeRun (fun z runs hz hr _ => ?_) fun z hz => ?_
    · obtain rfl := Pool.eq_of_withChunk hz
      obtain ⟨subpage, ring, rfl⟩ := hin
      rw [Pool.withChunk, Pool.withChunk, Function.update_idem]
      set y : PoolChunk := { x with runs := runs, subpages := x.subpages.set o none }
      set σ₂ : Pool := { σ with
        chunk := Function.update σ.chunk t.chunk (some y), subpage := subpage, ring := ring }
      have hstore : σ₂.chunk = Function.update σ₁.chunk t.chunk (some y) := by rw [hret.chunk]
      obtain ⟨hheld, hle⟩ := hret.held.retire made hx₁ hs hret.at_subpage hret.empty f
        (hret.same.block.trans hblock) hr hstore hret.subpage hret.chunkCount hret.subpageCount
      exact ⟨⟨rfl, rfl, rfl, rfl, fun d hd => Function.update_of_ne hd _ _, x, y, hx,
        Function.update_self _ _ _, rfl, rfl, rfl, hle⟩, rfl, hheld⟩
    · obtain rfl := Pool.eq_of_withChunk hz
      exact hcached x hx
  · refine ends_freeRun (fun x runs hx hr _ => ?_) hcached
    obtain ⟨hheld, hle⟩ := hh.freeRun made hx (by simpa using hsub) hr
    exact ⟨works_withChunk hx rfl rfl rfl hle, rfl, hheld⟩

/-! ### Usage lists -/

/-- A chunk is moved down the lists, or found empty at the lowest. -/
theorem ends_move0 (a : ArenaId) (n : ℕ) (l : ListKind) (σ : Pool) :
    Ends (PoolChunkList.move0 k a c n l) σ fun kept σ' => OnLists σ σ' ∧
      (kept = false → ∃ x, σ'.chunk c = some x ∧ x.usage = 0) := by
  induction n generalizing l σ with
  | zero => exact ends_fail _
  | succ n ih =>
    rw [PoolChunkList.move0]
    cases l.prevList with
    | none =>
      refine ends_bind (ends_getChunk fun x hx => ends_bind (ends_assert fun hu => ?_))
      exact ends_pure ⟨refl_of OnLists σ, fun _ => ⟨x, hx, hu⟩⟩
    | some prev =>
      refine ends_bind (ends_getChunk fun x hx => ends_bind (ends_assert fun _ => ?_))
      refine ends_ite (fun _ => ih prev σ) fun _ => ?_
      refine ends_bind (((within_add0 a prev c).ends σ).mono fun _ σ' hst => ?_)
      exact ends_pure ⟨hst, nofun⟩

theorem Held.freeInList (made : k.sizes.Made g) (hh : Held k g σ (t :: T)) (a : ArenaId)
    (l : ListKind) (buffer : Option Pointer) :
    Ends (PoolChunkList.free k a l t.chunk t.handle t.cap buffer) σ fun kept σ' =>
      SameOwners σ σ' ∧ Held k g σ' T ∧
        (kept = false → ∃ x, σ'.chunk t.chunk = some x ∧ x.usage = 0) := by
  refine ends_bind ((hh.free made buffer).mono ?_)
  rintro _ σ₁ ⟨hworks, hbufs, hheld⟩
  have howners := hworks.sameOwners hbufs
  refine ends_bind (ends_getChunk fun x hx => ends_ite (fun _ => ?_) fun _ => ?_)
  · refine ends_bind (((within_remove a l t.chunk).ends σ₁).mono fun _ σ₂ hrem => ?_)
    refine (ends_move0 a 6 l σ₂).mono fun kept σ' ⟨hmove, husage⟩ => ⟨?_, ?_, husage⟩
    · exact trans_of SameOwners howners (trans_of OnLists hrem hmove).sameStore.sameOwners
    · exact (trans_of OnLists hrem hmove).sameStore.held hheld
  · exact ends_pure ⟨howners, hheld, nofun⟩

theorem Held.pooled_after (hh : Held k g σ (t :: T)) (ho : SameOwners σ σ')
    (hx : σ'.chunk t.chunk = some x) : x.unpooled = false := by
  have hlt : t.chunk < σ.chunkCount := by
    by_contra hge
    obtain ⟨y, hy⟩ := (hh.tokens t List.mem_cons_self).exists_chunk
    rw [hh.freshChunk _ (not_lt.mp hge)] at hy
    cases hy
  obtain ⟨y, hy, -, hun, -⟩ := ho.persists.chunk _ x hlt hx
  rw [hun]
  exact hh.pooled_of_token List.mem_cons_self hy

theorem Held.freeChunk (made : k.sizes.Made g) (hh : Held k g σ (t :: T))
    (buffer : Option Pointer) :
    Ends (PoolArena.freeChunk k t.chunk t.handle t.cap buffer) σ fun _ σ' =>
      SameOwners σ σ' ∧ Held k g σ' T := by
  refine ends_bind (ends_getChunk fun x _ => ends_bind (ends_bind (ends_getChunk fun _ _ =>
    ends_look ?_)))
  cases (σ.chunkLinks t.chunk).parent with
  | none => exact ends_fail _
  | some l =>
    refine ends_bind ((hh.freeInList made x.arena l buffer).mono ?_)
    rintro kept σ' ⟨howners, hheld, hempty⟩
    cases kept with
    | true => exact ends_pure ⟨howners, hheld⟩
    | false =>
      obtain ⟨y, hy, hu⟩ := hempty rfl
      refine ends_bind (ends_getChunk fun z hz => ends_update ?_)
      obtain rfl : y = z := Option.some.inj (hy.symm.trans hz)
      obtain ⟨hslot, htok⟩ := hheld.unused made hy (hh.pooled_after howners hy) hu
      refine ⟨⟨howners.threads, howners.bufs, trans_of Persists howners.persists ?_⟩,
        hheld.destroyChunk hy hslot htok rfl rfl rfl rfl⟩
      exact persists_delete hy (hh.pooled_after howners hy) rfl rfl

/-! ### Allocating -/

theorem SizeClasses.Made.sizeIdxOf (made : k.sizes.Made g) {req : ℤ} (h0 : 0 ≤ req)
    (hle : req ≤ k.sizes.chunkSize) :
    ∃ i, sizeIdxOf k req = .ok i ∧ i < k.sizes.nSizes ∧ req ≤ sizeAt i ∧
      ∀ j, req = sizeAt j → i = j := by
  rw [Buffer.sizeIdxOf, if_neg (not_lt.mpr h0)]
  by_cases hzero : req = 0
  · refine ⟨0, ?_, ?_, by rw [hzero]; positivity, fun j hj => ?_⟩
    · rw [hzero]
      rfl
    · have := g.pageShifts_ge
      rw [made.nSizes]
      omega
    · have := sizeAt_pos j
      omega
  · obtain ⟨n, rfl⟩ := Int.eq_ofNat_of_zero_le h0
    rw [made.chunkSize] at hle
    obtain ⟨i, hi, hceil, hlt⟩ := made.size2SizeIdx (show 1 ≤ n by omega) (by omega)
    refine ⟨i, hi, hlt, by exact_mod_cast hceil.le, fun j hj => ?_⟩
    have hn : n = sizeAt j := by exact_mod_cast hj
    refine hceil.unique ⟨hn.le, fun v hv => ?_⟩
    rw [hn]
    exact sizeAt_strictMono hv

theorem SizeClasses.Made.sizeIdxOf_sizeAt (made : k.sizes.Made g) {i : ℕ} (hi : i < k.sizes.nSizes) :
    Buffer.sizeIdxOf k (sizeAt i) = .ok i := by
  have hle : sizeAt i ≤ k.sizes.chunkSize := by
    rw [made.chunkSize, ← made.sizeAt_last]
    exact sizeAt_strictMono.monotone (by omega)
  obtain ⟨j, hj, -, -, hunique⟩ := made.sizeIdxOf (Int.natCast_nonneg (sizeAt i))
    (by exact_mod_cast hle)
  rw [hj, hunique i rfl]

/-- The chunk has no free run for the request. -/
def Refuses (k : Config) (σ : Pool) (c : ChunkId) (runSize : ℤ) : Prop :=
  ∃ x, σ.chunk c = some x ∧ x.runs.allocateRun k.sizes runSize = .ok (-1, x.runs)

theorem ends_allocateRun (made : k.sizes.Made g) (hh : Held k g σ T) {runSize : ℤ}
    {Q : Int64 → Pool → Prop} (hnone : Refuses k σ c runSize → Q (-1) σ)
    (hsome : ∀ x h runs (o m low : ℕ), σ.chunk c = some x → x.unpooled = false →
      Fields h o m true false low →
      Runs.Inv k.sizes g.pages runs ((o, m) :: heldBlocks σ T c x) →
      runs.freeBytes = runs.pageCount * 2 ^ k.sizes.pageShifts →
      runs.freeBytes ≤ x.runs.freeBytes → runSize / 2 ^ k.sizes.pageShifts = m →
      Q h (σ.withChunk c { x with runs := runs })) :
    Ends (PoolChunk.allocateRun k c runSize) σ Q := by
  refine ends_bind (ends_getChunk fun x hx => ends_bind (ends_check fun ⟨h, runs⟩ hr => ?_))
  refine ends_bind (ends_setChunk (ends_pure ?_))
  have hsame : σ.withChunk c { x with runs := x.runs } = σ := Pool.withChunk_self hx
  by_cases hpool : x.unpooled = false
  · rcases (hh.chunks c x hx hpool).allocateRun made hr with ⟨rfl, rfl⟩ |
      ⟨o, m, low, f, hinv, hbytes, hle, hm⟩
    · rw [hsame]
      exact hnone ⟨x, hx, hr⟩
    · exact hsome x h runs o m low hx hpool f hinv hbytes hle hm
  · have hempty := (hh.unpooled c x hx (by simpa using hpool)).runs
    obtain ⟨rfl, rfl⟩ := Runs.allocateRun_of_nil hempty hr
    rw [hsame]
    exact hnone ⟨x, hx, hr⟩

/-- What a chunk answers to a request for a block of `cap` bytes: it refuses and stays as it is, or
it hands the block out. -/
def Answers (k : Config) (g : Geometry) (T : List Token) (c : ChunkId) (cap : ℤ) (σ : Pool)
    (h : Int64) (σ' : Pool) : Prop :=
  h < 0 ∧ σ' = σ ∨
    0 ≤ h ∧ Held k g σ' (⟨c, h, cap⟩ :: T) ∧ σ'.bufs = σ.bufs ∧ Works (· ≥ ·) c σ σ'

theorem Held.allocateRun (made : k.sizes.Made g) (hh : Held k g σ T) {i : ℕ}
    (hi : k.sizes.smallMaxSizeIdx < i) (hi' : i < k.sizes.nSizes) :
    Ends (PoolChunk.allocateRun k c (sizeAt i)) σ (Answers k g T c (sizeAt i) σ) := by
  refine ends_allocateRun made hh (fun _ => .inl ⟨by decide, rfl⟩)
    fun x h runs o m low hx hpool f hinv hbytes hle hm => ?_
  have hdvd : (2 ^ k.sizes.pageShifts : ℤ) ∣ sizeAt i := by exact_mod_cast made.dvd_sizeAt hi hi'
  have hcap : (m : ℤ) * 2 ^ k.sizes.pageShifts = sizeAt i := by
    rw [← hm]
    exact Int.ediv_mul_cancel hdvd
  refine .inr ⟨f.nonneg, ?_, rfl, works_withChunk hx rfl rfl rfl hle⟩
  rw [← hcap]
  exact hh.addRun hx f hinv hbytes hi' hcap hpool

theorem Fields.runSize_eq {z : SizeClasses} {o m low : ℕ} {u e : Bool} (f : Fields h o m u e low) :
    Runs.runSize z h = m * 2 ^ z.pageShifts := by
  rw [Runs.runSize, f.decode.2.1]

theorem Held.allocateSubpage (made : k.sizes.Made g) (hh : Held k g σ T) {i : ℕ}
    (hi : i < k.sizes.nSizes) :
    Ends (PoolChunk.allocateSubpage k c i) σ fun h σ' =>
      Answers k g T c (sizeAt i) σ h σ' ∧ (0 ≤ h ∧ isSubpage h = true ∨ h < 0 ∧
        ∃ runSize : ℕ, PoolChunk.calculateRunSize k i = .ok runSize ∧ Refuses k σ c runSize) := by
  refine ends_bind (ends_getChunk fun x₀ _ => ends_bind (ends_check fun head _ =>
    ends_bind (ends_check fun runSize hrun => ends_bind ?_)))
  refine ends_allocateRun made hh (fun hnone => ?_)
    fun x h runs o m low hx hpool f hinv hbytes hle hm => ?_
  · exact ends_ite (fun _ => ends_pure ⟨.inl ⟨by decide, rfl⟩, .inr ⟨by decide, runSize, hrun, hnone⟩⟩)
      fun hneg => absurd (by decide) hneg
  have ho : calculateRunOffset h = o := f.decode.1
  refine ends_ite (fun hneg => absurd f.nonneg (not_le.mpr hneg)) fun _ => ?_
  rw [ho, f.runSize_eq]
  refine ends_bind (ends_getChunk fun y hy => ends_bind (ends_check fun slot hslot =>
    ends_bind (ends_assert fun hnull => ends_bind (ends_check fun size hsize => ?_))))
  obtain rfl := Pool.eq_of_withChunk hy
  obtain rfl : sizeAt i = size := Except.ok.inj ((made.sizeIdx2size hi).symm.trans hsize)
  refine ends_bind (ends_check fun p hp => ends_bind (ends_bind (ends_look (ends_bind
    (ends_update (ends_pure ?_))))))
  refine ends_bind (((within_addToPool _ head).ends _).mono ?_)
  rintro _ _ ⟨ring, rfl⟩
  refine ends_bind (ends_setChunk ?_)
  have hpos : 0 < sizeAt i := sizeAt_pos i
  obtain ⟨helems, hchunk, hshift, hoff, hsz, helem, hmax, hd⟩ :=
    PoolSubpage.make_eq_ok hp (by exact_mod_cast hpos) (by positivity)
  have hslot' : x.subpages[o]? = some none := by
    rw [fetchInt, if_pos (Int.natCast_nonneg o), fetch_eq_ok, Int.toNat_natCast, hnull] at hslot
    exact hslot
  have hpinv : SubpageInv k c o [] p :=
    ⟨hchunk, hshift, hoff, ⟨m, hsz⟩, by rw [helem]; exact_mod_cast hpos, ⟨i, hi, helem⟩,
      by rw [hmax, hsz, helem], hd, helems⟩
  rw [Int.toNat_natCast]
  set x' : PoolChunk :=
    { x with runs := runs, subpages := x.subpages.set o (some σ.subpageCount) } with hx'
  set σ₁ : Pool := { σ with
    chunk := Function.update σ.chunk c (some x')
    subpage := Function.update σ.subpage σ.subpageCount (some p)
    subpageCount := σ.subpageCount + 1
    ring := ring } with hσ₁
  have hworks : Works (· ≥ ·) c σ σ₁ := ⟨rfl, rfl, rfl, rfl,
    fun d hd => Function.update_of_ne hd _ _, x, x', hx, Function.update_self _ _ _, rfl, rfl, rfl, hle⟩
  have hheld : Held k g σ₁ T :=
    hh.addSubpage hx f hinv hbytes hslot' hsz hpinv rfl rfl rfl rfl rfl hpool
  have hstate : Pool.withChunk { (σ.withChunk c { x with runs := runs }) with
      subpage := Function.update σ.subpage σ.subpageCount (some p)
      subpageCount := σ.subpageCount + 1
      ring := ring } c x' = σ₁ := by
    rw [hσ₁, Pool.withChunk, Pool.withChunk, Function.update_idem]
  refine hstate ▸ (hheld.allocateElement made).mono ?_
  rintro h' σ' (⟨rfl, rfl, q, hq, hnone⟩ | ⟨hin, q, hq, hnonneg, hsub, hheld'⟩)
  all_goals
    obtain rfl : p = q := by
      have hp' : σ₁.subpage σ.subpageCount = some p := Function.update_self _ _ _
      exact Option.some.inj (hp'.symm.trans hq)
  · -- a new subpage has an element to give
    obtain ⟨hdvd, hroom⟩ := calculateRunSize_ok made (made.sizeIdx2size hi) hrun
    have hsize' : p.runSize = runSize := by
      rw [hsz, ← hm]
      exact Int.ediv_mul_cancel (by exact_mod_cast hdvd)
    have hcount := helems.count
    rw [hmax, ← hsz, hsize'] at hcount
    have hroom' : (0 : ℤ) < (runSize : ℤ) / (sizeAt i : ℕ) := by exact_mod_cast hroom
    rcases hnone with hzero | hdead
    · rw [hzero] at hcount
      simp only [List.length_nil] at hcount
      omega
    · rw [hd] at hdead
      cases hdead
  · rw [hchunk, helem] at hheld'
    obtain ⟨y, y', hy, hy', ha, hu, hmem, hbytes'⟩ := hworks.chunk
    obtain ⟨subpage, ring', rfl⟩ := hin
    exact ⟨.inr ⟨hnonneg, hheld', rfl, ⟨rfl, rfl, rfl, rfl, hworks.others, y, y', hy, hy', ha, hu,
      hmem, hbytes'⟩⟩, .inl ⟨hnonneg, hsub⟩⟩

theorem Held.allocateHandle (made : k.sizes.Made g) (hh : Held k g σ T) {i : ℕ}
    (hi : i < k.sizes.nSizes) :
    Ends (PoolChunk.allocateHandle k c i) σ (Answers k g T c (sizeAt i) σ) := by
  refine ends_ite (fun _ => ?_) fun hlarge => ?_
  · refine ends_bind ((hh.allocateSubpage made hi).mono fun h σ' hanswer => ?_)
    exact ends_bind (ends_assert fun _ => ends_pure hanswer.1)
  · refine ends_bind (ends_check fun size hsize => ?_)
    obtain rfl : sizeAt i = size := Except.ok.inj ((made.sizeIdx2size hi).symm.trans hsize)
    exact hh.allocateRun made (not_le.mp hlarge) hi

/-! ### Filling a buffer -/

def Token.offset (k : Config) (t : Token) : ℤ :=
  calculateRunOffset t.handle * 2 ^ k.sizes.pageShifts +
    if isSubpage t.handle = true then calculateBitmapIdx t.handle * t.cap else 0

/-- A buffer after `init0` with the block of a token. -/
def PooledByteBuf.filled (k : Config) (t : Token) (length : ℤ) (th : ThreadId)
    (buffer : Option Pointer) (buf : PooledByteBuf) : PooledByteBuf :=
  { buf with
    chunk := some t.chunk
    memory := some t.chunk
    cache := some th
    handle := t.handle
    offset := t.offset k
    length := length
    maxLength := t.cap
    tmpBuf := some (buffer.getD (t.chunk, t.offset k)) }

/-- Buffer `b`, and nothing else, has been filled. -/
def Fills (k : Config) (t : Token) (b : BufId) (length : ℤ) (th : ThreadId)
    (buffer : Option Pointer) (σ σ' : Pool) : Prop :=
  ∃ buf, σ.bufs[b]? = some buf ∧
    σ' = { σ with bufs := σ.bufs.set b (buf.filled k t length th buffer) }

variable {b : BufId} {th : ThreadId} {req : ℤ} {buffer : Option Pointer}

theorem ends_getBuf {Q : PooledByteBuf → Pool → Prop}
    (h : ∀ buf, σ.bufs[b]? = some buf → Q buf σ) : Ends (getBuf b) σ Q := by
  refine ends_bind (ends_look ?_)
  cases hb : σ.bufs[b]? with
  | none => exact ends_fail _
  | some buf => exact ends_pure (h buf hb)

theorem ends_init {offset : ℤ} (hoff : offset = t.offset k) :
    Ends (PooledByteBuf.init b t.chunk buffer t.handle offset req t.cap (some th)) σ fun _ σ' =>
      Fills k t b req th buffer σ σ' := by
  refine ends_bind (ends_assert fun _ => ends_bind (ends_getChunk fun _ _ =>
    ends_bind (ends_getBuf fun buf hbuf => ends_update ⟨buf, hbuf, ?_⟩)))
  rw [hoff]
  rfl

theorem Held.initBufWithSubpage (hh : Held k g σ (t :: T)) (hsub : isSubpage t.handle = true) :
    Ends (PoolChunk.initBufWithSubpage k t.chunk b buffer t.handle req th) σ fun _ σ' =>
      req ≤ t.cap ∧ Fills k t b req th buffer σ σ' := by
  refine ends_bind (ends_getChunk fun x hx => ends_bind (ends_check fun s hs => ?_))
  obtain ⟨o, m, i, s', p, f, hi, hs', hp, hcap, -⟩ := hh.elem_cases hsub hx
  obtain rfl : s' = s := by
    obtain ⟨slot, hslot, hs⟩ := bind_eq_ok.mp hs
    rw [f.decode.1, fetchInt, if_pos (Int.natCast_nonneg o), fetch_eq_ok, Int.toNat_natCast,
      hs'] at hslot
    obtain rfl := Option.some.inj hslot
    exact Except.ok.inj hs
  refine ends_bind (ends_getSubpage fun q hq => ends_bind (ends_assert fun _ =>
    ends_bind (ends_assert fun hle => ?_)))
  obtain rfl : p = q := Option.some.inj (hp.symm.trans hq)
  rw [hcap] at hle ⊢
  refine (ends_init ?_).mono fun _ σ' hfill => ⟨hle, hfill⟩
  rw [Token.offset, if_pos hsub]

theorem TokenInv.runSize_eq (ht : TokenInv k σ t) (hs : isSubpage t.handle = false) :
    Runs.runSize k.sizes t.handle = t.cap := by
  obtain ⟨o, p, low, f, hcap⟩ := ht.run_fields hs
  rw [f.runSize_eq, hcap]

theorem Held.initBuf (hh : Held k g σ (t :: T)) :
    Ends (PoolChunk.initBuf k t.chunk b buffer t.handle req th) σ fun _ σ' =>
      Fills k t b req th buffer σ σ' := by
  refine ends_ite (fun hsub => ?_) fun hsub => ?_
  · rw [(hh.tokens t List.mem_cons_self).runSize_eq hsub]
    refine ends_init ?_
    rw [Token.offset, if_neg (by simp [hsub]), add_zero]
  · rw [Bool.not_eq_false] at hsub
    exact (hh.initBufWithSubpage hsub).mono fun _ _ h => h.2

/-- Buffer `b` has got a new block of `cap` bytes. -/
structure Gives (k : Config) (g : Geometry) (T : List Token) (b : BufId) (req : ℤ) (th : ThreadId)
    (t : Token) (σ σ' : Pool) : Prop where
  held : Held k g σ' (t :: T)
  threads : σ'.threads = σ.threads
  bufs : ∃ buf, σ.bufs[b]? = some buf ∧ σ'.bufs = σ.bufs.set b (buf.filled k t req th none)
  persists : Persists σ σ'

theorem Gives.of_owners {σ₁ : Pool} (h : Gives k g T b req th t σ₁ σ') (ho : SameOwners σ σ₁) :
    Gives k g T b req th t σ σ' where
  held := h.held
  threads := h.threads.trans ho.threads
  bufs := by
    rw [← ho.bufs]
    exact h.bufs
  persists := trans_of Persists ho.persists h.persists

theorem Gives.sameStore {σ₁ : Pool} (h : Gives k g T b req th t σ σ₁) (hs : SameStore σ₁ σ') :
    Gives k g T b req th t σ σ' where
  held := hs.held h.held
  threads := hs.threads.trans h.threads
  bufs := by
    rw [hs.bufs]
    exact h.bufs
  persists := trans_of Persists h.persists hs.sameOwners.persists

theorem Fills.gives {σ₁ : Pool} (h : Fills k t b req th none σ₁ σ') (hh : Held k g σ₁ (t :: T))
    (ho : SameOwners σ σ₁) : Gives k g T b req th t σ σ' := by
  obtain ⟨buf, hbuf, rfl⟩ := h
  have hgives : Gives k g T b req th t σ₁
      { σ₁ with bufs := σ₁.bufs.set b (buf.filled k t req th none) } :=
    ⟨hh.of_eq rfl rfl rfl rfl, rfl, ⟨buf, hbuf, rfl⟩, persists_of_eq rfl rfl⟩
  exact hgives.of_owners ho

theorem Fills.works {R : ℤ → ℤ → Prop} {σ₁ : Pool} (h : Fills k t b req th buffer σ₁ σ')
    (hw : Works R c σ σ₁) : Works R c σ σ' := by
  obtain ⟨buf, hbuf, rfl⟩ := h
  exact ⟨hw.threads, hw.chunkCount, hw.chunkLinks, hw.listHead, hw.others, hw.chunk⟩

/-- No block is cached beside the free runs of a chunk, so none is taken. -/
theorem Held.cachedBuffers (hh : Held k g σ (t :: T)) (hx : σ.chunk t.chunk = some x) :
    x.cachedBuffers = [] ∧
      σ.withChunk t.chunk { x with cachedBuffers := x.cachedBuffers.dropLast } = σ := by
  have hnil := (hh.chunks _ x hx (hh.pooled_of_token List.mem_cons_self hx)).cached
  refine ⟨hnil, ?_⟩
  rw [hnil, List.dropLast_nil, ← hnil]
  exact Pool.withChunk_self hx

theorem Held.allocate (made : k.sizes.Made g) (hh : Held k g σ T) {i : ℕ}
    (hi : i < k.sizes.nSizes) :
    Ends (PoolChunk.allocate k c b req i th) σ fun done σ' => done = false ∧ σ' = σ ∨
      done = true ∧ Works (· ≥ ·) c σ σ' ∧
        ∃ t : Token, t.chunk = c ∧ t.cap = sizeAt i ∧ Gives k g T b req th t σ σ' := by
  refine ends_bind ((hh.allocateHandle made hi).mono ?_)
  rintro h σ₁ (⟨hneg, rfl⟩ | ⟨hnonneg, hheld, hbufs, hworks⟩)
  · exact ends_ite (fun _ => ends_pure (.inl ⟨rfl, rfl⟩)) fun hnot => absurd hneg hnot
  refine ends_ite (fun hneg => absurd hnonneg (not_le.mpr hneg)) fun _ => ?_
  refine ends_bind (ends_getChunk fun x hx => ends_bind (ends_setChunk ?_))
  obtain ⟨hnil, hsame⟩ := Held.cachedBuffers (t := ⟨c, h, sizeAt i⟩) hheld hx
  rw [hsame, hnil]
  refine ends_bind ((Held.initBuf (t := ⟨c, h, sizeAt i⟩) hheld).mono fun _ σ₂ hfill => ?_)
  exact ends_pure (.inr ⟨rfl, hfill.works hworks, ⟨c, h, sizeAt i⟩, rfl, rfl,
    hfill.gives hheld (hworks.sameOwners hbufs)⟩)

/-- The result of an attempt to give buffer `b` a block of a size class. -/
def Attempts (k : Config) (g : Geometry) (T : List Token) (b : BufId) (req : ℤ) (i : ℕ)
    (th : ThreadId) (σ : Pool) (done : Bool) (σ' : Pool) : Prop :=
  done = false ∧ σ' = σ ∨ done = true ∧ ∃ t : Token, t.cap = sizeAt i ∧ Gives k g T b req th t σ σ'

theorem Held.allocateFrom (made : k.sizes.Made g) (a : ArenaId) (l : ListKind) {i : ℕ}
    (hi : i < k.sizes.nSizes) (n : ℕ) (cur : Option ChunkId) (hh : Held k g σ T) :
    Ends (PoolChunkList.allocateFrom k a l b req i th n cur) σ (Attempts k g T b req i th σ) := by
  induction n generalizing cur with
  | zero =>
    cases cur with
    | none => exact ends_pure (.inl ⟨rfl, rfl⟩)
    | some cur => exact ends_fail _
  | succ n ih =>
    cases cur with
    | none => exact ends_pure (.inl ⟨rfl, rfl⟩)
    | some cur =>
      refine ends_bind ((hh.allocate made hi).mono ?_)
      rintro done σ₁ (⟨rfl, rfl⟩ | ⟨rfl, -, t, -, hcap, hgives⟩)
      · exact ends_bind (ends_bind (ends_getChunk fun _ _ => ends_look (ih _)))
      · refine ends_bind (ends_getChunk fun x _ => ends_bind ?_)
        exact ((within_when (within_leave a l cur)).ends σ₁).mono fun _ σ' hst => ends_pure
          (.inr ⟨rfl, t, hcap, hgives.sameStore hst.sameStore⟩)

theorem Held.allocateInList (made : k.sizes.Made g) (hh : Held k g σ T) (a : ArenaId) (l : ListKind)
    {i : ℕ} (hi : i < k.sizes.nSizes) :
    Ends (PoolChunkList.allocate k a l b req i th) σ (Attempts k g T b req i th σ) := by
  refine ends_bind (ends_check fun _ _ => ends_ite (fun _ => ?_) fun _ => ?_)
  · exact ends_pure (.inl ⟨rfl, rfl⟩)
  · exact ends_bind (ends_look (ends_bind (ends_look (hh.allocateFrom made a l hi _ _))))

theorem Held.allocateFromLists (made : k.sizes.Made g) (a : ArenaId) {i : ℕ}
    (hi : i < k.sizes.nSizes) (ls : List ListKind) (hh : Held k g σ T) :
    Ends (PoolArena.allocateFromLists k a b req i th ls) σ (Attempts k g T b req i th σ) := by
  induction ls with
  | nil => exact ends_pure (.inl ⟨rfl, rfl⟩)
  | cons l ls ih =>
    refine ends_bind ((hh.allocateInList made a l hi).mono ?_)
    rintro done σ₁ (⟨rfl, rfl⟩ | ⟨rfl, hgives⟩)
    · exact ih
    · exact ends_pure (.inr ⟨rfl, hgives⟩)

theorem persists_new (hchunk : σ'.chunk = Function.update σ.chunk σ.chunkCount (some x))
    (hcount : σ'.chunkCount = σ.chunkCount + 1) : Persists σ σ' := by
  refine ⟨by omega, fun d y hd hy => ⟨y, ?_, rfl, rfl, rfl⟩, fun d y hd hy _ => ⟨y, ?_⟩⟩
  · rwa [hchunk, Function.update_of_ne hd.ne] at hy
  · rw [hchunk, Function.update_of_ne hd.ne, hy]

theorem Held.makeChunk (made : k.sizes.Made g) (hh : Held k g σ T) (a : ArenaId) :
    Ends (PoolArena.newChunk k a) σ fun _ σ' => SameOwners σ σ' ∧ Held k g σ' T := by
  refine ends_bind (ends_check fun runs hr => ends_bind (ends_look (ends_bind (ends_update
    (ends_pure ⟨⟨rfl, rfl, persists_new rfl rfl⟩, ?_⟩)))))
  exact hh.newChunk made hr rfl rfl rfl rfl rfl rfl rfl rfl rfl rfl

theorem Held.allocateNormal (made : k.sizes.Made g) (hh : Held k g σ T) (a : ArenaId) {i : ℕ}
    (hi : i < k.sizes.nSizes) :
    Ends (PoolArena.allocateNormal k a b req i th) σ fun _ σ' =>
      ∃ t : Token, t.cap = sizeAt i ∧ Gives k g T b req th t σ σ' := by
  refine ends_bind ((Held.allocateFromLists made a hi _ hh).mono ?_)
  rintro done σ₁ (⟨rfl, rfl⟩ | ⟨rfl, hgives⟩)
  · refine ends_bind ((hh.makeChunk made a).mono ?_)
    rintro c σ₂ ⟨howners, hheld⟩
    refine ends_bind ((hheld.allocate made hi).mono ?_)
    rintro done σ₃ (⟨rfl, -⟩ | ⟨rfl, -, t, -, hcap, hgives⟩)
    · exact ends_bind (ends_assert nofun)
    · refine ends_bind (ends_assert fun _ => ((within_add a .qInit c).ends σ₃).mono fun _ σ' hst => ?_)
      exact ⟨t, hcap, (hgives.sameStore hst.sameStore).of_owners howners⟩
  · exact ends_pure hgives

theorem Held.allocateSmall (made : k.sizes.Made g) (hh : Held k g σ T) (a : ArenaId) {i : ℕ}
    (hi : i < k.sizes.nSizes) :
    Ends (PoolArena.allocateSmall k a b req i th) σ fun _ σ' =>
      ∃ t : Token, t.cap = sizeAt i ∧ Gives k g T b req th t σ σ' := by
  refine ends_bind (ends_check fun head _ => ends_bind (ends_look (ends_ite (fun _ => ?_) fun _ => ?_)))
  · exact hh.allocateNormal made a hi
  cases (σ.ring head).next with
  | none => exact ends_fail _
  | some node =>
    cases node with
    | head a j => exact ends_fail _
    | subpage s =>
      refine ends_bind (ends_getSubpage fun p hp => ends_bind (ends_check fun size hsize => ?_))
      obtain rfl : sizeAt i = size := Except.ok.inj ((made.sizeIdx2size hi).symm.trans hsize)
      refine ends_bind (ends_assert fun hassert => ?_)
      refine ends_bind ((hh.allocateElement made).mono ?_)
      rintro h σ₁ (⟨rfl, -⟩ | ⟨hin, q, hq, hnonneg, hsub, hheld⟩)
      · exact ends_bind (ends_assert fun hneg => absurd hneg (by decide))
      obtain rfl : p = q := Option.some.inj (hp.symm.trans hq)
      refine ends_bind (ends_assert fun _ => (hheld.initBufWithSubpage hsub).mono ?_)
      rintro _ σ' ⟨-, hfill⟩
      exact ⟨_, hassert.2, hfill.gives hheld hin.sameOwners⟩

/-! ### Chunks of their own -/

/-- `newUnpooledChunk` puts a chunk without runs under the next name. -/
structure NewUnpooled (σ : Pool) (c : ChunkId) (x : PoolChunk) (σ' : Pool) : Prop where
  name : c = σ.chunkCount
  unpooled : x.unpooled = true
  runs : x.runs.runsAvail = []
  subpages : x.subpages = []
  chunk : σ'.chunk = Function.update σ.chunk c (some x)
  chunkCount : σ'.chunkCount = σ.chunkCount + 1
  subpage : σ'.subpage = σ.subpage
  subpageCount : σ'.subpageCount = σ.subpageCount
  ring : σ'.ring = σ.ring
  chunkLinks : ∀ d ≠ c, σ'.chunkLinks d = σ.chunkLinks d
  listHead : σ'.listHead = σ.listHead
  threads : σ'.threads = σ.threads
  bufs : σ'.bufs = σ.bufs

theorem Held.newUnpooled (hh : Held k g σ T) (hn : NewUnpooled σ c x σ') : Held k g σ' T := by
  have hfresh : σ.chunk c = none := by
    rw [hn.name]
    exact hh.freshChunk _ le_rfl
  have hself : σ'.chunk c = some x := by rw [hn.chunk, Function.update_self]
  have hother : ∀ d ≠ c, σ'.chunk d = σ.chunk d := fun d hd => by
    rw [hn.chunk, Function.update_of_ne hd]
  have hne : ∀ {d y}, σ.chunk d = some y → d ≠ c := by
    rintro d y hy rfl
    rw [hfresh] at hy
    cases hy
  have htok : ∀ t ∈ T, t.chunk ≠ c := fun t ht => by
    obtain ⟨y, hy⟩ := (hh.tokens t ht).exists_chunk
    exact hne hy
  refine ⟨fun d y hy hpool => ?_, fun d y hy hun => ?_, fun t ht => ?_, fun s q hq hd => ?_,
    fun d hd => ?_, fun s hs => ?_⟩
  · by_cases hdc : d = c
    · subst hdc
      obtain rfl := Option.some.inj (hself.symm.trans hy)
      rw [hn.unpooled] at hpool
      cases hpool
    · rw [hother d hdc] at hy
      exact (hh.chunks d y hy hpool).congr (fun _ _ _ => by rw [hn.subpage]) (.refl _) fun _ => .refl _
  · by_cases hdc : d = c
    · subst hdc
      obtain rfl := Option.some.inj (hself.symm.trans hy)
      exact ⟨hn.runs, hn.subpages, htok⟩
    · rw [hother d hdc] at hy
      exact hh.unpooled d y hy hun
  · refine (hh.tokens t ht).mono fun y hy => ⟨y, (hother _ (htok t ht)).trans hy, ?_⟩
    exact fun o s q _ hs hq => ⟨hs, q, by rw [hn.subpage]; exact hq, ⟨rfl, rfl, rfl, rfl, rfl, rfl⟩⟩
  · rw [hn.subpage] at hq
    obtain ⟨y, hy, hs⟩ := hh.alive s q hq hd
    exact ⟨y, (hother _ (hne hy)).trans hy, hs⟩
  · rw [hn.chunkCount] at hd
    have hdc : d ≠ c := by
      rw [hn.name]
      exact Nat.ne_of_gt hd
    rw [hother d hdc]
    exact hh.freshChunk d (Nat.le_of_succ_le hd)
  · rw [hn.subpageCount] at hs
    rw [hn.subpage]
    exact hh.freshSubpage s hs

theorem ends_newUnpooledChunk (a : ArenaId) (capacity : ℤ) :
    Ends (PoolArena.newUnpooledChunk k a capacity) σ fun c σ' => ∃ x, NewUnpooled σ c x σ' :=
  ends_bind (ends_look (ends_bind (ends_update (ends_pure
    ⟨_, rfl, rfl, rfl, rfl, rfl, rfl, rfl, rfl, rfl, fun _ hd => Function.update_of_ne hd _ _, rfl,
      rfl, rfl⟩))))

end Mutty.Buffer
