import Mutty.Buffer.Residency

/-!
# What an arena keeps when nothing is out

A subpage that gets its last element back is given up if its class has another one, so a class has
at most one subpage with all its elements free. Taking blocks makes no such subpage, and giving one
back makes at most the one it goes to. When every block has come back, what the chunks have not free
is therefore one subpage for each class at most; a chunk with none of them is only kept on `qInit`.
-/

namespace Mutty.Buffer

open Mutty.Lib Prog

variable {k : Config} {g : Geometry} {σ σ' : Pool} {T : List Token} {c : ChunkId} {x : PoolChunk}
  {t : Token} {a : ArenaId} {b : BufId} {th : ThreadId} {req size : ℤ} {s s' : SubpageId}
  {p p' : PoolSubpage} {i : ℕ}

def PoolSubpage.Idle (p : PoolSubpage) : Prop :=
  p.doNotDestroy = true ∧ 0 < p.numAvail ∧ p.maxNumElems ≤ p.numAvail

/-- A subpage of arena `a` for elements of `size` bytes, none of them in use. -/
def IdleIn (σ : Pool) (a : ArenaId) (size : ℤ) (s : SubpageId) : Prop :=
  ∃ p x, σ.subpage s = some p ∧ σ.chunk p.chunk = some x ∧ x.arena = a ∧ p.elemSize = size ∧ p.Idle

theorem IdleIn.usable (h : IdleIn σ a size s) : Usable σ a size s := by
  obtain ⟨p, x, hp, hx, ha, hsize, hd, hpos, -⟩ := h
  exact ⟨p, x, hp, hx, ha, hd, hpos, hsize⟩

/-- No class has two subpages without an element in use. -/
def Frugal (σ : Pool) : Prop := ∀ a size s s', IdleIn σ a size s → IdleIn σ a size s' → s' = s

/-! ### Taking blocks -/

/-- A subpage without an element in use was one before. -/
def NoNewIdle (σ σ' : Pool) : Prop := ∀ s p', σ'.subpage s = some p' → p'.Idle →
  ∃ p, σ.subpage s = some p ∧ p.Idle ∧ p.chunk = p'.chunk ∧ p.elemSize = p'.elemSize

instance : IsPreorder Pool NoNewIdle where
  refl _ _ p hp hidle := ⟨p, hp, hidle, rfl, rfl⟩
  trans _ _ _ h h' s p'' hp'' hidle'' := by
    obtain ⟨p', hp', hidle', hchunk', hsize'⟩ := h' s p'' hp'' hidle''
    obtain ⟨p, hp, hidle, hchunk, hsize⟩ := h s p' hp' hidle'
    exact ⟨p, hp, hidle, hchunk.trans hchunk', hsize.trans hsize'⟩

theorem noNewIdle_of_eq (h : σ'.subpage = σ.subpage) : NoNewIdle σ σ' := by
  intro s p hp hidle
  exact ⟨p, by rw [← h, hp], hidle, rfl, rfl⟩

theorem noNewIdle_set (hp : σ.subpage s = some p)
    (hsub : σ'.subpage = Function.update σ.subpage s (some p')) (hchunk : p.chunk = p'.chunk)
    (hsize : p.elemSize = p'.elemSize) (hidle : p'.Idle → p.Idle) : NoNewIdle σ σ' := by
  intro s' q hq hidle'
  rw [hsub, Function.update_apply] at hq
  split_ifs at hq with hs
  · obtain rfl := Option.some.inj hq
    exact ⟨p, by rw [hs, hp], hidle hidle', hchunk, hsize⟩
  · exact ⟨q, hq, hidle', rfl, rfl⟩

theorem Frugal.of_noNewIdle (h : Frugal σ) (hidle : NoNewIdle σ σ')
    (harena : ∀ s p, σ.subpage s = some p → p.doNotDestroy = true → ∀ x', σ'.chunk p.chunk = some x' →
      ∃ x, σ.chunk p.chunk = some x ∧ x'.arena = x.arena) : Frugal σ' := by
  have hback : ∀ {a size s}, IdleIn σ' a size s → IdleIn σ a size s := by
    rintro a size s ⟨p', x', hp', hx', ha, hsize', hi⟩
    obtain ⟨p, hp, hi, hchunk, hsize⟩ := hidle s p' hp' hi
    rw [← hchunk] at hx'
    obtain ⟨x, hx, hxa⟩ := harena s p hp hi.1 x' hx'
    exact ⟨p, x, hp, hx, hxa.symm.trans ha, hsize.trans hsize', hi⟩
  intro a size s s' hs hs'
  exact h a size s s' (hback hs) (hback hs')

theorem Frugal.persists (h : Frugal σ) (hh : Held k g σ T) (hidle : NoNewIdle σ σ')
    (hp : Persists σ σ') : Frugal σ' := by
  apply h.of_noNewIdle hidle
  intro s p hs hd x' hx'
  obtain ⟨x, hx, -⟩ := hh.alive s p hs hd
  have hlt : p.chunk < σ.chunkCount := by
    by_contra hge
    rw [hh.freshChunk _ (not_lt.mp hge)] at hx
    cases hx
  obtain ⟨y, hy, ha, -⟩ := hp.chunk p.chunk x' hlt hx'
  exact ⟨y, hy, ha⟩

theorem getNextAvail_same {j : ℤ} (h : p.getNextAvail = .ok (j, p')) :
    p' = { p with nextAvail := p'.nextAvail } := by
  unfold PoolSubpage.getNextAvail at h
  split_ifs at h
  · obtain ⟨-, rfl⟩ := Prod.mk.inj (Except.ok.inj h)
    rfl
  · obtain ⟨i, -, h⟩ := bind_eq_ok.mp h
    obtain ⟨-, rfl⟩ := Prod.mk.inj (Except.ok.inj h)
    rfl

theorem ends_takeElement : Ends (PoolSubpage.allocate s) σ fun _ σ' => ∃ p p',
    σ.subpage s = some p ∧ σ'.subpage = Function.update σ.subpage s (some p') ∧
      p.chunk = p'.chunk ∧ p.elemSize = p'.elemSize ∧ p.maxNumElems = p'.maxNumElems ∧
      (p'.Idle → p'.numAvail < p.numAvail ∧ p.Idle) := by
  refine ends_bind (ends_getSubpage fun p hp => ends_ite (fun hnone => ends_pure ?_) fun hsome => ?_)
  · refine ⟨p, p, hp, ?_, rfl, rfl, rfl, fun hidle => ?_⟩
    · rw [← hp, Function.update_eq_self]
    · obtain ⟨hd, hpos, -⟩ := hidle
      rcases hnone with hzero | hdead
      · omega
      · rw [hd] at hdead
        cases hdead
  · refine ends_bind (ends_check fun ⟨j, p₁⟩ hg => ends_bind (ends_check fun p₂ hb => ?_))
    have h₁ := getNextAvail_same hg
    obtain ⟨-, -, -, h₂, -⟩ := PoolSubpage.setBit_eq_ok hb
    rw [h₁] at h₂
    refine ends_bind (ends_update (ends_bind (((within_when (within_removeFromPool s)).ends _).mono ?_)))
    rintro _ _ ⟨ring, rfl⟩
    refine ends_pure ⟨p, { p₂ with numAvail := p₂.numAvail - 1 }, hp, rfl, ?_⟩
    rw [h₂]
    refine ⟨rfl, rfl, rfl, fun ⟨hd, hpos, hmax⟩ => ?_⟩
    simp only at hd hpos hmax ⊢
    exact ⟨by omega, hd, by omega, by omega⟩

namespace NoNewIdle

theorem within_takeElement (s : SubpageId) : Within NoNewIdle (PoolSubpage.allocate s) := by
  intro σ _ σ' hcall
  obtain ⟨p, p', hp, hsub, hchunk, hsize, -, hidle⟩ := ends_takeElement _ _ hcall
  exact noNewIdle_set hp hsub hchunk hsize fun h => (hidle h).2

theorem within_setChunk (c : ChunkId) (x : PoolChunk) : Within NoNewIdle (setChunk c x) :=
  within_update fun _ => noNewIdle_of_eq rfl

theorem within_allocateRun (c : ChunkId) (runSize : ℤ) :
    Within NoNewIdle (PoolChunk.allocateRun k c runSize) :=
  (within_getChunk c).bind fun _ => (within_check _).bind fun _ => (within_setChunk _ _).bind fun _ =>
    within_pure _

theorem within_enterSubpage {runOffset runSize elemSize : ℤ} {pageShifts : ℕ}
    (hmake : PoolSubpage.make c pageShifts runOffset runSize elemSize = .ok p) (head : Node)
    (y : SubpageId → PoolChunk) : Within NoNewIdle (do
      let s ← PoolChunk.newSubpage p
      PoolSubpage.addToPool s head
      setChunk c (y s)
      PoolSubpage.allocate s : PoolM Int64) := by
  have hfull : p.numAvail = p.maxNumElems := by
    simp only [PoolSubpage.make] at hmake
    split_ifs at hmake
    all_goals
      obtain rfl := Except.ok.inj hmake
      rfl
  intro σ
  refine ends_bind (ends_bind (ends_look (ends_bind (ends_update (ends_pure ?_)))))
  refine ends_bind (((within_addToPool _ head).ends _).mono ?_)
  rintro _ _ ⟨ring, rfl⟩
  refine ends_bind (ends_update (ends_takeElement.mono ?_))
  rintro _ σ' ⟨q, p', hq, hsub, hchunk, hsize, hmax, hidle⟩ s' p'' hp'' hidle''
  simp only [Function.update_self, Option.some.injEq] at hq
  subst hq
  rw [hsub, Function.update_idem, Function.update_apply] at hp''
  split_ifs at hp'' with hs
  · -- the element is gone from the new one
    obtain rfl := Option.some.inj hp''
    obtain ⟨hlt, -⟩ := hidle hidle''
    have hle := hidle''.2.2
    omega
  · exact ⟨p'', hp'', hidle'', rfl, rfl⟩

theorem within_allocateSubpage (c : ChunkId) (i : ℕ) :
    Within NoNewIdle (PoolChunk.allocateSubpage k c i) := by
  refine (within_getChunk c).bind fun x => (within_check _).bind fun head => (within_check _).bind
    fun runSize => (within_allocateRun c runSize).bind fun h => .ite (within_pure _) ?_
  refine (within_getChunk c).bind fun y => (within_check _).bind fun slot => (within_assert _).bind
    fun _ => (within_check _).bind fun elemSize => ?_
  intro σ
  exact ends_bind (ends_check fun p hmake => within_enterSubpage hmake head _ σ)

theorem within_init (b : BufId) (c : ChunkId) (buffer : Option Pointer) (h : Int64)
    (offset length maxLength : ℤ) (cache : Option ThreadId) :
    Within NoNewIdle (PooledByteBuf.init b c buffer h offset length maxLength cache) := by
  refine (within_assert _).bind fun _ => (within_getChunk c).bind fun _ => ?_
  intro σ
  exact ends_bind (ends_getBuf fun _ _ => ends_update (noNewIdle_of_eq rfl))

theorem within_initBufWithSubpage (c : ChunkId) (b : BufId) (buffer : Option Pointer) (h : Int64) :
    Within NoNewIdle (PoolChunk.initBufWithSubpage k c b buffer h req th) := by
  refine (within_getChunk c).bind fun x => (within_check _).bind fun s => ?_
  intro σ
  refine ends_bind (ends_getSubpage fun p _ => ?_)
  exact ((within_assert _).bind fun _ => (within_assert _).bind fun _ =>
    within_init _ _ _ _ _ _ _ _) σ

theorem within_allocate (c : ChunkId) : Within NoNewIdle (PoolChunk.allocate k c b req i th) := by
  have hhandle : Within NoNewIdle (PoolChunk.allocateHandle k c i) := by
    refine .ite ((within_allocateSubpage c i).bind fun h => ?_) ?_
    · exact (within_assert _).bind fun _ => within_pure _
    · exact (within_check _).bind fun runSize => within_allocateRun c runSize
  refine hhandle.bind fun h => .ite (within_pure _) ?_
  refine (within_getChunk c).bind fun x => (within_setChunk _ _).bind fun _ => ?_
  refine Within.bind ?_ fun _ => within_pure _
  exact .ite (within_init _ _ _ _ _ _ _ _) (within_initBufWithSubpage _ _ _ _)

theorem within_onLists {α : Type} {m : PoolM α} (h : Within OnLists m) : Within NoNewIdle m :=
  h.mono fun _ _ hl => noNewIdle_of_eq hl.sameStore.subpage

theorem within_allocateFrom (l : ListKind) (n : ℕ) (cur : Option ChunkId) :
    Within NoNewIdle (PoolChunkList.allocateFrom k a l b req i th n cur) := by
  induction n generalizing cur with
  | zero =>
    cases cur with
    | none => exact within_pure _
    | some cur => exact within_fail _
  | succ n ih =>
    cases cur with
    | none => exact within_pure _
    | some cur =>
      refine (within_allocate cur).bind fun done => .ite ?_ ?_
      · refine (within_getChunk cur).bind fun x => Within.bind ?_ fun _ => within_pure _
        exact within_onLists (within_when (within_leave a l cur))
      · exact (within_onLists (within_getLinks cur)).bind fun links => ih links.next

theorem within_allocateFromLists (ls : List ListKind) :
    Within NoNewIdle (PoolArena.allocateFromLists k a b req i th ls) := by
  induction ls with
  | nil => exact within_pure _
  | cons l ls ih =>
    have hlist : Within NoNewIdle (PoolChunkList.allocate k a l b req i th) := by
      refine (within_check _).bind fun size => .ite (within_pure _) ?_
      exact (within_look _).bind fun n => (within_look _).bind fun head => within_allocateFrom l n head
    exact hlist.bind fun done => .ite (within_pure _) ih

theorem within_allocateNormal : Within NoNewIdle (PoolArena.allocateNormal k a b req i th) := by
  refine (within_allocateFromLists _).bind fun done => .ite (within_pure _) ?_
  have hnew : Within NoNewIdle (PoolArena.newChunk k a) := by
    refine (within_check _).bind fun runs => (within_look _).bind fun c => ?_
    refine Within.bind (within_update fun _ => noNewIdle_of_eq ?_) fun _ => within_pure _
    rfl
  refine hnew.bind fun c => (within_allocate c).bind fun done => (within_assert _).bind fun _ => ?_
  exact within_onLists (within_add a .qInit c)

theorem within_allocateSmall : Within NoNewIdle (PoolArena.allocateSmall k a b req i th) := by
  refine (within_check _).bind fun head => (within_look _).bind fun links =>
    .ite within_allocateNormal ?_
  cases links.next with
  | none => exact within_fail _
  | some n =>
    cases n with
    | head a' i' => exact within_fail _
    | subpage s =>
      intro σ
      refine ends_bind (ends_getSubpage fun p _ => ?_)
      exact ((within_check _).bind fun size => (within_assert _).bind fun _ =>
        (within_takeElement s).bind fun h => (within_assert _).bind fun _ =>
          within_initBufWithSubpage _ _ _ _) σ

end NoNewIdle

/-! ### Giving a block back -/

/-- The subpage that gets an element back is the only one of its class if it is kept with none in
use. -/
theorem Rings.freeElement_idle (hr : Rings k σ) (hp : σ.subpage s = some p)
    (hx : σ.chunk p.chunk = some x) (hd : p.doNotDestroy = true) {e : ℕ} {es : List ℕ}
    (he : p.Elements (e :: es)) (hi : i < k.sizes.nSubpages) (hsize : p.elemSize = sizeAt i) :
    Ends (PoolSubpage.free s (.head x.arena i) e) σ fun _ σ' => σ'.chunk = σ.chunk ∧
      (∀ s' ≠ s, σ'.subpage s' = σ.subpage s') ∧ ∃ p', σ'.subpage s = some p' ∧
        p'.chunk = p.chunk ∧ p'.elemSize = p.elemSize ∧
        (p'.Idle → ∀ s', Usable σ x.arena (sizeAt i) s' → s' = s) := by
  have htracks := (hr.sound s p hp hd).1.tracks he
  obtain ⟨b, hb, hlinked⟩ := hr.ringFor hp hx hd htracks.numAvail_nonneg hi hsize
  obtain ⟨p', y, z, htracks', hsame, -, -, hprev, hnext, hcall⟩ := PoolSubpage.free_eq hp
    htracks (hr.linkedWhenAvail hp hx hd htracks.numAvail_nonneg) hb nofun
  intro kept σ' hok
  rw [hcall] at hok
  split_ifs at hok with hretire
  · obtain ⟨-, rfl⟩ := Prod.mk.inj (Except.ok.inj hok)
    refine ⟨rfl, fun s' hs' => Function.update_of_ne hs' _ _, _, Function.update_self _ _ _,
      hsame.chunk, hsame.elemSize, fun hidle => ?_⟩
    cases hidle.1
  · obtain ⟨-, rfl⟩ := Prod.mk.inj (Except.ok.inj hok)
    refine ⟨rfl, fun s' hs' => Function.update_of_ne hs' _ _, _, Function.update_self _ _ _,
      hsame.chunk, hsame.elemSize, fun hidle s' hs' => ?_⟩
    -- its neighbours in the ring are the same, so the ring has no other
    have hcount := htracks'.elements.count
    have hyz : y = z := by
      by_contra hne
      have hle := hidle.2.2
      exact hretire ⟨by omega, hne⟩
    obtain ⟨ss, hpool, hss⟩ := hlinked.pool x.arena i hi
    have hmem : s ∈ ss := (hss s).mpr (.inr ⟨rfl, rfl, rfl⟩)
    have hmem' : s' ∈ ss := (hss s').mpr (.inl hs')
    have hone := hpool.eq_singleton (List.mem_map_of_mem hmem) (by rw [hprev, hnext, hyz])
    have hat : Node.subpage s' ∈ [Node.subpage s] := hone ▸ List.mem_map_of_mem hmem'
    exact Node.subpage.inj (List.mem_singleton.mp hat)

theorem Frugal.freeElement (h : Frugal σ) (hx : σ.chunk p.chunk = some x) (hsize : p.elemSize = sizeAt i) (hchunk : σ'.chunk = σ.chunk)
    (hother : ∀ s' ≠ s, σ'.subpage s' = σ.subpage s') (hp' : σ'.subpage s = some p')
    (hhome : p'.chunk = p.chunk) (helem : p'.elemSize = p.elemSize)
    (honly : p'.Idle → ∀ s', Usable σ x.arena (sizeAt i) s' → s' = s) : Frugal σ' := by
  have hback : ∀ {a size s'}, s' ≠ s → IdleIn σ' a size s' → IdleIn σ a size s' := by
    rintro a size s' hne ⟨q, y, hq, hy, hrest⟩
    exact ⟨q, y, by rw [← hother s' hne, hq], by rw [← hchunk, hy], hrest⟩
  have hself : ∀ {a size s'}, s' ≠ s → IdleIn σ' a size s → ¬ IdleIn σ' a size s' := by
    rintro a size s' hne ⟨q, y, hq, hy, ha, hqs, hidle⟩ hs'
    obtain rfl : p' = q := Option.some.inj (hp'.symm.trans hq)
    rw [hhome, hchunk, hx] at hy
    obtain rfl := Option.some.inj hy
    have husable := (hback hne hs').usable
    rw [← ha, ← hqs, helem, hsize] at husable
    exact hne (honly hidle s' husable)
  intro a size s₁ s₂ h₁ h₂
  by_cases hs₁ : s₁ = s
  · by_contra hne
    rw [hs₁] at h₁ hne
    exact hself hne h₁ h₂
  · by_cases hs₂ : s₂ = s
    · rw [hs₂] at h₂
      exact absurd h₁ (hself hs₁ h₂)
    · exact h a size s₁ s₂ (hback hs₁ h₁) (hback hs₂ h₂)

theorem Frugal.sameArenas (h : Frugal σ) (hsub : σ'.subpage = σ.subpage)
    (harena : ∀ d, (σ'.chunk d).map PoolChunk.arena = (σ.chunk d).map PoolChunk.arena) :
    Frugal σ' := by
  apply h.of_noNewIdle (noNewIdle_of_eq hsub)
  intro s p _ _ x' hx'
  have hsame := harena p.chunk
  rw [hx'] at hsame
  obtain ⟨x, hx, ha⟩ := Option.map_eq_some_iff.mp hsame.symm
  exact ⟨x, hx, ha.symm⟩

theorem Frugal.ends_freeRun (h : Frugal σ) (hx : σ.chunk c = some x) (handle : Int64)
    (buffer : Option Pointer) :
    Ends (PoolChunk.freeRun k c handle buffer) σ fun _ σ' => Frugal σ' := by
  refine ends_bind (ends_getChunk fun y hy => ends_bind (ends_check fun runs _ => ends_setChunk ?_))
  obtain rfl : x = y := Option.some.inj (hx.symm.trans hy)
  exact h.sameArenas rfl (map_arena_withChunk hx rfl)

theorem Frugal.ends_free (h : Frugal σ) (hh : Held k g σ (t :: T)) (hr : Rings k σ)
    (made : k.sizes.Made g) (buffer : Option Pointer) :
    Ends (PoolChunk.free k t.chunk t.handle t.cap buffer) σ fun _ σ' => Frugal σ' := by
  obtain ⟨x, hx⟩ := (hh.tokens t List.mem_cons_self).exists_chunk
  refine ends_ite (fun hsub => ?_) fun _ => h.ends_freeRun hx _ buffer
  obtain ⟨es, x', o, m, e, s, p, i, hel⟩ := Rings.element hh hr hsub
  obtain rfl : x = x' := Option.some.inj (hx.symm.trans hel.chunk)
  refine ends_bind (ends_getChunk fun y hy => ends_bind (ends_check fun sizeIdx hidx =>
    ends_bind (ends_check fun head hhead => ends_bind (ends_check fun slot hslot => ?_))))
  -- the class and the subpage are those of the element
  obtain rfl : x = y := Option.some.inj (hx.symm.trans hy)
  obtain rfl : i = sizeIdx := Except.ok.inj ((hel.sizeIdxOf made).symm.trans hidx)
  rw [findSubpagePoolHead, if_pos hel.small] at hhead
  obtain rfl := Except.ok.inj hhead
  obtain rfl : some s = slot := Except.ok.inj (hel.fetch.symm.trans hslot)
  refine ends_bind (ends_getSubpage fun _ _ => ends_bind (ends_assert fun _ => ?_))
  rw [hel.fields.decode.2.2.2.2 hel.index]
  have hpx : σ.chunk p.chunk = some x := by rw [hel.home, hx]
  refine ends_bind ((hr.freeElement_idle hel.subpage hpx hel.alive hel.elements hel.small
    hel.elemSize).mono ?_)
  rintro kept σ₁ ⟨hchunk, hother, p', hp', hhome, helem, honly⟩
  have h₁ : Frugal σ₁ :=
    h.freeElement hpx hel.elemSize hchunk hother hp' hhome helem honly
  refine ends_ite (fun _ => ends_pure h₁) fun _ => ?_
  refine ends_bind (ends_getSubpage fun _ _ => ends_bind (ends_assert fun _ => ?_))
  refine ends_bind (ends_getChunk fun y hy => ends_bind (ends_setChunk ?_))
  have h₂ : Frugal (σ₁.withChunk t.chunk { y with
      subpages := y.subpages.set (calculateRunOffset t.handle).toNat none }) :=
    h₁.sameArenas rfl (map_arena_withChunk hy rfl)
  exact h₂.ends_freeRun Pool.withChunk_chunk _ buffer

theorem Frugal.ends_destroyChunk (h : Frugal σ) (c : ChunkId) :
    Ends (PoolArena.destroyChunk c) σ fun _ σ' => Frugal σ' := by
  refine ends_bind (ends_getChunk fun x _ => ends_update (h.of_noNewIdle ?_ ?_))
  · intro s p hp hidle
    simp only at hp
    split_ifs at hp
    exact ⟨p, hp, hidle, rfl, rfl⟩
  · intro s p _ _ x' hx'
    simp only [Function.update_apply] at hx'
    split_ifs at hx'
    exact ⟨x', hx', rfl⟩

theorem Frugal.ends_freeChunk (h : Frugal σ) (hh : Held k g σ (t :: T)) (hr : Rings k σ)
    (made : k.sizes.Made g) (buffer : Option Pointer) :
    Ends (PoolArena.freeChunk k t.chunk t.handle t.cap buffer) σ fun _ σ' => Frugal σ' := by
  have hlists : ∀ {σ₁ σ₂ : Pool}, OnLists σ₁ σ₂ → Frugal σ₁ → Frugal σ₂ := fun hl h₁ =>
    h₁.sameArenas hl.sameStore.subpage fun d => by rw [hl.sameStore.chunk]
  refine ends_bind (ends_getChunk fun x _ => ends_bind (ends_bind (ends_getChunk fun _ _ =>
    ends_look ?_)))
  cases (σ.chunkLinks t.chunk).parent with
  | none => exact ends_fail _
  | some l =>
    have hfree : Ends (PoolChunkList.free k x.arena l t.chunk t.handle t.cap buffer) σ fun _ σ' =>
        Frugal σ' := by
      refine ends_bind ((h.ends_free hh hr made buffer).mono fun _ σ₁ h₁ => ?_)
      refine ends_bind (ends_getChunk fun y _ => ends_ite (fun _ => ?_) fun _ => ends_pure h₁)
      refine ends_bind (((within_remove x.arena l t.chunk).ends σ₁).mono fun _ σ₂ hrem => ?_)
      exact (ends_move0 x.arena 6 l σ₂).mono fun _ σ' hmove => hlists hmove.1 (hlists hrem h₁)
    refine ends_bind (hfree.mono fun kept σ₁ h₁ => ends_ite (fun _ => ends_pure h₁) fun _ => ?_)
    exact h₁.ends_destroyChunk t.chunk

/-! ### Runs of the machine -/

theorem Frugal.ends_allocateHuge (h : Frugal σ) (hh : Held k g σ T) (a : ArenaId) (capacity : ℤ) :
    Ends (PoolArena.allocateHuge k a b capacity) σ fun _ σ' => Frugal σ' := by
  refine ends_bind ((ends_newUnpooledChunk a capacity).mono ?_)
  rintro c σ₁ ⟨x, hn⟩
  have hpersists : Persists σ σ₁ := persists_new (by rw [← hn.name]; exact hn.chunk) hn.chunkCount
  have h₁ : Frugal σ₁ := h.persists hh (noNewIdle_of_eq hn.subpage) hpersists
  refine ends_bind (ends_assert fun _ => ends_bind (ends_getChunk fun _ _ =>
    ends_bind (ends_getBuf fun _ _ => ends_update ?_)))
  exact h₁.sameArenas rfl fun _ => rfl

theorem Frugal.ends_allocateUncached (h : Frugal σ) (hh : Held k g σ T) (made : k.sizes.Made g)
    (a : ArenaId) : Ends (PoolArena.allocateUncached k a th b req) σ fun _ σ' => Frugal σ' := by
  refine ends_bind (ends_check fun i _ => ends_ite (fun hi => ?_) fun _ => ends_ite (fun hi => ?_)
    fun _ => ends_bind (ends_check fun _ _ => h.ends_allocateHuge hh a _))
  · refine ((hh.allocateSmall made a (made.smallMax_lt hi).2).and (NoNewIdle.within_allocateSmall.ends σ)).mono ?_
    rintro _ σ' ⟨⟨t, -, hgives⟩, hidle⟩
    exact h.persists hh hidle hgives.persists
  · refine ((hh.allocateNormal made a hi).and (NoNewIdle.within_allocateNormal.ends σ)).mono ?_
    rintro _ σ' ⟨⟨t, -, hgives⟩, hidle⟩
    exact h.persists hh hidle hgives.persists

theorem Frugal.step {σ σ' : ArenaState} {act : ArenaAction} (made : k.sizes.Made g)
    (hinv : ArenaInv k g σ) (h : Frugal σ.pool) (hs : (arenaMachine k).step σ act = some σ') :
    Frugal σ'.pool := by
  cases act with
  | allocate a t b req =>
    obtain ⟨⟨_, pool⟩, hrun, rfl⟩ := Option.map_eq_some_iff.mp hs
    exact h.ends_allocateUncached hinv.held made a _ _ (toOption_eq_some.mp hrun)
  | freeChunk t buffer =>
    simp only [arenaMachine] at hs
    split_ifs at hs with ht
    obtain ⟨⟨_, pool⟩, hrun, rfl⟩ := Option.map_eq_some_iff.mp hs
    have hheld := hinv.held.perm (List.perm_cons_erase ht)
    exact h.ends_freeChunk hheld hinv.rings made buffer _ _ (toOption_eq_some.mp hrun)
  | destroyUnpooled c =>
    simp only [arenaMachine] at hs
    split_ifs at hs
    obtain ⟨⟨_, pool⟩, hrun, rfl⟩ := Option.map_eq_some_iff.mp hs
    exact h.ends_destroyChunk c _ _ (toOption_eq_some.mp hrun)
  | others threads bufs =>
    obtain rfl := Option.some.inj hs
    exact h.sameArenas rfl fun _ => rfl

theorem Frugal.reach {σ : ArenaState} (h : (arenaMachine k).Reach System.Free σ) :
    Frugal σ.pool := by
  induction h with
  | init hi =>
    rw [hi.2.1]
    rintro a size s s' ⟨p, x, hp, -⟩
    cases hp
  | step hreach _ hs ih =>
    obtain ⟨g, made, hinv⟩ := ArenaInv.reach hreach
    exact ih.step made hinv hs

/-! ### When every block has come back -/

/-- What is left in the arenas: a class has at most one subpage, a chunk has everything free but its
subpages, and not more chunks than there are small classes are kept outside `qInit`. -/
structure Quiet (k : Config) (σ : Pool) : Prop where
  pools : ∀ a i, i < k.sizes.nSubpages → ∃ size ss, k.sizes.sizeIdx2size i = .ok size ∧
    IsPool σ.ring a i ss ∧ ss.length ≤ 1 ∧ ∀ s p x, σ.subpage s = some p → p.doNotDestroy = true →
      p.elemSize = size → σ.chunk p.chunk = some x → x.arena = a → s ∈ ss
  free : ∀ c x, σ.chunk c = some x → x.unpooled = false → x.runs.freeBytes +
    ((x.subpages.flatMap (subBlock σ)).map Prod.snd).sum * 2 ^ k.sizes.pageShifts = k.sizes.chunkSize
  chunks : ∀ a (cs : List ChunkId), cs.Nodup → (∀ c ∈ cs, ∃ x, σ.chunk c = some x ∧
    x.unpooled = false ∧ x.arena = a ∧ (σ.chunkLinks c).parent ≠ some .qInit) →
    cs.length ≤ k.sizes.nSubpages

theorem Held.idle (hh : Held k g σ []) (hr : Rings k σ) (hp : σ.subpage s = some p)
    (hd : p.doNotDestroy = true) : p.Idle := by
  obtain ⟨x, hx, hs⟩ := hh.alive s p hp hd
  have hcount := (hh.subpageInv hx hs hp).elements.count
  have hpos := (hr.sound s p hp hd).1.roomy.some_elem
  simp only [elemsAt, List.filter_nil, List.map_nil, List.length_nil] at hcount
  exact ⟨hd, by omega, by omega⟩

theorem Held.cap_eq (hh : Held k g σ T) (ht : t ∈ T) (hrun : isSubpage t.handle = false) :
    t.cap = (span t.handle).2 * 2 ^ k.sizes.pageShifts := by
  cases hh.tokens t ht with
  | run x o p low i hx f hcap hi hsize => rw [hcap, f.span_eq]
  | elem x o p i s q hx f =>
    rw [f.decode.2.2.2.1] at hrun
    cases hrun

theorem sum_cap_eq {l : List Token} {n : ℤ} (h : ∀ t ∈ l, t.cap = (span t.handle).2 * n) :
    (l.map Token.cap).sum = ((l.map fun t => span t.handle).map Prod.snd).sum * n := by
  induction l with
  | nil => simp
  | cons t l ih =>
    have hrest := ih fun u hu => h u (List.mem_cons_of_mem t hu)
    simp only [List.map_cons, List.sum_cons, h t List.mem_cons_self, hrest]
    push_cast
    ring

theorem Held.bytes_eq (made : k.sizes.Made g) (hh : Held k g σ T) (hx : σ.chunk c = some x)
    (hpool : x.unpooled = false) : x.runs.freeBytes +
      ((x.subpages.flatMap (subBlock σ)).map Prod.snd).sum * 2 ^ k.sizes.pageShifts +
      ((T.filter (Token.isRunOf c)).map Token.cap).sum = k.sizes.chunkSize := by
  have hc := hh.chunks c x hx hpool
  have hsum := hc.runs.pageCount_eq
  have hsize : (k.sizes.chunkSize : ℤ) = g.pages * 2 ^ k.sizes.pageShifts := by
    rw [made.chunkSize, made.pageShifts, g.chunkSize_eq]
    push_cast
    rfl
  have hruns : ((T.filter (Token.isRunOf c)).map Token.cap).sum =
      (((T.filter (Token.isRunOf c)).map fun t => span t.handle).map Prod.snd).sum *
        2 ^ k.sizes.pageShifts := by
    refine sum_cap_eq fun t ht => ?_
    obtain ⟨hmem, hrun⟩ := List.mem_filter.mp ht
    simp only [Token.isRunOf, decide_eq_true_eq] at hrun
    exact hh.cap_eq hmem hrun.2
  simp only [heldBlocks, List.map_append, List.sum_append] at hsum
  rw [hc.bytes, hsize, hruns, ← hsum]
  push_cast
  ring

theorem Held.free_eq (made : k.sizes.Made g) (hh : Held k g σ []) (hx : σ.chunk c = some x)
    (hpool : x.unpooled = false) : x.runs.freeBytes +
      ((x.subpages.flatMap (subBlock σ)).map Prod.snd).sum * 2 ^ k.sizes.pageShifts =
        k.sizes.chunkSize := by
  have hsum := hh.bytes_eq made hx hpool
  rwa [List.filter_nil, List.map_nil, List.sum_nil, add_zero] at hsum

theorem Held.exists_idle (hk : DefaultGeometry k) (made : k.sizes.Made g) (hh : Held k g σ [])
    (hr : Rings k σ) (hres : Resident k σ) (hx : σ.chunk c = some x) (hpool : x.unpooled = false)
    (hl : (σ.chunkLinks c).parent ≠ some .qInit) : ∃ i < k.sizes.nSubpages, ∃ s p,
      σ.subpage s = some p ∧ p.chunk = c ∧ IdleIn σ x.arena (sizeAt i) s := by
  obtain ⟨l, hparent, hwin⟩ := hres.window c x trivial hx hpool
  have hless : k.freeMaxThreshold l < k.sizes.chunkSize := by
    rw [hk.freeMaxThreshold, hk.chunkSize]
    cases l with
    | qInit => exact absurd hparent hl
    | _ => decide
  have hfree := hh.free_eq made hx hpool
  have hne : x.subpages.flatMap (subBlock σ) ≠ [] := by
    intro hnil
    rw [hnil] at hfree
    simp only [List.map_nil, List.sum_nil] at hfree
    have := hwin.2
    omega
  obtain ⟨o, ho⟩ := List.exists_mem_of_ne_nil _ hne
  obtain ⟨slot, hslot, ho⟩ := List.mem_flatMap.mp ho
  cases slot with
  | none => cases ho
  | some s =>
    obtain ⟨n, hn⟩ := List.mem_iff_getElem?.mp hslot
    obtain ⟨p, hp, hpinv⟩ := (hh.chunks c x hx hpool).subs n s hn
    obtain ⟨-, i, hi, hsize⟩ := hr.sound s p hp hpinv.doNotDestroy
    have hpx : σ.chunk p.chunk = some x := by rw [hpinv.chunk, hx]
    exact ⟨i, hi, s, p, hp, hpinv.chunk, p, x, hp, hpx, rfl, hsize, hh.idle hr hp hpinv.doNotDestroy⟩

/-- In every run of arenas of the default geometry, whenever nothing is out. -/
theorem memory_returned (hk : DefaultGeometry k) {σ : ArenaState}
    (h : (arenaMachine k).Reach System.Free σ) (hout : σ.out = []) : Quiet k σ.pool := by
  obtain ⟨g, made, hinv⟩ := ArenaInv.reach h
  have hfrugal := Frugal.reach h
  have hres := Resident.reach hk.windows h
  have hheld : Held k g σ.pool [] := hout ▸ hinv.held
  refine ⟨fun a i hi => ?_, fun c x hx hpool => hheld.free_eq made hx hpool, fun a cs hnodup hcs => ?_⟩
  · obtain ⟨ss, hpool, hss⟩ := hinv.rings.linked.pool a i hi
    have hi' : i < k.sizes.nSizes := by
      have := made.nSubpages
      have := made.nSizes
      omega
    refine ⟨sizeAt i, ss, made.sizeIdx2size hi', hpool, ?_, fun s p x hp hd hsize hx ha => ?_⟩
    · -- two members would both be without an element in use
      have hidle : ∀ s ∈ ss, IdleIn σ.pool a (sizeAt i) s := by
        intro s hs
        obtain ⟨p, x, hp, hx, ha, hd, -, hsize⟩ := (hss s).mp hs
        exact ⟨p, x, hp, hx, ha, hsize, hheld.idle hinv.rings hp hd⟩
      have hnodup : ss.Nodup := (List.nodup_cons.mp hpool.nodup).2.of_map _
      match ss, hidle, hnodup with
      | [], _, _ => exact Nat.zero_le _
      | [_], _, _ => exact le_rfl
      | s :: s' :: ss, hidle, hnodup =>
        have heq := hfrugal a _ s s' (hidle s (by simp)) (hidle s' (by simp))
        simp [heq] at hnodup
    · have hidle := hheld.idle hinv.rings hp hd
      exact (hss s).mpr ⟨p, x, hp, hx, ha, hd, hidle.2.1, hsize⟩
  · -- the chunks are counted by the classes of their subpages
    have hclass : ∀ c, ∃ i, c ∈ cs → i < k.sizes.nSubpages ∧ ∃ s p, σ.pool.subpage s = some p ∧
        p.chunk = c ∧ IdleIn σ.pool a (sizeAt i) s := by
      intro c
      by_cases hc : c ∈ cs
      · obtain ⟨x, hx, hpool, rfl, hl⟩ := hcs c hc
        obtain ⟨i, hi, hidle⟩ := hheld.exists_idle hk made hinv.rings hres hx hpool hl
        exact ⟨i, fun _ => ⟨hi, hidle⟩⟩
      · exact ⟨0, fun hmem => absurd hmem hc⟩
    choose f hf using hclass
    have hinj : ∀ c ∈ cs, ∀ d ∈ cs, f c = f d → c = d := by
      intro c hc d hd heq
      obtain ⟨-, s, p, hp, rfl, hs⟩ := hf c hc
      obtain ⟨-, s', p', hp', rfl, hs'⟩ := hf d hd
      rw [← heq] at hs'
      obtain rfl := hfrugal a _ s s' hs hs'
      rw [Option.some.inj (hp.symm.trans hp')]
    have hsub : cs.map f ⊆ List.range k.sizes.nSubpages := by
      intro i hi
      obtain ⟨c, hc, rfl⟩ := List.mem_map.mp hi
      exact List.mem_range.mpr (hf c hc).1
    have hlen := ((hnodup.map_on hinj).subperm hsub).length_le
    rwa [List.length_map, List.length_range] at hlen

/-- A block of 5 MiB and one of 2000 bytes have come back; the subpage keeps their chunk on the second
list. -/
theorem memory_returned_two_blocks : ∃ σ, (arenaMachine defaultConfig).Reach System.Free σ ∧
    σ.out = [] ∧ (σ.pool.chunkLinks 0).parent = some .q000 ∧ (σ.pool.chunk 0).isSome = true ∧
    Quiet defaultConfig σ.pool := by
  obtain ⟨σ, -, hreach, hp⟩ := System.exists_reach (M := arenaMachine defaultConfig)
    (G := System.Free)
    [.others [] [PooledByteBuf.new, PooledByteBuf.new], .allocate 0 0 0 5242880, .allocate 0 0 1 2000,
      .freeChunk ⟨0, 11003706212352, 5242880⟩ none, .freeChunk ⟨0, 360288000254410752, 2048⟩ none]
    (fun σ => σ.out = [] ∧ (σ.pool.chunkLinks 0).parent = some .q000 ∧
      (σ.pool.chunk 0).isSome = true)
    (s := ⟨Pool.initial, []⟩)
    ⟨⟨8192, 11, by norm_num, defaultConfig_geometry.sizes⟩, rfl, rfl⟩
    (by rw [defaultConfig_eq]; decide +kernel)
  obtain ⟨hout, hparent, hthere⟩ := of_decide_eq_true hp
  exact ⟨σ, hreach, hout, hparent, hthere, memory_returned defaultConfig_geometry hreach hout⟩

end Mutty.Buffer
