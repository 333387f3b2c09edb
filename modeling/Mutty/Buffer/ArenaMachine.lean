import Mutty.Buffer.ArenaOps
import Mutty.Buffer.BufferOps

/-!
# The arenas below the thread caches

`arenaMachine` runs the code of the arenas that works on chunks: an allocation once the cache of the
thread has nothing, and `freeChunk` for a block that is not put into a cache. A block is out from
the one to the other, whether a buffer has it or a cache; so threads and buffers may change in any
way in between. Along every run the rings hold exactly the usable subpages, and no assertion about
them fails.
-/

namespace Mutty.Buffer

open Mutty.Lib Prog

variable {k : Config} {g : Geometry} {σ σ' : Pool} {T : List Token} {c : ChunkId} {x : PoolChunk}
  {t : Token} {a : ArenaId} {b : BufId} {th : ThreadId} {req : ℤ} {s : SubpageId} {i : ℕ}

/-- `allocateFor` when the cache of the thread has nothing. -/
def PoolArena.allocateUncached (k : Config) (a : ArenaId) (t : ThreadId) (b : BufId)
    (reqCapacity : ℤ) : PoolM Unit := do
  let sizeIdx ← check (sizeIdxOf k reqCapacity)
  if sizeIdx ≤ k.sizes.smallMaxSizeIdx then allocateSmall k a b reqCapacity sizeIdx t
  else if sizeIdx < k.sizes.nSizes then allocateNormal k a b reqCapacity sizeIdx t
  else do
    let normCapacity ← check (k.sizes.normalizeSize reqCapacity)
    allocateHuge k a b normCapacity

/-- The pool and the blocks of pooled chunks that are out. -/
structure ArenaState where
  pool : Pool
  out : List Token

inductive ArenaAction
  | allocate (a : ArenaId) (t : ThreadId) (b : BufId) (reqCapacity : ℤ)
  | freeChunk (t : Token) (buffer : Option Pointer)
  | destroyUnpooled (c : ChunkId)
  | others (threads : List Thread) (bufs : List PooledByteBuf)

/-- The block that buffer `b` has, unless it has a chunk of its own. -/
def handedOut (σ : Pool) (b : BufId) : List Token :=
  (σ.bufs[b]?.toList.flatMap PooledByteBuf.tokens).filter fun t =>
    (σ.chunk t.chunk).any fun x => !x.unpooled

/-- Any calls on any arenas, from their construction on. A page size is an `int`. -/
def arenaMachine (k : Config) : System ArenaState ArenaAction where
  init σ := (∃ pageSize maxOrder, pageSize < 2 ^ 31 ∧ arenaSizes pageSize maxOrder = .ok k.sizes) ∧
    σ.pool = Pool.initial ∧ σ.out = []
  step σ
    | .allocate a t b reqCapacity =>
      (PoolArena.allocateUncached k a t b reqCapacity σ.pool).toOption.map fun (r : Unit × Pool) =>
        { pool := r.2, out := handedOut r.2 b ++ σ.out }
    | .freeChunk t buffer =>
      if t ∈ σ.out then
        (PoolArena.freeChunk k t.chunk t.handle t.cap buffer σ.pool).toOption.map
          fun (r : Unit × Pool) => { pool := r.2, out := σ.out.erase t }
      else none
    | .destroyUnpooled c =>
      if (σ.pool.chunk c).any PoolChunk.unpooled = true then
        (PoolArena.destroyChunk c σ.pool).toOption.map fun (r : Unit × Pool) =>
          { pool := r.2, out := σ.out }
      else none
    | .others threads bufs =>
      some { pool := { σ.pool with threads := threads, bufs := bufs }, out := σ.out }

/-! ### Runs of the machine -/

theorem NewUnpooled.rings (hn : NewUnpooled σ c x σ') (hh : Held k g σ T) (hr : Rings k σ) :
    Rings k σ' := hr.newChunk hh hn.name hn.chunk hn.subpage hn.ring

theorem Rings.others (hr : Rings k σ) (threads : List Thread) (bufs : List PooledByteBuf) :
    Rings k { σ with threads := threads, bufs := bufs } := hr.frame rfl rfl fun _ _ _ _ => rfl

structure ArenaInv (k : Config) (g : Geometry) (σ : ArenaState) : Prop where
  held : Held k g σ.pool σ.out
  rings : Rings k σ.pool

theorem Gives.handedOut_eq (h : Gives k g T b req th t σ σ') : handedOut σ' b = [t] := by
  obtain ⟨buf, hbuf, hbufs⟩ := h.bufs
  have hat : σ'.bufs[b]? = some (buf.filled k t req th none) := by
    rw [hbufs, List.getElem?_set_self (List.getElem?_eq_some_iff.mp hbuf).1]
  obtain ⟨x, hx⟩ := (h.held.tokens t List.mem_cons_self).exists_chunk
  have hpool := h.held.pooled_of_token List.mem_cons_self hx
  simp [handedOut, hat, PooledByteBuf.tokens, PooledByteBuf.filled, hx, hpool]

theorem ArenaInv.allocateHuge {σ : ArenaState} (h : ArenaInv k g σ) (a : ArenaId) (capacity : ℤ) :
    Ends (PoolArena.allocateHuge k a b capacity) σ.pool fun _ pool =>
      ArenaInv k g { pool := pool, out := handedOut pool b ++ σ.out } := by
  refine ends_bind ((ends_newUnpooledChunk a capacity).mono ?_)
  rintro c σ₁ ⟨x, hn⟩
  refine ends_bind (ends_assert fun _ => ends_bind (ends_getChunk fun y hy =>
    ends_bind (ends_getBuf fun buf hbuf => ends_update ?_)))
  obtain rfl : x = y := by
    rw [hn.chunk, Function.update_self] at hy
    exact Option.some.inj hy
  have hnone : ∀ d : PooledByteBuf, d.chunk = some c →
      handedOut { σ₁ with bufs := σ₁.bufs.set b d } b = [] := by
    intro d hd
    have hlt := (List.getElem?_eq_some_iff.mp hbuf).1
    simp [handedOut, List.getElem?_set_self hlt, PooledByteBuf.tokens, hd, hy, hn.unpooled]
  rw [hnone _ rfl, List.nil_append]
  exact ⟨(h.held.newUnpooled hn).of_eq rfl rfl rfl rfl, (hn.rings h.held h.rings).others _ _⟩

theorem ArenaInv.allocate {σ : ArenaState} (made : k.sizes.Made g) (h : ArenaInv k g σ) (a : ArenaId) :
    Ends (PoolArena.allocateUncached k a th b req) σ.pool fun _ pool =>
      ArenaInv k g { pool := pool, out := handedOut pool b ++ σ.out } := by
  refine ends_bind (ends_check fun i _ => ends_ite (fun hi => ?_) fun _ => ends_ite (fun hi => ?_)
    fun _ => ends_bind (ends_check fun _ _ => h.allocateHuge a _))
  · refine ((h.held.allocateSmall made a (made.smallMax_lt hi).2).and
      (h.rings.ends_allocateSmall made h.held hi a)).mono ?_
    rintro _ pool ⟨⟨t, -, hgives⟩, hr⟩
    rw [hgives.handedOut_eq]
    exact ⟨hgives.held, hr⟩
  · refine ((h.held.allocateNormal made a hi).and
      (h.rings.ends_allocateNormal made h.held hi a)).mono ?_
    rintro _ pool ⟨⟨t, -, hgives⟩, hr⟩
    rw [hgives.handedOut_eq]
    exact ⟨hgives.held, hr⟩

theorem ArenaInv.freeChunk {σ : ArenaState} (made : k.sizes.Made g) (h : ArenaInv k g σ)
    (ht : t ∈ σ.out) (buffer : Option Pointer) :
    Ends (PoolArena.freeChunk k t.chunk t.handle t.cap buffer) σ.pool fun _ pool =>
      ArenaInv k g { pool := pool, out := σ.out.erase t } := by
  have hheld := h.held.perm (List.perm_cons_erase ht)
  exact ((hheld.freeChunk made buffer).and (h.rings.ends_freeChunk made hheld buffer)).mono
    fun _ pool hend => ⟨hend.1.2, hend.2⟩

theorem ArenaInv.destroyUnpooled {σ : ArenaState} (h : ArenaInv k g σ)
    (hx : σ.pool.chunk c = some x) (hun : x.unpooled = true) :
    Ends (PoolArena.destroyChunk c) σ.pool fun _ pool =>
      ArenaInv k g { pool := pool, out := σ.out } := by
  refine ends_bind (ends_getChunk fun y hy => ends_update ?_)
  obtain rfl : x = y := Option.some.inj (hx.symm.trans hy)
  have hinv := h.held.unpooled c x hx hun
  exact ⟨h.held.destroyChunk hx hinv.no_slot hinv.tokens rfl rfl rfl rfl,
    h.rings.destroyChunk h.held hx hinv.no_slot⟩

theorem ArenaInv.step {σ σ' : ArenaState} {act : ArenaAction} (made : k.sizes.Made g)
    (h : ArenaInv k g σ) (hs : (arenaMachine k).step σ act = some σ') : ArenaInv k g σ' := by
  cases act with
  | allocate a t b req =>
    obtain ⟨⟨_, pool⟩, hrun, rfl⟩ := Option.map_eq_some_iff.mp hs
    exact h.allocate made a _ _ (toOption_eq_some.mp hrun)
  | freeChunk t buffer =>
    simp only [arenaMachine] at hs
    split_ifs at hs with ht
    obtain ⟨⟨_, pool⟩, hrun, rfl⟩ := Option.map_eq_some_iff.mp hs
    exact h.freeChunk made ht buffer _ _ (toOption_eq_some.mp hrun)
  | destroyUnpooled c =>
    simp only [arenaMachine] at hs
    split_ifs at hs with hc
    obtain ⟨x, hx, hun⟩ := (Option.any_eq_true _ _).mp hc
    obtain ⟨⟨_, pool⟩, hrun, rfl⟩ := Option.map_eq_some_iff.mp hs
    exact h.destroyUnpooled hx hun _ _ (toOption_eq_some.mp hrun)
  | others threads bufs =>
    obtain rfl := Option.some.inj hs
    exact ⟨h.held.of_eq rfl rfl rfl rfl, h.rings.others threads bufs⟩

theorem Pool.initial_rings : Rings k Pool.initial where
  linked :=
    { pool := fun a i _ => ⟨[], ⟨List.nodup_singleton _, trivial, rfl, rfl⟩, fun s => by
        simp [Usable, Pool.initial]⟩
      one := by
        rintro a i a' i' s ⟨p, x, hp, -⟩
        cases hp
      unlinked := fun s hs => by cases hs }
  sound := by
    intro s p hp
    cases hp

theorem ArenaInv.reach {σ : ArenaState} (h : (arenaMachine k).Reach System.Free σ) :
    ∃ g, k.sizes.Made g ∧ ArenaInv k g σ := by
  induction h with
  | @init σ hi =>
    obtain ⟨⟨pageSize, maxOrder, hint, hsizes⟩, hpool, hout⟩ := hi
    obtain ⟨g, made, -⟩ := arenaSizes_made hint hsizes
    refine ⟨g, made, ?_, ?_⟩
    · rw [hpool, hout]
      exact Pool.initial_held
    · rw [hpool]
      exact Pool.initial_rings
  | step _ _ hs ih =>
    obtain ⟨g, made, hinv⟩ := ih
    exact ⟨g, made, hinv.step made hs⟩

/-! ### The pools of the size classes -/

/-- The subpage `s` of class `i` that `PoolChunk.free` asks to take the element `t` back. -/
structure FreesTo (k : Config) (σ : Pool) (t : Token) (x : PoolChunk) (i : ℕ) (s : SubpageId) :
    Prop where
  element : isSubpage t.handle = true
  chunk : σ.chunk t.chunk = some x
  sizeIdx : sizeIdxOf k t.cap = .ok i
  slot : fetchInt x.subpages (calculateRunOffset t.handle) = .ok (some s)

/-- The size classes of a state: their rings, what becomes of a subpage that is given up, and the
assertions on the way of a small block out of the arena and back. -/
structure SubpagePools (k : Config) (σ : ArenaState) : Prop where
  ring : ∀ a i, i < k.sizes.nSubpages → ∃ size ss, k.sizes.sizeIdx2size i = .ok size ∧
    IsPool σ.pool.ring a i ss ∧ ∀ s, s ∈ ss ↔ Usable σ.pool a size s
  destroyed : ∀ t ∈ σ.out, ∀ x i s, FreesTo k σ.pool t x i s → ∀ pool,
    PoolSubpage.free s (.head x.arena i) (calculateBitmapIdx t.handle) σ.pool = .ok (false, pool) →
    (∃ q, pool.subpage s = some q ∧ q.numAvail = q.maxNumElems ∧ ∀ j, q.bit j = false) ∧
      ∃ ss, IsPool pool.ring x.arena i ss ∧ ss ≠ [] ∧ s ∉ ss
  free : ∀ t ∈ σ.out, ∀ buffer,
    ∃ pool, PoolChunk.free k t.chunk t.handle t.cap buffer σ.pool = .ok ((), pool)
  allocate : ∀ (a : ArenaId) (th : ThreadId) (b : BufId) req i, sizeIdxOf k req = .ok i →
    i ≤ k.sizes.smallMaxSizeIdx →
    PoolArena.allocateSmall k a b req i th σ.pool = .error .assertion → RunFails k σ.pool i

theorem GivenUp.ring (h : GivenUp σ a (sizeAt i) s) (hr : Rings k σ) (hi : i < k.sizes.nSubpages) :
    ∃ ss, IsPool σ.ring a i ss ∧ ss ≠ [] ∧ s ∉ ss := by
  obtain ⟨ss, hpool, hss⟩ := hr.linked.pool a i hi
  obtain ⟨s', -, hs'⟩ := h.another
  refine ⟨ss, hpool, List.ne_nil_of_mem ((hss s').mpr hs'), fun hmem => ?_⟩
  obtain ⟨p, x, hp, -, -, hd, -⟩ := (hss s).mp hmem
  obtain ⟨q, hq, hdead, -⟩ := h.empty
  obtain rfl : p = q := Option.some.inj (hp.symm.trans hq)
  rw [hdead] at hd
  cases hd

theorem ArenaInv.destroyed {σ : ArenaState} (made : k.sizes.Made g) (h : ArenaInv k g σ)
    (ht : t ∈ σ.out) (hf : FreesTo k σ.pool t x i s) {pool : Pool}
    (hcall : PoolSubpage.free s (.head x.arena i) (calculateBitmapIdx t.handle) σ.pool =
      .ok (false, pool)) :
    (∃ q, pool.subpage s = some q ∧ q.numAvail = q.maxNumElems ∧ ∀ j, q.bit j = false) ∧
      ∃ ss, IsPool pool.ring x.arena i ss ∧ ss ≠ [] ∧ s ∉ ss := by
  have hheld := h.held.perm (List.perm_cons_erase ht)
  obtain ⟨es, y, o, m, e, s', p, j, hel⟩ := Rings.element hheld h.rings hf.element
  -- the class and the subpage are the ones that `PoolChunk.free` finds
  obtain rfl : x = y := Option.some.inj (hf.chunk.symm.trans hel.chunk)
  obtain rfl : j = i := Except.ok.inj ((hel.sizeIdxOf made).symm.trans hf.sizeIdx)
  obtain rfl : s' = s := Option.some.inj (Except.ok.inj (hel.fetch.symm.trans hf.slot))
  rw [hel.fields.decode.2.2.2.2 hel.index] at hcall
  obtain ⟨kept, σ', hcall', hr', hgone⟩ := hel.free h.rings
  obtain ⟨rfl, rfl⟩ := Prod.mk.inj (Except.ok.inj (hcall'.symm.trans hcall))
  obtain ⟨q, hq, -, hempty⟩ := (hgone rfl).empty
  exact ⟨⟨q, hq, hempty⟩, (hgone rfl).ring hr' hel.small⟩

theorem SizeClasses.Made.le_sizeAt (made : k.sizes.Made g)
    (hidx : Buffer.sizeIdxOf k req = .ok i) (hi : i < k.sizes.nSizes) : req ≤ sizeAt i := by
  have h0 : 0 ≤ req := by
    by_contra hneg
    rw [Buffer.sizeIdxOf, if_pos (not_le.mp hneg)] at hidx
    cases hidx
  by_cases hle : req ≤ k.sizes.chunkSize
  · obtain ⟨j, hj, -, hreq, -⟩ := made.sizeIdxOf h0 hle
    obtain rfl : i = j := Except.ok.inj (hidx.symm.trans hj)
    exact hreq
  · -- beyond a chunk the answer is `nSizes`
    have hlarge : k.sizes.chunkSize < req.toNat := by omega
    rw [Buffer.sizeIdxOf, if_neg (not_lt.mpr h0), SizeClasses.size2SizeIdx, if_neg (by omega),
      if_pos hlarge] at hidx
    exact absurd (Except.ok.inj hidx).symm hi.ne

/-- In every run the rings have exactly the usable subpages, a subpage is only given up when all
its elements are free and another one is left, and small blocks trip no assertion of the subpages. -/
theorem pools_hold_usable {σ : ArenaState} (h : (arenaMachine k).Reach System.Free σ) :
    SubpagePools k σ := by
  obtain ⟨g, made, hinv⟩ := ArenaInv.reach h
  refine ⟨fun a i hi => ?_, ?_, fun t ht buffer => ?_, ?_⟩
  · have hi' : i < k.sizes.nSizes := by
      have := made.nSubpages
      have := made.nSizes
      omega
    obtain ⟨ss, hpool, hss⟩ := hinv.rings.linked.pool a i hi
    exact ⟨sizeAt i, ss, made.sizeIdx2size hi', hpool, hss⟩
  · exact fun t ht x i s hf pool hcall => hinv.destroyed made ht hf hcall
  · obtain ⟨pool, hfree, -⟩ := hinv.rings.freeBlock made (hinv.held.perm (List.perm_cons_erase ht)) buffer
    exact ⟨pool, hfree⟩
  · intro a th b req i hidx hi hfail
    exact hinv.rings.safe_allocateSmall made hinv.held hi (made.le_sizeAt hidx (made.smallMax_lt hi).2) a _ hfail rfl

/-- Three blocks of 2048 bytes: the first subpage is full, the second has one element left. -/
theorem pools_hold_usable_three : ∃ σ, (arenaMachine smallConfig).Reach System.Free σ ∧
    σ.out.length = 3 ∧ (σ.pool.subpage 0).map PoolSubpage.numAvail = some 0 ∧
    (σ.pool.subpage 1).map PoolSubpage.numAvail = some 1 ∧ SubpagePools smallConfig σ := by
  obtain ⟨σ, -, hreach, hp⟩ := System.exists_reach (M := arenaMachine smallConfig)
    (G := System.Free)
    [.others [] (List.replicate 3 PooledByteBuf.new), .allocate 0 0 0 2000, .allocate 0 0 1 2000,
      .allocate 0 0 2 2000]
    (fun σ => σ.out.length = 3 ∧ (σ.pool.subpage 0).map PoolSubpage.numAvail = some 0 ∧
      (σ.pool.subpage 1).map PoolSubpage.numAvail = some 1)
    (s := ⟨Pool.initial, []⟩) ⟨smallConfig_init.1, rfl, rfl⟩ (by rw [smallConfig_eq]; decide +kernel)
  obtain ⟨hout, hfull, hone⟩ := of_decide_eq_true hp
  exact ⟨σ, hreach, hout, hfull, hone, pools_hold_usable hreach⟩

end Mutty.Buffer
