import Mutty.Buffer.UsageLists
import Mutty.Buffer.ArenaMachine

/-!
# Where the chunks of an arena are

With the thresholds of the default geometry the windows of the usage lists fit together. So every
call of the arena leaves each pooled chunk on one list, in whose window it is, and the code that moves
chunks between the lists neither fails at an assertion nor follows a null pointer. A chunk that
is destroyed on the way has nothing out.
-/

namespace Mutty.Buffer

open Mutty.Lib Prog ChunkLinks

variable {k : Config} {g : Geometry} {σ σ' : Pool} {T : List Token} {c : ChunkId} {x : PoolChunk}
  {t : Token} {a : ArenaId} {l : ListKind} {b : BufId} {th : ThreadId} {req : ℤ} {i : ℕ}

theorem Held.movable (made : k.sizes.Made g) (hh : Held k g σ T) (hx : σ.chunk c = some x)
    (hpool : x.unpooled = false) : Movable k σ c x := by
  have hc := hh.chunks c x hx hpool
  have hsize : (k.sizes.chunkSize : ℤ) = g.pages * 2 ^ k.sizes.pageShifts := by
    rw [made.chunkSize, made.pageShifts, g.chunkSize_eq]
    push_cast
    rfl
  have hcount : 0 ≤ x.runs.pageCount := by
    rw [hc.runs.pageCount_cast]
    exact Int.natCast_nonneg _
  have hpos : (0 : ℤ) < 2 ^ k.sizes.pageShifts := by positivity
  refine ⟨hx, hpool, hc.chunkSize, ?_, ?_, ?_⟩
  · rw [hc.bytes]
    positivity
  · have hsum := hc.runs.pageCount_eq
    rw [hc.bytes, hsize]
    exact mul_le_mul_of_nonneg_right (by omega) hpos.le
  · have := g.pages_pos
    rw [hc.chunkSize, hsize]
    positivity

/-! ### Giving a block back -/

theorem Moving.destroy (h : Moving k c σ) (hchunk : σ'.chunk = Function.update σ.chunk c none)
    (hlinks : σ'.chunkLinks = σ.chunkLinks) (hhead : σ'.listHead = σ.listHead) : Resident k σ' where
  listed := by
    rw [hlinks, hhead]
    refine h.listed.of_iff (fun a l d => ?_) fun _ _ _ _ => rfl
    rw [true_and]
    by_cases hd : d = c
    · refine iff_of_false ?_ fun hmem => hmem.1 hd
      rintro ⟨x, hx, -⟩
      rw [hd, hchunk, Function.update_self] at hx
      cases hx
    · simp only [ne_eq, hd, not_false_eq_true, true_and]
      refine belongsTo_congr (by rw [hlinks]) ?_
      rw [hchunk, Function.update_of_ne hd]
  window d y _ hy hpool := by
    have hd : d ≠ c := by
      rintro rfl
      rw [hchunk, Function.update_self] at hy
      cases hy
    rw [hchunk, Function.update_of_ne hd] at hy
    rw [hlinks]
    exact h.window d y hd hy hpool

theorem Resident.freeInList (hw : Windows k) (made : k.sizes.Made g) (hh : Held k g σ (t :: T))
    (hr : Rings k σ) (h : Resident k σ) (hx : σ.chunk t.chunk = some x)
    (hl : (σ.chunkLinks t.chunk).parent = some l)
    (hwin : Window k l x.runs.freeBytes) (buffer : Option Pointer) :
    ∃ kept σ', PoolChunkList.free k x.arena l t.chunk t.handle t.cap buffer σ = .ok (kept, σ') ∧
      (kept = true ∧ Resident k σ' ∨
        kept = false ∧ Moving k t.chunk σ' ∧ ∃ y, σ'.chunk t.chunk = some y) := by
  obtain ⟨σ₁, hfree, -⟩ := hr.freeBlock made hh buffer
  obtain ⟨hworks, -, hheld⟩ := hh.free made buffer _ _ hfree
  obtain ⟨x', y, hx', hy, harena, hun, -, hle⟩ := hworks.chunk
  obtain rfl : x = x' := Option.some.inj (hx.symm.trans hx')
  have hpool : y.unpooled = false := hun.trans (hh.pooled_of_token List.mem_cons_self hx)
  have hmov := hheld.movable made hy hpool
  have hplaced : Placed k (fun _ => True) (· ≠ t.chunk) σ₁ := h.works hworks fun d hd => ⟨trivial, hd⟩
  have hl₁ : (σ₁.chunkLinks t.chunk).parent = some l := by rw [hworks.chunkLinks, hl]
  rw [PoolChunkList.free, run_bind hfree, run_bind (getChunk_eq hy), ← harena]
  by_cases hmore : y.runs.freeBytes > k.freeMaxThreshold l
  · obtain ⟨σ₂, hrem, ho, hm⟩ := hplaced.remove hy hpool hl₁
    obtain ⟨kept, σ₃, hmove, ho', hres⟩ := hm.move0 hw (hmov.of_onLists ho) 6 hmore
      (by cases l <;> decide)
    rw [if_pos hmore, run_bind hrem, hmove]
    refine ⟨kept, σ₃, rfl, hres.imp id ?_⟩
    rintro ⟨hkept, rfl⟩
    exact ⟨hkept, hm, y, (hmov.of_onLists ho).chunk⟩
  · rw [if_neg hmore]
    exact ⟨true, σ₁, rfl, .inl ⟨rfl, hplaced.settle hy hl₁ ⟨hwin.1.trans_le hle, not_lt.mp hmore⟩⟩⟩

theorem Resident.freeChunk (hw : Windows k) (made : k.sizes.Made g) (hh : Held k g σ (t :: T))
    (hr : Rings k σ) (h : Resident k σ) (buffer : Option Pointer) :
    ∃ σ', PoolArena.freeChunk k t.chunk t.handle t.cap buffer σ = .ok ((), σ') ∧ Resident k σ' := by
  obtain ⟨x, hx⟩ := (hh.tokens t List.mem_cons_self).exists_chunk
  obtain ⟨l, hl, hwin⟩ := h.window _ x trivial hx (hh.pooled_of_token List.mem_cons_self hx)
  obtain ⟨kept, σ', hfree, hend⟩ := h.freeInList hw made hh hr hx hl hwin buffer
  rw [PoolArena.freeChunk, run_bind (getChunk_eq hx), run_bind (getLinks_eq hx), hl]
  simp only
  rw [run_bind hfree]
  rcases hend with ⟨rfl, hres⟩ | ⟨rfl, hmov, y, hy⟩
  · exact ⟨σ', rfl, hres⟩
  · have hdestroy : PoolArena.destroyChunk t.chunk σ' = .ok ((), { σ' with
        chunk := Function.update σ'.chunk t.chunk none
        subpage := fun s => if some s ∈ y.subpages then none else σ'.subpage s }) := by
      rw [PoolArena.destroyChunk, run_bind (getChunk_eq hy)]
      rfl
    exact ⟨_, hdestroy, hmov.destroy rfl rfl rfl⟩

/-! ### Taking a block -/

/-- `PoolChunk.allocate` fails, on a chunk of the pool or on a new one. -/
def AllocateFails (k : Config) (a : ArenaId) (b : BufId) (req : ℤ) (i : ℕ) (th : ThreadId) (σ : Pool)
    (e : Fault) : Prop :=
  (∃ c x, σ.chunk c = some x ∧ PoolChunk.allocate k c b req i th σ = .error e) ∨
    ∃ c σ₁, PoolArena.newChunk k a σ = .ok (c, σ₁) ∧
      PoolChunk.allocate k c b req i th σ₁ = .error e

/-- A program of the arena fails where a chunk does, or ends with every chunk where it belongs. -/
def KeepsResident {α : Type} (k : Config) (a : ArenaId) (b : BufId) (req : ℤ) (i : ℕ) (th : ThreadId)
    (p : PoolM α) (σ : Pool) : Prop :=
  (∃ r σ', p σ = .ok (r, σ') ∧ Resident k σ') ∨
    ∃ e, p σ = .error e ∧ AllocateFails k a b req i th σ e

theorem Resident.allocateFrom (hw : Windows k) (made : k.sizes.Made g) (hh : Held k g σ T)
    (h : Resident k σ) (hi : i < k.sizes.nSizes) {cs pre suf : List ChunkId} {head : Option ChunkId}
    (hlist : IsList σ.chunkLinks head l cs) (hcs : ∀ c, c ∈ cs ↔ BelongsTo σ a l c)
    (hsplit : cs = pre ++ suf) {n : ℕ} (hn : suf.length ≤ n) :
    KeepsResident k a b req i th (PoolChunkList.allocateFrom k a l b req i th n suf.head?) σ := by
  induction suf generalizing pre n with
  | nil =>
    refine .inl ⟨false, σ, ?_, h⟩
    cases n <;> rfl
  | cons c suf ih =>
    obtain ⟨n, rfl⟩ : ∃ m, n = m + 1 := ⟨n - 1, by rw [List.length_cons] at hn; omega⟩
    have hmem : c ∈ cs := by
      rw [hsplit]
      exact List.mem_append_right _ List.mem_cons_self
    obtain ⟨x, hx, hpool, rfl, hl⟩ := (hcs c).mp hmem
    rw [List.head?_cons]
    cases hcall : PoolChunk.allocate k c b req i th σ with
    | error e => exact .inr ⟨e, run_bind_error hcall, .inl ⟨c, x, hx, hcall⟩⟩
    | ok r =>
      obtain ⟨done, σ₁⟩ := r
      have hstep : PoolChunkList.allocateFrom k x.arena l b req i th (n + 1) (some c) σ = _ :=
        run_bind hcall
      rcases hh.allocate made hi done σ₁ hcall with ⟨rfl, rfl⟩ | ⟨rfl, hworks, t, -, -, hgives⟩
      · -- the chunk refuses, and the next one is asked
        have hnext : (σ₁.chunkLinks c).next = suf.head? := by
          rw [hsplit] at hlist
          have := hlist.chain.links.2
          rwa [Option.or_none] at this
        have hsplit' : cs = pre ++ [c] ++ suf := by rw [hsplit, List.append_cons]
        have hn' : suf.length ≤ n := by
          rw [List.length_cons] at hn
          omega
        have hrest := ih hsplit' hn'
        have heq : PoolChunkList.allocateFrom k x.arena l b req i th (n + 1) (some c) σ₁ =
            PoolChunkList.allocateFrom k x.arena l b req i th n suf.head? σ₁ := by
          rw [hstep, if_neg (by decide), run_bind (getLinks_eq hx), hnext]
        rw [KeepsResident, heq]
        exact hrest
      · obtain ⟨x', y, hx', hy, harena, hun, -, hle⟩ := hworks.chunk
        obtain rfl : x = x' := Option.some.inj (hx.symm.trans hx')
        obtain ⟨l', hl', hwin⟩ := h.window c x trivial hx hpool
        obtain rfl : l = l' := Option.some.inj (hl.symm.trans hl')
        have hplaced : Placed k (fun _ => True) (· ≠ c) σ₁ := h.works hworks fun d hd => ⟨trivial, hd⟩
        have hl₁ : (σ₁.chunkLinks c).parent = some l := by rw [hworks.chunkLinks, hl]
        obtain ⟨σ₂, hleave, hres⟩ := hplaced.leave hw
          (hgives.held.movable made hy (hun.trans hpool)) hl₁ (le_trans hle hwin.2)
        rw [harena] at hleave
        refine .inl ⟨true, σ₂, ?_, hres⟩
        rw [hstep, if_pos rfl, run_bind (getChunk_eq hy)]
        exact run_bind hleave

/-- A list has no more chunks than the loop over it has rounds. -/
theorem Held.length_le_chunkCount (hh : Held k g σ T) {cs : List ChunkId} (hnodup : cs.Nodup)
    (hcs : ∀ c ∈ cs, ∃ x, σ.chunk c = some x) : cs.length ≤ σ.chunkCount := by
  have hsub : cs ⊆ List.range σ.chunkCount := fun c hc => by
    obtain ⟨x, hx⟩ := hcs c hc
    rw [List.mem_range]
    by_contra hge
    rw [hh.freshChunk c (not_lt.mp hge)] at hx
    cases hx
  have := (hnodup.subperm hsub).length_le
  rwa [List.length_range] at this

theorem Resident.allocateInList (hw : Windows k) (made : k.sizes.Made g) (hh : Held k g σ T)
    (h : Resident k σ) (hi : i < k.sizes.nSizes) (a : ArenaId) (l : ListKind) :
    KeepsResident k a b req i th (PoolChunkList.allocate k a l b req i th) σ := by
  have hsize := PoolSubpage.check_run (σ := σ) (made.sizeIdx2size hi)
  rw [KeepsResident, PoolChunkList.allocate, run_bind hsize]
  by_cases hlarge : ((sizeAt i : ℕ) : ℤ) > l.calculateMaxCapacity k.sizes.chunkSize
  · rw [if_pos hlarge]
    exact .inl ⟨false, σ, rfl, h⟩
  · rw [if_neg hlarge]
    obtain ⟨cs, hlist, hcs⟩ := h.listed.list a l
    simp only [true_and] at hcs
    have hlen := hh.length_le_chunkCount hlist.nodup fun c hc => by
      obtain ⟨x, hx, -⟩ := (hcs c).mp hc
      exact ⟨x, hx⟩
    have hloop : KeepsResident k a b req i th
        (PoolChunkList.allocateFrom k a l b req i th σ.chunkCount cs.head?) σ :=
      h.allocateFrom hw made hh hi hlist hcs (List.nil_append cs).symm hlen
    rw [← hlist.first] at hloop
    exact hloop

theorem Resident.allocateFromLists (hw : Windows k) (made : k.sizes.Made g) (hh : Held k g σ T)
    (h : Resident k σ) (hi : i < k.sizes.nSizes) (a : ArenaId) (ls : List ListKind) :
    KeepsResident k a b req i th (PoolArena.allocateFromLists k a b req i th ls) σ := by
  induction ls with
  | nil => exact .inl ⟨false, σ, rfl, h⟩
  | cons l ls ih =>
    have hone : KeepsResident k a b req i th (PoolChunkList.allocate k a l b req i th) σ :=
      h.allocateInList hw made hh hi a l
    rcases hone with ⟨done, σ₁, hcall, hres⟩ | ⟨e, hcall, hfails⟩
    · have hstep : PoolArena.allocateFromLists k a b req i th (l :: ls) σ = _ := run_bind hcall
      rcases hh.allocateInList made a l hi done σ₁ hcall with ⟨rfl, rfl⟩ | ⟨rfl, -⟩
      · rw [KeepsResident, hstep]
        exact ih
      · exact .inl ⟨true, σ₁, hstep, hres⟩
    · exact .inr ⟨e, run_bind_error hcall, hfails⟩

theorem newChunk_ok (made : k.sizes.Made g) (a : ArenaId) (σ : Pool) :
    ∃ c σ₁, PoolArena.newChunk k a σ = .ok (c, σ₁) := by
  obtain ⟨runs, -, hmake, -⟩ := Runs.make_spec made
  rw [PoolArena.newChunk, run_bind (PoolSubpage.check_run hmake)]
  exact ⟨_, _, rfl⟩

theorem Resident.newChunk (h : Resident k σ) (hfresh : σ.chunk c = none)
    (hchunk : σ'.chunk = Function.update σ.chunk c (some x))
    (hlinks : ∀ d ≠ c, σ'.chunkLinks d = σ.chunkLinks d) (hhead : σ'.listHead = σ.listHead) :
    Moving k c σ' where
  listed := by
    rw [hhead]
    have hne : ∀ {a l d}, BelongsTo σ a l d → d ≠ c := by
      rintro a l d ⟨y, hy, -⟩ rfl
      rw [hfresh] at hy
      cases hy
    refine h.listed.of_iff (fun a l d => ?_) fun a l d hd => hlinks d (hne hd.2)
    rw [true_and]
    by_cases hd : d = c
    · exact iff_of_false (fun hmem => hmem.1 hd) fun hmem => hne hmem hd
    · simp only [ne_eq, hd, not_false_eq_true, true_and]
      refine belongsTo_congr (by rw [hlinks d hd]) ?_
      rw [hchunk, Function.update_of_ne hd]
  window d y hd hy hpool := by
    rw [hchunk, Function.update_of_ne hd] at hy
    rw [hlinks d hd]
    exact h.window d y trivial hy hpool

theorem Resident.allocateNormal (hw : Windows k) (made : k.sizes.Made g) (hh : Held k g σ T)
    (h : Resident k σ) (hi : i < k.sizes.nSizes) (a : ArenaId) :
    KeepsResident k a b req i th (PoolArena.allocateNormal k a b req i th) σ := by
  have hlists : KeepsResident k a b req i th
      (PoolArena.allocateFromLists k a b req i th [.q050, .q025, .q000, .qInit, .q075]) σ :=
    h.allocateFromLists hw made hh hi a _
  rcases hlists with ⟨done, σ₁, hcall, hres⟩ | ⟨e, hcall, hfails⟩
  swap
  · exact .inr ⟨e, run_bind_error hcall, hfails⟩
  have hstep : PoolArena.allocateNormal k a b req i th σ = _ := run_bind hcall
  rcases Held.allocateFromLists made a hi _ hh done σ₁ hcall with ⟨rfl, rfl⟩ | ⟨rfl, -⟩
  swap
  · exact .inl ⟨(), σ₁, hstep, hres⟩
  obtain ⟨c, σ₂, hnew⟩ := newChunk_ok made a σ₁
  obtain ⟨x, hn⟩ := ends_newChunk a c σ₂ hnew
  have hheld := (hh.makeChunk made a c σ₂ hnew).2
  rw [if_neg (by decide), run_bind hnew] at hstep
  cases halloc : PoolChunk.allocate k c b req i th σ₂ with
  | error e => exact .inr ⟨e, hstep.trans (run_bind_error halloc), .inr ⟨c, σ₂, hnew, halloc⟩⟩
  | ok r =>
    obtain ⟨done, σ₃⟩ := r
    obtain rfl := hn.ends_allocate made hheld hi done σ₃ halloc
    obtain ⟨-, hworks, t, -, -, hgives⟩ := (hheld.allocate made hi true σ₃ halloc).resolve_left
      fun hrefuse => by cases hrefuse.1
    have hfresh : σ₁.chunk c = none := by
      rw [hn.name]
      exact hh.freshChunk _ le_rfl
    have hmoving : Moving k c σ₃ := (h.newChunk hfresh hn.chunk hn.chunkLinks hn.listHead).works hworks
      fun d hd => ⟨hd, hd⟩
    obtain ⟨x', y, hx', hy, harena, hun, -⟩ := hworks.chunk
    rw [hn.chunk, Function.update_self] at hx'
    obtain rfl := Option.some.inj hx'
    have hmov := hgives.held.movable made hy (hun.trans hn.pooled)
    obtain ⟨σ₄, hadd, -, hres'⟩ := hmoving.addFrom hw hmov 6 (hmov.le.trans hw.first) le_rfl
    rw [harena, hn.arena] at hadd
    refine .inl ⟨(), σ₄, ?_, hres'⟩
    rw [hstep, run_bind halloc]
    exact hadd

theorem KeepsResident.ends {α : Type} {p : PoolM α} (h : KeepsResident k a b req i th p σ) :
    Ends p σ fun _ σ' => Resident k σ' := by
  intro r σ' hcall
  rcases h with ⟨r', σ₁, hok, hres⟩ | ⟨e, herr, -⟩
  · obtain ⟨-, rfl⟩ := Prod.mk.inj (Except.ok.inj (hok.symm.trans hcall))
    exact hres
  · rw [herr] at hcall
    cases hcall

theorem Resident.of_eq (h : Resident k σ) (hchunk : σ'.chunk = σ.chunk)
    (hlinks : σ'.chunkLinks = σ.chunkLinks) (hhead : σ'.listHead = σ.listHead) : Resident k σ' where
  listed := by
    rw [hlinks, hhead]
    refine h.listed.of_iff (fun a l d => and_congr_right fun _ => ?_) fun _ _ _ _ => rfl
    exact belongsTo_congr (by rw [hlinks]) (by rw [hchunk])
  window := by
    rw [hchunk, hlinks]
    exact h.window

theorem Resident.ends_allocateSmall (hw : Windows k) (made : k.sizes.Made g) (hh : Held k g σ T)
    (hr : Rings k σ) (h : Resident k σ) (hi : i ≤ k.sizes.smallMaxSizeIdx) (a : ArenaId) :
    Ends (PoolArena.allocateSmall k a b req i th) σ fun _ σ' => Resident k σ' := by
  rcases hr.allocateSmall_cases made hh hi a b req th with heq | ⟨t, σ₁, -, hheld, hsub, -, hin, heq⟩
  · exact (h.allocateNormal hw made hh (made.smallMax_lt hi).2 a).ends.of_eq heq
  · refine Ends.of_eq heq ((hheld.initBufWithSubpage hsub).mono ?_)
    rintro _ _ ⟨-, buf, -, rfl⟩
    obtain ⟨subpage, ring, rfl⟩ := hin
    exact h.of_eq rfl rfl rfl

/-! ### Runs of the machine -/

/-- A chunk of its own is on no list, so it makes no difference whether it is left out. -/
theorem moving_iff_resident (hc : ∀ x, σ.chunk c = some x → x.unpooled = true) :
    Moving k c σ ↔ Resident k σ := by
  have hne : ∀ {d x}, σ.chunk d = some x → x.unpooled = false → d ≠ c := by
    rintro d x hx hpool rfl
    rw [hc x hx] at hpool
    cases hpool
  have hiff : ∀ a l d, True ∧ BelongsTo σ a l d ↔ d ≠ c ∧ BelongsTo σ a l d := by
    intro a l d
    rw [true_and]
    refine (and_iff_right_of_imp ?_).symm
    rintro ⟨x, hx, hpool, -⟩
    exact hne hx hpool
  constructor
  · exact fun h => ⟨h.listed.of_iff hiff fun _ _ _ _ => rfl, fun d x _ hx hpool =>
      h.window d x (hne hx hpool) hx hpool⟩
  · exact fun h => ⟨h.listed.of_iff (fun a l d => (hiff a l d).symm) fun _ _ _ _ => rfl,
      fun d x _ hx hpool => h.window d x trivial hx hpool⟩

theorem Resident.newUnpooled (hh : Held k g σ T) (h : Resident k σ) (hn : NewUnpooled σ c x σ') :
    Resident k σ' := by
  have hfresh : σ.chunk c = none := by
    rw [hn.name]
    exact hh.freshChunk _ le_rfl
  refine (moving_iff_resident fun y hy => ?_).mp (h.newChunk hfresh hn.chunk hn.chunkLinks hn.listHead)
  rw [hn.chunk, Function.update_self] at hy
  rw [← Option.some.inj hy]
  exact hn.unpooled

theorem Resident.ends_allocateHuge (hh : Held k g σ T) (h : Resident k σ) (a : ArenaId)
    (capacity : ℤ) : Ends (PoolArena.allocateHuge k a b capacity) σ fun _ σ' => Resident k σ' := by
  refine ends_bind ((ends_newUnpooledChunk a capacity).mono ?_)
  rintro c σ₁ ⟨x, hn⟩
  refine ends_bind (ends_assert fun _ => ends_bind (ends_getChunk fun _ _ =>
    ends_bind (ends_getBuf fun _ _ => ends_update ?_)))
  exact (h.newUnpooled hh hn).of_eq rfl rfl rfl

theorem Resident.step {σ σ' : ArenaState} {act : ArenaAction} (hw : Windows k)
    (made : k.sizes.Made g) (hinv : ArenaInv k g σ) (h : Resident k σ.pool)
    (hs : (arenaMachine k).step σ act = some σ') : Resident k σ'.pool := by
  cases act with
  | allocate a t b req =>
    obtain ⟨⟨_, pool⟩, hrun, rfl⟩ := Option.map_eq_some_iff.mp hs
    have hends : Ends (PoolArena.allocateUncached k a t b req) σ.pool fun _ pool => Resident k pool :=
      ends_bind (ends_check fun i _ => ends_ite
        (fun hi => h.ends_allocateSmall hw made hinv.held hinv.rings hi a)
        fun _ => ends_ite (fun hi => (h.allocateNormal hw made hinv.held hi a).ends)
          fun _ => ends_bind (ends_check fun _ _ => h.ends_allocateHuge hinv.held a _))
    exact hends _ _ (toOption_eq_some.mp hrun)
  | freeChunk t buffer =>
    simp only [arenaMachine] at hs
    split_ifs at hs with ht
    obtain ⟨⟨_, pool⟩, hrun, rfl⟩ := Option.map_eq_some_iff.mp hs
    obtain ⟨σ₁, hfree, hres⟩ := h.freeChunk hw made (hinv.held.perm (List.perm_cons_erase ht))
      hinv.rings buffer
    obtain ⟨-, rfl⟩ := Prod.mk.inj (Except.ok.inj (hfree.symm.trans (toOption_eq_some.mp hrun)))
    exact hres
  | destroyUnpooled c =>
    simp only [arenaMachine] at hs
    split_ifs at hs with hc
    obtain ⟨x, hx, hun⟩ := (Option.any_eq_true _ _).mp hc
    obtain ⟨⟨_, pool⟩, hrun, rfl⟩ := Option.map_eq_some_iff.mp hs
    have hmoving : Moving k c σ.pool := (moving_iff_resident fun y hy => by
      rw [← Option.some.inj (hx.symm.trans hy)]
      exact hun).mpr h
    have hends : Ends (PoolArena.destroyChunk c) σ.pool fun _ pool => Resident k pool :=
      ends_bind (ends_getChunk fun _ _ => ends_update (hmoving.destroy rfl rfl rfl))
    exact hends _ _ (toOption_eq_some.mp hrun)
  | others threads bufs =>
    obtain rfl := Option.some.inj hs
    exact h.of_eq rfl rfl rfl

theorem Pool.initial_resident : Resident k Pool.initial where
  listed :=
    { list := fun a l => ⟨[], ⟨List.nodup_nil, trivial, rfl, fun c hc => by cases hc⟩, fun c => by
        simp [BelongsTo, Pool.initial]⟩
      one := by
        rintro a l a' l' c ⟨-, x, hx, -⟩
        cases hx }
  window := by
    intro c x _ hx
    cases hx

theorem Resident.reach {σ : ArenaState} (hw : Windows k) (h : (arenaMachine k).Reach System.Free σ) :
    Resident k σ.pool := by
  induction h with
  | init hi =>
    rw [hi.2.1]
    exact Pool.initial_resident
  | step hreach _ hs ih =>
    obtain ⟨g, made, hinv⟩ := ArenaInv.reach hreach
    exact ih.step hw made hinv hs

/-! ### The default geometry -/

structure DefaultGeometry (k : Config) : Prop where
  sizes : arenaSizes 8192 11 = .ok k.sizes
  freeMinThreshold : ∀ l, k.freeMinThreshold l = ListKind.exactThreshold 16777216 l.maxUsage
  freeMaxThreshold : ∀ l, k.freeMaxThreshold l = ListKind.exactThreshold 16777216 l.minUsage

theorem DefaultGeometry.chunkSize (h : DefaultGeometry k) : k.sizes.chunkSize = 16777216 := by
  obtain ⟨g, -, hsize⟩ := arenaSizes_made (by norm_num) h.sizes
  have hdefault : validateAndCalculateChunkSize 8192 11 = .ok 16777216 := by decide
  exact_mod_cast Except.ok.inj (hsize.symm.trans hdefault)

theorem DefaultGeometry.windows (h : DefaultGeometry k) : Windows k := by
  apply Config.Exact.windows
  · refine ⟨fun l => ?_, fun l => ?_⟩
    · rw [h.chunkSize, h.freeMinThreshold]
      rfl
    · rw [h.chunkSize, h.freeMaxThreshold]
      rfl
  · rw [h.chunkSize]
    norm_num
  · rw [h.chunkSize]
    norm_num

/-- Every pooled chunk is on one of the lists `on`, which is its parent, and in the window of it. -/
structure OnOneList (k : Config) (σ : Pool) (on : ArenaId → ListKind → List ChunkId) : Prop where
  lists : ∀ a l, IsList σ.chunkLinks (σ.listHead a l) l (on a l)
  pooled : ∀ a l, ∀ c ∈ on a l, ∃ x, σ.chunk c = some x ∧ x.unpooled = false ∧ x.arena = a
  one : ∀ c x, σ.chunk c = some x → x.unpooled = false →
    ∃ l, (σ.chunkLinks c).parent = some l ∧ c ∈ on x.arena l ∧
      (∀ a' l', c ∈ on a' l' → a' = x.arena ∧ l' = l) ∧
      k.freeMinThreshold l < x.runs.freeBytes ∧ x.runs.freeBytes ≤ k.freeMaxThreshold l

theorem Resident.onOneList (h : Resident k σ) : ∃ on, OnOneList k σ on := by
  choose on hlists hon using h.listed.list
  simp only [true_and] at hon
  refine ⟨on, hlists, fun a l c hc => ?_, fun c x hx hpool => ?_⟩
  · obtain ⟨x, hx, hpool, ha, -⟩ := (hon a l c).mp hc
    exact ⟨x, hx, hpool, ha⟩
  · obtain ⟨l, hl, hwin⟩ := h.window c x trivial hx hpool
    refine ⟨l, hl, (hon x.arena l c).mpr ⟨x, hx, hpool, rfl, hl⟩, fun a' l' hc => ?_, hwin⟩
    obtain ⟨y, hy, -, ha, hl'⟩ := (hon a' l' c).mp hc
    obtain rfl : x = y := Option.some.inj (hx.symm.trans hy)
    exact ⟨ha.symm, Option.some.inj (hl'.symm.trans hl)⟩

/-- The usage lists of a state, and the calls that may follow. No call fails on the way between the
lists; a chunk that goes has no block out, and no subpage of it is in a size class. -/
structure ChunksResident (k : Config) (σ : ArenaState) : Prop where
  resident : ∃ on, OnOneList k σ.pool on
  free : ∀ t ∈ σ.out, ∀ buffer,
    ∃ pool, PoolArena.freeChunk k t.chunk t.handle t.cap buffer σ.pool = .ok ((), pool)
  allocate : ∀ (a : ArenaId) (b : BufId) req i (th : ThreadId) e, i < k.sizes.nSizes →
    PoolArena.allocateNormal k a b req i th σ.pool = .error e →
    AllocateFails k a b req i th σ.pool e
  destroyed : ∀ act σ', (arenaMachine k).step σ act = some σ' → ∀ c x, σ.pool.chunk c = some x →
    x.unpooled = false → σ'.pool.chunk c = none →
    (∀ t ∈ σ'.out, t.chunk ≠ c) ∧ ∀ a i, i < k.sizes.nSubpages → ∃ ss,
      IsPool σ'.pool.ring a i ss ∧ ∀ s ∈ ss, ∃ p, σ'.pool.subpage s = some p ∧ p.chunk ≠ c

theorem ArenaInv.destroyedChunk {σ : ArenaState} (h : ArenaInv k g σ) (hc : σ.pool.chunk c = none) :
    (∀ t ∈ σ.out, t.chunk ≠ c) ∧ ∀ a i, i < k.sizes.nSubpages → ∃ ss,
      IsPool σ.pool.ring a i ss ∧ ∀ s ∈ ss, ∃ p, σ.pool.subpage s = some p ∧ p.chunk ≠ c := by
  refine ⟨fun t ht htc => ?_, fun a i hi => ?_⟩
  · obtain ⟨x, hx⟩ := (h.held.tokens t ht).exists_chunk
    rw [htc, hc] at hx
    cases hx
  · obtain ⟨ss, hpool, hss⟩ := h.rings.linked.pool a i hi
    refine ⟨ss, hpool, fun s hs => ?_⟩
    obtain ⟨p, x, hp, hx, -⟩ := (hss s).mp hs
    refine ⟨p, hp, fun heq => ?_⟩
    rw [heq, hc] at hx
    cases hx

/-- In every run of an arena of the default geometry the chunks are where they belong, and one is
only destroyed when nothing of it is out; so the chunks of live buffers and cache entries are there. -/
theorem chunks_resident (hk : DefaultGeometry k) :
    (∀ σ, (arenaMachine k).Reach System.Free σ → ChunksResident k σ) ∧
      ∀ σ, (poolMachine k).Reach (Sized k) σ → ∀ e ∈ extents k σ, ∃ x, σ.chunk e.chunk = some x := by
  refine ⟨fun σ hreach => ?_, fun σ hreach e he => ?_⟩
  · obtain ⟨g, made, hinv⟩ := ArenaInv.reach hreach
    have hres := Resident.reach hk.windows hreach
    refine ⟨hres.onOneList, fun t ht buffer => ?_, fun a b req i th e hi hfail => ?_, ?_⟩
    · obtain ⟨pool, hfree, -⟩ := hres.freeChunk hk.windows made
        (hinv.held.perm (List.perm_cons_erase ht)) hinv.rings buffer
      exact ⟨pool, hfree⟩
    · have hcall : KeepsResident k a b req i th (PoolArena.allocateNormal k a b req i th) σ.pool :=
        hres.allocateNormal hk.windows made hinv.held hi a
      rcases hcall with ⟨_, pool, hok, -⟩ | ⟨e', herr, hfails⟩
      · rw [hok] at hfail
        cases hfail
      · obtain rfl : e' = e := Except.error.inj (herr.symm.trans hfail)
        exact hfails
    · intro act σ' hs c x _ _ hgone
      exact (hinv.step made hs).destroyedChunk hgone
  · obtain ⟨g, -, hinv⟩ := PoolInv.reach hreach
    rw [hinv.extents_eq] at he
    obtain ⟨t, ht, rfl⟩ := List.mem_map.mp he
    exact (hinv.cached.held.tokens t ht).exists_chunk

/-- The geometry of an allocator that is made without arguments. -/
def defaultConfig : Config :=
  { sizes := match arenaSizes 8192 11 with
      | .ok sizes => sizes
      | .error _ => { pageShifts := 13, chunkSize := 16777216 }
    freeMinThreshold := fun l => ListKind.exactThreshold 16777216 l.maxUsage
    freeMaxThreshold := fun l => ListKind.exactThreshold 16777216 l.minUsage
    smallCacheSize := 256
    normalCacheSize := 64
    maxCachedBufferCapacity := 32768
    freeSweepAllocationThreshold := 8192 }

theorem arenaSizes_default : arenaSizes 8192 11 =
    .ok (SizeClasses.tables .ofDefaults) :=
  arenaSizes_eq _ (by decide) (by decide)

theorem defaultConfig_eq : defaultConfig = { defaultConfig with
    sizes := SizeClasses.tables .ofDefaults } := by
  simp [defaultConfig, arenaSizes_default]

theorem defaultConfig_geometry : DefaultGeometry defaultConfig := by
  refine ⟨?_, fun _ => rfl, fun _ => rfl⟩
  rw [arenaSizes_default, defaultConfig_eq]

/-- A block of 5 MiB takes a new chunk to the second list, and its end destroys the chunk. A block
that was freed keeps its chunk while it is in a cache. -/
theorem chunks_resident_after_free :
    (∃ σ σ', (arenaMachine defaultConfig).Reach System.Free σ ∧
      (σ.pool.chunkLinks 0).parent = some .q000 ∧
      (arenaMachine defaultConfig).step σ (.freeChunk ⟨0, toRunHandle 0 640 1, 5242880⟩ none) = some σ' ∧
      σ'.pool.chunk 0 = none ∧ ChunksResident defaultConfig σ ∧ ∀ t ∈ σ'.out, t.chunk ≠ 0) ∧
    ∃ σ, (poolMachine defaultConfig).Reach (Sized defaultConfig) σ ∧
      extents defaultConfig σ = [⟨0, 0, 16⟩] ∧
      ∀ e ∈ extents defaultConfig σ, ∃ x, σ.chunk e.chunk = some x := by
  constructor
  · obtain ⟨σ, -, hreach, hp⟩ := System.exists_reach (M := arenaMachine defaultConfig)
      (G := System.Free) [.others [] [PooledByteBuf.new], .allocate 0 0 0 5242880]
      (fun σ => (σ.pool.chunkLinks 0).parent = some .q000 ∧
        ((arenaMachine defaultConfig).step σ (.freeChunk ⟨0, toRunHandle 0 640 1, 5242880⟩ none)).any
          (fun σ' => (σ'.pool.chunk 0).isNone) ∧ (σ.pool.chunk 0).any (fun x => !x.unpooled))
      (s := ⟨Pool.initial, []⟩)
      ⟨⟨8192, 11, by norm_num, defaultConfig_geometry.sizes⟩, rfl, rfl⟩
      (by rw [defaultConfig_eq]; decide +kernel)
    obtain ⟨hparent, hfrees, hpooled⟩ := of_decide_eq_true hp
    obtain ⟨σ', hstep, hgone⟩ := (Option.any_eq_true _ _).mp hfrees
    obtain ⟨x, hx, hunpooled⟩ := (Option.any_eq_true _ _).mp hpooled
    have hresident := (chunks_resident defaultConfig_geometry).1 σ hreach
    have hnone : σ'.pool.chunk 0 = none := Option.isNone_iff_eq_none.mp hgone
    exact ⟨σ, σ', hreach, hparent, hstep, hnone, hresident,
      (hresident.destroyed _ σ' hstep 0 x hx (by simpa using hunpooled) hnone).1⟩
  · obtain ⟨σ, -, hreach, hp⟩ := System.exists_reach (M := poolMachine defaultConfig)
      (G := Sized defaultConfig) [.attach, .allocate 0 0 16 16, .deallocate 0 0]
      (fun σ => extents defaultConfig σ = [⟨0, 0, 16⟩])
      (s := Pool.initial) ⟨⟨8192, 11, by norm_num, defaultConfig_geometry.sizes⟩, rfl⟩
      (by rw [defaultConfig_eq]; decide +kernel)
    exact ⟨σ, hreach, of_decide_eq_true hp, (chunks_resident defaultConfig_geometry).2 σ hreach⟩

end Mutty.Buffer
