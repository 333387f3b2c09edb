import Mutty.Buffer.Rings

/-!
# What the operations of an arena do to the rings

Allocating from a chunk and freeing to it keep `Rings`, together with the tokens. The code that
works on subpages cannot fail at an assertion: as far as the runs of the chunk answer, `allocateSubpage`
answers, and `PoolChunk.free` takes every block back that is out.
-/

namespace Mutty.Buffer

open Mutty.Lib Prog

variable {k : Config} {g : Geometry} {σ σ' : Pool} {T : List Token} {c : ChunkId}
  {x : PoolChunk} {s : SubpageId} {p : PoolSubpage} {t : Token} {a : ArenaId}
  {b : BufId} {th : ThreadId} {req : ℤ} {i : ℕ}

theorem getChunk_eq (hx : σ.chunk c = some x) : getChunk c σ = .ok (x, σ) := by
  have hlook : (look fun σ => σ.chunk c) σ = .ok (some x, σ) := by
    rw [← hx]
    rfl
  exact run_bind hlook

theorem fetchInt_eq {α : Type} {xs : List α} {o : ℕ} {y : α} (h : xs[o]? = some y) :
    fetchInt xs o = .ok y := by
  rw [fetchInt, if_pos (Int.natCast_nonneg o), Int.toNat_natCast, fetch_eq_ok, h]

/-! ### Subpages of a chunk -/

theorem Held.slot_free (hh : Held k g σ T) (hx : σ.chunk c = some x) (hpool : x.unpooled = false)
    {runs : Runs} {o m : ℕ}
    (hinv : Runs.Inv k.sizes g.pages runs ((o, m) :: heldBlocks σ T c x)) :
    x.subpages[o]? = some none := by
  have hc := hh.chunks c x hx hpool
  have htiles := hinv.tiles.perm List.perm_middle
  have hpos : 0 < m := htiles.pos (o, m) List.mem_cons_self
  have hstop : o + m ≤ g.pages := htiles.stop_le List.mem_cons_self
  have hlen : o < x.subpages.length := by
    rw [hc.slots]
    omega
  cases hslot : x.subpages[o] with
  | none => rw [List.getElem?_eq_getElem hlen, hslot]
  | some s =>
    have hs : x.subpages[o]? = some (some s) := by rw [List.getElem?_eq_getElem hlen, hslot]
    obtain ⟨p, hp, hpinv⟩ := hc.subs o s hs
    obtain ⟨m', hblock, -⟩ := hpinv.block_eq
    have hpos' := (hh.block_le hx hs hp hblock).1
    have hmem : (o, m') ∈ heldBlocks σ T c x := List.mem_append_right _
      (List.mem_flatMap.mpr ⟨some s, List.mem_of_getElem? hs, by simp [subBlock, hp, hblock]⟩)
    -- two blocks that begin at the same page meet there
    refine absurd ⟨⟨le_rfl, ?_⟩, ⟨le_rfl, ?_⟩⟩ (htiles.apart (List.mem_append_right _ hmem) o)
    · exact Nat.lt_add_of_pos_right hpos
    · exact Nat.lt_add_of_pos_right hpos'

theorem SizeClasses.Made.smallMax_lt (made : k.sizes.Made g) (hi : i ≤ k.sizes.smallMaxSizeIdx) :
    i < k.sizes.nSubpages ∧ i < k.sizes.nSizes := by
  have := g.pageShifts_ge
  rw [made.smallMaxSizeIdx] at hi
  have h := made.nSubpages
  have h' := made.nSizes
  omega

theorem sixteen_le_sizeAt (i : ℕ) : 16 ≤ sizeAt i :=
  Nat.le_of_dvd (sizeAt_pos i) (SizeClasses.sixteen_dvd_sizeAt i)

/-- The end of `allocateSubpage`: a new subpage goes into its ring and into its chunk, and hands out
an element. -/
theorem Rings.enterSubpage (hr : Rings k σ) (hs : σ.subpage σ.subpageCount = none)
    (hx : σ.chunk c = some x) (hchunk : p.chunk = c) (ht : p.Tracks []) (hd : p.doNotDestroy = true)
    (hi : i < k.sizes.nSubpages) (hsize : p.elemSize = sizeAt i) (o : ℕ) :
    ∃ h σ', (do
      let s ← PoolChunk.newSubpage p
      PoolSubpage.addToPool s (.head x.arena i)
      setChunk c { x with subpages := x.subpages.set o (some s) }
      PoolSubpage.allocate s : PoolM Int64) σ = .ok (h, σ') ∧ Rings k σ' := by
  obtain ⟨b, hb⟩ := hr.linked.head_next hi x.arena
  set σ₁ : Pool := { σ with
    subpage := Function.update σ.subpage σ.subpageCount (some p)
    subpageCount := σ.subpageCount + 1
    ring := Function.update σ.ring (.subpage σ.subpageCount) { prev := none, next := none } }
  have hnew : PoolChunk.newSubpage p σ = .ok (σ.subpageCount, σ₁) := rfl
  have hlinks : σ₁.ring (.subpage σ.subpageCount) = { prev := none, next := none } :=
    Function.update_self _ _ _
  have hne : Node.head x.arena i ≠ .subpage σ.subpageCount := nofun
  have hsame : σ₁.ring (.head x.arena i) = σ.ring (.head x.arena i) :=
    Function.update_of_ne hne { prev := none, next := none } σ.ring
  have hb' : (σ₁.ring (.head x.arena i)).next = some b := by rw [hsame, hb]
  have hadd := PoolSubpage.addToPool_eq (σ := σ₁) (congrArg RingLinks.prev hlinks)
    (congrArg RingLinks.next hlinks) hb'
  set y : PoolChunk := { x with subpages := x.subpages.set o (some σ.subpageCount) }
  set σ₂ : Pool := { σ₁ with
    ring := RingLinks.inserted σ₁.ring (.subpage σ.subpageCount) (.head x.arena i) b }
  have hset : setChunk c y σ₂ = .ok ((), σ₂.withChunk c y) := rfl
  rw [run_bind hnew, run_bind hadd, run_bind hset]
  have hy : (σ₂.withChunk c y).chunk p.chunk = some y := by
    rw [hchunk]
    exact Pool.withChunk_chunk
  have hr₂ : Rings k (σ₂.withChunk c y) := hr.addSubpage hs hy
    (map_arena_withChunk (σ := σ₂) (x := x) hx rfl) rfl hb rfl ht hd hi hsize
  have hpos : 0 < p.numAvail := by
    have hcount := ht.elements.count
    have hroom := ht.roomy.some_elem
    rw [List.length_nil] at hcount
    omega
  exact hr₂.allocateElement (Function.update_self _ _ _) hy ht.elements hd hpos

theorem Rings.allocateSubpage (made : k.sizes.Made g) (hh : Held k g σ T) (hr : Rings k σ)
    (hi : i ≤ k.sizes.smallMaxSizeIdx) (hx : σ.chunk c = some x) (hpool : x.unpooled = false)
    {runSize : ℕ} (hrun : PoolChunk.calculateRunSize k i = .ok runSize) {h : Int64} {runs : Runs}
    (hcall : x.runs.allocateRun k.sizes runSize = .ok (h, runs)) :
    ∃ h' σ', PoolChunk.allocateSubpage k c i σ = .ok (h', σ') ∧ Rings k σ' := by
  obtain ⟨hi', hi''⟩ := made.smallMax_lt hi
  have hhead : findSubpagePoolHead k x.arena i = .ok (.head x.arena i) := if_pos hi'
  have hruns : PoolChunk.allocateRun k c runSize σ =
      .ok (h, σ.withChunk c { x with runs := runs }) := by
    rw [PoolChunk.allocateRun, run_bind (getChunk_eq hx), run_bind (PoolSubpage.check_run hcall)]
    rfl
  rw [PoolChunk.allocateSubpage, run_bind (getChunk_eq hx), run_bind (PoolSubpage.check_run hhead),
    run_bind (PoolSubpage.check_run hrun), run_bind hruns]
  rcases (hh.chunks c x hx hpool).allocateRun made hcall with ⟨rfl, rfl⟩ |
    ⟨o, m, low, f, hinv, hbytes, -, hm⟩
  · rw [if_pos (by decide)]
    exact ⟨-1, _, rfl, hr.withChunk hx rfl⟩
  obtain ⟨hdvd, hroom⟩ := calculateRunSize_ok made (made.sizeIdx2size hi'') hrun
  have hsize : Runs.runSize k.sizes h = runSize := by
    rw [f.runSize_eq, ← hm]
    exact Int.ediv_mul_cancel (by exact_mod_cast hdvd)
  have hle : sizeAt i ≤ runSize := Nat.le_of_not_lt fun hlt => by
    rw [Nat.div_eq_of_lt hlt] at hroom
    omega
  have hpage : 4096 ∣ runSize := by
    refine dvd_trans ?_ hdvd
    rw [made.pageShifts, show (4096 : ℕ) = 2 ^ 12 by norm_num]
    exact pow_dvd_pow 2 g.pageShifts_ge
  have hpos : (0 : ℤ) < runSize := by
    have := sizeAt_pos i
    omega
  have hpage' : (4096 : ℤ) ∣ runSize := by exact_mod_cast hpage
  have hmin : (16 : ℤ) ≤ (sizeAt i : ℕ) := by exact_mod_cast sixteen_le_sizeAt i
  have hle' : ((sizeAt i : ℕ) : ℤ) ≤ runSize := by exact_mod_cast hle
  obtain ⟨p, hmake, htracks, hd, -⟩ := PoolSubpage.make_tracks c k.sizes.pageShifts o hpos hpage' hmin hle'
  obtain ⟨-, hchunk, -, -, -, helem, -, -⟩ := PoolSubpage.make_eq_ok hmake
    (by exact_mod_cast sizeAt_pos i) (by positivity)
  rw [if_neg (not_lt.mpr f.nonneg), f.decode.1, hsize,
    run_bind (getChunk_eq (σ := σ.withChunk c { x with runs := runs }) Pool.withChunk_chunk),
    run_bind (PoolSubpage.check_run (fetchInt_eq (hh.slot_free hx hpool hinv)))]
  have hassert : (assert ((none : Option SubpageId) = none) : PoolM Unit)
      (σ.withChunk c { x with runs := runs }) = .ok ((), σ.withChunk c { x with runs := runs }) := rfl
  rw [run_bind hassert, run_bind (PoolSubpage.check_run (made.sizeIdx2size hi'')),
    run_bind (PoolSubpage.check_run hmake), Int.toNat_natCast]
  exact (hr.withChunk (y := { x with runs := runs }) hx rfl).enterSubpage (hh.freshSubpage _ le_rfl)
    Pool.withChunk_chunk hchunk htracks hd hi' helem o

/-- The size of the run for a subpage of class `i` trips an assertion, or `allocateRun` of some chunk
or of a new one does. -/
def RunFails (k : Config) (σ : Pool) (i : ℕ) : Prop :=
  PoolChunk.calculateRunSize k i = .error .assertion ∨
    ∃ (runSize : ℕ) (runs : Runs), PoolChunk.calculateRunSize k i = .ok runSize ∧
      ((∃ c x, σ.chunk c = some x ∧ x.runs = runs) ∨ Runs.make k.sizes = .ok runs) ∧
      runs.allocateRun k.sizes runSize = .error .assertion

theorem Rings.allocateSubpage_cases (made : k.sizes.Made g) (hh : Held k g σ T) (hr : Rings k σ)
    (hi : i ≤ k.sizes.smallMaxSizeIdx) (c : ChunkId) :
    (∃ h σ', PoolChunk.allocateSubpage k c i σ = .ok (h, σ') ∧ Rings k σ') ∨
      ∃ e, PoolChunk.allocateSubpage k c i σ = .error e ∧ (e = .assertion → RunFails k σ i) := by
  cases hx : σ.chunk c with
  | none =>
    have hget : getChunk c σ = .error .null := by
      have hlook : (look fun σ => σ.chunk c) σ = .ok (none, σ) := by
        rw [← hx]
        rfl
      exact run_bind hlook
    refine .inr ⟨.null, run_bind_error hget, fun habs => ?_⟩
    cases habs
  | some x =>
    have hhead : findSubpagePoolHead k x.arena i = .ok (.head x.arena i) :=
      if_pos (made.smallMax_lt hi).1
    have hstart : PoolChunk.allocateSubpage k c i σ = _ :=
      (run_bind (getChunk_eq hx)).trans (run_bind (PoolSubpage.check_run hhead))
    cases hrun : PoolChunk.calculateRunSize k i with
    | error e =>
      have hfail : (check (PoolChunk.calculateRunSize k i) : PoolM ℕ) σ = .error e := by
        rw [hrun]
        rfl
      refine .inr ⟨e, hstart.trans (run_bind_error hfail), ?_⟩
      rintro rfl
      exact .inl hrun
    | ok runSize =>
      cases hcall : x.runs.allocateRun k.sizes runSize with
      | error e =>
        have hfail : PoolChunk.allocateRun k c runSize σ = .error e := by
          rw [PoolChunk.allocateRun, run_bind (getChunk_eq hx), hcall]
          rfl
        refine .inr ⟨e, ?_, ?_⟩
        · rw [hstart, run_bind (PoolSubpage.check_run hrun), run_bind_error hfail]
        · rintro rfl
          exact .inr ⟨runSize, x.runs, hrun, .inl ⟨c, x, hx, rfl⟩, hcall⟩
      | ok r =>
        obtain ⟨h, runs⟩ := r
        by_cases hpool : x.unpooled = false
        · exact .inl (hr.allocateSubpage made hh hi hx hpool hrun hcall)
        · -- a chunk of its own has no runs to give
          have hempty := (hh.unpooled c x hx (by simpa using hpool)).runs
          obtain ⟨rfl, rfl⟩ := Runs.allocateRun_of_nil hempty hcall
          refine .inl ⟨-1, σ.withChunk c { x with runs := x.runs }, ?_, hr.withChunk hx rfl⟩
          have hrefuse : PoolChunk.allocateRun k c runSize σ =
              .ok (-1, σ.withChunk c { x with runs := x.runs }) := by
            rw [PoolChunk.allocateRun, run_bind (getChunk_eq hx), run_bind (PoolSubpage.check_run hcall)]
            rfl
          rw [hstart, run_bind (PoolSubpage.check_run hrun), run_bind hrefuse]
          rfl

/-! ### Freeing -/

structure ElementOf (k : Config) (σ : Pool) (t : Token) (es : List ℕ) (x : PoolChunk) (o m e : ℕ)
    (s : SubpageId) (p : PoolSubpage) (i : ℕ) : Prop where
  chunk : σ.chunk t.chunk = some x
  fields : Fields t.handle o m true true e
  index : e < 2 ^ 31
  slot : x.subpages[o]? = some (some s)
  subpage : σ.subpage s = some p
  block : p.block = (o, m)
  home : p.chunk = t.chunk
  alive : p.doNotDestroy = true
  elements : p.Elements (e :: es)
  small : i < k.sizes.nSubpages
  elemSize : p.elemSize = sizeAt i
  cap : t.cap = sizeAt i

theorem Rings.element (hh : Held k g σ (t :: T)) (hr : Rings k σ) (hsub : isSubpage t.handle = true) :
    ∃ es x o m e s p i, ElementOf k σ t es x o m e s p i := by
  obtain ⟨x, hx⟩ := (hh.tokens t List.mem_cons_self).exists_chunk
  obtain ⟨o, m, e, s, p, f, he, hs, hp, hcap, hblock⟩ := hh.elem_cases hsub hx
  have hpinv := hh.subpageInv hx hs hp
  obtain ⟨-, i, hi, hsize⟩ := hr.sound s p hp hpinv.doNotDestroy
  have helems := hpinv.elements
  rw [elemsAt, filter_isElemOf_cons rfl hsub f.decode.1, List.map_cons, elem_index f he] at helems
  exact ⟨_, x, o, m, e, s, p, i, hx, f, he, hs, hp, hblock, hpinv.chunk, hpinv.doNotDestroy, helems,
    hi, hsize, hcap.symm.trans hsize⟩

/-- The call of `PoolSubpage.free` that `PoolChunk.free` makes for an element. -/
theorem ElementOf.free {es : List ℕ} {o m e : ℕ} (h : ElementOf k σ t es x o m e s p i)
    (hr : Rings k σ) : ∃ kept σ', PoolSubpage.free s (.head x.arena i) e σ = .ok (kept, σ') ∧
      Rings k σ' ∧ (kept = false → GivenUp σ' x.arena (sizeAt i) s) := by
  refine hr.freeElement h.subpage ?_ h.alive h.elements h.small h.elemSize
  rw [h.home]
  exact h.chunk

theorem ElementOf.sizeIdxOf {es : List ℕ} {o m e : ℕ} (h : ElementOf k σ t es x o m e s p i)
    (made : k.sizes.Made g) : Buffer.sizeIdxOf k t.cap = .ok i := by
  have := made.nSubpages
  have := made.nSizes
  have := h.small
  rw [h.cap]
  exact made.sizeIdxOf_sizeAt (by omega)

theorem ElementOf.fetch {es : List ℕ} {o m e : ℕ} (h : ElementOf k σ t es x o m e s p i) :
    fetchInt x.subpages (calculateRunOffset t.handle) = .ok (some s) := by
  rw [h.fields.decode.1]
  exact fetchInt_eq h.slot

theorem ChunkInv.freeRun_ok (made : k.sizes.Made g) (hc : ChunkInv k g σ T c x) {held : List Block}
    {h : Int64} {u e : Bool} {o m low : ℕ} (f : Fields h o m u e low)
    (hheld : (heldBlocks σ T c x).Perm ((o, m) :: held)) :
    ∃ runs, x.runs.free k.sizes h = .ok runs := by
  have hfr : Runs.Freeing k.sizes g.pages x.runs held h o m := ⟨⟨u, e, low, f⟩, hc.runs.perm hheld⟩
  obtain ⟨runs, -, -, -, hok, -⟩ := hfr.free made
  exact ⟨runs, hok⟩

theorem freeRun_eq {h : Int64} {runs : Runs} (hx : σ.chunk c = some x)
    (hfree : x.runs.free k.sizes h = .ok runs) (buffer : Option Pointer) :
    ∃ y, y.arena = x.arena ∧ PoolChunk.freeRun k c h buffer σ = .ok ((), σ.withChunk c y) := by
  rw [PoolChunk.freeRun, run_bind (getChunk_eq hx), run_bind (PoolSubpage.check_run hfree)]
  exact ⟨{ x with runs := runs, cachedBuffers := _ }, rfl, rfl⟩

theorem Held.blocks_perm (hh : Held k g σ T) (ht : t ∈ T) (hx : σ.chunk t.chunk = some x) {o m low : ℕ}
    {u e : Bool} (f : Fields t.handle o m u e low) :
    ∃ held, (heldBlocks σ T t.chunk x).Perm ((o, m) :: held) := by
  have hmem : (o, m) ∈ heldBlocks σ T t.chunk x := by
    rw [← f.span_eq]
    cases hh.tokens t ht with
    | run y o' m' low' i hy f' =>
      refine List.mem_append_left _ (List.mem_map_of_mem (List.mem_filter.mpr ⟨ht, ?_⟩))
      simp [Token.isRunOf, f'.decode.2.2.2.1]
    | elem y o' m' e' s q hy f' he' hs hq hsize hblock =>
      obtain rfl : x = y := Option.some.inj (hx.symm.trans hy)
      refine List.mem_append_right _ (List.mem_flatMap.mpr ⟨some s, List.mem_of_getElem? hs, ?_⟩)
      simp [subBlock, hq, hblock, f'.span_eq]
  exact ⟨_, List.perm_cons_erase hmem⟩

theorem Rings.freeBlock (made : k.sizes.Made g) (hh : Held k g σ (t :: T)) (hr : Rings k σ)
    (buffer : Option Pointer) :
    ∃ σ', PoolChunk.free k t.chunk t.handle t.cap buffer σ = .ok ((), σ') ∧ Rings k σ' := by
  obtain ⟨x, hx⟩ := (hh.tokens t List.mem_cons_self).exists_chunk
  have hc := hh.chunks _ x hx (hh.pooled_of_token List.mem_cons_self hx)
  unfold PoolChunk.free
  cases hsub : isSubpage t.handle with
  | false =>
    obtain ⟨o, m, low, f, -⟩ := (hh.tokens t List.mem_cons_self).run_fields hsub
    obtain ⟨held, hheld⟩ := hh.blocks_perm List.mem_cons_self hx f
    obtain ⟨runs, hruns⟩ := hc.freeRun_ok made f hheld
    obtain ⟨y, harena, hfree⟩ := freeRun_eq hx hruns buffer
    exact ⟨_, hfree, hr.withChunk hx harena⟩
  | true =>
    obtain ⟨es, x', o, m, e, s, p, i, hel⟩ := Rings.element hh hr hsub
    obtain rfl : x = x' := Option.some.inj (hx.symm.trans hel.chunk)
    obtain ⟨held, hheld⟩ := hh.blocks_perm List.mem_cons_self hx hel.fields
    obtain ⟨runs, hruns⟩ := hc.freeRun_ok made hel.fields hheld
    obtain ⟨kept, σ₁, hcall, hr₁, hgone⟩ := hel.free hr
    have hhead : findSubpagePoolHead k x.arena i = .ok (.head x.arena i) := if_pos hel.small
    have halive : (assert (p.doNotDestroy = true) : PoolM Unit) σ = .ok ((), σ) := by
      rw [hel.alive]
      rfl
    rw [if_pos rfl, run_bind (getChunk_eq hx), run_bind (PoolSubpage.check_run (hel.sizeIdxOf made)),
      run_bind (PoolSubpage.check_run hhead), run_bind (PoolSubpage.check_run hel.fetch)]
    simp only
    rw [run_bind (PoolSubpage.getSubpage_eq hel.subpage), run_bind halive,
      hel.fields.decode.2.2.2.2 hel.index, run_bind hcall]
    have hx₁ : σ₁.chunk t.chunk = some x := by
      have hin := (hh.freeElement hx hel.fields hel.index hel.slot hel.subpage _ _ _ hcall).1
      rw [hin.chunk, hx]
    cases kept with
    | true => exact ⟨σ₁, rfl, hr₁⟩
    | false =>
      obtain ⟨q, hq, hdead, -⟩ := (hgone rfl).empty
      have hdead' : (assert (q.doNotDestroy = false) : PoolM Unit) σ₁ = .ok ((), σ₁) := by
        rw [hdead]
        rfl
      rw [if_neg (by decide), run_bind (PoolSubpage.getSubpage_eq hq), run_bind hdead',
        run_bind (getChunk_eq hx₁)]
      set y : PoolChunk := { x with
        subpages := x.subpages.set (calculateRunOffset t.handle).toNat none } with hy
      have hset : setChunk t.chunk y σ₁ = .ok ((), σ₁.withChunk t.chunk y) := rfl
      obtain ⟨z, harena, hfree⟩ := freeRun_eq (x := y) Pool.withChunk_chunk hruns buffer
      rw [run_bind hset, hfree]
      have hr₂ : Rings k (σ₁.withChunk t.chunk y) := hr₁.withChunk hx₁ rfl
      exact ⟨_, rfl, hr₂.withChunk Pool.withChunk_chunk harena⟩

/-! ### Allocating from a chunk -/

theorem Rings.ends_allocateHandle (made : k.sizes.Made g) (hh : Held k g σ T) (hr : Rings k σ)
    (c : ChunkId) : Ends (PoolChunk.allocateHandle k c i) σ fun _ σ' => Rings k σ' := by
  refine ends_ite (fun hi => ends_bind ?_) fun _ => ends_bind (ends_check fun size _ => ?_)
  · intro h σ' hcall
    rcases hr.allocateSubpage_cases made hh hi c with ⟨h', σ₁, hok, hr₁⟩ | ⟨e, herr, -⟩
    · obtain ⟨rfl, rfl⟩ := Prod.mk.inj (Except.ok.inj (hok.symm.trans hcall))
      exact ends_bind (ends_assert fun _ => ends_pure hr₁)
    · rw [herr] at hcall
      cases hcall
  · refine ends_allocateRun made hh (fun _ => hr) fun x h runs o m low hx _ _ _ _ _ _ => ?_
    exact hr.withChunk hx rfl

theorem Rings.fills {buffer : Option Pointer} (hr : Rings k σ)
    (hf : Fills k t b req th buffer σ σ') : Rings k σ' := by
  obtain ⟨buf, -, rfl⟩ := hf
  exact hr.frame rfl rfl fun _ _ _ _ => rfl

theorem Rings.ends_allocate (made : k.sizes.Made g) (hh : Held k g σ T) (hr : Rings k σ)
    (hi : i < k.sizes.nSizes) (c : ChunkId) :
    Ends (PoolChunk.allocate k c b req i th) σ fun _ σ' => Rings k σ' := by
  refine ends_bind (((hh.allocateHandle made hi).and (hr.ends_allocateHandle made hh c)).mono ?_)
  rintro h σ₁ ⟨hanswer, hr₁⟩
  refine ends_ite (fun _ => ends_pure hr₁) fun hneg => ?_
  obtain ⟨-, hheld, -⟩ := hanswer.resolve_left fun hrefuse => hneg hrefuse.1
  refine ends_bind (ends_getChunk fun x hx => ends_bind (ends_setChunk ?_))
  obtain ⟨hnil, hsame⟩ := Held.cachedBuffers (t := ⟨c, h, sizeAt i⟩) hheld hx
  rw [hsame, hnil]
  refine ends_bind ((Held.initBuf (t := ⟨c, h, sizeAt i⟩) hheld).mono fun _ σ₂ hfill => ?_)
  exact ends_pure (hr₁.fills hfill)

section

variable {E : Fault → Prop}

theorem safe_getChunk (hE : E .null) : Safe E (getChunk c) σ := by
  refine safe_bind (safe_look _) (ends_look ?_)
  cases σ.chunk c with
  | none => exact safe_fail hE
  | some x => exact safe_pure x

theorem safe_getSubpage (hE : E .null) : Safe E (getSubpage s) σ := by
  refine safe_bind (safe_look _) (ends_look ?_)
  cases σ.subpage s with
  | none => exact safe_fail hE
  | some p => exact safe_pure p

theorem safe_getBuf (hE : E .null) : Safe E (getBuf b) σ := by
  refine safe_bind (safe_look _) (ends_look ?_)
  cases σ.bufs[b]? with
  | none => exact safe_fail hE
  | some buf => exact safe_pure buf

theorem safe_init (hE : E .null) {h : Int64} (hh : 0 ≤ h) {buffer : Option Pointer}
    {offset length maxLength : ℤ} {cache : Option ThreadId} :
    Safe E (PooledByteBuf.init b c buffer h offset length maxLength cache) σ :=
  (safe_assert hh).bind fun _ _ => (safe_getChunk hE).bind fun _ _ =>
    (safe_getBuf hE).bind fun _ _ => safe_update _

theorem Held.safe_initBufWithSubpage (hE : E .null) (hh : Held k g σ (t :: T))
    (hsub : isSubpage t.handle = true) (hreq : req ≤ t.cap) {buffer : Option Pointer} :
    Safe E (PoolChunk.initBufWithSubpage k t.chunk b buffer t.handle req th) σ := by
  refine safe_bind (safe_getChunk hE) (ends_getChunk fun x hx => ?_)
  obtain ⟨o, m, e, s, p, f, -, hs, hp, hcap, -⟩ := hh.elem_cases hsub hx
  have hat : x.subpageAt (calculateRunOffset t.handle) = .ok s := by
    rw [f.decode.1, PoolChunk.subpageAt, fetchInt_eq hs]
    rfl
  refine safe_bind (safe_check fun e' he' => ?_) (ends_check fun s' hs' => ?_)
  · rw [hat] at he'
    cases he'
  obtain rfl : s = s' := Except.ok.inj (hat.symm.trans hs')
  refine safe_bind (safe_getSubpage hE) (ends_getSubpage fun q hq => ?_)
  obtain rfl : p = q := Option.some.inj (hp.symm.trans hq)
  refine (safe_assert (hh.subpageInv hx hs hp).doNotDestroy).bind fun _ _ => ?_
  refine (safe_assert (by rw [hcap]; exact hreq)).bind fun _ _ => ?_
  exact safe_init hE (hh.tokens t List.mem_cons_self).nonneg

theorem Held.safe_initBuf (hE : E .null) (hh : Held k g σ (t :: T)) (hreq : req ≤ t.cap)
    {buffer : Option Pointer} :
    Safe E (PoolChunk.initBuf k t.chunk b buffer t.handle req th) σ := by
  refine safe_ite (fun _ => safe_init hE (hh.tokens t List.mem_cons_self).nonneg) fun hsub => ?_
  exact hh.safe_initBufWithSubpage hE (by simpa using hsub) hreq

/-- A chunk answers a request for a small block, unless it is its runs that stop. -/
theorem Rings.safe_allocate (made : k.sizes.Made g) (hh : Held k g σ T) (hr : Rings k σ)
    (hi : i ≤ k.sizes.smallMaxSizeIdx) (hreq : req ≤ sizeAt i) (c : ChunkId) :
    Safe (fun e => e = .assertion → RunFails k σ i) (PoolChunk.allocate k c b req i th) σ := by
  have hi' := (made.smallMax_lt hi).2
  refine safe_bind ?_ ((hh.allocateHandle made hi').mono ?_)
  · refine safe_ite (fun _ => safe_bind (fun e he => ?_) ((hh.allocateSubpage made hi').mono ?_))
      fun hnot => absurd hi hnot
    · rcases hr.allocateSubpage_cases made hh hi c with ⟨h, σ', hok, -⟩ | ⟨e', herr, hfail⟩
      · rw [hok] at he
        cases he
      · rw [herr] at he
        exact Except.error.inj he ▸ hfail
    · rintro h σ' ⟨-, hkind⟩
      exact (safe_assert (hkind.symm.imp And.left And.right)).bind fun _ _ => safe_pure h
  · intro h σ₁ hanswer
    refine safe_ite (fun _ => safe_pure false) fun hneg => ?_
    obtain ⟨-, hheld, -⟩ := hanswer.resolve_left fun hrefuse => hneg hrefuse.1
    refine safe_bind (safe_getChunk nofun) (ends_getChunk fun x hx => ?_)
    refine safe_bind (safe_update _) (ends_setChunk ?_)
    obtain ⟨hnil, hsame⟩ := Held.cachedBuffers (t := ⟨c, h, sizeAt i⟩) hheld hx
    rw [hsame, hnil]
    exact (Held.safe_initBuf (t := ⟨c, h, sizeAt i⟩) nofun hheld hreq).bind fun _ _ => safe_pure true

end

/-! ### Usage lists -/

section

variable {E : Fault → Prop}

theorem safe_getLinks (hE : E .null) : Safe E (PoolChunkList.getLinks c) σ :=
  (safe_getChunk hE).bind fun _ _ => safe_look _

theorem safe_modifyLinks (hE : E .null) (f : ChunkLinks → ChunkLinks) :
    Safe E (PoolChunkList.modifyLinks c f) σ :=
  (safe_getChunk hE).bind fun _ _ => safe_update _

theorem safe_remove (hE : E .null) (l : ListKind) : Safe E (PoolChunkList.remove a l c) σ := by
  refine (safe_look _).bind fun head _ => (safe_getLinks hE).bind fun links _ =>
    safe_ite (fun _ => (safe_update _).bind fun _ _ => ?_) fun _ => ?_
  · cases links.next with
    | none => exact safe_pure _
    | some next => exact safe_modifyLinks hE _
  · cases links.prev with
    | none => exact safe_fail hE
    | some prev =>
      refine (safe_modifyLinks hE _).bind fun _ _ => ?_
      cases links.next with
      | none => exact safe_pure _
      | some next => exact safe_modifyLinks hE _

theorem safe_add0 (hE : E .null) (l : ListKind) : Safe E (PoolChunkList.add0 a l c) σ := by
  refine (safe_look _).bind fun head _ => ?_
  cases head with
  | none => exact (safe_modifyLinks hE _).bind fun _ _ => safe_update _
  | some head =>
    exact (safe_modifyLinks hE _).bind fun _ _ => (safe_modifyLinks hE _).bind fun _ _ => safe_update _

theorem safe_addFrom (hE : E .null) (hE' : E .budget) (n : ℕ) (l : ListKind) :
    Safe E (PoolChunkList.addFrom k a c n l) σ := by
  induction n generalizing l with
  | zero => exact safe_fail hE'
  | succ n ih =>
    refine safe_bind (safe_getChunk hE) (ends_getChunk fun x _ => safe_ite (fun _ => ?_)
      fun _ => safe_add0 hE l)
    cases l.nextList with
    | none => exact safe_fail hE
    | some next => exact ih next

theorem Rings.safe_allocateFrom (made : k.sizes.Made g) (hh : Held k g σ T) (hr : Rings k σ)
    (hi : i ≤ k.sizes.smallMaxSizeIdx) (hreq : req ≤ sizeAt i) (l : ListKind) (n : ℕ)
    (cur : Option ChunkId) :
    Safe (fun e => e = .assertion → RunFails k σ i)
      (PoolChunkList.allocateFrom k a l b req i th n cur) σ := by
  have hi' := (made.smallMax_lt hi).2
  induction n generalizing cur with
  | zero =>
    cases cur with
    | none => exact safe_pure false
    | some cur => exact safe_fail nofun
  | succ n ih =>
    cases cur with
    | none => exact safe_pure false
    | some cur =>
      refine safe_bind (hr.safe_allocate made hh hi hreq cur) ((hh.allocate made hi').mono ?_)
      rintro done σ₁ (⟨rfl, rfl⟩ | ⟨rfl, -⟩)
      · exact safe_bind (safe_getLinks nofun)
          (ends_bind (ends_getChunk fun _ _ => ends_look (ih _)))
      · refine (safe_getChunk nofun).bind fun x _ => (safe_when fun _ => ?_).bind fun _ _ => safe_pure true
        refine (safe_remove nofun l).bind fun _ _ => ?_
        cases l.nextList with
        | none => exact safe_fail nofun
        | some next => exact safe_addFrom nofun nofun 6 next

theorem Rings.safe_allocateFromLists (made : k.sizes.Made g) (hh : Held k g σ T) (hr : Rings k σ)
    (hi : i ≤ k.sizes.smallMaxSizeIdx) (hreq : req ≤ sizeAt i) (ls : List ListKind) :
    Safe (fun e => e = .assertion → RunFails k σ i)
      (PoolArena.allocateFromLists k a b req i th ls) σ := by
  have hi' := (made.smallMax_lt hi).2
  induction ls with
  | nil => exact safe_pure false
  | cons l ls ih =>
    have hlist : Safe (fun e => e = .assertion → RunFails k σ i)
        (PoolChunkList.allocate k a l b req i th) σ := by
      refine safe_bind (safe_check fun e he => ?_) (ends_check fun _ _ => safe_ite
        (fun _ => safe_pure false) fun _ => ?_)
      · rw [made.sizeIdx2size hi'] at he
        cases he
      · exact safe_bind (safe_look _) (ends_look (safe_bind (safe_look _) (ends_look
          (hr.safe_allocateFrom made hh hi hreq l _ _))))
    refine safe_bind hlist ((hh.allocateInList made a l hi').mono ?_)
    rintro done σ₁ (⟨rfl, rfl⟩ | ⟨rfl, -⟩)
    · exact ih
    · exact safe_pure true

end

theorem Rings.onLists (hr : Rings k σ) (h : OnLists σ σ') : Rings k σ' := hr.sameStore h.ring h.sameStore

theorem Rings.ends_allocateFrom (made : k.sizes.Made g) (hh : Held k g σ T) (hr : Rings k σ)
    (hi : i < k.sizes.nSizes) (l : ListKind) (n : ℕ) (cur : Option ChunkId) :
    Ends (PoolChunkList.allocateFrom k a l b req i th n cur) σ fun _ σ' => Rings k σ' := by
  induction n generalizing cur with
  | zero =>
    cases cur with
    | none => exact ends_pure hr
    | some cur => exact ends_fail _
  | succ n ih =>
    cases cur with
    | none => exact ends_pure hr
    | some cur =>
      refine ends_bind (((hh.allocate made hi).and (hr.ends_allocate made hh hi cur)).mono ?_)
      rintro done σ₁ ⟨⟨rfl, rfl⟩ | ⟨rfl, -⟩, hr₁⟩
      · exact ends_bind (ends_bind (ends_getChunk fun _ _ => ends_look (ih _)))
      · refine ends_bind (ends_getChunk fun x _ => ends_bind (((within_when (within_leave a l cur)).ends
          σ₁).mono fun _ σ' hlists => ends_pure (hr₁.onLists hlists)))

theorem Rings.ends_allocateFromLists (made : k.sizes.Made g) (hh : Held k g σ T) (hr : Rings k σ)
    (hi : i < k.sizes.nSizes) (ls : List ListKind) :
    Ends (PoolArena.allocateFromLists k a b req i th ls) σ fun _ σ' => Rings k σ' := by
  induction ls with
  | nil => exact ends_pure hr
  | cons l ls ih =>
    have hlist : Ends (PoolChunkList.allocate k a l b req i th) σ fun _ σ' => Rings k σ' :=
      ends_bind (ends_check fun _ _ => ends_ite (fun _ => ends_pure hr) fun _ =>
        ends_bind (ends_look (ends_bind (ends_look (hr.ends_allocateFrom made hh hi l _ _)))))
    refine ends_bind (((hh.allocateInList made a l hi).and hlist).mono ?_)
    rintro done σ₁ ⟨⟨rfl, rfl⟩ | ⟨rfl, -⟩, hr₁⟩
    · exact ih
    · exact ends_pure hr₁

/-! ### Chunks of an arena -/

/-- `newChunk` puts a chunk with all its pages free under the next name. -/
structure NewChunk (k : Config) (a : ArenaId) (σ : Pool) (c : ChunkId) (x : PoolChunk) (σ' : Pool) :
    Prop where
  name : c = σ.chunkCount
  runs : Runs.make k.sizes = .ok x.runs
  arena : x.arena = a
  pooled : x.unpooled = false
  chunk : σ'.chunk = Function.update σ.chunk c (some x)
  subpage : σ'.subpage = σ.subpage
  ring : σ'.ring = σ.ring
  chunkLinks : ∀ d ≠ c, σ'.chunkLinks d = σ.chunkLinks d
  listHead : σ'.listHead = σ.listHead

theorem ends_newChunk (a : ArenaId) :
    Ends (PoolArena.newChunk k a) σ fun c σ' => ∃ x, NewChunk k a σ c x σ' :=
  ends_bind (ends_check fun _ hruns => ends_bind (ends_look (ends_bind (ends_update (ends_pure
    ⟨_, rfl, hruns, rfl, rfl, rfl, rfl, rfl, fun _ hd => Function.update_of_ne hd _ _, rfl⟩)))))

theorem Rings.newChunk (hh : Held k g σ T) (hr : Rings k σ) (hname : c = σ.chunkCount)
    (hchunk : σ'.chunk = Function.update σ.chunk c (some x)) (hsub : σ'.subpage = σ.subpage)
    (hring : σ'.ring = σ.ring) : Rings k σ' := by
  refine hr.frame hring hsub fun s p hp hd => ?_
  obtain ⟨y, hy, -⟩ := hh.alive s p hp hd
  have hne : p.chunk ≠ c := by
    intro heq
    rw [heq, hname, hh.freshChunk _ le_rfl] at hy
    cases hy
  rw [hchunk, Function.update_of_ne hne]

theorem NewChunk.rings (hn : NewChunk k a σ c x σ') (hh : Held k g σ T) (hr : Rings k σ) :
    Rings k σ' := hr.newChunk hh hn.name hn.chunk hn.subpage hn.ring

theorem RunFails.of_newChunk (hn : NewChunk k a σ c x σ') (h : RunFails k σ' i) : RunFails k σ i := by
  rcases h with hsize | ⟨runSize, runs, hrun, ⟨d, y, hy, rfl⟩ | hmake, hcall⟩
  · exact .inl hsize
  · refine .inr ⟨runSize, y.runs, hrun, ?_, hcall⟩
    rw [hn.chunk, Function.update_apply] at hy
    split_ifs at hy with hd
    · obtain rfl := Option.some.inj hy
      exact .inr hn.runs
    · exact .inl ⟨d, y, hy, rfl⟩
  · exact .inr ⟨runSize, runs, hrun, .inr hmake, hcall⟩

theorem Rings.ends_allocateNormal (made : k.sizes.Made g) (hh : Held k g σ T) (hr : Rings k σ)
    (hi : i < k.sizes.nSizes) (a : ArenaId) :
    Ends (PoolArena.allocateNormal k a b req i th) σ fun _ σ' => Rings k σ' := by
  refine ends_bind (((Held.allocateFromLists made a hi _ hh).and
    (hr.ends_allocateFromLists made hh hi _)).mono ?_)
  rintro done σ₁ ⟨⟨rfl, rfl⟩ | ⟨rfl, -⟩, hr₁⟩
  · refine ends_bind (((hh.makeChunk made a).and (ends_newChunk a)).mono ?_)
    rintro c σ₂ ⟨⟨-, hheld⟩, x, hn⟩
    refine ends_bind (((hn.rings hh hr).ends_allocate made hheld hi c).mono fun done σ₃ hr₃ => ?_)
    exact ends_bind (ends_assert fun _ => ((within_add a .qInit c).ends σ₃).mono fun _ σ' hlists =>
      hr₃.onLists hlists)
  · exact ends_pure hr₁

theorem not_refuses_of_make (made : k.sizes.Made g) {runs : Runs} (hmake : Runs.make k.sizes = .ok runs)
    (runSize : ℤ) : runs.allocateRun k.sizes runSize ≠ .ok (-1, runs) := by
  obtain ⟨runs', h₀, hmk, hinv, -, -, hfree⟩ := Runs.make_spec made
  obtain rfl : runs = runs' := Except.ok.inj (hmake.symm.trans hmk)
  have hpos : 0 < k.sizes.nPSizes := by
    rw [made.nPSizes]
    exact pageClasses_pos _
  obtain ⟨idx, hidx⟩ := Runs.pages2pageIdx_nat k.sizes (runSize / 2 ^ k.sizes.pageShifts)
  have hfit := Runs.runFirstBestFit_full (c := runs) hpos (by rw [hfree, made.chunkSize]) idx
  have hlast : k.sizes.nPSizes - 1 < runs.runsAvail.length := by
    rw [hinv.queues]
    omega
  have hq := List.getElem?_eq_getElem hlast
  intro hnone
  rcases hinv.allocateRun_queue hidx hfit hq with ⟨-, herr⟩ | ⟨h, c₁, hmem, -, htaken, hcall⟩
  · rw [herr] at hnone
    cases hnone
  have hplain := hinv.plain h (Runs.mem_avail_iff.mpr ⟨_, _, hq, hmem⟩)
  rcases htaken.inv.splitLargeRun made hplain (runSize / 2 ^ k.sizes.pageShifts) with
    herr | ⟨h', c', m, hsplit, -, hcut⟩
  · rw [hcall, herr] at hnone
    cases hnone
  · rw [hcall, hsplit] at hnone
    obtain ⟨low, f⟩ := hcut.fields
    have hneg : h' = -1 := (Prod.mk.inj (Except.ok.inj hnone)).1
    have hnonneg := f.nonneg
    rw [hneg] at hnonneg
    exact absurd hnonneg (by decide)

theorem NewChunk.not_refuses (made : k.sizes.Made g) (hn : NewChunk k a σ c x σ') (runSize : ℤ) :
    ¬ Refuses k σ' c runSize := by
  rintro ⟨y, hy, hrefuse⟩
  rw [hn.chunk, Function.update_self] at hy
  obtain rfl := Option.some.inj hy
  exact not_refuses_of_make made hn.runs runSize hrefuse

theorem NewChunk.ends_allocate (made : k.sizes.Made g) (hn : NewChunk k a σ c x σ')
    (hh : Held k g σ' T) (hi : i < k.sizes.nSizes) :
    Ends (PoolChunk.allocate k c b req i th) σ' fun done _ => done = true := by
  refine ends_bind (Ends.mono (Q := fun h _ => 0 ≤ h) ?_ fun h σ₁ hnonneg => ?_)
  · refine ends_ite (fun _ => ends_bind ((hh.allocateSubpage made hi).mono ?_)) fun _ =>
      ends_bind (ends_check fun size _ => ?_)
    · rintro h σ₁ ⟨-, ⟨hnonneg, -⟩ | ⟨-, runSize, -, hrefuse⟩⟩
      · exact ends_bind (ends_assert fun _ => ends_pure hnonneg)
      · exact absurd hrefuse (hn.not_refuses made runSize)
    · exact ends_allocateRun made hh (fun hrefuse => absurd hrefuse (hn.not_refuses made size))
        fun _ _ _ _ _ _ _ _ f _ _ _ _ => f.nonneg
  · refine ends_ite (fun hneg => absurd hnonneg (not_le.mpr hneg)) fun _ => ?_
    exact ends_bind (ends_getChunk fun _ _ => ends_bind (ends_setChunk (ends_bind fun _ _ _ =>
      ends_pure rfl)))

theorem Rings.safe_allocateNormal (made : k.sizes.Made g) (hh : Held k g σ T) (hr : Rings k σ)
    (hi : i ≤ k.sizes.smallMaxSizeIdx) (hreq : req ≤ sizeAt i) (a : ArenaId) :
    Safe (fun e => e = .assertion → RunFails k σ i) (PoolArena.allocateNormal k a b req i th) σ := by
  have hi' := (made.smallMax_lt hi).2
  refine safe_bind (hr.safe_allocateFromLists made hh hi hreq _)
    ((Held.allocateFromLists made a hi' _ hh).mono ?_)
  rintro done σ₁ (⟨rfl, rfl⟩ | ⟨rfl, -⟩)
  swap
  · exact safe_pure ()
  refine safe_bind ?_ (((hh.makeChunk made a).and (ends_newChunk a)).mono ?_)
  · obtain ⟨runs, -, hmake, -⟩ := Runs.make_spec made
    refine (safe_check fun e he => ?_).bind fun _ _ => (safe_look _).bind fun _ _ =>
      (safe_update _).bind fun _ _ => safe_pure _
    rw [hmake] at he
    cases he
  rintro c σ₂ ⟨⟨-, hheld⟩, x, hn⟩
  have hsafe : Safe (fun e => e = .assertion → RunFails k σ₂ i) (PoolChunk.allocate k c b req i th) σ₂ :=
    (hn.rings hh hr).safe_allocate made hheld hi hreq c
  refine safe_bind (hsafe.mono fun e he hassert => (he hassert).of_newChunk hn)
    ((hn.ends_allocate made hheld hi').mono ?_)
  rintro done σ₃ rfl
  exact (safe_assert rfl).bind fun _ _ => safe_addFrom nofun nofun 6 .qInit

/-! ### Blocks of a small class -/

theorem Rings.head_cases (hr : Rings k σ) (hi : i < k.sizes.nSubpages) (a : ArenaId) :
    (σ.ring (.head a i)).next = some (.head a i) ∨
      ∃ s, (σ.ring (.head a i)).next = some (.subpage s) ∧ Usable σ a (sizeAt i) s := by
  obtain ⟨ss, hpool, hss⟩ := hr.linked.pool a i hi
  have hfirst : (σ.ring (.head a i)).next = (ss.map Node.subpage).head?.or (some (.head a i)) :=
    hpool.first
  rw [hfirst]
  cases ss with
  | nil => exact .inl rfl
  | cons s ss => exact .inr ⟨s, rfl, (hss s).mp List.mem_cons_self⟩

theorem Rings.allocateUsable (made : k.sizes.Made g) (hh : Held k g σ T) (hr : Rings k σ)
    (hp : σ.subpage s = some p) (hd : p.doNotDestroy = true) (hn : 0 < p.numAvail) :
    ∃ h σ', PoolSubpage.allocate s σ = .ok (h, σ') ∧ Rings k σ' ∧ InSubpages σ σ' ∧ 0 ≤ h ∧
      isSubpage h = true ∧ Held k g σ' (⟨p.chunk, h, p.elemSize⟩ :: T) := by
  obtain ⟨x, hx, hs⟩ := hh.alive s p hp hd
  obtain ⟨h, σ', hcall, hr'⟩ := hr.allocateElement hp hx (hh.subpageInv hx hs hp).elements hd hn
  rcases hh.allocateElement made h σ' hcall with ⟨-, -, q, hq, hnone⟩ | ⟨hin, q, hq, hnonneg, hsub, hheld⟩
  all_goals obtain rfl : p = q := Option.some.inj (hp.symm.trans hq)
  · rcases hnone with hzero | hdead
    · exact absurd hzero hn.ne'
    · rw [hd] at hdead
      cases hdead
  · exact ⟨h, σ', hcall, hr', hin, hnonneg, hsub, hheld⟩

/-- The ring of the class is empty and the chunks are asked, or its first subpage gives the block. -/
theorem Rings.allocateSmall_cases (made : k.sizes.Made g) (hh : Held k g σ T) (hr : Rings k σ)
    (hi : i ≤ k.sizes.smallMaxSizeIdx) (a : ArenaId) (b : BufId) (req : ℤ) (th : ThreadId) :
    PoolArena.allocateSmall k a b req i th σ = PoolArena.allocateNormal k a b req i th σ ∨
      ∃ (t : Token) (σ₁ : Pool), Rings k σ₁ ∧ Held k g σ₁ (t :: T) ∧ isSubpage t.handle = true ∧
        t.cap = sizeAt i ∧ InSubpages σ σ₁ ∧ PoolArena.allocateSmall k a b req i th σ =
          PoolChunk.initBufWithSubpage k t.chunk b none t.handle req th σ₁ := by
  obtain ⟨hi', hi''⟩ := made.smallMax_lt hi
  have hhead : findSubpagePoolHead k a i = .ok (.head a i) := if_pos hi'
  have hlook : (look fun σ => σ.ring (.head a i) : PoolM RingLinks) σ = .ok (σ.ring (.head a i), σ) := rfl
  rw [PoolArena.allocateSmall, run_bind (PoolSubpage.check_run hhead), run_bind hlook]
  rcases hr.head_cases hi' a with hempty | ⟨s, hnext, p, x, hp, hx, -, hd, hn, hsize⟩
  · exact .inl (by rw [if_pos hempty])
  · rw [hnext, if_neg (by simp)]
    obtain ⟨h, σ₁, hcall, hr₁, hin, hnonneg, hsub, hheld⟩ := hr.allocateUsable made hh hp hd hn
    refine .inr ⟨⟨p.chunk, h, p.elemSize⟩, σ₁, hr₁, hheld, hsub, hsize, hin, ?_⟩
    have halive : (assert (p.doNotDestroy = true ∧ p.elemSize = (sizeAt i : ℕ)) : PoolM Unit) σ =
        .ok ((), σ) := assert_ok.mpr ⟨⟨hd, hsize⟩, rfl⟩
    have hpos : (assert (h ≥ 0) : PoolM Unit) σ₁ = .ok ((), σ₁) := assert_ok.mpr ⟨hnonneg, rfl⟩
    simp only
    rw [run_bind (PoolSubpage.getSubpage_eq hp), run_bind (PoolSubpage.check_run (made.sizeIdx2size hi'')),
      run_bind halive, run_bind hcall, run_bind hpos]

theorem Rings.ends_allocateSmall (made : k.sizes.Made g) (hh : Held k g σ T) (hr : Rings k σ)
    (hi : i ≤ k.sizes.smallMaxSizeIdx) (a : ArenaId) :
    Ends (PoolArena.allocateSmall k a b req i th) σ fun _ σ' => Rings k σ' := by
  rcases hr.allocateSmall_cases made hh hi a b req th with heq | ⟨t, σ₁, hr₁, hheld, hsub, -, -, heq⟩
  · exact (hr.ends_allocateNormal made hh (made.smallMax_lt hi).2 a).of_eq heq
  · exact Ends.of_eq heq ((hheld.initBufWithSubpage hsub).mono fun _ _ hinit => hr₁.fills hinit.2)

theorem Rings.safe_allocateSmall (made : k.sizes.Made g) (hh : Held k g σ T) (hr : Rings k σ)
    (hi : i ≤ k.sizes.smallMaxSizeIdx) (hreq : req ≤ sizeAt i) (a : ArenaId) :
    Safe (fun e => e = .assertion → RunFails k σ i) (PoolArena.allocateSmall k a b req i th) σ := by
  rcases hr.allocateSmall_cases made hh hi a b req th with heq | ⟨t, σ₁, -, hheld, hsub, hcap, -, heq⟩
  · exact (hr.safe_allocateNormal made hh hi hreq a).of_eq heq
  · exact Safe.of_eq heq (hheld.safe_initBufWithSubpage nofun hsub (by rw [hcap]; exact hreq))

/-! ### Giving a block back to the arena -/

theorem Rings.ends_freeChunk (made : k.sizes.Made g) (hh : Held k g σ (t :: T)) (hr : Rings k σ)
    (buffer : Option Pointer) :
    Ends (PoolArena.freeChunk k t.chunk t.handle t.cap buffer) σ fun _ σ' => Rings k σ' := by
  refine ends_bind (ends_getChunk fun x _ => ends_bind (ends_bind (ends_getChunk fun _ _ =>
    ends_look ?_)))
  cases (σ.chunkLinks t.chunk).parent with
  | none => exact ends_fail _
  | some l =>
    have hfree : Ends (PoolChunkList.free k x.arena l t.chunk t.handle t.cap buffer) σ fun _ σ' =>
        Rings k σ' := by
      obtain ⟨σ₁, hcall, hr₁⟩ := hr.freeBlock made hh buffer
      refine ends_bind fun _ σ' hcall' => ?_
      obtain rfl : σ₁ = σ' := (Prod.mk.inj (Except.ok.inj (hcall.symm.trans hcall'))).2
      refine ends_bind (ends_getChunk fun y _ => ends_ite (fun _ => ?_) fun _ => ends_pure hr₁)
      refine ends_bind (((within_remove x.arena l t.chunk).ends σ₁).mono fun _ σ₂ hrem => ?_)
      exact (ends_move0 x.arena 6 l σ₂).mono fun _ σ' hmove => (hr₁.onLists hrem).onLists hmove.1
    refine ends_bind (((hh.freeInList made x.arena l buffer).and hfree).mono ?_)
    rintro kept σ₁ ⟨⟨howners, hheld, hempty⟩, hr₁⟩
    cases kept with
    | true => exact ends_pure hr₁
    | false =>
      obtain ⟨y, hy, hu⟩ := hempty rfl
      refine ends_bind (ends_getChunk fun z hz => ends_update ?_)
      obtain rfl : y = z := Option.some.inj (hy.symm.trans hz)
      obtain ⟨hslot, -⟩ := hheld.unused made hy (hh.pooled_after howners hy) hu
      exact hr₁.destroyChunk hheld hy hslot

end Mutty.Buffer
