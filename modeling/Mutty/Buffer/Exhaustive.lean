import Mutty.Buffer.BestFit
import Mutty.Buffer.Residency

/-!
# No chunk too early

`allocateNormal` does not ask the chunks on `q100`, and asks those on another list only when the
request is not above the list's `maxCapacity`, although a chunk may have a little more free than
that. With the default geometry no size class lies in between, so the chunks that are not asked
would refuse, and a new chunk is created exactly when every chunk refuses.
-/

namespace Mutty.Buffer

open Mutty.Lib Prog ChunkLinks

/-! ### Chunks with too few free pages -/

namespace Runs

variable {s : SizeClasses} {g : Geometry} {c : Runs} {held : List Block} {h : Int64} {m : ℕ}

theorem Inv.pages_le_pageCount {n : ℕ} (inv : Inv s n c held) (hh : h ∈ c.avail) :
    ((span h).2 : ℤ) ≤ c.pageCount := by
  have hle := List.le_sum_of_mem (List.mem_map_of_mem (f := Prod.snd ∘ span) hh)
  rw [inv.pageCount_cast]
  exact_mod_cast hle

theorem Inv.allocateRun_of_lt (inv : Inv s g.pages c held) (made : s.Made g)
    (hbytes : c.freeBytes = c.pageCount * 2 ^ s.pageShifts) (hpos : 0 < m) (hle : m ≤ g.pages)
    (hlt : c.pageCount < m) : c.allocateRun s (m * 2 ^ s.pageShifts) = .ok (-1, c) := by
  have hpow : (0 : ℤ) < 2 ^ s.pageShifts := by positivity
  have hdiv : (m : ℤ) * 2 ^ s.pageShifts / 2 ^ s.pageShifts = m := Int.mul_ediv_cancel _ hpow.ne'
  have hfree : c.freeBytes ≠ s.chunkSize := by
    rw [hbytes, made.chunkSize, made.pageShifts, g.chunkSize_eq]
    push_cast
    intro heq
    rw [made.pageShifts] at hpow
    have := mul_right_cancel₀ hpow.ne' heq
    omega
  obtain ⟨k, hceil, hk, hidx, -⟩ := made.pages2pageIdx hpos hle
  rcases inv.runFirstBestFit_scan hfree hk.le with ⟨hnone, -⟩ | ⟨i, q, -, hki, hq, hne, -⟩
  · simp [Runs.allocateRun, hdiv, hidx, hnone, bind, Except.bind, pure, Except.pure]
  · -- a run in the queue would have enough pages
    obtain ⟨h, hh⟩ : ∃ h, h ∈ q.elems := by
      by_contra hall
      push Not at hall
      rw [isEmpty_iff.mpr (List.eq_nil_iff_forall_not_mem.mpr hall)] at hne
      cases hne
    have h1 := inv.pages_le_of_queue made hceil hki hq hh
    have h2 := inv.pages_le_pageCount (mem_avail_iff.mpr ⟨i, q, hq, hh⟩)
    omega

end Runs

variable {k : Config} {g : Geometry} {σ σ' : Pool} {T : List Token} {c : ChunkId} {x : PoolChunk}
  {a : ArenaId} {l : ListKind} {b : BufId} {th : ThreadId} {req : ℤ} {i m : ℕ}

theorem Held.allocateRun_of_lt (made : k.sizes.Made g) (hh : Held k g σ T) (hx : σ.chunk c = some x)
    (hpool : x.unpooled = false) (hpos : 0 < m) (hle : m ≤ g.pages)
    (hlt : x.runs.freeBytes < m * 2 ^ k.sizes.pageShifts) :
    PoolChunk.allocateRun k c (m * 2 ^ k.sizes.pageShifts) σ = .ok (-1, σ) := by
  have hc := hh.chunks c x hx hpool
  have hpages : x.runs.pageCount < m := by
    rw [hc.bytes] at hlt
    exact lt_of_mul_lt_mul_right hlt (by positivity)
  have hcall := hc.runs.allocateRun_of_lt made hc.bytes hpos hle hpages
  rw [PoolChunk.allocateRun, run_bind (getChunk_eq hx), run_bind (PoolSubpage.check_run hcall)]
  change Except.ok ((-1 : Int64), σ.withChunk c { x with runs := x.runs }) = _
  rw [Pool.withChunk_self hx]

def Declines (k : Config) (b : BufId) (req : ℤ) (i : ℕ) (th : ThreadId) (σ : Pool) (c : ChunkId) :
    Prop := PoolChunk.allocate k c b req i th σ = .ok (false, σ)

theorem declines_of_handle (h : PoolChunk.allocateHandle k c i σ = .ok (-1, σ)) :
    Declines k b req i th σ c := by
  rw [Declines, PoolChunk.allocate, run_bind h, if_pos (by decide)]
  rfl

theorem Held.declines_large (made : k.sizes.Made g) (hh : Held k g σ T) (hx : σ.chunk c = some x)
    (hpool : x.unpooled = false) (hi : k.sizes.smallMaxSizeIdx < i) (hi' : i < k.sizes.nSizes)
    (hlt : x.runs.freeBytes < sizeAt i) : Declines k b req i th σ c := by
  obtain ⟨m, hm⟩ := made.dvd_sizeAt hi hi'
  rw [mul_comm] at hm
  have hpos : 0 < m := by
    by_contra h0
    have := sizeAt_pos i
    rw [hm, Nat.eq_zero_of_not_pos h0, Nat.zero_mul] at this
    exact lt_irrefl 0 this
  have hle : m ≤ g.pages := by
    have hlast : sizeAt i ≤ g.chunkSize := by
      rw [← made.sizeAt_last]
      exact sizeAt_strictMono.monotone (by omega)
    rw [hm, made.pageShifts, g.chunkSize_eq] at hlast
    exact Nat.le_of_mul_le_mul_right hlast (Nat.two_pow_pos _)
  have hsize : ((sizeAt i : ℕ) : ℤ) = m * 2 ^ k.sizes.pageShifts := by exact_mod_cast hm
  rw [hsize] at hlt
  have hrun := hh.allocateRun_of_lt made hx hpool hpos hle hlt
  rw [← hsize] at hrun
  apply declines_of_handle
  rw [PoolChunk.allocateHandle, if_neg (not_le.mpr hi),
    run_bind (PoolSubpage.check_run (made.sizeIdx2size hi'))]
  exact hrun

theorem Held.declines_small (made : k.sizes.Made g) (hh : Held k g σ T) (hx : σ.chunk c = some x)
    (hpool : x.unpooled = false) (hi : i ≤ k.sizes.smallMaxSizeIdx) (hpos : 0 < m) (hle : m ≤ g.pages)
    (hrun : PoolChunk.calculateRunSize k i = .ok (m * 2 ^ k.sizes.pageShifts))
    (hzero : x.runs.freeBytes ≤ 0) : Declines k b req i th σ c := by
  have hlt : x.runs.freeBytes < m * 2 ^ k.sizes.pageShifts := by
    refine lt_of_le_of_lt hzero ?_
    positivity
  have hcall := hh.allocateRun_of_lt made hx hpool hpos hle hlt
  have hhead : findSubpagePoolHead k x.arena i = .ok (.head x.arena i) := if_pos (made.smallMax_lt hi).1
  have hsub : PoolChunk.allocateSubpage k c i σ = .ok (-1, σ) := by
    rw [PoolChunk.allocateSubpage, run_bind (getChunk_eq hx), run_bind (PoolSubpage.check_run hhead),
      run_bind (PoolSubpage.check_run hrun)]
    push_cast
    rw [run_bind hcall, if_pos (by decide)]
    rfl
  apply declines_of_handle
  rw [PoolChunk.allocateHandle, if_pos hi, run_bind hsub]
  rfl

/-- The run for the elements of a small class has at most seven pages. -/
theorem SizeClasses.Made.calculateRunSize (made : k.sizes.Made g) (h28 : g.pageShifts ≤ 28)
    (h3 : 3 ≤ g.order) (hi : i ≤ k.sizes.smallMaxSizeIdx) :
    ∃ m, 0 < m ∧ m ≤ g.pages ∧
      PoolChunk.calculateRunSize k i = .ok (m * 2 ^ k.sizes.pageShifts) := by
  have h12 := g.pageShifts_ge
  have hsub := made.nSubpages
  have hn := made.nSizes
  have hi' := (made.smallMax_lt hi).2
  rw [made.smallMaxSizeIdx] at hi
  obtain ⟨o, e, hsmall⟩ := small_sizeAt (i := i) h12 (by omega)
  obtain ⟨m, hm⟩ := Nat.dvd_lcm_left (2 ^ g.pageShifts) (sizeAt i)
  have hpow := Nat.two_pow_pos g.pageShifts
  have h7 : m ≤ 7 := by
    have hle := hsmall.lcm_le
    rw [hm, mul_comm] at hle
    exact Nat.le_of_mul_le_mul_right hle hpow
  have h8 : 8 ≤ g.pages := Nat.pow_le_pow_right (n := 2) (by norm_num) h3
  have hpos : 0 < m := by
    have := Nat.lcm_pos hpow hsmall.pos
    rw [hm] at this
    exact Nat.pos_of_mul_pos_left this
  refine ⟨m, hpos, by omega, ?_⟩
  have hint : Nat.lcm (2 ^ g.pageShifts) (sizeAt i) < 2 ^ 31 := by
    have : 2 ^ g.pageShifts ≤ 2 ^ 28 := Nat.pow_le_pow_right (by norm_num) h28
    have hle := hsmall.lcm_le
    omega
  have hchunk : Nat.lcm (2 ^ g.pageShifts) (sizeAt i) ≤ k.sizes.chunkSize := by
    rw [made.chunkSize, g.chunkSize_eq, hm, mul_comm]
    exact Nat.mul_le_mul_right _ (by omega)
  rw [hsmall.calculateRunSize made.pageShifts (by omega) (made.sizeIdx2size hi') hint hchunk, hm,
    made.pageShifts, mul_comm]

/-! ### Asking the chunks of a list -/

theorem Held.allocateFrom_iff (made : k.sizes.Made g) (hh : Held k g σ T) (hi : i < k.sizes.nSizes)
    {cs pre suf : List ChunkId} {head : Option ChunkId} (hlist : IsList σ.chunkLinks head l cs)
    (hcs : ∀ c ∈ cs, ∃ x, σ.chunk c = some x) (hsplit : cs = pre ++ suf) {n : ℕ}
    (hn : suf.length ≤ n) :
    PoolChunkList.allocateFrom k a l b req i th n suf.head? σ = .ok (false, σ) ↔
      ∀ c ∈ suf, Declines k b req i th σ c := by
  induction suf generalizing pre n with
  | nil =>
    refine iff_of_true ?_ (by simp)
    cases n <;> rfl
  | cons c suf ih =>
    obtain ⟨n, rfl⟩ : ∃ m, n = m + 1 := ⟨n - 1, by rw [List.length_cons] at hn; omega⟩
    rw [List.head?_cons, List.forall_mem_cons]
    cases hcall : PoolChunk.allocate k c b req i th σ with
    | error e =>
      have hstep : PoolChunkList.allocateFrom k a l b req i th (n + 1) (some c) σ = .error e :=
        run_bind_error hcall
      rw [hstep, Declines, hcall]
      simp
    | ok r =>
      obtain ⟨done, σ₁⟩ := r
      have hstep : PoolChunkList.allocateFrom k a l b req i th (n + 1) (some c) σ = _ :=
        run_bind hcall
      rw [hstep]
      rcases hh.allocate made hi done σ₁ hcall with ⟨rfl, rfl⟩ | ⟨rfl, -⟩
      · -- the chunk declines, and the next one is asked
        obtain ⟨x, hx⟩ := hcs c (by rw [hsplit]; exact List.mem_append_right _ List.mem_cons_self)
        have hnext : (σ₁.chunkLinks c).next = suf.head? := by
          rw [hsplit] at hlist
          have := hlist.chain.links.2
          rwa [Option.or_none] at this
        have hsplit' : cs = (pre ++ [c]) ++ suf := by rw [hsplit, List.append_cons]
        have hrest := ih hsplit' (n := n) (by rw [List.length_cons] at hn; omega)
        rw [if_neg (by decide), run_bind (getLinks_eq hx), hnext, hrest]
        exact (and_iff_right hcall).symm
      · refine iff_of_false (fun hfalse => ?_) fun hall => ?_
        · rw [if_pos rfl] at hfalse
          obtain ⟨y, σ₂, -, hfalse⟩ := bind_ok.mp hfalse
          obtain ⟨_, σ₃, -, hfalse⟩ := bind_ok.mp hfalse
          cases hfalse
        · have := hcall.symm.trans hall.1
          cases this

/-- No size class lies between what a list is asked for and what its chunks may have. -/
def NoGap (k : Config) : Prop :=
  ∀ l ≠ ListKind.q100, ∀ i < k.sizes.nSizes, l.calculateMaxCapacity k.sizes.chunkSize < sizeAt i →
    k.sizes.smallMaxSizeIdx < i ∧ k.freeMaxThreshold l < sizeAt i

theorem Resident.allocateInList_iff (made : k.sizes.Made g) (hh : Held k g σ T) (h : Resident k σ)
    (hgap : NoGap k) (hi : i < k.sizes.nSizes) (a : ArenaId) (hl : l ≠ .q100) :
    PoolChunkList.allocate k a l b req i th σ = .ok (false, σ) ↔
      ∀ c, BelongsTo σ a l c → Declines k b req i th σ c := by
  have hsize := PoolSubpage.check_run (σ := σ) (made.sizeIdx2size hi)
  rw [PoolChunkList.allocate, run_bind hsize]
  by_cases hlarge : ((sizeAt i : ℕ) : ℤ) > l.calculateMaxCapacity k.sizes.chunkSize
  · -- the chunks that are not asked have less
    rw [if_pos hlarge]
    refine iff_of_true rfl ?_
    rintro c ⟨x, hx, hpool, -, hparent⟩
    obtain ⟨hsmall, hmax⟩ := hgap l hl i hi hlarge
    obtain ⟨l', hl', hwin⟩ := h.window c x trivial hx hpool
    obtain rfl : l = l' := Option.some.inj (hparent.symm.trans hl')
    exact hh.declines_large made hx hpool hsmall hi (lt_of_le_of_lt hwin.2 hmax)
  · rw [if_neg hlarge]
    obtain ⟨cs, hlist, hcs⟩ := h.listed.list a l
    simp only [true_and] at hcs
    have hlen := hh.length_le_chunkCount hlist.nodup fun c hc => by
      obtain ⟨x, hx, -⟩ := (hcs c).mp hc
      exact ⟨x, hx⟩
    have hloop : PoolChunkList.allocateFrom k a l b req i th σ.chunkCount cs.head? σ = .ok (false, σ) ↔
        ∀ c ∈ cs, Declines k b req i th σ c :=
      hh.allocateFrom_iff made hi hlist (fun c hc => by
        obtain ⟨x, hx, -⟩ := (hcs c).mp hc
        exact ⟨x, hx⟩) (List.nil_append cs).symm hlen
    rw [← hlist.first] at hloop
    simp only [hcs] at hloop
    exact hloop

theorem Held.allocateFromLists_iff (made : k.sizes.Made g) (hh : Held k g σ T)
    (hi : i < k.sizes.nSizes) (a : ArenaId) (ls : List ListKind) :
    PoolArena.allocateFromLists k a b req i th ls σ = .ok (false, σ) ↔
      ∀ l ∈ ls, PoolChunkList.allocate k a l b req i th σ = .ok (false, σ) := by
  induction ls with
  | nil => exact iff_of_true rfl (by simp)
  | cons l ls ih =>
    rw [List.forall_mem_cons]
    cases hcall : PoolChunkList.allocate k a l b req i th σ with
    | error e =>
      have hstep : PoolArena.allocateFromLists k a b req i th (l :: ls) σ = .error e :=
        run_bind_error hcall
      rw [hstep]
      simp
    | ok r =>
      obtain ⟨done, σ₁⟩ := r
      have hstep : PoolArena.allocateFromLists k a b req i th (l :: ls) σ = _ := run_bind hcall
      rw [hstep]
      rcases hh.allocateInList made a l hi done σ₁ hcall with ⟨rfl, rfl⟩ | ⟨rfl, -⟩
      · rw [if_neg (by decide), ih]
        exact (and_iff_right rfl).symm
      · refine iff_of_false (fun hfalse => ?_) fun hall => ?_
        · rw [if_pos rfl] at hfalse
          cases hfalse
        · cases hall.1

/-! ### The default geometry -/

theorem DefaultGeometry.geometry (h : DefaultGeometry k) (made : k.sizes.Made g) :
    g.pageShifts = 13 ∧ g.order = 11 := by
  have hps : g.pageShifts = 13 := by
    obtain ⟨chunkSize, hchunk, hmake⟩ := bind_eq_ok.mp h.sizes
    obtain ⟨pageShifts, hshifts, hmake⟩ := bind_eq_ok.mp hmake
    have hdefault : validateAndCalculatePageShifts 8192 = .ok 13 := by decide
    obtain rfl := Except.ok.inj (hdefault.symm.trans hshifts)
    obtain ⟨g', hps', hcs'⟩ := exists_geometry (by norm_num) hchunk hdefault
    obtain ⟨sizes, hsizes, made'⟩ := SizeClasses.make_spec g'
    rw [hps', hcs', Int.toNat_natCast, Int.toNat_natCast, hsizes] at hmake
    obtain rfl := Except.ok.inj hmake
    rw [← made.pageShifts, made'.pageShifts]
    exact_mod_cast hps'.symm
  have hchunk := h.chunkSize
  rw [made.chunkSize, Geometry.chunkSize, hps] at hchunk
  have horder : 13 + g.order = 24 := Nat.pow_right_injective (le_refl 2) hchunk
  exact ⟨hps, by omega⟩

theorem noGap_default : ∀ l ≠ ListKind.q100, ∀ i < 76, l.calculateMaxCapacity 16777216 < sizeAt i →
    38 < i ∧ ListKind.exactThreshold 16777216 l.minUsage < sizeAt i := by
  intro l
  cases l <;> decide +kernel

theorem DefaultGeometry.noGap (h : DefaultGeometry k) (made : k.sizes.Made g) : NoGap k := by
  obtain ⟨hps, horder⟩ := h.geometry made
  have hn : k.sizes.nSizes = 76 := by rw [made.nSizes, hps, horder]
  have hsmall : k.sizes.smallMaxSizeIdx = 38 := by
    rw [made.smallMaxSizeIdx, made.nSubpages, hps, horder]
    norm_num
  intro l hl i hi hlarge
  rw [h.chunkSize] at hlarge
  rw [hsmall, h.freeMaxThreshold]
  exact noGap_default l hl i (by omega) hlarge

theorem DefaultGeometry.declines_full (h : DefaultGeometry k) (made : k.sizes.Made g)
    (hh : Held k g σ T) (hres : Resident k σ) (hi : i < k.sizes.nSizes) (hc : BelongsTo σ a .q100 c) :
    Declines k b req i th σ c := by
  obtain ⟨hps, horder⟩ := h.geometry made
  obtain ⟨x, hx, hpool, -, hparent⟩ := hc
  obtain ⟨l, hl, hwin⟩ := hres.window c x trivial hx hpool
  obtain rfl : .q100 = l := Option.some.inj (hparent.symm.trans hl)
  have hzero : x.runs.freeBytes ≤ 0 := by
    have := hwin.2
    rwa [h.freeMaxThreshold] at this
  by_cases hsmall : i ≤ k.sizes.smallMaxSizeIdx
  · obtain ⟨m, hpos, hle, hrun⟩ := made.calculateRunSize (by omega) (by omega) hsmall
    exact hh.declines_small made hx hpool hsmall hpos hle hrun hzero
  · refine hh.declines_large made hx hpool (not_le.mp hsmall) hi (lt_of_le_of_lt hzero ?_)
    exact_mod_cast sizeAt_pos i

/-- `allocateNormal` finds no chunk on the lists it asks and goes on to `newChunk`. -/
def CreatesChunk (k : Config) (a : ArenaId) (b : BufId) (req : ℤ) (i : ℕ) (th : ThreadId) (σ : Pool) :
    Prop :=
  ∃ σ₁, PoolArena.allocateFromLists k a b req i th [.q050, .q025, .q000, .qInit, .q075] σ =
    .ok (false, σ₁)

theorem DefaultGeometry.createsChunk_iff (h : DefaultGeometry k) (made : k.sizes.Made g)
    (hh : Held k g σ T) (hres : Resident k σ) (hi : i < k.sizes.nSizes) (a : ArenaId) :
    CreatesChunk k a b req i th σ ↔ ∀ l c, BelongsTo σ a l c → Declines k b req i th σ c := by
  have hsame : CreatesChunk k a b req i th σ ↔
      PoolArena.allocateFromLists k a b req i th [.q050, .q025, .q000, .qInit, .q075] σ =
        .ok (false, σ) := by
    constructor
    · rintro ⟨σ₁, hcall⟩
      rcases Held.allocateFromLists made a hi _ hh false σ₁ hcall with ⟨-, rfl⟩ | ⟨habs, -⟩
      · exact hcall
      · cases habs
    · exact fun hcall => ⟨σ, hcall⟩
  rw [hsame, hh.allocateFromLists_iff made hi]
  constructor
  · intro hall l c hc
    by_cases hl : l = .q100
    · subst hl
      exact h.declines_full made hh hres hi hc
    · refine (hres.allocateInList_iff made hh (h.noGap made) hi a hl).mp (hall l ?_) c hc
      cases l <;> first | decide | exact absurd rfl hl
  · intro hall l hl
    refine (hres.allocateInList_iff made hh (h.noGap made) hi a ?_).mpr (hall l)
    rintro rfl
    exact absurd hl (by decide)

theorem Held.allocateFrom_chunkCount (made : k.sizes.Made g) (hh : Held k g σ T)
    (hi : i < k.sizes.nSizes) (a : ArenaId) (l : ListKind) (n : ℕ) (cur : Option ChunkId) :
    Ends (PoolChunkList.allocateFrom k a l b req i th n cur) σ fun _ σ' =>
      σ'.chunkCount = σ.chunkCount := by
  induction n generalizing cur with
  | zero =>
    cases cur with
    | none => exact ends_pure rfl
    | some cur => exact ends_fail _
  | succ n ih =>
    cases cur with
    | none => exact ends_pure rfl
    | some cur =>
      refine ends_bind ((hh.allocate made hi).mono ?_)
      rintro done σ₁ (⟨rfl, rfl⟩ | ⟨rfl, hworks, -⟩)
      · exact ends_bind (ends_bind (ends_getChunk fun _ _ => ends_look (ih _)))
      · refine ends_bind (ends_getChunk fun x _ => ends_bind ?_)
        exact ((within_when (within_leave a l cur)).ends σ₁).mono fun _ σ' hst => ends_pure
          (hst.sameStore.chunkCount.trans hworks.chunkCount)

theorem Held.allocateFromLists_chunkCount (made : k.sizes.Made g) (hh : Held k g σ T)
    (hi : i < k.sizes.nSizes) (a : ArenaId) (ls : List ListKind) :
    Ends (PoolArena.allocateFromLists k a b req i th ls) σ fun _ σ' =>
      σ'.chunkCount = σ.chunkCount := by
  induction ls with
  | nil => exact ends_pure rfl
  | cons l ls ih =>
    have hone : Ends (PoolChunkList.allocate k a l b req i th) σ fun _ σ' =>
        σ'.chunkCount = σ.chunkCount :=
      ends_bind (ends_check fun _ _ => ends_ite (fun _ => ends_pure rfl) fun _ =>
        ends_bind (ends_look (ends_bind (ends_look (hh.allocateFrom_chunkCount made hi a l _ _)))))
    refine ends_bind (((hh.allocateInList made a l hi).and hone).mono ?_)
    rintro done σ₁ ⟨⟨rfl, rfl⟩ | ⟨rfl, -⟩, hcount⟩
    · exact ih
    · exact ends_pure hcount

theorem Held.newChunk_chunkCount (made : k.sizes.Made g) (hh : Held k g σ T) (hi : i < k.sizes.nSizes)
    (a : ArenaId) :
    Ends (do
      let c ← PoolArena.newChunk k a
      let success ← PoolChunk.allocate k c b req i th
      assert (success = true)
      PoolChunkList.add k a .qInit c : PoolM Unit) σ fun _ σ' =>
        σ'.chunkCount = σ.chunkCount + 1 := by
  have hnew : Ends (PoolArena.newChunk k a) σ fun _ σ' => σ'.chunkCount = σ.chunkCount + 1 :=
    ends_bind (ends_check fun _ _ => ends_bind (ends_look (ends_bind (ends_update (ends_pure rfl)))))
  refine ends_bind (((hh.makeChunk made a).and hnew).mono ?_)
  rintro c σ₁ ⟨⟨-, hheld⟩, hcount⟩
  refine ends_bind ((hheld.allocate made hi).mono ?_)
  rintro done σ₂ (⟨rfl, -⟩ | ⟨rfl, hworks, -⟩)
  · exact ends_bind (ends_assert nofun)
  · refine ends_bind (ends_assert fun _ => ((within_add a .qInit c).ends σ₂).mono fun _ σ' hst => ?_)
    rw [hst.sameStore.chunkCount, hworks.chunkCount, hcount]

/-- A call that returns has made a chunk exactly when it came to `newChunk`. -/
theorem Held.createsChunk_count (made : k.sizes.Made g) (hh : Held k g σ T) (hi : i < k.sizes.nSizes)
    (hcall : PoolArena.allocateNormal k a b req i th σ = .ok ((), σ')) :
    CreatesChunk k a b req i th σ ↔ σ'.chunkCount = σ.chunkCount + 1 := by
  obtain ⟨done, σ₁, hlists, hrest⟩ := bind_ok.mp hcall
  have hcount := hh.allocateFromLists_chunkCount made hi a _ done σ₁ hlists
  rcases Held.allocateFromLists made a hi _ hh done σ₁ hlists with ⟨rfl, rfl⟩ | ⟨rfl, -⟩
  · rw [if_neg (by decide)] at hrest
    exact iff_of_true ⟨σ₁, hlists⟩ (hh.newChunk_chunkCount made hi a _ _ hrest)
  · rw [if_pos rfl] at hrest
    cases hrest
    refine iff_of_false ?_ (by omega)
    rintro ⟨σ₂, hfalse⟩
    cases hlists.symm.trans hfalse

/-- In every state of an arena of the default geometry, a request for any size class leads to a new
chunk exactly when every chunk on every list of the arena would refuse it. -/
theorem createsChunk_iff_all_decline (hk : DefaultGeometry k) (σ : ArenaState)
    (hreach : (arenaMachine k).Reach System.Free σ) (a : ArenaId) (b : BufId) (req : ℤ) (i : ℕ)
    (th : ThreadId) (hi : i < k.sizes.nSizes) :
    (∃ on, OnOneList k σ.pool on ∧ (CreatesChunk k a b req i th σ.pool ↔
      ∀ l, ∀ c ∈ on a l, PoolChunk.allocate k c b req i th σ.pool = .ok (false, σ.pool))) ∧
    ∀ pool, PoolArena.allocateNormal k a b req i th σ.pool = .ok ((), pool) →
      (CreatesChunk k a b req i th σ.pool ↔ pool.chunkCount = σ.pool.chunkCount + 1) := by
  obtain ⟨g, made, hinv⟩ := ArenaInv.reach hreach
  have hres := Resident.reach hk.windows hreach
  obtain ⟨on, hon⟩ := hres.onOneList
  refine ⟨⟨on, hon, ?_⟩, fun pool hcall => hinv.held.createsChunk_count made hi hcall⟩
  rw [hk.createsChunk_iff made hinv.held hres hi a]
  constructor
  · intro hall l c hc
    obtain ⟨x, hx, hpool, rfl⟩ := hon.pooled a l c hc
    exact hall l c ⟨x, hx, hpool, rfl, (hon.lists x.arena l).parent c hc⟩
  · rintro hall l c ⟨x, hx, hpool, rfl, hparent⟩
    obtain ⟨l', -, hc, -⟩ := hon.one c x hx hpool
    exact hall l' c hc

/-- After a block of 14 MiB the one chunk is on `q050`, which is not asked for 10 MiB. -/
theorem createsChunk_after_large : ∃ σ, (arenaMachine defaultConfig).Reach System.Free σ ∧
    (σ.pool.chunkLinks 0).parent = some .q050 ∧
    ∃ pool on, PoolArena.allocateNormal defaultConfig 0 1 10485760 72 0 σ.pool = .ok ((), pool) ∧
      pool.chunkCount = 2 ∧ OnOneList defaultConfig σ.pool on ∧
      ∀ l, ∀ c ∈ on 0 l, PoolChunk.allocate defaultConfig c 1 10485760 72 0 σ.pool = .ok (false, σ.pool) := by
  obtain ⟨σ, -, hreach, hp⟩ := System.exists_reach (M := arenaMachine defaultConfig)
    (G := System.Free) [.others [] [PooledByteBuf.new, PooledByteBuf.new], .allocate 0 0 0 14680064]
    (fun σ => (σ.pool.chunkLinks 0).parent = some .q050 ∧ σ.pool.chunkCount = 1 ∧
      (PoolArena.allocateNormal defaultConfig 0 1 10485760 72 0 σ.pool).toOption.any
        (fun r => r.2.chunkCount = 2) = true)
    (s := ⟨Pool.initial, []⟩)
    ⟨⟨8192, 11, by norm_num, defaultConfig_geometry.sizes⟩, rfl, rfl⟩
    (by rw [defaultConfig_eq]; decide +kernel)
  obtain ⟨hparent, hone, hany⟩ := of_decide_eq_true hp
  obtain ⟨⟨_, pool⟩, hcall, htwo⟩ := (Option.any_eq_true _ _).mp hany
  have hcall := toOption_eq_some.mp hcall
  have htwo : pool.chunkCount = 2 := of_decide_eq_true htwo
  have hi : 72 < defaultConfig.sizes.nSizes := by
    obtain ⟨g, made, -⟩ := ArenaInv.reach hreach
    obtain ⟨hps, horder⟩ := defaultConfig_geometry.geometry made
    rw [made.nSizes, hps, horder]
    norm_num
  obtain ⟨⟨on, hon, hiff⟩, hcount⟩ := createsChunk_iff_all_decline defaultConfig_geometry σ hreach 0 1
    10485760 72 0 hi
  have hcreates := (hcount pool hcall).mpr (by rw [htwo, hone])
  exact ⟨σ, hreach, hparent, pool, on, hcall, htwo, hon, hiff.mp hcreates⟩

end Mutty.Buffer
