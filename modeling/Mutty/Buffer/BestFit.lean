import Mutty.Buffer.RunMachine

/-!
# What a chunk answers to a request for a run

`runFirstBestFit` scans the queues from the page class of the request on, except when the whole
chunk is free: then it takes the last queue for the one that holds the run of all pages. The answer
is the best fit as long as that shortcut agrees with the scan.
-/

namespace Mutty.Buffer

open Mutty.Lib

theorem calculateRunOffset_mono {h x : Int64} (hh : 0 ≤ h) (hx : h ≤ x) :
    calculateRunOffset h ≤ calculateRunOffset x := by
  obtain ⟨n, hn, rfl⟩ := eq_ofNat_of_nonneg hh
  obtain ⟨m, hm, rfl⟩ := eq_ofNat_of_nonneg (Int64.le_trans hh hx)
  have hnm : n ≤ m := by
    rw [Int64.le_iff_toInt_le, Int64.toInt_ofNat_of_lt hn, Int64.toInt_ofNat_of_lt hm] at hx
    exact_mod_cast hx
  rw [calculateRunOffset_ofNat hn, calculateRunOffset_ofNat hm]
  exact_mod_cast Nat.div_le_div_right hnm

theorem isEmpty_iff {q : LongPriorityQueue} :
    LongPriorityQueue.isEmpty q = true ↔ q.elems = [] := by
  simp [LongPriorityQueue.isEmpty, Heap.elems]

namespace Runs

/-- The used run `x` of the given number of pages is the front of the free run `h`, and the rest of
`h` is one free run. -/
structure CutFront (c c' : Runs) (h x : Int64) (needPages : ℤ) : Prop where
  used : 0 ≤ x ∧ isUsed x = true ∧ isSubpage x = false
  offset : calculateRunOffset x = calculateRunOffset h
  pages : calculateRunPages x = needPages
  rest : calculateRunPages h = needPages ∧ c'.avail.Perm (c.avail.erase h) ∨
    ∃ r, 0 ≤ r ∧ isUsed r = false ∧ isSubpage r = false ∧
      calculateRunOffset r = calculateRunOffset h + needPages ∧
      calculateRunPages r = calculateRunPages h - needPages ∧ 0 < calculateRunPages r ∧
      c'.avail.Perm (r :: c.avail.erase h)

variable {s : SizeClasses} {g : Geometry} {n : ℕ} {c c' c₁ : Runs} {held : List Block} {h x : Int64}

theorem Taken.cutFront {m : ℕ} (inv : Inv s n c held) (htaken : Taken s n c c₁ held h)
    (hcut : Cut s n c₁ c' held h x m) : CutFront c c' h x m := by
  obtain ⟨low, f⟩ := hcut.fields
  have hmem : h ∈ c.avail := htaken.avail.mem_iff.mpr List.mem_cons_self
  have herase : c₁.avail.Perm (c.avail.erase h) :=
    ((List.perm_cons_erase hmem).symm.trans htaken.avail).cons_inv.symm
  obtain ⟨hoff, hpages⟩ := inv.decode hmem
  obtain ⟨hxo, hxp, hxu, hxs, -⟩ := f.decode
  refine ⟨⟨f.nonneg, hxu, hxs⟩, hxo.trans hoff.symm, hxp, ?_⟩
  rcases hcut.avail with ⟨rfl, hperm⟩ | ⟨hlt, r, hr, hperm⟩
  · exact .inl ⟨hpages, hperm.trans herase⟩
  · have hrmem : r ∈ c'.avail := hperm.mem_iff.mpr List.mem_cons_self
    obtain ⟨hro, hrp⟩ := hcut.inv.decode hrmem
    obtain ⟨hr0, hru, hrs⟩ := hcut.inv.plain r hrmem
    rw [hr] at hro hrp
    refine .inr ⟨r, hr0, hru, hrs, ?_, ?_, ?_, hperm.trans (herase.cons r)⟩
    · rw [hro, hoff]
      push_cast
      rfl
    · rw [hrp, hpages, Nat.cast_sub hlt.le]
    · rw [hrp]
      simp only
      omega

theorem Inv.pages_le_of_queue {m k i : ℕ} {q : LongPriorityQueue} (inv : Inv s g.pages c held)
    (made : s.Made g) (hceil : SizeClasses.IsCeil pageAt m k) (hki : k ≤ i)
    (hq : c.runsAvail[i]? = some q) (hh : h ∈ q.elems) : m ≤ (span h).2 := by
  have hmem : h ∈ c.avail := mem_avail_iff.mpr ⟨i, q, hq, hh⟩
  obtain ⟨hpos, hle⟩ := inv.span_le hmem
  obtain ⟨j, hj, hfloor, -⟩ := made.pages2pageIdxFloor hpos (show (span h).2 ≤ g.pages by omega)
  have hi := inv.filed i q h hq hh
  rw [(inv.decode hmem).2, hj] at hi
  obtain rfl : j = i := by exact_mod_cast Except.ok.inj hi
  calc m ≤ pageAt k := hceil.le
    _ ≤ pageAt j := pageAt_strictMono.monotone hki
    _ ≤ (span h).2 := hfloor.le

end Runs

namespace RunState

/-- The answer to a request for `runSize` bytes: -1 and an unchanged chunk when all queues from
the page class of the request on are empty, and otherwise the front of the lowest run of the first
queue that is not. -/
def BestFit (σ : RunState) (runSize : ℤ) : Prop :=
  ∃ k : ℕ, σ.sizes.pages2pageIdx (runSize / 2 ^ σ.sizes.pageShifts) = .ok (k : ℤ) ∧
    (σ.runs.EmptyBetween k σ.sizes.nPSizes ∧
        σ.runs.allocateRun σ.sizes runSize = .ok (-1, σ.runs) ∨
      ∃ (i : ℕ) (q : LongPriorityQueue), k ≤ i ∧ σ.runs.runsAvail[i]? = some q ∧
        σ.runs.EmptyBetween k i ∧ ∃ h ∈ q.elems,
          (∀ y ∈ q.elems, calculateRunOffset h ≤ calculateRunOffset y) ∧
          ∃ x c, σ.runs.allocateRun σ.sizes runSize = .ok (x, c) ∧
            σ.runs.CutFront c h x (runSize / 2 ^ σ.sizes.pageShifts) ∧
            c.freeBytes = σ.runs.freeBytes - runSize)

variable {g : Geometry} {σ : RunState}

theorem Good.freeBytes_eq_iff (hg : Good g σ) :
    σ.runs.freeBytes = σ.sizes.chunkSize ↔ σ.outstanding = [] := by
  have hsum := hg.inv.pageCount_eq
  have hpow : (0 : ℤ) < 2 ^ σ.sizes.pageShifts := by positivity
  have hchunk : (σ.sizes.chunkSize : ℤ) = g.pages * 2 ^ σ.sizes.pageShifts := by
    rw [hg.made.chunkSize, hg.made.pageShifts, g.chunkSize_eq]
    push_cast
    rfl
  rw [hg.bytes, hchunk, mul_left_inj' hpow.ne']
  constructor
  · intro heq
    cases hout : σ.outstanding with
    | nil => rfl
    | cons x l =>
      have hmem : span x ∈ σ.runs.avail.map span ++ σ.outstanding.map span := by simp [hout]
      have hpos := hg.inv.tiles.pos _ hmem
      rw [hout] at hsum
      simp only [List.map_cons, List.sum_cons, Nat.cast_add] at hsum
      omega
  · intro hout
    rw [hout] at hsum
    simpa using hsum

theorem Good.last_queue (hg : Good g σ) {q : LongPriorityQueue} {h : Int64}
    (hq : σ.runs.runsAvail[σ.sizes.nPSizes - 1]? = some q) (hh : h ∈ q.elems) :
    σ.runs.avail = [h] := by
  have hmem : h ∈ σ.runs.avail := Runs.mem_avail_iff.mpr ⟨_, q, hq, hh⟩
  have hceil : SizeClasses.IsCeil pageAt g.pages (σ.sizes.nPSizes - 1) := by
    rw [hg.made.nPSizes]
    exact ⟨(pageAt_last g.order).ge, fun u hu => (pageAt_strictMono hu).trans_eq (pageAt_last g.order)⟩
  have hall := hg.inv.pages_le_of_queue hg.made hceil le_rfl hq hh
  have htiles := hg.inv.tiles.perm (((List.perm_cons_erase hmem).map span).append_right _)
  have hsum := htiles.sum_eq
  simp only [List.map_cons, List.cons_append, List.sum_cons] at hsum
  cases hrest : σ.runs.avail.erase h with
  | nil => exact List.perm_singleton.mp (hrest ▸ List.perm_cons_erase hmem)
  | cons y l =>
    have hpos := htiles.pos (span y) (by simp [hrest])
    simp only [hrest, List.map_cons, List.cons_append, List.sum_cons] at hsum
    omega

/-- The best fit, once `runFirstBestFit` has found a queue that is not empty. -/
theorem Good.bestFit_queue (hg : Good g σ) {m k i : ℕ} {q : LongPriorityQueue} (hpos : 0 < m)
    (hceil : SizeClasses.IsCeil pageAt m k)
    (hk : σ.sizes.pages2pageIdx (m : ℤ) = .ok (k : ℤ))
    (hfit : σ.runs.runFirstBestFit σ.sizes k = .ok (i : ℤ)) (hki : k ≤ i)
    (hq : σ.runs.runsAvail[i]? = some q) (hne : LongPriorityQueue.isEmpty q = false)
    (hempty : σ.runs.EmptyBetween k i) : σ.BestFit (m * 2 ^ σ.sizes.pageShifts) := by
  have hpow : (2 : ℤ) ^ σ.sizes.pageShifts ≠ 0 := by positivity
  have hdiv : (m : ℤ) * 2 ^ σ.sizes.pageShifts / 2 ^ σ.sizes.pageShifts = m :=
    Int.mul_ediv_cancel _ hpow
  have hk' : σ.sizes.pages2pageIdx (m * 2 ^ σ.sizes.pageShifts / 2 ^ σ.sizes.pageShifts) =
      .ok (k : ℤ) := by rw [hdiv, hk]
  rcases hg.inv.allocateRun_queue hk' hfit hq with ⟨habs, -⟩ | ⟨h, c₁, hh, hleast, htaken, hcall⟩
  · rw [hne] at habs
    cases habs
  have hplain := hg.inv.plain h (Runs.mem_avail_iff.mpr ⟨i, q, hq, hh⟩)
  have hle := hg.inv.pages_le_of_queue hg.made hceil hki hq hh
  obtain ⟨x, c, hsplit, hcut⟩ := htaken.inv.splitLargeRun_ok hg.made hplain hpos hle
  obtain ⟨-, hfree⟩ := htaken.cut hg.inv hcut
  have hfront := htaken.cutFront hg.inv hcut
  rw [hdiv, hsplit] at hcall
  refine ⟨k, hk', .inr ⟨i, q, hki, hq, hempty, h, hh, ?_, x, _, hcall, ?_, hfree⟩⟩
  · exact fun y hy => calculateRunOffset_mono hplain.1 (hleast y hy)
  · rw [hdiv]
    exact ⟨hfront.used, hfront.offset, hfront.pages, hfront.rest⟩

theorem Good.bestFit_scan (hg : Good g σ) {m : ℕ} (hpos : 0 < m) (hle : m ≤ g.pages)
    (hout : σ.outstanding ≠ []) : σ.BestFit (m * 2 ^ σ.sizes.pageShifts) := by
  obtain ⟨k, hceil, hk, hidx, -⟩ := hg.made.pages2pageIdx hpos hle
  have hfree : σ.runs.freeBytes ≠ σ.sizes.chunkSize := mt hg.freeBytes_eq_iff.mp hout
  rcases hg.inv.runFirstBestFit_scan hfree hk.le with
    ⟨hnone, hempty⟩ | ⟨i, q, hfit, hki, hq, hne, hempty⟩
  · have hdiv : (m : ℤ) * 2 ^ σ.sizes.pageShifts / 2 ^ σ.sizes.pageShifts = m :=
      Int.mul_ediv_cancel _ (by positivity)
    refine ⟨k, by rw [hdiv, hidx], .inl ⟨hempty, ?_⟩⟩
    simp [Runs.allocateRun, hdiv, hidx, hnone, bind, Except.bind, pure, Except.pure]
  · exact hg.bestFit_queue hpos hceil hidx hfit hki hq hne hempty

theorem Good.bestFit_whole (hg : Good g σ) {m : ℕ} {h : Int64} (hpos : 0 < m) (hle : m ≤ g.pages)
    (hout : σ.outstanding = []) (havail : σ.runs.avail = [h]) :
    σ.BestFit (m * 2 ^ σ.sizes.pageShifts) := by
  obtain ⟨k, hceil, hk, hidx, -⟩ := hg.made.pages2pageIdx hpos hle
  have hno : NoNeighbours (σ.runs.avail.map span) := by
    intro a ha b hb
    rw [havail, List.map_singleton, List.mem_singleton] at ha hb
    have := (hg.inv.span_le (h := h) (by simp [havail])).1
    rw [ha, hb, Block.stop]
    omega
  obtain ⟨h', q, havail', -, hq, hmem⟩ := (hg.coalesced hno).whole hout
  have hne : LongPriorityQueue.isEmpty q = false :=
    Bool.eq_false_of_not_eq_true fun he => List.ne_nil_of_mem hmem (isEmpty_iff.mp he)
  have hfit := Runs.runFirstBestFit_full (c := σ.runs) (by omega) (hg.freeBytes_eq_iff.mpr hout) k
  refine hg.bestFit_queue hpos hceil hidx hfit (by omega) hq hne fun l q' _ hl hq' => ?_
  -- the run is filed under its page class only
  refine isEmpty_iff.mpr (List.eq_nil_iff_forall_not_mem.mpr fun y hy => ?_)
  have hyav : y ∈ σ.runs.avail := Runs.mem_avail_iff.mpr ⟨l, q', hq', hy⟩
  rw [havail', List.mem_singleton] at hyav
  have hfiled := hg.inv.filed l q' y hq' hy
  rw [hyav, hg.inv.filed _ q h' hq hmem] at hfiled
  have : σ.sizes.nPSizes - 1 = l := by exact_mod_cast Except.ok.inj hfiled
  omega

theorem Good.not_bestFit (hg : Good g σ) (runSize : ℤ) (hout : σ.outstanding = [])
    (havail : ¬ ∃ h, σ.runs.avail = [h]) : ¬ σ.BestFit runSize := by
  rintro ⟨k, hk, hcases⟩
  have hpos : 0 < σ.sizes.nPSizes := by rw [hg.made.nPSizes]; exact pageClasses_pos _
  have hfit := Runs.runFirstBestFit_full hpos (hg.freeBytes_eq_iff.mpr hout) k
  have hlen : σ.sizes.nPSizes - 1 < σ.runs.runsAvail.length := by
    rw [hg.inv.queues]
    omega
  have hq := List.getElem?_eq_getElem hlen
  have herr : σ.runs.allocateRun σ.sizes runSize = .error .assertion := by
    rcases hg.inv.allocateRun_queue hk hfit hq with ⟨-, herr⟩ | ⟨h, c₁, hh, -⟩
    · exact herr
    · exact absurd ⟨h, hg.last_queue hq hh⟩ havail
  rw [herr] at hcases
  rcases hcases with ⟨-, hcall⟩ | ⟨i, q, -, -, -, h, -, -, x, c, hcall, -⟩
  · cases hcall
  · cases hcall

end RunState

open RunState

/-- In every state that calls on a fresh chunk reach, a request for whole pages is answered with the
best fit exactly when some run is outstanding or all pages are one free run. -/
theorem bestFit_iff (pageSize maxOrder : ℤ) {σ : RunState} {runSize : ℤ}
    (h : (runMachine pageSize maxOrder).Reach System.Free σ) (hpos : 0 < runSize)
    (hdvd : (2 : ℤ) ^ σ.sizes.pageShifts ∣ runSize) (hle : runSize ≤ σ.sizes.chunkSize) :
    σ.BestFit runSize ↔ (σ.outstanding = [] → ∃ h, σ.runs.avail = [h]) := by
  obtain ⟨g, hg⟩ := good_of_reach h
  have hpow : (0 : ℤ) < 2 ^ σ.sizes.pageShifts := by positivity
  obtain ⟨m, hm, hmpos, hmle⟩ : ∃ m : ℕ, runSize = m * 2 ^ σ.sizes.pageShifts ∧ 0 < m ∧
      m ≤ g.pages := by
    obtain ⟨z, rfl⟩ := hdvd
    have hz : 0 < z := pos_of_mul_pos_right hpos hpow.le
    obtain ⟨m, rfl⟩ := Int.eq_ofNat_of_zero_le hz.le
    refine ⟨m, mul_comm _ _, by exact_mod_cast hz, ?_⟩
    rw [hg.made.chunkSize, hg.made.pageShifts, g.chunkSize_eq] at hle
    have hle' : 2 ^ g.pageShifts * m ≤ g.pages * 2 ^ g.pageShifts := by exact_mod_cast hle
    rw [mul_comm] at hle'
    exact Nat.le_of_mul_le_mul_right hle' (Nat.two_pow_pos _)
  subst hm
  constructor
  · intro hfit hout
    by_contra havail
    exact hg.not_bestFit _ hout havail hfit
  · intro hone
    by_cases hout : σ.outstanding = []
    · obtain ⟨x, havail⟩ := hone hout
      exact hg.bestFit_whole hmpos hmle hout havail
    · exact hg.bestFit_scan hmpos hmle hout

/-- Two pages asked for while three others are out. -/
theorem bestFit_after_calls : ∃ σ, (runMachine 8192 11).Reach System.Free σ ∧
    σ.outstanding.map span = [(1, 3)] ∧ σ.runs.avail.map span = [(0, 1), (4, 2044)] ∧
    σ.BestFit 16384 := by
  obtain ⟨σ, hr, hp⟩ := exists_run 8192 11 (G := System.Free)
    [.allocateRun 8192, .allocateRun 24576, .free (toRunHandle 0 1 1)]
    (fun σ => σ.outstanding.map span = [(1, 3)] ∧ σ.runs.avail.map span = [(0, 1), (4, 2044)] ∧
      σ.sizes.pageShifts = 13 ∧ σ.sizes.chunkSize = 16777216)
    (by decide) (by rw [make_default]; decide +kernel)
  simp only [Bool.decide_and, Bool.and_eq_true, decide_eq_true_eq] at hp
  obtain ⟨hout, havail, hps, hcs⟩ := hp
  refine ⟨σ, hr, hout, havail, (bestFit_iff 8192 11 hr (by decide) ?_ ?_).mpr fun hnil => ?_⟩
  · rw [hps]
    decide
  · rw [hcs]
    decide
  · rw [hnil] at hout
    cases hout

/-- One page, freed again, stays apart from the run after it, and the next request stops at the
empty queue that the shortcut takes. -/
theorem not_bestFit_after_page : ∃ σ, (runMachine 8192 11).Reach System.Free σ ∧
    σ.runs.allocateRun σ.sizes 8192 = .error .assertion ∧ ¬ σ.BestFit 8192 := by
  obtain ⟨σ, hr, hp⟩ := exists_run 8192 11 (G := System.Free)
    [.allocateRun 8192, .free (toRunHandle 0 1 1)]
    (fun σ => σ.runs.allocateRun σ.sizes 8192 matches .error .assertion)
    (by decide) (by rw [make_default]; decide +kernel)
  have herr : σ.runs.allocateRun σ.sizes 8192 = .error .assertion := by
    split at hp
    · assumption
    · cases hp
  refine ⟨σ, hr, herr, ?_⟩
  rintro ⟨k, -, ⟨-, hcall⟩ | ⟨i, q, -, -, -, h, -, -, x, c, hcall, -⟩⟩
  · rw [herr] at hcall
    cases hcall
  · rw [herr] at hcall
    cases hcall

end Mutty.Buffer
