import Mathlib.Algebra.BigOperators.Ring.List
import Mutty.Buffer.Runs

/-!
# Allocating and freeing runs of one chunk

The invariant of the runs holds in every state that calls on a fresh chunk reach, with the blocks
of the outstanding handles held. The free runs have no neighbours among each other as long as every
free finds after it only a run that `collapseNext` recognises.
-/

namespace Mutty.Buffer

open Mutty.Lib

namespace RunState

/-- The free runs and the outstanding ones tile the pages of the chunk, the map holds the ends of
the free runs with the handles of the queues, every free run is in one queue, once, and the free
bytes are those of the free runs. -/
structure Consistent (σ : RunState) : Prop where
  free : ∀ h ∈ σ.runs.avail, 0 ≤ h ∧ isUsed h = false ∧ isSubpage h = false
  used : ∀ h ∈ σ.outstanding, 0 ≤ h ∧ isUsed h = true ∧ isSubpage h = false
  tiles : Tiles (σ.sizes.chunkSize >>> σ.sizes.pageShifts)
    (σ.runs.avail.map span ++ σ.outstanding.map span)
  map : ∀ k h, σ.runs.runsAvailMap k = some h ↔ h ∈ σ.runs.avail ∧
    (k = calculateRunOffset h ∨ k = lastPage (calculateRunOffset h) (calculateRunPages h))
  filed : ∀ h ∈ σ.runs.avail, ∃ k : ℕ,
    σ.sizes.pages2pageIdxFloor (calculateRunPages h) = .ok (k : ℤ) ∧
    ∀ (i : ℕ) q, σ.runs.runsAvail[i]? = some q → q.elems.count h = if i = k then 1 else 0
  bytes : σ.runs.freeBytes = (σ.runs.avail.map (Runs.runSize σ.sizes)).sum

structure Good (g : Geometry) (σ : RunState) : Prop where
  made : σ.sizes.Made g
  used : ∀ h ∈ σ.outstanding, ∃ o p low, Fields h o p true false low
  inv : σ.runs.Inv σ.sizes g.pages (σ.outstanding.map span)
  bytes : σ.runs.freeBytes = σ.runs.pageCount * 2 ^ σ.sizes.pageShifts

variable {g : Geometry} {σ σ' : RunState}

theorem Good.pages (h : Good g σ) : σ.sizes.chunkSize >>> σ.sizes.pageShifts = g.pages := by
  have := Runs.rounds_eq h.made
  unfold Runs.rounds at this
  omega

theorem Good.consistent (hg : Good g σ) : σ.Consistent where
  free := hg.inv.plain
  used := fun h hh => by
    obtain ⟨o, p, low, f⟩ := hg.used h hh
    exact ⟨f.nonneg, f.decode.2.2.1, f.decode.2.2.2.1⟩
  tiles := by
    rw [hg.pages]
    exact hg.inv.tiles
  map := hg.inv.map
  filed := fun h hh => by
    obtain ⟨k, q, hq, hhq⟩ := Runs.mem_avail_iff.mp hh
    refine ⟨k, hg.inv.filed k q h hq hhq, fun i x hx => ?_⟩
    have hnd := (List.nodup_flatMap.mp hg.inv.nodup).1 x (List.mem_of_getElem? hx)
    split_ifs with hik
    · subst hik
      obtain rfl := Option.some.inj (hq.symm.trans hx)
      exact List.count_eq_one_of_mem hnd hhq
    · refine List.count_eq_zero_of_not_mem fun hhx => hik ?_
      have h1 := hg.inv.filed i x h hx hhx
      rw [hg.inv.filed k q h hq hhq] at h1
      exact_mod_cast (Except.ok.inj h1).symm
  bytes := by
    rw [hg.bytes, Runs.pageCount]
    unfold Runs.runSize
    rw [List.sum_map_mul_right]

/-! ### Fresh chunks -/

theorem make_good {pageSize maxOrder : ℤ} (hint : pageSize < 2 ^ 31)
    (hmake : RunState.make pageSize maxOrder = .ok σ) :
    ∃ g h, Good g σ ∧ σ.runs.avail = [h] ∧ span h = (0, g.pages) := by
  obtain ⟨chunkSize, hc, hmake⟩ := bind_eq_ok.mp hmake
  obtain ⟨pageShifts, hp, hmake⟩ := bind_eq_ok.mp hmake
  obtain ⟨g, rfl, rfl⟩ := exists_geometry hint hc hp
  obtain ⟨s, hs, made⟩ := SizeClasses.make_spec g
  obtain ⟨c, h, hmk, hinv, havail, hspan, hfree⟩ := Runs.make_spec made
  rw [Int.toNat_natCast, Int.toNat_natCast, hs] at hmake
  simp only [bind, Except.bind, hmk, pure, Except.pure, Except.ok.injEq] at hmake
  obtain rfl := hmake
  refine ⟨g, h, ⟨made, fun x hx => absurd hx List.not_mem_nil, hinv, ?_⟩, havail, hspan⟩
  have hpages : calculateRunPages h = g.pages := by
    rw [(hinv.decode (by rw [havail]; exact List.mem_singleton_self h)).2, hspan]
  show c.freeBytes = c.pageCount * 2 ^ s.pageShifts
  rw [hfree, Runs.pageCount, havail, made.pageShifts, g.chunkSize_eq]
  simp [hpages]

/-! ### Steps -/

theorem Good.allocateRun (hg : Good g σ) {runSize : ℤ} (h : σ.allocateRun runSize = .ok σ') :
    σ' = σ ∨ ∃ x c o m, σ' = { σ with runs := c, outstanding := x :: σ.outstanding } ∧
      Runs.Allocated σ.sizes g.pages σ.runs c (σ.outstanding.map span) x o m ∧
      c.freeBytes = σ.runs.freeBytes - m * 2 ^ σ.sizes.pageShifts := by
  obtain ⟨⟨x, c⟩, hcall, hret⟩ := bind_eq_ok.mp h
  obtain rfl := Except.ok.inj hret
  rcases hg.inv.allocateRun hg.made runSize with herr | hnone | ⟨x', c', o, m, hok, -, hall, hfree⟩
  · rw [herr] at hcall
    cases hcall
  · rw [hnone] at hcall
    obtain ⟨rfl, rfl⟩ := Prod.mk.inj (Except.ok.inj hcall)
    exact .inl rfl
  · rw [hok] at hcall
    obtain ⟨rfl, rfl⟩ := Prod.mk.inj (Except.ok.inj hcall)
    obtain ⟨low, f⟩ := hall.fields
    refine .inr ⟨x', c', o, m, ?_, hall, hfree⟩
    rw [if_neg (not_lt.mpr f.nonneg)]

theorem Good.freeing (hg : Good g σ) {x : Int64} (hx : x ∈ σ.outstanding) :
    Runs.Freeing σ.sizes g.pages σ.runs ((σ.outstanding.erase x).map span) x (span x).1
      (span x).2 := by
  obtain ⟨o, p, low, f⟩ := hg.used x hx
  refine ⟨⟨true, false, low, ?_⟩, hg.inv.perm ((List.perm_cons_erase hx).map span)⟩
  rw [f.span_eq]
  exact f

theorem Good.free (hg : Good g σ) {x : Int64} (hx : x ∈ σ.outstanding) :
    ∃ c o p rest, σ.free x = .ok { σ with runs := c, outstanding := σ.outstanding.erase x } ∧
      Good g { σ with runs := c, outstanding := σ.outstanding.erase x } ∧
      Runs.Freed σ.runs c (span x).stop o p rest := by
  obtain ⟨c, o, p, rest, hcall, hinv, hcount, hfree, hfreed⟩ := (hg.freeing hx).free hg.made
  refine ⟨c, o, p, rest, ?_, ⟨hg.made, ?_, hinv, ?_⟩, hfreed⟩
  · simp only [RunState.free, hcall, bind, Except.bind, pure, Except.pure]
  · exact fun y hy => hg.used y (List.mem_of_mem_erase hy)
  · show c.freeBytes = c.pageCount * _
    rw [hfree, hcount, hg.bytes]
    ring

theorem Good.allocated {x : Int64} {c : Runs} {o m : ℕ} (hg : Good g σ)
    (hall : Runs.Allocated σ.sizes g.pages σ.runs c (σ.outstanding.map span) x o m)
    (hfree : c.freeBytes = σ.runs.freeBytes - m * 2 ^ σ.sizes.pageShifts) :
    Good g { σ with runs := c, outstanding := x :: σ.outstanding } := by
  obtain ⟨low, f⟩ := hall.fields
  refine ⟨hg.made, fun y hy => ?_, ?_, ?_⟩
  · rcases List.mem_cons.mp hy with rfl | hy
    · exact ⟨o, m, low, f⟩
    · exact hg.used y hy
  · rw [List.map_cons, f.span_eq]
    exact hall.inv
  · show c.freeBytes = c.pageCount * _
    rw [hfree, hall.pageCount, hg.bytes]
    ring

theorem Good.step {pageSize maxOrder : ℤ} {a : RunAction} (hg : Good g σ)
    (hs : (runMachine pageSize maxOrder).step σ a = some σ') :
    Good g σ' ∧ (σ' = σ ∨
      (∃ n x o m, a = .allocateRun n ∧
        Runs.Allocated σ.sizes g.pages σ.runs σ'.runs (σ.outstanding.map span) x o m) ∨
      ∃ x ∈ σ.outstanding, ∃ o p rest, a = .free x ∧
        Runs.Freed σ.runs σ'.runs (span x).stop o p rest) := by
  cases a with
  | allocateRun n =>
    obtain ⟨σ₁, hcall⟩ : ∃ σ₁, σ.allocateRun n = .ok σ₁ := by
      cases hcall : σ.allocateRun n with
      | error e => simp [runMachine, hcall, Except.toOption] at hs
      | ok σ₁ => exact ⟨σ₁, rfl⟩
    obtain rfl : σ₁ = σ' := by simpa [runMachine, hcall, Except.toOption] using hs
    rcases hg.allocateRun hcall with rfl | ⟨x, c, o, m, rfl, hall, hfree⟩
    · exact ⟨hg, .inl rfl⟩
    · exact ⟨hg.allocated hall hfree, .inr (.inl ⟨n, x, o, m, rfl, hall⟩)⟩
  | free x =>
    simp only [runMachine] at hs
    split_ifs at hs with hx
    obtain ⟨c, o, p, rest, hcall, hgood, hfreed⟩ := hg.free hx
    obtain rfl := Option.some.inj (by simpa [hcall, Except.toOption] using hs)
    exact ⟨hgood, .inr (.inr ⟨x, hx, o, p, rest, rfl, hfreed⟩)⟩

theorem good_of_reach {pageSize maxOrder : ℤ} {G : RunState → RunAction → Prop}
    (h : (runMachine pageSize maxOrder).Reach G σ) : ∃ g, Good g σ := by
  refine h.invariant (I := fun σ => ∃ g, Good g σ) ?_ ?_
  · rintro σ ⟨hint, hmake⟩
    obtain ⟨g, h, hg, -⟩ := make_good hint hmake
    exact ⟨g, hg⟩
  · rintro σ a σ' ⟨g, hg⟩ - hs
    exact ⟨g, (hg.step hs).1⟩

/-- Every call on a reachable chunk ends, or stops at a failed assert of `allocateRun`. -/
theorem Good.allocateRun_fault (hg : Good g σ) {runSize : ℤ} {e : Fault}
    (h : σ.allocateRun runSize = .error e) : e = .assertion := by
  unfold RunState.allocateRun at h
  rcases hg.inv.allocateRun hg.made runSize with herr | hnone | ⟨x, c, o, m, hok, -⟩
  · rw [herr] at h
    exact (Except.error.inj h).symm
  · rw [hnone] at h
    cases h
  · rw [hok] at h
    cases h

/-! ### Coalescing -/

/-- No free run ends where another begins, and when nothing is outstanding there is one free run of
all pages, in the last queue. -/
structure Coalesced (σ : RunState) : Prop where
  apart : NoNeighbours (σ.runs.avail.map span)
  whole : σ.outstanding = [] → ∃ h q, σ.runs.avail = [h] ∧
    span h = (0, σ.sizes.chunkSize >>> σ.sizes.pageShifts) ∧
    σ.runs.runsAvail[σ.sizes.nPSizes - 1]? = some q ∧ h ∈ q.elems

/-- The free run that begins right after the run to be freed, if there is one, has as many pages as
come before it. -/
def NextMergeable (σ : RunState) : RunAction → Prop
  | .allocateRun _ => True
  | .free h => ∀ x ∈ σ.runs.runsAvailMap (calculateRunOffset h + calculateRunPages h),
      calculateRunPages x = calculateRunOffset x

instance (σ : RunState) : (a : RunAction) → Decidable (σ.NextMergeable a)
  | .allocateRun _ => isTrue trivial
  | .free _ => Option.decidableForallMem _

theorem noNeighbours_map {l : List Int64} :
    NoNeighbours (l.map span) ↔ ∀ a ∈ l, ∀ b ∈ l, (span a).stop ≠ (span b).1 := by
  simp [NoNeighbours]

variable {c c' : Runs} {n o m p : ℕ} {s : SizeClasses} {held : List Block} {x : Int64}

/-- The remainder of a cut stops where the run that was cut did, and begins after the run handed
out. -/
theorem noNeighbours_allocated (hall : Runs.Allocated s n c c' held x o m)
    (hno : NoNeighbours (c.avail.map span)) : NoNeighbours (c'.avail.map span) := by
  rw [noNeighbours_map] at hno ⊢
  intro a ha b hb hab
  rcases hall.rest b hb with hb' | ⟨hstart, -⟩
  · rcases hall.rest a ha with ha' | ⟨-, r, hr, hstop⟩
    · exact hno a ha' b hb' hab
    · exact hno r hr b hb' (hstop.trans hab)
  · have hpos : 0 < m := hall.inv.tiles.pos (o, m) (by simp)
    have hspan := hall.inv.span_le ha
    have hapart := hall.inv.apart_held ha (o + m - 1)
    unfold Block.Holds Block.stop at *
    exact hapart ⟨⟨by simp only; omega, by simp only; omega⟩, by omega, by omega⟩

theorem noNeighbours_freed {e : ℕ} {rest : List Int64} (hinv : Runs.Inv s n c' held)
    (hfreed : Runs.Freed c c' e o p rest) (hno : NoNeighbours (c.avail.map span))
    (hnext : ∀ y ∈ c.avail, (span y).1 = e → (span y).2 = e) :
    NoNeighbours (c'.avail.map span) := by
  obtain ⟨h, hspan, hperm⟩ := hfreed.avail
  have hpos : 0 < p := by
    have := (hinv.span_le (hperm.mem_iff.mpr List.mem_cons_self)).1
    rwa [hspan] at this
  rw [noNeighbours_map] at hno ⊢
  intro a ha b hb hab
  rcases List.mem_cons.mp (hperm.mem_iff.mp ha) with rfl | ha
  · rw [hspan] at hab
    change o + p = (span b).1 at hab
    rcases List.mem_cons.mp (hperm.mem_iff.mp hb) with rfl | hb
    · rw [hspan] at hab
      simp only at hab
      omega
    · rcases hfreed.stop with he | ⟨y, hy, hstop⟩
      · refine hfreed.next b hb hab.symm ?_
        rw [he]
        exact hnext b (hfreed.sub b hb) (by omega)
      · exact hno y hy b (hfreed.sub b hb) (hstop.trans hab)
  · rcases List.mem_cons.mp (hperm.mem_iff.mp hb) with rfl | hb
    · rw [hspan] at hab
      exact hfreed.past a ha hab
    · exact hno a (hfreed.sub a ha) b (hfreed.sub b hb) hab

theorem Good.nextMergeable (hg : Good g σ) (hx : x ∈ σ.outstanding)
    (hm : σ.NextMergeable (.free x)) {y : Int64} (hy : y ∈ σ.runs.avail)
    (hstart : (span y).1 = (span x).stop) : (span y).2 = (span x).stop := by
  obtain ⟨hoff, hpages⟩ := (hg.freeing hx).decode
  obtain ⟨hyo, hyp⟩ := hg.inv.decode hy
  have hmap : σ.runs.runsAvailMap (calculateRunOffset x + calculateRunPages x) = some y := by
    refine (hg.inv.map _ y).mpr ⟨hy, hg.inv.isEnd_first hy ?_⟩
    unfold Block.stop at hstart
    omega
  have hy' := hm y hmap
  omega

theorem Good.coalesced (hg : Good g σ) (hno : NoNeighbours (σ.runs.avail.map span)) :
    σ.Coalesced := by
  refine ⟨hno, fun hout => ?_⟩
  have htiles := hg.inv.tiles
  rw [hout, List.map_nil, List.append_nil] at htiles
  have hmap := htiles.eq_single g.pages_pos hno
  obtain ⟨h, havail, hspan⟩ : ∃ h, σ.runs.avail = [h] ∧ span h = (0, g.pages) := by
    obtain ⟨h, l, hl, hh, hnil⟩ := List.map_eq_cons_iff.mp hmap
    rw [List.map_eq_nil_iff.mp hnil] at hl
    exact ⟨h, hl, hh⟩
  have hmem : h ∈ σ.runs.avail := by rw [havail]; exact List.mem_singleton_self h
  obtain ⟨k, q, hq, hhq⟩ := Runs.mem_avail_iff.mp hmem
  have hk := hg.inv.filed k q h hq hhq
  obtain ⟨k', hk', hfloor, hlt⟩ := hg.made.pages2pageIdxFloor g.pages_pos le_rfl
  rw [(hg.inv.decode hmem).2, hspan, hk'] at hk
  obtain rfl : k' = k := by exact_mod_cast Except.ok.inj hk
  -- all pages are the last page class, so no class above the floor is left
  have hlast : k' = σ.sizes.nPSizes - 1 := by
    by_contra hne
    have := hfloor.lt (σ.sizes.nPSizes - 1) (by omega)
    rw [hg.made.nPSizes, pageAt_last] at this
    exact lt_irrefl _ this
  exact ⟨h, q, havail, by rw [hg.pages]; exact hspan, hlast ▸ hq, hhq⟩

end RunState

open RunState

/-- In every state that calls on a fresh chunk reach, the queues, the map and the count of free
bytes describe the same free runs, and these and the outstanding runs tile the chunk. -/
theorem runs_consistent (pageSize maxOrder : ℤ) {σ : RunState}
    (h : (runMachine pageSize maxOrder).Reach System.Free σ) : σ.Consistent := by
  obtain ⟨g, hg⟩ := good_of_reach h
  exact hg.consistent

/-- A fresh chunk, without running the constructor of the size classes. -/
theorem make_eq {pageSize maxOrder : ℤ} (g : Geometry)
    (hchunk : validateAndCalculateChunkSize pageSize maxOrder = .ok g.chunkSize)
    (hshifts : validateAndCalculatePageShifts pageSize = .ok g.pageShifts) :
    RunState.make pageSize maxOrder =
      (Runs.make (SizeClasses.tables g)).map fun runs => ⟨SizeClasses.tables g, runs, []⟩ := by
  have hmake := SizeClasses.make_eq_tables g
  simp only [RunState.make, hchunk, hshifts, bind, Except.bind, Int.toNat_natCast, hmake]
  cases Runs.make (SizeClasses.tables g) with
  | error e => rfl
  | ok runs => rfl

theorem make_default : RunState.make 8192 11 =
    (Runs.make (SizeClasses.tables .ofDefaults)).map fun runs =>
      ⟨SizeClasses.tables .ofDefaults, runs, []⟩ :=
  make_eq _ (by decide) (by decide)

theorem exists_run (pageSize maxOrder : ℤ) {G : RunState → RunAction → Prop}
    [∀ σ a, Decidable (G σ a)] (as : List RunAction) (p : RunState → Bool)
    (hint : pageSize < 2 ^ 31)
    (hp : ((RunState.make pageSize maxOrder).toOption.bind fun σ =>
      (runMachine pageSize maxOrder).exec G σ as).any p = true) :
    ∃ σ, (runMachine pageSize maxOrder).Reach G σ ∧ p σ = true := by
  cases hmake : RunState.make pageSize maxOrder with
  | error e =>
    rw [hmake] at hp
    cases hp
  | ok σ =>
    rw [hmake] at hp
    have hinit : (runMachine pageSize maxOrder).init σ := ⟨hint, hmake⟩
    obtain ⟨σ', -, hr, hσ'⟩ := System.exists_reach as p hinit hp
    exact ⟨σ', hr, hσ'⟩

theorem runs_consistent_after_calls : ∃ σ, (runMachine 8192 11).Reach System.Free σ ∧
    σ.runs.avail.map span = [(0, 1), (6, 2042)] ∧ σ.outstanding.map span = [(3, 3), (1, 2)] ∧
    σ.Consistent := by
  obtain ⟨σ, hr, hp⟩ := exists_run 8192 11 (G := System.Free)
    [.allocateRun 8192, .allocateRun 16384, .allocateRun 24576, .free (toRunHandle 0 1 1)]
    (fun σ => σ.runs.avail.map span = [(0, 1), (6, 2042)] ∧
      σ.outstanding.map span = [(3, 3), (1, 2)])
    (by decide) (by rw [make_default]; decide +kernel)
  simp only [Bool.decide_and, Bool.and_eq_true, decide_eq_true_eq] at hp
  exact ⟨σ, hr, hp.1, hp.2, runs_consistent 8192 11 hr⟩

/-- Coalescing is maximal along runs whose frees all find a next run that `collapseNext`
recognises. -/
theorem coalesced_of_nextMergeable (pageSize maxOrder : ℤ) {σ : RunState}
    (h : (runMachine pageSize maxOrder).Reach NextMergeable σ) : σ.Coalesced := by
  suffices hI : ∃ g, Good g σ ∧ NoNeighbours (σ.runs.avail.map span) by
    obtain ⟨g, hg, hno⟩ := hI
    exact hg.coalesced hno
  refine h.invariant (I := fun σ => ∃ g, Good g σ ∧ NoNeighbours (σ.runs.avail.map span)) ?_ ?_
  · rintro σ ⟨hint, hmake⟩
    obtain ⟨g, h, hg, havail, hspan⟩ := make_good hint hmake
    refine ⟨g, hg, ?_⟩
    rw [havail]
    have hpos := g.pages_pos
    simp [NoNeighbours, hspan, Block.stop]
    omega
  · rintro σ a σ' ⟨g, hg, hno⟩ hm hs
    obtain ⟨hg', hcases⟩ := hg.step hs
    refine ⟨g, hg', ?_⟩
    rcases hcases with rfl | ⟨n, x, o, m, rfl, hall⟩ | ⟨x, hx, o, p, rest, rfl, hfreed⟩
    · exact hno
    · exact noNeighbours_allocated hall hno
    · exact noNeighbours_freed hg'.inv hfreed hno fun y hy => hg.nextMergeable hx hm hy

/-- Half of the chunk, freed again: the run after it begins at page 1024 and has 1024 pages. -/
theorem coalesced_after_half : ∃ σ, (runMachine 8192 11).Reach NextMergeable σ ∧
    σ.outstanding = [] ∧ σ.Coalesced := by
  obtain ⟨σ, hr, hp⟩ := exists_run 8192 11 (G := NextMergeable)
    [.allocateRun 8388608, .free (toRunHandle 0 1024 1)] (fun σ => σ.outstanding = [])
    (by decide) (by rw [make_default]; decide +kernel)
  exact ⟨σ, hr, of_decide_eq_true hp, coalesced_of_nextMergeable 8192 11 hr⟩

theorem not_coalesced_after_page : ∃ σ, (runMachine 8192 11).Reach System.Free σ ∧
    σ.outstanding = [] ∧ σ.runs.avail.map span = [(0, 1), (1, 2047)] ∧ ¬ σ.Coalesced := by
  obtain ⟨σ, hr, hp⟩ := exists_run 8192 11 (G := System.Free)
    [.allocateRun 8192, .free (toRunHandle 0 1 1)]
    (fun σ => σ.outstanding = [] ∧ σ.runs.avail.map span = [(0, 1), (1, 2047)])
    (by decide) (by rw [make_default]; decide +kernel)
  simp only [Bool.decide_and, Bool.and_eq_true, decide_eq_true_eq] at hp
  refine ⟨σ, hr, hp.1, hp.2, fun hc => ?_⟩
  have hno := hc.apart
  rw [hp.2] at hno
  exact hno (0, 1) (by simp) (1, 2047) (by simp) rfl

end Mutty.Buffer
