import Mutty.Timing.Link

/-!
# Inserting an entry into the wheels

`route_spec` describes the walk of `TimingWheel::add` over the wheels: it creates the missing ones
and finds the wheel on which the expiration lands, or refuses an entry that is due. From it follows that `addTimerTaskEntry` always returns and takes an entry in hand to a state in
which it is linked or handed over.
-/

namespace Mutty.Timing

open Mutty.Lib

section

variable {g : Geometry} {ins : Option EntryId} {s s' : Timer} {x : EntryId} {k : ℕ}

/-! ## Overflow wheels -/

structure FreshWheel (g : Geometry) (c : ℤ) (k : ℕ) (w : TimingWheel) : Prop
    extends WheelShape g c k w where
  root : w.root = []
  quiet : ∀ j, w.expiration j < 0

/-- Wheels may have been created; all else is as it was. -/
structure Grown (g : Geometry) (s s' : Timer) : Prop where
  levels : s.levels ≤ s'.levels
  wheel : ∀ k, k < s.levels ∨ s'.levels ≤ k → s'.wheel k = s.wheel k
  fresh : ∀ k, s.levels ≤ k → k < s'.levels → FreshWheel g (clock s) k (s'.wheel k)
  rest : s' = { s with levels := s'.levels, wheel := s'.wheel }

theorem Grown.refl (s : Timer) : Grown g s s where
  levels := Nat.le_refl _
  wheel := fun _ _ => rfl
  fresh := fun _ h1 h2 => absurd h2 (Nat.not_lt.mpr h1)
  rest := rfl

theorem Grown.clock (w : Grown g s s') (hpos : 0 < s.levels) : clock s' = clock s := by
  unfold Timing.clock
  rw [w.wheel 0 (.inl hpos)]

theorem Grown.trans {s'' : Timer} (w : Grown g s s') (w' : Grown g s' s'') (hpos : 0 < s.levels) :
    Grown g s s'' where
  levels := Nat.le_trans w.levels w'.levels
  wheel := by
    intro k hk
    have h1 := w.levels
    have h2 := w'.levels
    rw [w'.wheel k (by omega), w.wheel k (by omega)]
  fresh := by
    intro k h1 h2
    by_cases hk : k < s'.levels
    · rw [w'.wheel k (.inl hk)]
      exact w.fresh k h1 hk
    · rw [← w.clock hpos]
      exact w'.fresh k (Nat.not_lt.mp hk) h2
  rest := by
    rw [w'.rest, w.rest]

theorem Grown.ring (w : Grown g s s') (h : Links s) (k : ℕ) : ring s' k = ring s k := by
  unfold Timing.ring
  by_cases hk : k < s.levels ∨ s'.levels ≤ k
  · rw [w.wheel k hk]
  · rw [(w.fresh k (by omega) (by omega)).root]
    symm
    apply List.eq_nil_iff_forall_not_mem.mpr
    intro x hx
    have hlt := (h.of_mem k x hx).1
    omega

theorem Grown.ruled (w : Grown g s s') (h : Ruled g s) : Ruled g s' where
  levels_pos := Nat.lt_of_lt_of_le h.levels_pos w.levels
  rule := by
    intro k hk
    rw [w.clock h.levels_pos]
    by_cases hk' : k < s.levels
    · rw [w.wheel k (.inl hk')]
      exact h.rule k hk'
    · exact (w.fresh k (Nat.not_lt.mp hk') hk).toWheelRule
  nonneg := by
    rw [w.clock h.levels_pos]
    exact h.nonneg

theorem Grown.phase (w : Grown g s s') : s'.phase = s.phase := by rw [w.rest]

theorem Grown.queue (w : Grown g s s') : s'.queue = s.queue := by rw [w.rest]

theorem Grown.entry (w : Grown g s s') : s'.entry = s.entry := by rw [w.rest]

theorem Grown.live (w : Grown g s s') (b : Bucket) : Live s' b ↔ Live s b := by
  unfold Live
  rw [w.phase, w.queue]

theorem Grown.start (w : Grown g s s') {b : Bucket} (hb : b.1 < s.levels) :
    bucketExpiration s' b = bucketExpiration s b := by
  unfold bucketExpiration
  rw [w.wheel b.1 (.inl hb)]

theorem Live.level (h : Inv g ins s) {b : Bucket} (hb : Live s b) : b.1 < s.levels := by
  rcases hb with ⟨q, hq, rfl⟩ | hb
  · exact (h.queued.seat q hq).level
  · exact (h.working b hb).level

theorem Grown.inv (w : Grown g s s') (h : Inv g ins s) : Inv g ins s' := by
  have hpos := h.clocks.levels_pos
  have hc := w.clock hpos
  constructor
  case clocks =>
    refine ⟨Nat.lt_of_lt_of_le hpos w.levels, ?_, by rw [hc]; exact h.clocks.nonneg, ?_, ?_⟩
    · intro k hk
      rw [hc]
      by_cases hk' : k < s.levels
      · rw [w.wheel k (.inl hk')]
        exact h.clocks.shape k hk'
      · exact (w.fresh k (Nat.not_lt.mp hk') hk).toWheelShape
    · rw [hc, w.rest]
      exact h.clocks.le_now
    · rw [w.rest]
      exact h.clocks.now_holds
  case links =>
    refine h.links.congr w.levels (fun k => w.ring h.links k) fun x => ?_
    rw [w.entry]
  case seats =>
    refine h.seats.congr w.entry (fun x b hx => ?_) fun x b _ => (w.live b).mpr
    exact w.start ((h.seats x b hx).live.level h)
  case queued =>
    refine ⟨?_, by rw [w.queue]; exact h.queued.nodup, ?_⟩
    · intro q hq
      rw [w.queue] at hq
      obtain ⟨h1, h2, h3, h4, h5⟩ := h.queued.seat q hq
      exact ⟨Nat.lt_of_lt_of_le h1 w.levels, h2, by rw [w.start h1]; exact h3,
        by rw [hc]; exact h4, by rw [hc]; exact h5⟩
    · intro b hb hn
      rw [w.live] at hn
      by_cases hb' : b.1 < s.levels
      · rw [w.start hb']
        exact h.queued.quiet b hb' hn
      · exact (w.fresh b.1 (Nat.not_lt.mp hb') hb).quiet b.2
  case working =>
    intro b hb
    rw [w.phase] at hb
    obtain ⟨h1, h2, h3, h4, h5, h6, h7, h8, h9⟩ := h.working b hb
    have hst := w.start h1
    have hnow : s'.now = s.now := by rw [w.rest]
    constructor
    · exact Nat.lt_of_lt_of_le h1 w.levels
    · rwa [hst]
    · rwa [hst]
    · rwa [hst, hc]
    · rwa [hst, hc]
    · rwa [hst, hnow]
    · rwa [hst, w.queue]
    · rwa [w.queue]
    · rwa [hst, hc, w.phase]
  case owned =>
    rw [w.rest]
    exact h.owned.congr rfl rfl rfl rfl rfl

theorem new_fresh {c : ℤ} (hc : 0 ≤ c) (hh : g.num.Holds c) (k : ℕ) :
    FreshWheel g c (k + 1) (TimingWheel.new g.num (g.T (k + 1)) g.size (down (g.T k) c)) where
  tickMs := rfl
  interval := congrArg g.num.wrap (g.T_succ (k + 1)).symm
  wheelSize := rfl
  currentTime := by
    have hT := g.T_pos k
    have hnn := down_nonneg hT hc
    have hdown := hh.of_nonneg_of_le hnn (down_le hT)
    exact (minus_tmod (g.T_pos (k + 1)) hnn hdown).trans
      (down_down (g.T_pos (k + 1)) (g.T_dvd_succ k) hT)
  setFlag := rfl
  root := rfl
  quiet := by simp [TimingWheel.new]

theorem addOverflowWheel_grown (h : Ruled g s) (hk : k < s.levels)
    (hT : g.num.Holds (g.T (k + 1))) (hc : g.num.Holds (clock s)) :
    ∃ s', TimingWheel.addOverflowWheel g.num s k = some s' ∧ Grown g s s' ∧ k + 1 < s'.levels := by
  unfold TimingWheel.addOverflowWheel
  dsimp only
  have hw := h.rule k hk
  have hinterval : (s.wheel k).interval = g.T (k + 1) := hw.interval.trans hT
  have hpos := g.T_pos (k + 1)
  by_cases hlt : k + 1 < s.levels
  · rw [if_pos hlt]
    exact ⟨s, rfl, Grown.refl s, hlt⟩
  have hlev : s.levels = k + 1 := by omega
  have hnew := new_fresh h.nonneg hc k
  rw [if_neg hlt, if_neg (by omega), hinterval, hw.wheelSize, hw.currentTime]
  refine ⟨_, rfl, ⟨?_, ?_, ?_, rfl⟩, Nat.lt_succ_self _⟩
  · show s.levels ≤ k + 2
    omega
  · intro m hm
    have hm' : m < s.levels ∨ k + 2 ≤ m := hm
    exact Function.update_of_ne (by omega) _ _
  · intro m h1 h2
    obtain rfl : m = k + 1 := by
      have h3 : m < k + 2 := h2
      omega
    simpa [setWheel] using hnew

/-! ## `TimingWheel::add` -/

/-- A comparison with a sum that does not exceed the expiration comes out as over the integers. -/
theorem not_lt_wrap {e : ℤ} (he : g.num.Holds e) {y : ℤ} (hy : 0 ≤ y) (hle : y ≤ e) :
    ¬ e < g.num.wrap y := by
  have h := he.of_nonneg_of_le hy hle
  rw [show g.num.wrap y = y from h]
  exact Int.not_lt.mpr hle

theorem route_spec (fuel : ℕ) (h : Ruled g s) (hk : k < s.levels)
    (hnc : TimerTaskEntry.cancelled s x = false)
    (hlow : ∀ i < k, down (g.T i) (clock s) + g.T (i + 1) ≤ expiration s x)
    (hdue : clock s + g.tick ≤ expiration s x) (hfits : g.Fits (clock s) (expiration s x))
    (he : g.num.Holds (expiration s x)) (hfuel : (expiration s x).toNat < k + fuel) :
    ∃ m s', Grown g s s' ∧ m < s'.levels ∧ g.Lands (clock s) (expiration s x) m ∧
      TimingWheel.route g.num fuel s k x = some (some m, s') := by
  induction fuel generalizing s k with
  | zero =>
    -- a wheel numbered above the expiration has an interval above it
    obtain ⟨i, rfl⟩ : ∃ i, k = i + 1 := ⟨k - 1, by omega⟩
    have h1 := hlow i (Nat.lt_succ_self i)
    have h2 := g.lt_T (i + 1)
    have h3 := down_nonneg (g.T_pos i) h.nonneg
    omega
  | succ fuel ih =>
    have hw := h.rule k hk
    have hnn := down_nonneg (g.T_pos k) h.nonneg
    have hTk := g.T_pos k
    have hTk' := g.T_pos (k + 1)
    have hge : down (g.T k) (clock s) + g.T k ≤ expiration s x := by
      cases k with
      | zero =>
        rw [g.T_zero, down_of_dvd h.tick_dvd]
        exact hdue
      | succ i =>
        have h1 := hlow i (Nat.lt_succ_self i)
        have h2 := g.down_succ_le (clock s) i
        omega
    have hnot : ¬ (s.entry x).expiration <
        g.num.wrap ((s.wheel k).currentTime + (s.wheel k).tickMs) := by
      rw [hw.currentTime, hw.tickMs]
      exact not_lt_wrap he (by omega) hge
    unfold TimingWheel.route
    simp only [hnc, Bool.false_eq_true, if_false, if_neg hnot]
    by_cases hlt : expiration s x < down (g.T k) (clock s) + g.T (k + 1)
    · have hlands : g.Lands (clock s) (expiration s x) k := ⟨hlow, hlt⟩
      have htaken := hfits.of_lands hdue hlands
      rw [← hw.currentTime, ← hw.interval] at htaken
      exact ⟨k, s, Grown.refl s, hk, hlands, if_pos htaken⟩
    · have hle := Int.not_lt.mp hlt
      have hT := he.of_nonneg_of_le hTk'.le (by omega)
      have hpassed : ¬ (s.entry x).expiration <
          g.num.wrap ((s.wheel k).currentTime + (s.wheel k).interval) := by
        rw [hw.currentTime, hw.interval, Arithmetic.wrap_add_wrap]
        exact not_lt_wrap he (by omega) hle
      have htick := g.tick_pos
      obtain ⟨u, hu, hgrown, hk'⟩ := addOverflowWheel_grown h hk hT
        (he.of_nonneg_of_le h.nonneg (by omega))
      rw [if_neg hpassed, hu]
      have hpos := h.levels_pos
      have hc := hgrown.clock hpos
      have hexp : expiration u x = expiration s x := by
        unfold expiration
        rw [hgrown.entry]
      have hnc' : TimerTaskEntry.cancelled u x = false := by
        rw [hgrown.rest]
        exact hnc
      have hlow' : ∀ i < k + 1, down (g.T i) (clock s) + g.T (i + 1) ≤ expiration s x := by
        intro i hi
        rcases Nat.lt_succ_iff_lt_or_eq.mp hi with hi | rfl
        · exact hlow i hi
        · exact hle
      obtain ⟨m, s', h1, h2, h3, h4⟩ := ih (hgrown.ruled h) hk' hnc'
        (by rw [hc, hexp]; exact hlow') (by rw [hc, hexp]; exact hdue)
        (by rw [hc, hexp]; exact hfits) (by rw [hexp]; exact he) (by rw [hexp]; omega)
      rw [hc, hexp] at h3
      exact ⟨m, s', hgrown.trans h1 hpos, h2, h3, h4⟩

theorem route_due (fuel : ℕ) (h : Ruled g s) (hnc : TimerTaskEntry.cancelled s x = false)
    (hdue : expiration s x < g.num.wrap (clock s + g.tick)) :
    TimingWheel.route g.num (fuel + 1) s 0 x = some (none, s) := by
  have htick : (s.wheel 0).tickMs = g.tick := by
    rw [(h.rule 0 h.levels_pos).tickMs, g.T_zero]
  have hlt : (s.entry x).expiration <
      g.num.wrap ((s.wheel 0).currentTime + (s.wheel 0).tickMs) := by
    rw [htick]
    exact hdue
  unfold TimingWheel.route
  simp only [hnc, Bool.false_eq_true, if_false, if_pos hlt]

theorem addOverflowWheel_levels {num : Arithmetic} (hk : k < s.levels)
    (h : TimingWheel.addOverflowWheel num s k = some s') : s'.levels = max s.levels (k + 2) := by
  unfold TimingWheel.addOverflowWheel at h
  dsimp only at h
  split_ifs at h with hlt
  · obtain rfl := Option.some.inj h
    omega
  · obtain rfl := Option.some.inj h
    show k + 2 = _
    omega

theorem route_levels {num : Arithmetic} {m : ℕ} (fuel : ℕ) (hk : k < s.levels)
    (h : TimingWheel.route num fuel s k x = some (some m, s')) :
    k ≤ m ∧ s'.levels = max s.levels (m + 1) := by
  induction fuel generalizing s k with
  | zero => cases h
  | succ fuel ih =>
    unfold TimingWheel.route at h
    dsimp only at h
    split_ifs at h
    · cases h
    · cases h
    · cases h
      omega
    · obtain ⟨u, hu, hrest⟩ := Option.bind_eq_some_iff.mp h
      have hlev := addOverflowWheel_levels hk hu
      obtain ⟨h1, h2⟩ := ih (by omega) hrest
      omega

theorem exists_lands {c : ℤ} (hc : 0 ≤ c) (e : ℤ) : ∃ m, g.Lands c e m := by
  have hex : ∃ m, e < down (g.T m) c + g.T (m + 1) := by
    have h1 := g.lt_T (e.toNat + 1)
    have h2 := down_nonneg (g.T_pos e.toNat) hc
    exact ⟨e.toNat, by omega⟩
  exact ⟨Nat.find hex, fun i hi => Int.not_lt.mp (Nat.find_min hex hi), Nat.find_spec hex⟩

theorem route_of_fits (h : Ruled g s) (hnc : TimerTaskEntry.cancelled s x = false)
    (hdue : clock s + g.tick ≤ expiration s x) (hfits : g.Fits (clock s) (expiration s x)) :
    g.num.Holds (expiration s x) ∧ ∃ m s', Grown g s s' ∧ m < s'.levels ∧
      g.Lands (clock s) (expiration s x) m ∧
      TimingWheel.route g.num (wheelBound (expiration s x)) s 0 x = some (some m, s') := by
  have hnn := h.nonneg
  have htick := g.tick_pos
  obtain ⟨m, hm⟩ := exists_lands (g := g) hnn (expiration s x)
  have he := Arithmetic.holds_of_lt_wrap (by omega) (hfits.of_lands hdue hm)
  refine ⟨he, route_spec _ h h.levels_pos hnc (fun i hi => absurd hi (Nat.not_lt_zero i)) hdue
    hfits he ?_⟩
  unfold wheelBound
  omega

/-! ## `Timer::addTimerTaskEntry` -/

/-- `addTask` and `delete` for an entry that the wheels refused. -/
def handOver (s : Timer) (x : EntryId) : Timer :=
  { s with
    handed := s.handed ++ [((s.entry x).timerTask, s.now)]
    deleted := s.deleted ++ [x] }

theorem handOver_inv (h : Inv g (some x) s) (hx : (s.entry x).list = none)
    (hdue : expiration s x < clock s + g.tick) : Inv g none (handOver s x) := by
  obtain ⟨hlt, hnd⟩ := h.owned.held x rfl
  have htask := (h.owned.task x hlt).1
  have hnow := h.clocks.le_now
  constructor
  case clocks => exact ⟨h.clocks.1, h.clocks.2, h.clocks.3, h.clocks.4, h.clocks.5⟩
  case links => exact h.links.congr le_rfl (fun _ => rfl) fun _ => rfl
  case seats => exact h.seats.congr rfl (fun _ _ _ => rfl) fun _ _ _ hl => hl
  case queued => exact h.queued.congr rfl rfl (fun _ => rfl) rfl (fun _ => Iff.rfl)
  case working => exact fun b hb => (h.working b hb).congr rfl rfl rfl rfl le_rfl id
  case owned =>
    constructor
    · intro y hy _
      by_cases hyx : y = x
      · exact .inr (by simp [handOver, hyx])
      · rcases h.owned.linked_or_deleted y hy fun he => hyx (Option.some.inj he) with h1 | h1
        · exact .inl h1
        · exact .inr (List.mem_append_left _ h1)
    · intro y hy
      rcases List.mem_append.mp hy with hy | hy
      · exact h.owned.unlinked y hy
      · obtain rfl := List.mem_singleton.mp hy
        exact ⟨hlt, hx⟩
    · exact h.owned.fresh
    · apply h.owned.nodup.append (List.nodup_singleton x)
      intro y hy hyx
      obtain rfl := List.mem_singleton.mp hyx
      exact hnd hy
    · exact h.owned.task
    · simp [handOver, h.owned.handed, htask]
    · intro p hp
      rcases List.mem_append.mp hp with hp | hp
      · exact h.owned.early p hp
      · obtain rfl := List.mem_singleton.mp hp
        rw [htask]
        show expiration s x < s.now + g.tick
        omega
    · intro y hy
      cases hy

/-- What `addTimerTaskEntry` does to the entry `x`: it hands the task over, or it links the entry
into the bucket on which its expiration lands and queues that bucket if it was not live. -/
inductive Inserted (g : Geometry) (s : Timer) (x : EntryId) (s' : Timer) : Prop
  | handed : expiration s x < clock s + g.tick → s' = handOver s x → Inserted g s x s'
  | linked (m : ℕ) (u v : Timer) : clock s + g.tick ≤ expiration s x →
      g.Lands (clock s) (expiration s x) m → Grown g s u → u.levels = max s.levels (m + 1) →
      Unlinked u x v → Placed g v x m s' → Inserted g s x s'

theorem addTimerTaskEntry_spec (h : Inv g ins s) (hx : x < s.count)
    (hfits : g.Fits (clock s) (expiration s x)) :
    ∃ s', addTimerTaskEntry g.num s x = some s' ∧ Inserted g s x s' := by
  have hnc := h.owned.not_cancelled hx
  by_cases hdue : expiration s x < clock s + g.tick
  · refine ⟨handOver s x, ?_, .handed hdue rfl⟩
    unfold addTimerTaskEntry wheelBound
    rw [TimingWheel.add_eq_route, route_due _ h.clocks.ruled hnc (hfits.of_due hdue)]
    simp [hnc, handOver, TimingWheel.finish]
  · have hdue' := Int.not_lt.mp hdue
    have hnn := h.clocks.nonneg
    have htick := g.tick_pos
    obtain ⟨hh, m, u, hgrown, hm, hlands, hroute⟩ := route_of_fits h.clocks.ruled hnc hdue' hfits
    have hu := hgrown.inv h
    have hun := remove_unlinked hu.links (x := x)
    have hexp : expiration (TimerTaskEntry.remove u x) x = expiration s x := by
      rw [hun.expiration]
      unfold expiration
      rw [hgrown.entry]
    have hnone : ((TimerTaskEntry.remove u x).entry x).list = none := by simp [hun.list]
    obtain ⟨s', hs', hplaced⟩ := place_placed (hun.toFrame.clocks hu.clocks)
      (by rw [hun.levels]; exact hm) hnone (by rw [hexp]; omega) (by rw [hexp]; exact hh)
    have hlev := (route_levels _ h.clocks.levels_pos hroute).2
    refine ⟨s', ?_, .linked m u _ hdue' hlands hgrown hlev hun hplaced⟩
    unfold expiration at hroute
    unfold addTimerTaskEntry
    rw [TimingWheel.add_eq_route, hroute]
    simp [TimingWheel.finish, place_remove hu.clocks hu.links hm, hs']

/-- An entry that is still linked must not be due, and one that is inserted in front of a waiting
bucket must not precede it. -/
theorem Inserted.inv (i : Inserted g s x s') (h : Inv g ins s)
    (hins : ∀ y, ins = some y → y = x) (hx : x < s.count) (hxd : x ∉ s.deleted)
    (hfree : clock s + g.tick ≤ expiration s x ∨ (ins = some x ∧ (s.entry x).list = none))
    (hwin : ∀ l b, s.phase = .polled l b →
      bucketExpiration s b ≤ expiration s x ∨ expiration s x < clock s + g.tick) :
    Inv g none s' := by
  cases i with
  | handed hdue hs =>
    obtain hfree | ⟨rfl, hnone⟩ := hfree
    · omega
    · rw [hs]
      exact handOver_inv h hnone hdue
  | linked m u v hdue hlands hgrown hlev hun hp =>
    have hm : m < v.levels := by
      rw [hun.levels]
      omega
    have hu := hgrown.inv h
    have hv := hun.inv hu hins (by rw [hgrown.rest]; exact hx) (by rw [hgrown.rest]; exact hxd)
    have hc : clock v = clock s := hun.clock.trans (hgrown.clock h.clocks.levels_pos)
    have he : expiration v x = expiration s x := by
      rw [hun.expiration]
      unfold expiration
      rw [hgrown.entry]
    apply hp.inv hv hm
    · simp [hun.list]
    · rw [hc, he]
      exact hlands.le h.clocks.tick_dvd hdue
    · rw [hc, he]
      exact hlands.2
    · intro l b hph
      rw [hun.phase, hgrown.phase] at hph
      have hb : b.1 < s.levels := (h.working b (by rw [hph]; rfl)).level
      rw [hun.start, hgrown.start hb, he]
      rcases hwin l b hph with hle | hlt
      · exact hle
      · omega

theorem Inserted.phase (i : Inserted g s x s') : s'.phase = s.phase := by
  cases i with
  | handed _ hs => rw [hs]; rfl
  | linked m u v _ _ hgrown _ hun hp => rw [hp.phase, hun.phase, hgrown.phase]

/-- The state after `x` was linked, in terms of the state before the call. -/
structure Landed (g : Geometry) (s : Timer) (x : EntryId) (m : ℕ) (s' : Timer) : Prop where
  list : ∀ y, (s'.entry y).list =
    if y = x then some (m, slot (g.T m) g.size (expiration s x)) else (s.entry y).list
  queue : s'.queue = s.queue ∨
    (s'.queue = s.queue ++ [⟨expiration s x, (m, slot (g.T m) g.size (expiration s x))⟩] ∧
      ¬ Live s (m, slot (g.T m) g.size (expiration s x)))
  ring : ∀ k, ring s' k = if k = m then (ring s k).erase x ++ [x] else (ring s k).erase x
  clock : clock s' = clock s
  expiration : ∀ y, expiration s' y = expiration s y
  count : s'.count = s.count
  now : s'.now = s.now
  levels : s'.levels = max s.levels (m + 1)
  start : ∀ b, Live s b → bucketExpiration s' b = bucketExpiration s b

theorem Inserted.landed (i : Inserted g s x s') (h : Inv g ins s)
    (hins : ∀ y, ins = some y → y = x) (hx : x < s.count) (hxd : x ∉ s.deleted) :
    (expiration s x < clock s + g.tick ∧ s' = handOver s x) ∨
      (clock s + g.tick ≤ expiration s x ∧
        ∃ m, g.Lands (clock s) (expiration s x) m ∧ Landed g s x m s') := by
  cases i with
  | handed hdue hs => exact .inl ⟨hdue, hs⟩
  | linked m u v hdue hlands hgrown hlev hun hp =>
    refine .inr ⟨hdue, m, hlands, ?_⟩
    have hv := hun.inv (hgrown.inv h) hins (by rw [hgrown.rest]; exact hx)
      (by rw [hgrown.rest]; exact hxd)
    have hc : Timing.clock v = Timing.clock s :=
      hun.clock.trans (hgrown.clock h.clocks.levels_pos)
    have he : ∀ y, Timing.expiration v y = Timing.expiration s y := by
      intro y
      rw [hun.expiration]
      unfold Timing.expiration
      rw [hgrown.entry]
    have hlive : ∀ b, Live v b ↔ Live s b := fun b => (hun.live b).trans (hgrown.live b)
    have hT := g.T_pos m
    have hge := hlands.le h.clocks.tick_dvd hdue
    have hge' : down (g.T m) (Timing.clock v) + g.T m ≤ Timing.expiration v x := by
      rw [hc, he]
      exact hge
    have hlt' : Timing.expiration v x < down (g.T m) (Timing.clock v) + g.T (m + 1) := by
      rw [hc, he]
      exact hlands.2
    constructor
    case list =>
      intro y
      rw [hp.list, he]
      split_ifs with hy
      · rfl
      · rw [hun.list, if_neg hy, hgrown.entry]
    case queue =>
      have hq := hp.queue
      rw [he, hun.queue, hgrown.queue] at hq
      split_ifs at hq with hb
      · exact .inl hq
      · refine .inr ⟨hq, ?_⟩
        rw [← hlive]
        intro hl
        rw [← he] at hb hl
        exact hb (hv.start_of_live (by omega) hlt' hl)
    case ring =>
      intro k
      rw [hp.ring, hun.ring, hgrown.ring h.links]
    case clock => exact hp.clock.trans hc
    case expiration => exact fun y => (hp.expiration y).trans (he y)
    case count => rw [hp.count, hun.count, hgrown.rest]
    case now => rw [hp.now, hun.now, hgrown.rest]
    case levels => rw [hp.levels, hun.levels, hlev]
    case start =>
      intro b hb
      rw [hp.start_of_live hv hge' hlt' ((hlive b).mpr hb), hun.start, hgrown.start (hb.level h)]

end

end Mutty.Timing
