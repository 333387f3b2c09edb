import Mathlib.Order.Bounds.Basic
import Mutty.Timing.Run

/-!
# Where an entry is placed

`TimingWheel::add` on wheels in step: over the integers it returns, refuses exactly the entries that
are due, and links every other one on the lowest level whose interval reaches its expiration. The
level below passed the entry up, so the level that takes it never finds it due. In words that wrap
this is so exactly when the comparison that decides comes out the same (`add_places_entry`).
-/

namespace Mutty.Timing

open Mutty.Lib

/-- The clock of level `k`, also of a level that is not there yet. -/
def levelClock (g : Geometry) (s : Timer) (k : ℕ) : ℤ := down (g.T k) (clock s)

structure Placement (g : Geometry) (s : Timer) (x : EntryId) (m : ℕ) (s' : Timer) : Prop where
  lowest : IsLeast {k | expiration s x < levelClock g s k + g.T k * g.size} m
  not_due : levelClock g s m + g.T m ≤ expiration s x
  list : (s'.entry x).list = some (m, (expiration s x / g.T m % g.size).toNat)
  mem : x ∈ ring s' m
  levels : s'.levels = max s.levels (m + 1)
  rule : ∀ k < s'.levels, WheelRule g (clock s) k (s'.wheel k)

/-- The call returns. An entry that is due is refused by the first level itself, with no wheel
created, and any other one is placed. -/
structure Places (g : Geometry) (s : Timer) (x : EntryId) (added : Bool) (s' : Timer) : Prop where
  returns : ∃ n, ∀ fuel ≥ n, TimingWheel.add g.num fuel s 0 x = some (added, s')
  refused_iff : added = false ↔ expiration s x < clock s + g.tick
  refused : added = false → TimingWheel.add g.num 1 s 0 x = some (false, s)
  placed : added = true → ∃ m, Placement g s x m s'

section

variable {g : Geometry} {num : Arithmetic} {s s' : Timer} {x : EntryId} {k m : ℕ}

theorem add_stable {n n' : ℕ} {r : Bool × Timer} (h : TimingWheel.add num n s k x = some r)
    (hn : n ≤ n') : TimingWheel.add num n' s k x = some r := by
  induction n generalizing n' s k with
  | zero => cases h
  | succ n ih =>
    obtain ⟨n', rfl⟩ : ∃ i, n' = i + 1 := ⟨n' - 1, by omega⟩
    unfold TimingWheel.add at h ⊢
    dsimp only at h ⊢
    split_ifs at h ⊢
    · exact h
    · exact h
    · exact h
    · obtain ⟨u, hu, hrest⟩ := Option.bind_eq_some_iff.mp h
      rw [hu]
      exact ih hrest (by omega)

/-- The entry sits in bucket `b`, and the wheels have kept their ticks and clocks. -/
structure SitsIn (s : Timer) (x : EntryId) (b : Bucket) (s' : Timer) : Prop where
  levels : s'.levels = s.levels
  rule : ∀ g c k, WheelRule g c k (s.wheel k) → WheelRule g c k (s'.wheel k)
  list : (s'.entry x).list = some b
  mem : x ∈ ring s' b.1

theorem listAdd_sitsIn (s : Timer) (b : Bucket) (x : EntryId) :
    SitsIn s x b (TimerTaskList.add s b x) := by
  have hr := (remove_relinked s x).1
  have hl := relink_relinked (TimerTaskEntry.remove s x) b.1 x
    (((TimerTaskEntry.remove s x).wheel b.1).root ++ [x]) (some b)
  rw [listAdd_eq]
  refine ⟨hl.levels.trans hr.levels, fun g c k hw => hl.rule g c k (hr.rule g c k hw), ?_, ?_⟩
  · rw [relink_list, if_pos rfl]
  · simp [ring, relink, setWheel, setEntry]

/-- Writing the expiration of a bucket, or finding its flag held. -/
theorem SitsIn.setExpiration {b c : Bucket} (h : SitsIn s x b s') (v : ℤ) :
    SitsIn s x b (TimerTaskList.setExpiration s' c v).2 := by
  unfold TimerTaskList.setExpiration
  dsimp only
  split_ifs with hflag
  · exact h
  · refine ⟨h.levels, fun g d k hw => ?_, h.list, ?_⟩
    · have hk := h.rule g d k hw
      simp only [setWheel, Function.update_apply]
      split_ifs with hkc
      · subst hkc
        exact ⟨hk.1, hk.2, hk.3, hk.4⟩
      · exact hk
    · have hm := h.mem
      simp only [ring, setWheel, Function.update_apply] at hm ⊢
      split_ifs with hbc
      · rw [← hbc]
        exact hm
      · exact hm

theorem place_sitsIn (h : TimingWheel.place num s k x = some s') :
    SitsIn s x (k, (((s.entry x).expiration.tdiv (s.wheel k).tickMs).tmod
      (s.wheel k).wheelSize).toNat) s' := by
  unfold TimingWheel.place at h
  dsimp only at h
  split_ifs at h with hneg hchanged
  · obtain rfl := Option.some.inj h
    have hsits := (listAdd_sitsIn s (k, (((s.entry x).expiration.tdiv (s.wheel k).tickMs).tmod
      (s.wheel k).wheelSize).toNat) x).setExpiration (c := (k, (((s.entry x).expiration.tdiv
        (s.wheel k).tickMs).tmod (s.wheel k).wheelSize).toNat))
          (num.wrap ((s.wheel k).tickMs * (s.entry x).expiration.tdiv (s.wheel k).tickMs))
    exact ⟨hsits.levels, hsits.rule, hsits.list, hsits.mem⟩
  · obtain rfl := Option.some.inj h
    exact (listAdd_sitsIn s _ x).setExpiration _

theorem exists_place (hw : WheelRule g (clock s) k (s.wheel k)) (he : 0 ≤ expiration s x) :
    ∃ s', TimingWheel.place num s k x = some s' ∧
      SitsIn s x (k, slot (g.T k) g.size (expiration s x)) s' := by
  have hdiv : (s.entry x).expiration.tdiv (s.wheel k).tickMs = expiration s x / g.T k := by
    rw [hw.tickMs]
    exact Int.tdiv_eq_ediv_of_nonneg he
  have hmod : ((s.entry x).expiration.tdiv (s.wheel k).tickMs).tmod (s.wheel k).wheelSize =
      expiration s x / g.T k % g.size := by
    rw [hdiv, hw.wheelSize]
    exact Int.tmod_eq_emod_of_nonneg (Int.ediv_nonneg he (g.T_pos k).le)
  have hsize : (g.size : ℤ) ≠ 0 := Int.natCast_ne_zero.mpr g.size_pos.ne'
  have hnn := Int.emod_nonneg (expiration s x / g.T k) hsize
  obtain ⟨s', hs'⟩ : ∃ s', TimingWheel.place num s k x = some s' := by
    unfold TimingWheel.place
    dsimp only
    rw [hmod, if_neg (Int.not_lt.mpr hnn)]
    exact ⟨_, rfl⟩
  have hsits := place_sitsIn hs'
  rw [hmod] at hsits
  exact ⟨s', hs', hsits⟩

theorem isLeast_of_lands (h : g.Lands (clock s) (expiration s x) m) :
    IsLeast {k | expiration s x < levelClock g s k + g.T k * g.size} m := by
  constructor
  · have h2 := h.2
    rw [g.T_succ] at h2
    exact h2
  · intro i hi
    by_contra hlt
    have h1 := h.1 i (Nat.not_le.mp hlt)
    rw [g.T_succ] at h1
    exact absurd hi (Int.not_lt.mpr h1)

theorem add_of_not_due (h : Ruled g s) (hnc : TimerTaskEntry.cancelled s x = false)
    (hdue : clock s + g.tick ≤ expiration s x) (hf : g.Fits (clock s) (expiration s x)) :
    ∃ n s' m, TimingWheel.add g.num n s 0 x = some (true, s') ∧ Placement g s x m s' := by
  have hpos := h.levels_pos
  have htick := g.tick_pos
  have hnn := h.nonneg
  obtain ⟨_, m, u, hgrown, hm, hlands, hroute⟩ := route_of_fits h hnc hdue hf
  have hru := hgrown.ruled h
  have hclock := hgrown.clock hpos
  have hexp : expiration u x = expiration s x := by
    unfold expiration
    rw [hgrown.entry]
  have hnonneg : 0 ≤ expiration u x := by
    rw [hexp]
    omega
  obtain ⟨s', hplace, hsits⟩ := @exists_place g g.num u x m (hru.rule m hm) hnonneg
  refine ⟨wheelBound (expiration s x), s', m, ?_, ?_⟩
  · rw [TimingWheel.add_eq_route, hroute]
    simp [TimingWheel.finish, hplace]
  constructor
  case lowest => exact isLeast_of_lands hlands
  case not_due => exact hlands.le h.tick_dvd hdue
  case list =>
    rw [hsits.list, hexp]
    rfl
  case mem => exact hsits.mem
  case levels => rw [hsits.levels, (route_levels _ hpos hroute).2]
  case rule =>
    intro i hi
    rw [hsits.levels] at hi
    rw [← hclock]
    exact hsits.rule g _ i (hru.rule i hi)

theorem add_of_due (h : Ruled g s) (hnc : TimerTaskEntry.cancelled s x = false)
    (hdue : expiration s x < g.num.wrap (clock s + g.tick)) :
    TimingWheel.add g.num 1 s 0 x = some (false, s) := by
  rw [TimingWheel.add_eq_route, route_due 0 h hnc hdue]
  rfl

/-! ## Where the comparison wraps -/

/-- The wheel on which the expiration lands passes the entry up when its sum wraps below it. -/
theorem route_past {m' : ℕ} (fuel : ℕ) (h : Ruled g s) (hk : k < s.levels) (hkm : k ≤ m)
    (hnc : TimerTaskEntry.cancelled s x = false) (he : g.num.Holds (expiration s x))
    (hdue : clock s + g.tick ≤ expiration s x) (hm : g.Lands (clock s) (expiration s x) m)
    (hwrap : ¬ expiration s x <
      g.num.wrap (down (g.T m) (clock s) + g.num.wrap (g.T (m + 1))))
    (hroute : TimingWheel.route g.num fuel s k x = some (some m', s')) : m < m' := by
  induction fuel generalizing s k with
  | zero => cases hroute
  | succ fuel ih =>
    have hw := h.rule k hk
    have hpassed : ¬ (s.entry x).expiration <
        g.num.wrap ((s.wheel k).currentTime + (s.wheel k).interval) := by
      rw [hw.currentTime, hw.interval]
      rcases Nat.eq_or_lt_of_le hkm with rfl | hlt
      · exact hwrap
      · have hnn := down_nonneg (g.T_pos k) h.nonneg
        have hT := g.T_pos (k + 1)
        rw [Arithmetic.wrap_add_wrap]
        exact not_lt_wrap he (by omega) (hm.1 k hlt)
    unfold TimingWheel.route at hroute
    simp only [hnc, Bool.false_eq_true, if_false, if_neg hpassed] at hroute
    split_ifs at hroute
    · cases hroute
    obtain ⟨u, hu, hrest⟩ := Option.bind_eq_some_iff.mp hroute
    have hk' : k + 1 < u.levels := by
      have hlev := addOverflowWheel_levels hk hu
      omega
    rcases Nat.eq_or_lt_of_le hkm with rfl | hlt
    · exact (route_levels fuel hk' hrest).1
    · have hnn := down_nonneg (g.T_pos k) h.nonneg
      have hT := g.T_pos (k + 1)
      have htick := g.tick_pos
      have hlow := hm.1 k hlt
      obtain ⟨u', hu', hgrown, _⟩ := addOverflowWheel_grown h hk
        (he.of_nonneg_of_le hT.le (by omega)) (he.of_nonneg_of_le h.nonneg (by omega))
      obtain rfl := Option.some.inj (hu.symm.trans hu')
      have hc := hgrown.clock h.levels_pos
      have hexp : expiration u x = expiration s x := by
        unfold expiration
        rw [hgrown.entry]
      have hnc' : TimerTaskEntry.cancelled u x = false := by
        rw [hgrown.rest]
        exact hnc
      rw [← hexp] at he
      rw [← hc, ← hexp] at hdue hm hwrap
      exact ih (hgrown.ruled h) hk' hlt hnc' he hdue hm hwrap hrest

theorem Places.fits {added : Bool} (h : Ruled g s)
    (hnc : TimerTaskEntry.cancelled s x = false) (he : g.num.Holds (expiration s x))
    (hp : Places g s x added s') : g.Fits (clock s) (expiration s x) := by
  obtain ⟨n, hn⟩ := hp.returns
  unfold Geometry.Fits
  split_ifs with hdue
  · -- the first level compares with the wrapped sum and must refuse the entry
    by_contra hwrap
    have hrefused := hp.refused (hp.refused_iff.mpr hdue)
    have hnot : ¬ (s.entry x).expiration <
        g.num.wrap ((s.wheel 0).currentTime + (s.wheel 0).tickMs) := by
      rw [(h.rule 0 h.levels_pos).tickMs, g.T_zero]
      exact hwrap
    unfold TimingWheel.add at hrefused
    simp only [hnc, Bool.false_eq_true, if_false, if_neg hnot] at hrefused
    split_ifs at hrefused
    · obtain ⟨u, _, hu⟩ := Option.map_eq_some_iff.mp hrefused
      cases (Prod.mk.inj hu).1
    · obtain ⟨u, _, hu⟩ := Option.bind_eq_some_iff.mp hrefused
      cases hu
  · intro m hm
    by_contra hwrap
    have hadded : added = true := by
      rw [← Bool.not_eq_false]
      exact fun hf => hdue (hp.refused_iff.mp hf)
    obtain ⟨m', hplaced⟩ := hp.placed hadded
    obtain rfl := (isLeast_of_lands hm).unique hplaced.lowest
    have hadd := hn n (Nat.le_refl n)
    rw [TimingWheel.add_eq_route, hadded] at hadd
    obtain ⟨⟨o, u⟩, hroute, hfinish⟩ := Option.bind_eq_some_iff.mp hadd
    cases o with
    | none => cases hfinish
    | some m' =>
      obtain ⟨u', hplace, hu'⟩ := Option.map_eq_some_iff.mp hfinish
      have hpast := route_past n h h.levels_pos (Nat.zero_le m) hnc he (Int.not_lt.mp hdue) hm
        hwrap hroute
      have hlist := (place_sitsIn hplace).list
      rw [(Prod.mk.inj hu').2, hplaced.list] at hlist
      have heq := congrArg Prod.fst (Option.some.inj hlist)
      exact absurd heq (Nat.ne_of_lt hpast)

end

theorem add_places_entry (g : Geometry) (s : Timer) (x : EntryId) (h : Ruled g s)
    (he : g.num.Holds (expiration s x)) (hnc : TimerTaskEntry.cancelled s x = false) :
    (∃ added s', Places g s x added s') ↔ g.Fits (clock s) (expiration s x) := by
  constructor
  · rintro ⟨added, s', hp⟩
    exact Places.fits h hnc he hp
  · intro hf
    by_cases hdue : expiration s x < clock s + g.tick
    · have hadd := add_of_due h hnc (hf.of_due hdue)
      exact ⟨false, s, ⟨1, fun fuel hfuel => add_stable hadd hfuel⟩, by simp [hdue], fun _ => hadd,
        by simp⟩
    · obtain ⟨n, s', m, hadd, hp⟩ := add_of_not_due h hnc (by omega) hf
      exact ⟨true, s', ⟨n, fun fuel hfuel => add_stable hadd hfuel⟩, by simp [hdue], by simp,
        fun _ => ⟨m, hp⟩⟩

/-- An entry for time 5 on a fresh wheel of two buckets goes up to the third level. -/
theorem add_places_entry_third_level :
    ∃ added s', Places ⟨.long, 1, 2, by decide, by decide⟩ (newEntry (new .long 1 2 0) 5) 0
      added s' :=
  (add_places_entry ⟨.long, 1, 2, by decide, by decide⟩ _ 0
    (newEntry_inv ((new_good ⟨.long, 1, 2, by decide, by decide⟩ 0 rfl).inv_none rfl) 5).clocks.ruled
    (by decide) (by decide)).mpr (by decide)

/-- A tick of one second, four million buckets and a task for sixty days from now. It lands on the
second wheel, whose interval has wrapped to a negative number, and goes past it. -/
theorem passed_up_after_overflow :
    ∃ (g : Geometry) (s : Timer), g.num = .long ∧ Ruled g s ∧
      TimerTaskEntry.cancelled s 0 = false ∧ g.num.Holds (expiration s 0) ∧
      ¬ ∃ added s', Places g s 0 added s' := by
  let g : Geometry := ⟨.long, 1000000, 4000000, by decide, by decide⟩
  let s := newEntry (new .long 1000000 4000000 1700000000000000) 1705184000000000
  have hruled : Ruled g s :=
    (newEntry_inv ((new_good g 1700000000000000 (by decide)).inv_none rfl) _).clocks.ruled
  have hnc : TimerTaskEntry.cancelled s 0 = false := by decide
  have he : g.num.Holds (expiration s 0) := by decide
  refine ⟨g, s, rfl, hruled, hnc, he, ?_⟩
  rintro ⟨added, s', hp⟩
  have hlt := (hp.fits hruled hnc he).of_lands (m := 1) (by decide) (by decide)
  revert hlt
  decide

end Mutty.Timing
