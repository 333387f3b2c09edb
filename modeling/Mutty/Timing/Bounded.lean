import Mutty.Timing.Run

/-!
# Runs that stay in range

When neither the first clock nor any expiration is above `M`, every sum that a step compares with is
at most `M + M * wheelSize`. So a run in which that number is a value of the arithmetic compares as
over the integers in all of its steps.
-/

namespace Mutty.Timing

open Mutty.Lib

structure Bounded (g : Geometry) (M : ℤ) (s : Timer) : Prop where
  clock : clock s ≤ M
  entry : ∀ x, expiration s x ≤ M
  queue : ∀ q ∈ s.queue, q.expiration ≤ M
  active : ∀ b, s.phase.active = some b → bucketExpiration s b ≤ M
  levels : ∀ k < s.levels, g.T k ≤ M

def Act.Below (M : ℤ) : Act → Prop
  | .add expiration => expiration ≤ M
  | _ => True

def UpTo (M : ℤ) (G : Timer → Act → Prop) (s : Timer) (a : Act) : Prop :=
  G s a ∧ clock s ≤ M ∧ a.Below M

instance (M : ℤ) (a : Act) : Decidable (a.Below M) :=
  match a with
  | .add _ => inferInstanceAs (Decidable (_ ≤ M))
  | .clock _ | .poll _ | .advance | .take | .reinsert | .endFlush => isTrue trivial

instance (M : ℤ) (G : Timer → Act → Prop) [∀ s a, Decidable (G s a)] (s : Timer) (a : Act) :
    Decidable (UpTo M G s a) :=
  inferInstanceAs (Decidable (_ ∧ _ ∧ _))

section

variable {g : Geometry} {M : ℤ} {ins : Option EntryId} {s s' : Timer} {x : EntryId}

theorem Geometry.Lands.T_le {c e : ℤ} {m : ℕ} (h : g.Lands c e m) (hc : 0 ≤ c) (he : e ≤ M)
    (htick : g.tick ≤ M) : g.T m ≤ M := by
  cases m with
  | zero =>
    rw [g.T_zero]
    exact htick
  | succ i =>
    have h1 := h.1 i (Nat.lt_succ_self i)
    have h2 := down_nonneg (g.T_pos i) hc
    omega

/-! ## Every comparison is in range -/

theorem fits_of_le {c e : ℤ} (hM : g.num.Holds (M + M * g.size)) (htick : g.tick ≤ M)
    (hc : 0 ≤ c) (hcM : c ≤ M) (he : e ≤ M) : g.Fits c e := by
  have hpos := g.tick_pos
  have hsize : (1 : ℤ) ≤ g.size := Int.toNat_le.mp g.size_pos
  have hMM : M ≤ M * g.size := le_mul_of_one_le_right (by omega) hsize
  unfold Geometry.Fits
  split_ifs with hdue
  · have hsum : g.num.Holds (c + g.tick) := hM.of_nonneg_of_le (by omega) (by omega)
    rwa [show g.num.wrap (c + g.tick) = c + g.tick from hsum]
  · intro m hm
    have hT := g.T_pos (m + 1)
    have hTM : g.T (m + 1) ≤ M * g.size := by
      rw [g.T_succ]
      exact Int.mul_le_mul_of_nonneg_right (hm.T_le hc he htick) (by omega)
    have hnn := down_nonneg (g.T_pos m) hc
    have hle := down_le (g.T_pos m) (x := c)
    have hsum : g.num.Holds (down (g.T m) c + g.T (m + 1)) :=
      hM.of_nonneg_of_le (by omega) (by omega)
    rw [Arithmetic.wrap_add_wrap, show g.num.wrap _ = _ from hsum]
    exact hm.2

theorem Bounded.sumsHold (hb : Bounded g M s) (hM : g.num.Holds (M + M * g.size))
    (hc : Clocks g s) : SumsHold g.num s := by
  have hsize : (1 : ℤ) ≤ g.size := Int.toNat_le.mp g.size_pos
  intro k hk
  have hw := hc.shape k hk
  have hT := g.T_pos k
  have hTM := hb.levels k hk
  have hMM : M ≤ M * g.size := le_mul_of_one_le_right (by omega) hsize
  have hnn := down_nonneg hT hc.nonneg
  have hle := down_le hT (x := Timing.clock s)
  have hclock := hb.clock
  rw [hw.currentTime, hw.tickMs]
  exact hM.of_nonneg_of_le (by omega) (by omega)

theorem Bounded.tick_le (hb : Bounded g M s) (hc : Clocks g s) : g.tick ≤ M := by
  rw [← g.T_zero]
  exact hb.levels 0 hc.levels_pos

theorem Bounded.fits (hb : Bounded g M s) (hM : g.num.Holds (M + M * g.size)) (hc : Clocks g s)
    {e : ℤ} (he : e ≤ M) : g.Fits (Timing.clock s) e :=
  fits_of_le hM (hb.tick_le hc) hc.nonneg hb.clock he

theorem Bounded.stepFits (hb : Bounded g M s) (hM : g.num.Holds (M + M * g.size)) (hc : Clocks g s)
    {a : Act} (ha : a.Below M) : StepFits g s a := by
  cases a with
  | add e => exact hb.fits hM hc ha
  | advance => exact hb.sumsHold hM hc
  | reinsert => exact fun x _ => hb.fits hM hc (hb.entry x)
  | _ => trivial

/-! ## The bound is kept -/

theorem Bounded.frame (hb : Bounded g M s) (hclock : Timing.clock s' ≤ M)
    (hentry : ∀ x, expiration s' x = expiration s x) (hqueue : s'.queue = s.queue)
    (hlevels : s'.levels = s.levels)
    (hactive : ∀ b, s'.phase.active = some b → bucketExpiration s' b ≤ M) : Bounded g M s' := by
  refine ⟨hclock, fun x => ?_, ?_, hactive, ?_⟩
  · rw [hentry]
    exact hb.entry x
  · rw [hqueue]
    exact hb.queue
  · rw [hlevels]
    exact hb.levels

theorem Inserted.bounded (i : Inserted g s x s') (hb : Bounded g M s) (h : Inv g ins s)
    (hins : ∀ y, ins = some y → y = x) (hx : x < s.count) (hxd : x ∉ s.deleted) :
    Bounded g M s' := by
  have hphase := i.phase
  obtain ⟨_, rfl⟩ | ⟨_, m, hm, hl⟩ := i.landed h hins hx hxd
  · exact ⟨hb.clock, hb.entry, hb.queue, hb.active, hb.levels⟩
  · constructor
    case clock =>
      rw [hl.clock]
      exact hb.clock
    case entry =>
      intro y
      rw [hl.expiration]
      exact hb.entry y
    case queue =>
      intro q hq
      rcases hl.queue with hqueue | ⟨hqueue, _⟩
      · exact hb.queue q (hqueue ▸ hq)
      · rw [hqueue] at hq
        rcases List.mem_append.mp hq with hq | hq
        · exact hb.queue q hq
        · obtain rfl := List.mem_singleton.mp hq
          exact hb.entry x
    case active =>
      intro b hact
      rw [hphase] at hact
      rw [hl.start b (.inr hact)]
      exact hb.active b hact
    case levels =>
      intro k hk
      rw [hl.levels] at hk
      by_cases hk' : k < s.levels
      · exact hb.levels k hk'
      · have hTm := hm.T_le h.clocks.nonneg (hb.entry x) (hb.tick_le h.clocks)
        exact (Int.le_of_dvd (g.T_pos m) (g.T_dvd (by omega))).trans hTm

theorem newEntry_bounded (hb : Bounded g M s) {e : ℤ} (he : e ≤ M) : Bounded g M (newEntry s e) := by
  rw [newEntry_eq]
  refine ⟨hb.clock, ?_, hb.queue, hb.active, hb.levels⟩
  intro y
  simp only [expiration, Function.update_apply]
  split_ifs
  · exact he
  · exact hb.entry y

theorem Stepped.bounded {a : Act} (st : Stepped g s a s') (h : Good g s) (hb : Bounded g M s)
    (ha : a.Below M) : Bounded g M s' := by
  have hnone : ∀ {p : Phase}, s.phase = p → p.inserting = none → Inv g none s := by
    intro p hp hi
    exact h.inv_none (by rw [hp]; exact hi)
  cases st with
  | clock _ _ => exact ⟨hb.clock, hb.entry, hb.queue, hb.active, hb.levels⟩
  | @add e _ hph hins =>
    have hinv : Inv g none s := by
      rcases hph with hph | ⟨b, hph⟩
      · exact hnone hph rfl
      · exact hnone hph rfl
    obtain ⟨hlt, hnd⟩ := (newEntry_inv hinv e).owned.held s.count rfl
    exact hins.bounded (newEntry_bounded hb ha) (newEntry_inv hinv e)
      (fun y hy => (Option.some.inj hy).symm) hlt hnd
  | pollNone _ _ =>
    refine ⟨hb.clock, hb.entry, hb.queue, ?_, hb.levels⟩
    intro b hact
    cases hact
  | @pollSome i l first _ hfirst _ _ =>
    have hmem : first ∈ s.queue := List.mem_of_getElem? hfirst
    refine ⟨hb.clock, hb.entry, fun q hq => hb.queue q (List.mem_of_mem_eraseIdx hq), ?_, hb.levels⟩
    intro b hact
    obtain rfl := Option.some.inj hact
    have hstart := (h.inv.queued.seat first hmem).start
    have hle := down_le (g.T_pos first.bucket.1) (x := first.expiration)
    have hq := hb.queue first hmem
    show bucketExpiration s first.bucket ≤ M
    omega
  | @advance l b hph hsums =>
    have hact : s.phase.active = some b := by rw [hph]; rfl
    have hadv := advanceClock_advanced g.num s.levels s 0 (bucketExpiration s b)
    have hclock := (advance_clock h.inv hact hsums).2
    have hstart := hb.active b hact
    refine hb.frame ?_ (fun x => ?_) ?_ ?_ ?_
    · have hold := hb.clock
      show Timing.clock (TimingWheel.advanceClock g.num s.levels s 0 (bucketExpiration s b)) ≤ M
      rcases hclock with ⟨h1, _⟩ | ⟨h1, _⟩ <;> omega
    · rw [hadv.rest]
      rfl
    · rw [hadv.rest]
    · rw [hadv.rest]
    · intro b' hb'
      obtain rfl := Option.some.inj hb'
      show ((TimingWheel.advanceClock g.num s.levels s 0 (bucketExpiration s b)).wheel
        b.1).expiration b.2 ≤ M
      rw [hadv.wheel]
      exact hstart
  | @takeOwn b y u hph _ _ hu =>
    have hact : s.phase.active = some b := by rw [hph]; rfl
    refine hb.frame (hu.clock.trans_le hb.clock) hu.expiration hu.queue hu.levels ?_
    intro b' hb'
    obtain rfl := Option.some.inj hb'
    show bucketExpiration u b ≤ M
    rw [hu.start]
    exact hb.active b hact
  | @takeOther b _ _ hph _ _ _ _ =>
    refine ⟨hb.clock, hb.entry, hb.queue, ?_, hb.levels⟩
    intro b' hb'
    exact hb.active b' (by rw [hph]; exact hb')
  | @reinsert b y u hph hins =>
    have hinv := h.inv_some hph
    obtain ⟨hlt, hnd⟩ := hinv.owned.held y rfl
    have hu := hins.bounded hb hinv (fun z hz => (Option.some.inj hz).symm) hlt hnd
    refine ⟨hu.clock, hu.entry, hu.queue, ?_, hu.levels⟩
    intro b' hb'
    exact hu.active b' (by rw [hins.phase, hph]; exact hb')
  | @endFlush b hph _ =>
    have hinv := hnone hph rfl
    have hact : s.phase.active = some b := by rw [hph]; rfl
    have hshape := hinv.clocks.shape b.1 (hinv.working b hact).level
    have hrest := clearExpiration_eq hshape.setFlag
    have hwheel := clearExpiration_wheel hshape.setFlag 0
    refine hb.frame ?_ (fun x => ?_) ?_ ?_ ?_
    · show ((clearExpiration s b).wheel 0).currentTime ≤ M
      rw [hwheel]
      exact hb.clock
    · rw [hrest]
      rfl
    · rw [hrest]
      rfl
    · rw [hrest]
      rfl
    · intro b' hb'
      cases hb'

theorem new_bounded (g : Geometry) (startMs : ℕ) (htick : g.tick ≤ M)
    (hc : clock (new g.num g.tick g.size startMs) ≤ M) :
    Bounded g M (new g.num g.tick g.size startMs) := by
  have hpos := g.tick_pos
  refine ⟨hc, ?_, fun _ hq => absurd hq List.not_mem_nil, ?_, ?_⟩
  · intro x
    show (-1000001 : ℤ) ≤ M
    omega
  · intro b hact
    cases hact
  · intro k hk
    obtain rfl : k = 0 := Nat.lt_one_iff.mp hk
    rw [g.T_zero]
    exact htick

theorem reach_inRange {G : Timer → Act → Prop} (hG : ∀ s a, G s a → Ordered s a)
    (htick : g.tick ≤ M) (hM : g.num.Holds (M + M * g.size))
    (h : (system g.num g.tick g.size).Reach (UpTo M G) s) :
    (system g.num g.tick g.size).Reach (InRange g G) s ∧ Good g s ∧
      (clock s ≤ M → Bounded g M s) := by
  induction h with
  | init hi =>
    obtain ⟨startMs, hh, rfl⟩ := hi
    exact ⟨.init ⟨startMs, hh, rfl⟩, new_good g startMs hh, new_bounded g startMs htick⟩
  | @step s s' a _ hguard hstep ih =>
    obtain ⟨hreach, hgood, hb⟩ := ih
    obtain ⟨hg, hclock, hadd⟩ := hguard
    have hb := hb hclock
    have hf := hb.stepFits hM hgood.inv.clocks hadd
    have st := step_stepped hgood hf hstep
    exact ⟨.step hreach ⟨hg, hf⟩ hstep, st.good hgood (hG s a hg),
      fun _ => st.bounded hgood hb hadd⟩

end

end Mutty.Timing
