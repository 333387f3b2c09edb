import Mutty.Timing.Insert

/-!
# Every step keeps the invariant

One lemma for each action, then the induction over runs. The only step that can break the
invariant is an `add` that another thread makes after the first `poll` of `advanceClock` and
before the lock: when it queues a bucket in front of the polled one, the clock passes over it.
`Ordered` is the guard that excludes this; runs of whole calls (`Sequential`) always meet it.
`InRange` asks besides that the comparisons of the step come out as over the integers.
-/

namespace Mutty.Timing

open Mutty.Lib

/-- The bucket that was polled and waits for the lock. -/
def Phase.waiting : Phase → Option Bucket
  | .polled false b => some b
  | _ => none

/-- An entry added between a first `poll` and the lock is due at once or does not expire before
the start of the polled bucket. -/
def Ordered (s : Timer) : Act → Prop
  | .add expiration => ∀ b ∈ s.phase.waiting,
      bucketExpiration s b ≤ expiration ∨
        expiration < (s.wheel 0).currentTime + (s.wheel 0).tickMs
  | _ => True

/-- Tasks are added only between two calls of `advanceClock`. -/
def Sequential (s : Timer) : Act → Prop
  | .add _ => s.phase = .idle
  | _ => True

/-- The sums with which `advanceClock` compares the new time do not wrap. -/
def SumsHold (num : Arithmetic) (s : Timer) : Prop :=
  ∀ k < s.levels, num.Holds ((s.wheel k).currentTime + (s.wheel k).tickMs)

/-- The comparisons that the step makes come out as over the integers. -/
def StepFits (g : Geometry) (s : Timer) : Act → Prop
  | .add expiration => g.Fits (clock s) expiration
  | .advance => SumsHold g.num s
  | .reinsert => ∀ x ∈ s.phase.inserting, g.Fits (clock s) (expiration s x)
  | _ => True

def InRange (g : Geometry) (G : Timer → Act → Prop) (s : Timer) (a : Act) : Prop :=
  G s a ∧ StepFits g s a

instance (s : Timer) (a : Act) : Decidable (Ordered s a) :=
  match a with
  | .add _ => inferInstanceAs (Decidable (∀ b ∈ s.phase.waiting, _ ∨ _))
  | .clock _ | .poll _ | .advance | .take | .reinsert | .endFlush => isTrue trivial

instance (s : Timer) (a : Act) : Decidable (Sequential s a) :=
  match a with
  | .add _ => inferInstanceAs (Decidable (s.phase = .idle))
  | .clock _ | .poll _ | .advance | .take | .reinsert | .endFlush => isTrue trivial

instance (num : Arithmetic) (s : Timer) : Decidable (SumsHold num s) :=
  inferInstanceAs (Decidable (∀ k < s.levels, _))

instance (g : Geometry) (s : Timer) (a : Act) : Decidable (StepFits g s a) :=
  match a with
  | .add _ => inferInstanceAs (Decidable (g.Fits _ _))
  | .advance => inferInstanceAs (Decidable (SumsHold g.num s))
  | .reinsert => inferInstanceAs (Decidable (∀ x ∈ s.phase.inserting, g.Fits _ _))
  | .clock _ | .poll _ | .take | .endFlush => isTrue trivial

instance (g : Geometry) (G : Timer → Act → Prop) [∀ s a, Decidable (G s a)] (s : Timer) (a : Act) :
    Decidable (InRange g G s a) :=
  inferInstanceAs (Decidable (_ ∧ _))

theorem stepFits_of_exact {g : Geometry} (hnum : g.num = .exact) (s : Timer) (a : Act) :
    StepFits g s a := by
  cases a with
  | add e => exact Geometry.fits_of_exact hnum _ _
  | advance =>
    intro k _
    rw [hnum]
    exact Arithmetic.holds_exact _
  | reinsert => exact fun x _ => Geometry.fits_of_exact hnum _ _
  | _ => trivial

theorem inRange_of_exact {g : Geometry} {G : Timer → Act → Prop} (hnum : g.num = .exact) (s : Timer)
    (a : Act) : InRange g G s a ↔ G s a :=
  and_iff_left (stepFits_of_exact hnum s a)

theorem InRange.mono {g : Geometry} {G H : Timer → Act → Prop} (hGH : ∀ s a, G s a → H s a) (s : Timer)
    (a : Act) (h : InRange g G s a) : InRange g H s a := ⟨hGH s a h.1, h.2⟩

theorem Ordered.of_sequential (s : Timer) (a : Act) (h : Sequential s a) : Ordered s a := by
  cases a with
  | add e =>
    intro b hb
    rw [show s.phase = .idle from h] at hb
    cases hb
  | _ => trivial

section

variable {g : Geometry} {ins : Option EntryId} {s s' : Timer} {x : EntryId} {b : Bucket}

/-! ## Changes of the phase and of the clock -/

theorem Good.of_inv (h : Inv g none s) (hp : s.phase.inserting = none) : Good g s := by
  refine ⟨by rw [hp]; exact h, ?_, ?_⟩
  · intro b x b' hph
    rw [hph] at hp
    cases hp
  · intro b x hph
    rw [hph] at hp
    cases hp

theorem Good.inv_none (h : Good g s) (hp : s.phase.inserting = none) : Inv g none s := by
  have h1 := h.inv
  rw [hp] at h1
  exact h1

theorem Good.inv_some (h : Good g s) (hp : s.phase = .reinserting b x) : Inv g (some x) s := by
  have h1 := h.inv
  rw [hp] at h1
  exact h1

theorem Inv.setPhase (h : Inv g ins s) {p : Phase} (ha : p.active = s.phase.active)
    (he : p.entered → s.phase.entered) : Inv g ins { s with phase := p } := by
  have hlive : ∀ b, Live { s with phase := p } b ↔ Live s b := by
    intro b
    unfold Live
    rw [ha]
  constructor
  case clocks => exact ⟨h.clocks.1, h.clocks.2, h.clocks.3, h.clocks.4, h.clocks.5⟩
  case links => exact h.links.congr le_rfl (fun _ => rfl) fun _ => rfl
  case seats => exact h.seats.congr rfl (fun _ _ _ => rfl) fun _ b _ => (hlive b).mpr
  case queued => exact h.queued.congr rfl rfl (fun _ => rfl) rfl hlive
  case working =>
    exact fun b hb => (h.working b (ha.symm.trans hb)).congr rfl rfl rfl rfl le_rfl he
  case owned => exact h.owned.congr rfl rfl rfl rfl rfl

theorem Inv.setNow (h : Inv g ins s) {now : ℤ} (hn : s.now ≤ now) (hh : g.num.Holds now) :
    Inv g ins { s with now := now } := by
  constructor
  case clocks => exact ⟨h.clocks.1, h.clocks.2, h.clocks.3, h.clocks.4.trans hn, hh⟩
  case links => exact h.links.congr le_rfl (fun _ => rfl) fun _ => rfl
  case seats => exact h.seats.congr rfl (fun _ _ _ => rfl) fun _ _ _ hl => hl
  case queued => exact h.queued.congr rfl rfl (fun _ => rfl) rfl (fun _ => Iff.rfl)
  case working => exact fun b hb => (h.working b hb).congr rfl rfl rfl rfl hn id
  case owned => exact h.owned.congr rfl rfl rfl rfl rfl

theorem Inv.setInserting (h : Inv g none s) (hx : x < s.count) (hd : x ∉ s.deleted) :
    Inv g (some x) s where
  clocks := h.clocks
  links := h.links
  seats := h.seats
  queued := h.queued
  working := h.working
  owned :=
    { h.owned with
      linked_or_deleted := fun y hy _ => h.owned.linked_or_deleted y hy (by simp)
      held := by
        intro y hy
        obtain rfl := Option.some.inj hy
        exact ⟨hx, hd⟩ }

/-! ## New entries -/

theorem newEntry_eq (s : Timer) (e : ℤ) : newEntry s e =
    { s with
      count := s.count + 1
      task := Function.update s.task s.count { timerTaskEntry := some s.count }
      entry := Function.update s.entry s.count { expiration := e, timerTask := s.count } } := by
  simp [newEntry, TimerTask.setTimerTaskEntry, setEntry]

theorem newEntry_inv (h : Inv g none s) (e : ℤ) : Inv g (some s.count) (newEntry s e) := by
  rw [newEntry_eq]
  have hfresh := h.owned.fresh s.count (Nat.le_refl _)
  have hdel : s.count ∉ s.deleted := fun hd => absurd (h.owned.unlinked _ hd).1 (Nat.lt_irrefl _)
  have hlist : ∀ y, (Function.update s.entry s.count
      { expiration := e, timerTask := s.count } y).list = (s.entry y).list := by
    intro y
    rw [Function.update_apply]
    split_ifs with hy
    · rw [hy, hfresh]
    · rfl
  have hsame : ∀ y, y ≠ s.count → (Function.update s.entry s.count
      { expiration := e, timerTask := s.count }) y = s.entry y := fun y hy =>
    Function.update_of_ne hy _ _
  constructor
  case clocks => exact ⟨h.clocks.1, h.clocks.2, h.clocks.3, h.clocks.4, h.clocks.5⟩
  case links => exact h.links.congr le_rfl (fun _ => rfl) hlist
  case seats =>
    intro y b hy
    simp only [hlist] at hy
    have hne : y ≠ s.count := by
      rintro rfl
      rw [hfresh] at hy
      cases hy
    obtain ⟨h1, h2, h3⟩ := h.seats y b hy
    refine ⟨?_, ?_, h3⟩
    · simpa only [expiration, hsame y hne] using h1
    · simpa only [expiration, hsame y hne, bucketExpiration] using h2
  case queued => exact h.queued.congr rfl rfl (fun _ => rfl) rfl (fun _ => Iff.rfl)
  case working => exact fun b hb => (h.working b hb).congr rfl rfl rfl rfl le_rfl id
  case owned =>
    constructor
    · intro y hy hne
      have hyc : y ≠ s.count := fun he => hne (by rw [he])
      simp only [hlist]
      exact h.owned.linked_or_deleted y (by have hy' : y < s.count + 1 := hy; omega) (by simp)
    · intro y hy
      simp only [hlist]
      obtain ⟨h1, h2⟩ := h.owned.unlinked y hy
      exact ⟨Nat.lt_succ_of_lt h1, h2⟩
    · intro y hy
      simp only [hlist]
      exact h.owned.fresh y (Nat.le_of_succ_le hy)
    · exact h.owned.nodup
    · intro y hy
      by_cases hyc : y = s.count
      · subst hyc
        simp
      · simp only [Function.update_of_ne hyc]
        exact h.owned.task y (by have hy' : y < s.count + 1 := hy; omega)
    · exact h.owned.handed
    · intro p hp
      have hmem : p.1 ∈ s.deleted := by
        rw [← h.owned.handed]
        exact List.mem_map_of_mem hp
      have hne : p.1 ≠ s.count := fun he => hdel (he ▸ hmem)
      simp only [expiration, hsame p.1 hne]
      exact h.owned.early p hp
    · intro y hy
      obtain rfl := Option.some.inj hy
      exact ⟨Nat.lt_succ_self _, hdel⟩

/-! ## Polling -/

theorem mem_of_mem_eraseIdx {α : Type*} {l : List α} {i : ℕ} {a y : α} (ha : l[i]? = some a)
    (hy : y ∈ l) : y = a ∨ y ∈ l.eraseIdx i := by
  obtain ⟨j, hj, rfl⟩ := List.mem_iff_getElem.mp hy
  by_cases hij : j = i
  · subst hij
    rw [List.getElem?_eq_getElem hj] at ha
    exact .inl (Option.some.inj ha)
  · exact .inr (List.mem_eraseIdx_iff_getElem.mpr ⟨j, hj, hij, rfl⟩)

theorem ne_of_mem_eraseIdx {α β : Type*} {f : α → β} {l : List α} {i : ℕ} {a y : α}
    (hn : (l.map f).Nodup) (ha : l[i]? = some a) (hy : y ∈ l.eraseIdx i) : f y ≠ f a := by
  obtain ⟨j, hj, hij, rfl⟩ := List.mem_eraseIdx_iff_getElem.mp hy
  obtain ⟨hi, rfl⟩ := List.getElem?_eq_some_iff.mp ha
  intro heq
  apply hij
  have hj' : j < (l.map f).length := by simpa using hj
  have hi' : i < (l.map f).length := by simpa using hi
  have hget : (l.map f)[j] = (l.map f)[i] := by simpa using heq
  exact hn.getElem_inj_iff.mp hget

/-- The result of `poll`: nothing is due, or a due entry of least expiration leaves the queue. -/
theorem poll_cases {i : ℕ} {r : Option Bucket × Timer} (h : DelayQueue.poll s i = some r) :
    (r = (none, s) ∧ ∀ q ∈ s.queue, s.now < q.expiration) ∨
      ∃ first, s.queue[i]? = some first ∧ (∀ q ∈ s.queue, first.expiration ≤ q.expiration) ∧
        first.expiration ≤ s.now ∧
        r = (some first.bucket, { s with queue := s.queue.eraseIdx i }) := by
  unfold DelayQueue.poll at h
  split at h
  · split_ifs at h with hnil
    refine .inl ⟨(Option.some.inj h).symm, ?_⟩
    simp [hnil]
  · rename_i first hfirst
    split_ifs at h with hmin hlate
    · refine .inl ⟨(Option.some.inj h).symm, ?_⟩
      intro q hq
      exact Int.lt_of_lt_of_le hlate (hmin q hq)
    · exact .inr ⟨first, hfirst, hmin, Int.not_lt.mp hlate, (Option.some.inj h).symm⟩

theorem polled_inv (h : Inv g none s) {i : ℕ} {first : DelayQueueEntry} (l : Bool)
    (hact : s.phase.active = none) (hfirst : s.queue[i]? = some first)
    (hmin : ∀ q ∈ s.queue, first.expiration ≤ q.expiration) (hdue : first.expiration ≤ s.now) :
    Inv g none (afterPoll l (some first.bucket, { s with queue := s.queue.eraseIdx i })) := by
  have hmem : first ∈ s.queue := List.mem_of_getElem? hfirst
  have hsub : ∀ q ∈ s.queue.eraseIdx i, q ∈ s.queue := fun q hq => List.mem_of_mem_eraseIdx hq
  have hlive : ∀ b, Live (afterPoll l (some first.bucket, { s with
      queue := s.queue.eraseIdx i })) b ↔ Live s b := by
    intro b
    unfold Live
    rw [hact]
    constructor
    · rintro (⟨q, hq, rfl⟩ | hb)
      · exact .inl ⟨q, hsub q hq, rfl⟩
      · exact .inl ⟨first, hmem, Option.some.inj hb⟩
    · rintro (⟨q, hq, rfl⟩ | hb)
      · rcases mem_of_mem_eraseIdx hfirst hq with rfl | hq
        · exact .inr rfl
        · exact .inl ⟨q, hq, rfl⟩
      · cases hb
  constructor
  case clocks => exact ⟨h.clocks.1, h.clocks.2, h.clocks.3, h.clocks.4, h.clocks.5⟩
  case links => exact h.links.congr le_rfl (fun _ => rfl) fun _ => rfl
  case seats => exact h.seats.congr rfl (fun _ _ _ => rfl) fun _ b _ => (hlive b).mpr
  case queued =>
    refine ⟨?_, ?_, ?_⟩
    · intro q hq
      obtain ⟨h1, h2, h3, h4, h5⟩ := h.queued.seat q (hsub q hq)
      exact ⟨h1, h2, h3, h4, h5⟩
    · exact h.queued.nodup.sublist ((List.eraseIdx_sublist _ _).map _)
    · intro b hb hn
      exact h.queued.quiet b hb fun hl => hn ((hlive b).mpr hl)
  case working =>
    intro b hb
    obtain rfl := Option.some.inj hb
    obtain ⟨h1, h2, h3, h4, h5⟩ := h.queued.seat first hmem
    have hT := g.T_pos first.bucket.1
    have hle := down_le hT (x := first.expiration)
    constructor
    case level => exact h1
    case slot =>
      show first.bucket.2 = slot _ _ (bucketExpiration s first.bucket)
      rw [h3, slot_down hT, ← h2]
    case dvd =>
      show _ ∣ bucketExpiration s first.bucket
      rw [h3]
      exact dvd_down
    case ge =>
      show _ ≤ bucketExpiration s first.bucket
      rw [h3]
      exact down_mono hT h4
    case lt =>
      show bucketExpiration s first.bucket < _
      rw [h3]
      exact Int.lt_of_le_of_lt hle h5
    case le_now =>
      show bucketExpiration s first.bucket ≤ _
      rw [h3]
      exact hle.trans hdue
    case first =>
      intro q hq
      show bucketExpiration s first.bucket ≤ _
      rw [h3]
      exact hle.trans (hmin q (hsub q hq))
    case alone => exact fun q hq => ne_of_mem_eraseIdx h.queued.nodup hfirst hq
    case entered => exact fun he => he.elim
  case owned => exact h.owned.congr rfl rfl rfl rfl rfl

/-! ## Advancing the clocks -/

/-- Only the clocks of the wheels may differ. -/
structure Advanced (s s' : Timer) : Prop where
  wheel : ∀ k, s'.wheel k = { s.wheel k with currentTime := (s'.wheel k).currentTime }
  rest : s' = { s with wheel := s'.wheel }

theorem advanceClock_advanced (num : Arithmetic) (rest : ℕ) (s : Timer) (k : ℕ) (t : ℤ) :
    Advanced s (TimingWheel.advanceClock num rest s k t) := by
  induction rest generalizing s k t with
  | zero => exact ⟨fun _ => rfl, rfl⟩
  | succ rest ih =>
    unfold TimingWheel.advanceClock
    dsimp only
    split_ifs with hge
    · obtain ⟨h1, h2⟩ := ih (setWheel s k { s.wheel k with
        currentTime := minus num t (t.tmod (s.wheel k).tickMs) }) (k + 1)
        (minus num t (t.tmod (s.wheel k).tickMs))
      refine ⟨?_, ?_⟩
      · intro m
        rw [h1 m]
        simp only [setWheel, Function.update_apply]
        split_ifs with hm
        · rw [hm]
        · rfl
      · rw [h2]
        rfl
    · exact ⟨fun _ => rfl, rfl⟩

/-- From wheel `k` on the recursion rounds the new time to every tick; where it stops, the
remaining clocks are the rounded ones already. -/
theorem advanceClock_shape (rest : ℕ) {c d t : ℤ} {k : ℕ} (hc : c ≤ d) (ht : 0 ≤ t)
    (hh : g.num.Holds t) (hk : k + rest = s.levels)
    (hsums : ∀ i, k ≤ i → i < s.levels →
      g.num.Holds ((s.wheel i).currentTime + (s.wheel i).tickMs))
    (hlow : ∀ i < k, WheelShape g d i (s.wheel i))
    (hhigh : ∀ i, k ≤ i → i < s.levels → WheelShape g c i (s.wheel i))
    (htime : ∀ i, k ≤ i → down (g.T i) t = down (g.T i) d) :
    ∀ i < s.levels, WheelShape g d i ((TimingWheel.advanceClock g.num rest s k t).wheel i) := by
  induction rest generalizing s k t with
  | zero =>
    intro i hi
    exact hlow i (by omega)
  | succ rest ih =>
    have hw := hhigh k (Nat.le_refl k) (by omega)
    have hnew : minus g.num t (t.tmod (s.wheel k).tickMs) = down (g.T k) t := by
      rw [hw.tickMs, minus_tmod (g.T_pos k) ht hh]
    have hnn := down_nonneg (g.T_pos k) ht
    have hsum : g.num.wrap ((s.wheel k).currentTime + (s.wheel k).tickMs) =
        (s.wheel k).currentTime + (s.wheel k).tickMs := hsums k (Nat.le_refl k) (by omega)
    unfold TimingWheel.advanceClock
    simp only [hnew, hsum]
    split_ifs with hge
    · apply ih (s := setWheel s k { s.wheel k with currentTime := down (g.T k) t })
      · exact hnn
      · exact hh.of_nonneg_of_le hnn (down_le (g.T_pos k))
      · show k + 1 + rest = s.levels
        omega
      · intro i hi hi'
        simp only [setWheel, Function.update_of_ne (show i ≠ k by omega)]
        exact hsums i (by omega) hi'
      · intro i hi
        by_cases hik : i = k
        · subst hik
          simp only [setWheel, Function.update_self]
          exact ⟨⟨hw.tickMs, hw.interval, hw.wheelSize, htime i (Nat.le_refl i)⟩, hw.setFlag⟩
        · simp only [setWheel, Function.update_of_ne hik]
          exact hlow i (by omega)
      · intro i hi hi'
        simp only [setWheel, Function.update_of_ne (show i ≠ k by omega)]
        exact hhigh i (by omega) hi'
      · intro i hi
        rw [down_down (g.T_pos i) (g.T_dvd (by omega)) (g.T_pos k)]
        exact htime i (by omega)
    · have hsame : down (g.T k) d = down (g.T k) c := by
        have h1 := htime k (Nat.le_refl k)
        have h2 := down_le (g.T_pos k) (x := t)
        have h3 := down_mono (g.T_pos k) hc
        rw [hw.currentTime, hw.tickMs] at hge
        rw [← h1]
        exact down_unique (g.T_pos k) dvd_down (by omega) (by omega)
      intro i hi
      by_cases hik : i < k
      · exact hlow i hik
      · obtain ⟨⟨h1, h2, h3, h4⟩, h5⟩ := hhigh i (by omega) hi
        refine ⟨⟨h1, h2, h3, ?_⟩, h5⟩
        have hd := g.T_dvd (Nat.not_lt.mp hik)
        rw [h4, ← down_down (g.T_pos i) hd (g.T_pos k), ← hsame,
          down_down (g.T_pos i) hd (g.T_pos k)]

theorem advance_clock (h : Inv g ins s) (hact : s.phase.active = some b)
    (hsums : SumsHold g.num s) :
    Clocks g (TimingWheel.advanceClock g.num s.levels s 0 (bucketExpiration s b)) ∧
      (clock (TimingWheel.advanceClock g.num s.levels s 0 (bucketExpiration s b)) =
          bucketExpiration s b ∧ clock s ≤ bucketExpiration s b ∨
        clock (TimingWheel.advanceClock g.num s.levels s 0 (bucketExpiration s b)) = clock s ∧
          bucketExpiration s b ≤ clock s) := by
  have hw := h.working b hact
  have hpos := h.clocks.levels_pos
  have h0 := h.clocks.shape 0 hpos
  have hadv := advanceClock_advanced g.num s.levels s 0 (bucketExpiration s b)
  have htickE : g.tick ∣ bucketExpiration s b := (g.tick_dvd_T b.1).trans hw.dvd
  have hnn : 0 ≤ bucketExpiration s b :=
    (down_nonneg (g.T_pos b.1) h.clocks.nonneg).trans hw.ge
  have htick := g.tick_pos
  have hh := h.clocks.now_holds.of_nonneg_of_le hnn hw.le_now
  by_cases hge : clock s + g.tick ≤ bucketExpiration s b
  · have hshape := advanceClock_shape s.levels (s := s) (g := g) (c := clock s)
      (d := bucketExpiration s b) (t := bucketExpiration s b) (k := 0) (by omega) hnn hh
      (Nat.zero_add _) (fun i _ hi => hsums i hi) (fun i hi => absurd hi (Nat.not_lt_zero i))
      (fun i _ hi => h.clocks.shape i hi) (fun _ _ => rfl)
    have hclock : clock (TimingWheel.advanceClock g.num s.levels s 0 (bucketExpiration s b)) =
        bucketExpiration s b := by
      have h1 := (hshape 0 hpos).currentTime
      rw [g.T_zero, down_of_dvd htickE] at h1
      exact h1
    have hlev : (TimingWheel.advanceClock g.num s.levels s 0 (bucketExpiration s b)).levels =
        s.levels := by rw [hadv.rest]
    refine ⟨⟨?_, ?_, ?_, ?_, ?_⟩, .inl ⟨hclock, by omega⟩⟩
    · rw [hlev]
      exact hpos
    · rw [hclock, hlev]
      exact hshape
    · rw [hclock]
      exact hnn
    · rw [hclock, hadv.rest]
      exact hw.le_now
    · rw [hadv.rest]
      exact h.clocks.now_holds
  · have hsame : TimingWheel.advanceClock g.num s.levels s 0 (bucketExpiration s b) = s := by
      obtain ⟨n, hn⟩ : ∃ n, s.levels = n + 1 := ⟨s.levels - 1, by omega⟩
      rw [hn]
      unfold TimingWheel.advanceClock
      have hsum : g.num.wrap ((s.wheel 0).currentTime + (s.wheel 0).tickMs) =
          (s.wheel 0).currentTime + (s.wheel 0).tickMs := hsums 0 hpos
      have hnot : ¬ bucketExpiration s b ≥
          g.num.wrap ((s.wheel 0).currentTime + (s.wheel 0).tickMs) := by
        rw [hsum, h0.tickMs, g.T_zero]
        exact hge
      simp only [if_neg hnot]
    rw [hsame]
    refine ⟨h.clocks, .inr ⟨rfl, ?_⟩⟩
    by_contra hlt
    exact hge (add_le_of_dvd_of_lt h.clocks.tick_dvd htickE (Int.not_le.mp hlt))

theorem advance_inv (h : Inv g none s) {l : Bool} (hph : s.phase = .polled l b)
    (hsums : SumsHold g.num s) :
    Inv g none { TimingWheel.advanceClock g.num s.levels s 0 (bucketExpiration s b) with
      phase := .flushing b } := by
  have hact : s.phase.active = some b := by rw [hph]; rfl
  have hw := h.working b hact
  have hT := g.T_pos b.1
  obtain ⟨hclocks, hclock⟩ := advance_clock h hact hsums
  have hadv := advanceClock_advanced g.num s.levels s 0 (bucketExpiration s b)
  generalize TimingWheel.advanceClock g.num s.levels s 0 (bucketExpiration s b) = u at *
  have hlev : u.levels = s.levels := by rw [hadv.rest]
  have hqueue : u.queue = s.queue := by rw [hadv.rest]
  have hentry : u.entry = s.entry := by rw [hadv.rest]
  have hnow : u.now = s.now := by rw [hadv.rest]
  have hstart : ∀ b', bucketExpiration { u with phase := .flushing b } b' =
      bucketExpiration s b' := by
    intro b'
    show (u.wheel b'.1).expiration b'.2 = _
    rw [hadv.wheel]
    rfl
  have hring : ∀ k, ring { u with phase := .flushing b } k = ring s k := by
    intro k
    show (u.wheel k).root = _
    rw [hadv.wheel]
    rfl
  have hlive : ∀ b', Live { u with phase := .flushing b } b' ↔ Live s b' := by
    intro b'
    unfold Live
    rw [hph]
    show (∃ q ∈ u.queue, q.bucket = b') ∨ some b = some b' ↔ _
    rw [hqueue]
    rfl
  have hge : clock s ≤ clock u := by rcases hclock with ⟨h1, h2⟩ | ⟨h1, h2⟩ <;> omega
  have hle : ∀ q ∈ s.queue, clock u ≤ q.expiration := by
    intro q hq
    have h1 := hw.first q hq
    have h2 := (h.queued.seat q hq).le
    rcases hclock with ⟨h3, h4⟩ | ⟨h3, h4⟩ <;> omega
  constructor
  case clocks => exact ⟨hclocks.1, hclocks.2, hclocks.3, hclocks.4, hclocks.5⟩
  case links =>
    refine h.links.congr hlev.ge hring fun y => ?_
    show (u.entry y).list = _
    rw [hentry]
  case seats => exact h.seats.congr hentry (fun _ b' _ => hstart b') fun _ b' _ => (hlive b').mpr
  case queued =>
    refine ⟨?_, ?_, ?_⟩
    · intro q hq
      have hq' : q ∈ s.queue := hqueue ▸ hq
      obtain ⟨h1, h2, h3, h4, h5⟩ := h.queued.seat q hq'
      refine ⟨hlev ▸ h1, h2, by rw [hstart]; exact h3, hle q hq', ?_⟩
      have hmono := down_mono (g.T_pos q.bucket.1) hge
      show q.expiration < down (g.T q.bucket.1) (clock u) + _
      omega
    · show (u.queue.map _).Nodup
      rw [hqueue]
      exact h.queued.nodup
    · intro b' hb' hn
      rw [hlive] at hn
      rw [hstart]
      exact h.queued.quiet b' (hlev ▸ hb') hn
  case working =>
    intro b' hb'
    obtain rfl := Option.some.inj hb'
    have hent : bucketExpiration s b = down (g.T b.1) (clock u) := by
      rcases hclock with ⟨h1, h2⟩ | ⟨h1, h2⟩
      · rw [h1, down_of_dvd hw.dvd]
      · rw [h1]
        exact Int.le_antisymm (le_down hT hw.dvd h2) hw.ge
    have hpos := g.T_pos (b.1 + 1)
    constructor
    case level => exact hlev ▸ hw.level
    case slot => rw [hstart]; exact hw.slot
    case dvd => rw [hstart]; exact hw.dvd
    case ge => rw [hstart, hent]; exact le_rfl
    case lt =>
      rw [hstart, hent]
      show down _ (clock u) < down _ (clock u) + _
      omega
    case le_now => rw [hstart]; exact hnow ▸ hw.le_now
    case first => rw [hstart]; exact fun q hq => hw.first q (hqueue ▸ hq)
    case alone => exact fun q hq => hw.alone q (hqueue ▸ hq)
    case entered => intro _; rw [hstart]; exact hent
  case owned =>
    rw [hadv.rest]
    exact h.owned.congr rfl rfl rfl rfl rfl

/-! ## The loop of `flush` -/

theorem Inv.lt_count (h : Inv g ins s) (hb : (s.entry x).list = some b) : x < s.count := by
  by_contra hge
  rw [h.owned.fresh x (Nat.not_lt.mp hge)] at hb
  cases hb

theorem Inv.not_deleted (h : Inv g ins s) (hb : (s.entry x).list = some b) : x ∉ s.deleted := by
  intro hd
  rw [(h.owned.unlinked x hd).2] at hb
  cases hb

/-- Taking the head of the ring of the bucket in work: an entry of that bucket is unlinked, an
entry of another bucket stays where it is. -/
theorem takeHead_cases (h : Inv g none s) (hs : takeHead s b = some s') :
    ∃ head tail, ring s b.1 = head :: tail ∧
      (((s.entry head).list = some b ∧ ∃ u, Unlinked s head u ∧
          s' = { u with phase := .reinserting b head }) ∨
        ∃ b', (s.entry head).list = some b' ∧ b'.1 = b.1 ∧ b' ≠ b ∧
          s' = { s with phase := .reinserting b head }) := by
  unfold takeHead at hs
  split at hs
  · cases hs
  · rename_i head tail hroot
    split_ifs at hs
    have hmem : head ∈ ring s b.1 := by
      unfold ring
      rw [hroot]
      exact List.mem_cons_self
    obtain ⟨_, j, hj⟩ := h.links.of_mem b.1 head hmem
    refine ⟨head, tail, hroot, ?_⟩
    by_cases hb : (s.entry head).list = some b
    · exact .inl ⟨hb, _, listRemove_unlinked h.links hb, (Option.some.inj hs).symm⟩
    · refine .inr ⟨(b.1, j), hj, rfl, ?_, ?_⟩
      · intro he
        exact hb (he ▸ hj)
      · unfold TimerTaskList.remove at hs
        rw [if_neg hb] at hs
        exact (Option.some.inj hs).symm

theorem takeOwn_good {u : Timer} (h : Inv g none s) (hph : s.phase = .flushing b)
    (hb : (s.entry x).list = some b) (hu : Unlinked s x u) :
    Good g { u with phase := .reinserting b x } := by
  refine ⟨?_, ?_, ?_⟩
  · apply Inv.setPhase
    · exact hu.inv h (fun y hy => by cases hy) (h.lt_count hb) (h.not_deleted hb)
    · rw [hu.phase, hph]
      rfl
    · rw [hu.phase, hph]
      exact fun _ => trivial
  · intro c y c' hc hy
    cases hc
    simp [hu.list] at hy
  · intro c y hc _
    cases hc
    have hstart := (h.seats x b hb).start
    rw [(h.working b (by rw [hph]; rfl)).entered (by rw [hph]; trivial)] at hstart
    show expiration u x < down (g.T b.1) (clock u) + g.T b.1
    rw [hu.expiration, hu.clock, hstart]
    exact lt_down_add (g.T_pos b.1)

theorem takeOther_good {b' : Bucket} (h : Inv g none s) (hph : s.phase = .flushing b)
    (hb' : (s.entry x).list = some b') (hlev : b'.1 = b.1) (hne : b' ≠ b) :
    Good g { s with phase := .reinserting b x } := by
  refine ⟨?_, ?_, ?_⟩
  · apply Inv.setPhase
    · exact h.setInserting (h.lt_count hb') (h.not_deleted hb')
    · rw [hph]
      rfl
    · rw [hph]
      exact fun _ => trivial
  · intro c y c' hc hy
    cases hc
    have hy' : (s.entry x).list = some c' := hy
    rw [hb'] at hy'
    obtain rfl := Option.some.inj hy'
    exact ⟨hlev, hne⟩
  · intro c y hc hy
    cases hc
    have hy' : (s.entry x).list = none := hy
    rw [hb'] at hy'
    cases hy'

theorem reinsert_good {u : Timer} (h : Good g s) (hph : s.phase = .reinserting b x)
    (hins : Inserted g s x u) : Good g { u with phase := .flushing b } := by
  have hinv := h.inv_some hph
  obtain ⟨hlt, hnd⟩ := hinv.owned.held x rfl
  refine Good.of_inv ?_ rfl
  apply Inv.setPhase
  · apply hins.inv hinv (fun y hy => (Option.some.inj hy).symm) hlt hnd
    · cases hl : (s.entry x).list with
      | none => exact .inr ⟨rfl, rfl⟩
      | some b' =>
        obtain ⟨hlev, hne⟩ := h.other b x b' hph hl
        exact .inl (hinv.other_not_due (by rw [hph]; rfl) (by rw [hph]; trivial) hl hlev hne).2.1
    · intro l c hc
      rw [hph] at hc
      cases hc
  · rw [hins.phase, hph]
    rfl
  · rw [hins.phase, hph]
    exact fun _ => trivial

theorem clearExpiration_eq (hflag : (s.wheel b.1).setFlag = false) :
    clearExpiration s b = setWheel s b.1 { s.wheel b.1 with
      expiration := Function.update (s.wheel b.1).expiration b.2 (-1) } := by
  unfold clearExpiration
  simp [hflag]

theorem clearExpiration_start (hflag : (s.wheel b.1).setFlag = false) (c : Bucket) :
    bucketExpiration (clearExpiration s b) c = if c = b then -1 else bucketExpiration s c := by
  rw [clearExpiration_eq hflag]
  simp only [bucketExpiration, setWheel, Function.update_apply, Prod.ext_iff]
  split_ifs with h1 h2 h3 <;> simp_all

theorem clearExpiration_wheel (hflag : (s.wheel b.1).setFlag = false) (k : ℕ) :
    (clearExpiration s b).wheel k = { s.wheel k with
      expiration := ((clearExpiration s b).wheel k).expiration } := by
  rw [clearExpiration_eq hflag]
  simp only [setWheel, Function.update_apply]
  split_ifs with hk
  · rw [hk]
  · rfl

theorem endFlush_good (hinv : Inv g none s) (hph : s.phase = .flushing b)
    (hnil : (s.wheel b.1).root = []) :
    Good g { clearExpiration s b with phase := .draining } := by
  have hact : s.phase.active = some b := by rw [hph]; rfl
  have hw := hinv.working b hact
  have hshape := hinv.clocks.shape b.1 hw.level
  have hwheel := clearExpiration_wheel hshape.setFlag
  have hstart := clearExpiration_start hshape.setFlag
  have hrest : clearExpiration s b = { s with wheel := (clearExpiration s b).wheel } := by
    rw [clearExpiration_eq hshape.setFlag]
    rfl
  generalize clearExpiration s b = u at *
  have hring : ∀ k, (u.wheel k).root = (s.wheel k).root := by
    intro k
    rw [hwheel]
  have hclock : clock u = clock s := by
    unfold clock
    rw [hwheel]
  have hlive : ∀ c, Live { u with phase := .draining } c ↔ Live s c ∧ c ≠ b := by
    intro c
    unfold Live
    show (∃ q ∈ u.queue, q.bucket = c) ∨ none = some c ↔ _
    rw [hact, hrest]
    constructor
    · rintro (⟨q, hq, rfl⟩ | hc)
      · exact ⟨.inl ⟨q, hq, rfl⟩, hw.alone q hq⟩
      · cases hc
    · rintro ⟨hq | hc, hne⟩
      · exact .inl hq
      · exact absurd (Option.some.inj hc).symm hne
  have hlist : ∀ y c, (s.entry y).list = some c → c ≠ b := by
    rintro y c hy rfl
    have hmem := hinv.links.mem y c hy
    unfold ring at hmem
    rw [hnil] at hmem
    cases hmem
  refine Good.of_inv ?_ rfl
  constructor
  case clocks =>
    refine ⟨?_, ?_, ?_, ?_, ?_⟩
    · rw [hrest]
      exact hinv.clocks.levels_pos
    · intro k hk
      show WheelShape g (clock u) k (u.wheel k)
      rw [hrest] at hk
      obtain ⟨⟨h1, h2, h3, h4⟩, h5⟩ := hinv.clocks.shape k hk
      rw [hclock, hwheel]
      exact ⟨⟨h1, h2, h3, h4⟩, h5⟩
    · show 0 ≤ clock u
      rw [hclock]
      exact hinv.clocks.nonneg
    · show clock u ≤ u.now
      rw [hclock, hrest]
      exact hinv.clocks.le_now
    · show g.num.Holds u.now
      rw [hrest]
      exact hinv.clocks.now_holds
  case links =>
    refine hinv.links.congr ?_ hring fun y => ?_
    · rw [hrest]
    · rw [hrest]
  case seats =>
    refine hinv.seats.congr ?_ (fun y c hy => ?_) fun y c hy hl => (hlive c).mpr ⟨hl, hlist y c hy⟩
    · rw [hrest]
    · show bucketExpiration u c = _
      rw [hstart, if_neg (hlist y c hy)]
  case queued =>
    refine ⟨?_, ?_, ?_⟩
    · intro q hq
      have hq' : q ∈ s.queue := by rw [hrest] at hq; exact hq
      obtain ⟨h1, h2, h3, h4, h5⟩ := hinv.queued.seat q hq'
      refine ⟨by rw [hrest]; exact h1, h2, ?_, ?_, ?_⟩
      · show bucketExpiration u q.bucket = _
        rw [hstart, if_neg (hw.alone q hq')]
        exact h3
      · show clock u ≤ _
        rw [hclock]
        exact h4
      · show _ < down _ (clock u) + _
        rw [hclock]
        exact h5
    · rw [hrest]
      exact hinv.queued.nodup
    · intro c hc hn
      show bucketExpiration u c < 0
      rw [hstart]
      split_ifs with hcb
      · decide
      · apply hinv.queued.quiet c (by rw [hrest] at hc; exact hc)
        exact fun hl => hn ((hlive c).mpr ⟨hl, hcb⟩)
  case working =>
    intro c hc
    cases hc
  case owned =>
    rw [hrest]
    exact hinv.owned.congr rfl rfl rfl rfl rfl

/-! ## Steps and runs -/

theorem new_good (g : Geometry) (startMs : ℕ) (hh : g.num.Holds startMs) :
    Good g (new g.num g.tick g.size startMs) := by
  have hT := g.T_pos 0
  have hnn := Int.natCast_nonneg startMs
  have hc : clock (new g.num g.tick g.size startMs) = down (g.T 0) startMs := by
    rw [g.T_zero] at hT ⊢
    exact minus_tmod hT hnn hh
  refine Good.of_inv ?_ rfl
  constructor
  case clocks =>
    refine ⟨Nat.one_pos, ?_, ?_, ?_, hh⟩
    · intro k hk
      obtain rfl : k = 0 := Nat.lt_one_iff.mp hk
      refine ⟨⟨g.T_zero.symm, ?_, rfl, ?_⟩, rfl⟩
      · rw [g.T_succ, g.T_zero]
        rfl
      · rw [hc, down_down hT (Int.dvd_refl _) hT]
        exact hc
    · rw [hc]
      exact down_nonneg hT hnn
    · rw [hc]
      exact down_le hT
  case links =>
    exact ⟨fun _ _ hx => by simp [ring, new, TimingWheel.new] at hx,
      fun _ _ hx => by simp [new] at hx, fun _ => List.nodup_nil⟩
  case seats => exact fun _ _ hx => by simp [new] at hx
  case queued =>
    refine ⟨fun q hq => by simp [new] at hq, List.nodup_nil, ?_⟩
    intro b _ _
    simp [bucketExpiration, new, TimingWheel.new]
  case working => exact fun b hb => by cases hb
  case owned =>
    exact ⟨fun _ hx => absurd hx (Nat.not_lt_zero _), fun _ hx => by simp [new] at hx,
      fun _ _ => rfl, List.nodup_nil, fun _ hx => absurd hx (Nat.not_lt_zero _), rfl,
      fun _ hx => by simp [new] at hx, fun _ hx => by cases hx⟩

theorem newEntry_expiration (s : Timer) (e : ℤ) : expiration (newEntry s e) s.count = e := by
  rw [newEntry_eq]
  simp [expiration]

theorem add_good {e : ℤ} (h : Inv g none s) (hph : s.phase = .idle ∨ ∃ b, s.phase = .polled false b)
    (hwin : ∀ b, s.phase = .polled false b → bucketExpiration s b ≤ e ∨ e < clock s + g.tick)
    (hins : Inserted g (newEntry s e) s.count s') : Good g s' := by
  have hinv := newEntry_inv h e
  obtain ⟨hlt, hnd⟩ := hinv.owned.held s.count rfl
  have hnone : ((newEntry s e).entry s.count).list = none := by
    rw [newEntry_eq]
    simp
  have hphase : s'.phase = s.phase := by
    rw [hins.phase, newEntry_eq]
  have hgood : Inv g none s' := by
    apply hins.inv hinv (fun y hy => (Option.some.inj hy).symm) hlt hnd (.inr ⟨rfl, hnone⟩)
    intro l b hb
    rw [newEntry_expiration]
    rw [newEntry_eq] at hb ⊢
    cases l with
    | false => exact hwin b hb
    | true =>
      rcases hph with hph | ⟨b', hph⟩ <;> rw [show s.phase = .polled true b from hb] at hph <;>
        cases hph
  apply Good.of_inv hgood
  rw [hphase]
  rcases hph with hph | ⟨b, hph⟩ <;> rw [hph] <;> rfl

inductive Stepped (g : Geometry) (s : Timer) : Act → Timer → Prop
  | clock {now : ℤ} : s.now ≤ now → g.num.Holds now →
      Stepped g s (.clock now) { s with now := now }
  | add {e : ℤ} {s' : Timer} : s.phase = .idle ∨ (∃ b, s.phase = .polled false b) →
      Inserted g (newEntry s e) s.count s' → Stepped g s (.add e) s'
  | pollNone {i : ℕ} : s.phase = .idle ∨ s.phase = .draining →
      (∀ q ∈ s.queue, s.now < q.expiration) → Stepped g s (.poll i) { s with phase := .idle }
  | pollSome {i : ℕ} {l : Bool} {first : DelayQueueEntry} :
      s.phase = .idle ∨ s.phase = .draining → s.queue[i]? = some first →
      (∀ q ∈ s.queue, first.expiration ≤ q.expiration) → first.expiration ≤ s.now →
      Stepped g s (.poll i) (afterPoll l (some first.bucket, { s with
        queue := s.queue.eraseIdx i }))
  | advance {l : Bool} {b : Bucket} : s.phase = .polled l b → SumsHold g.num s →
      Stepped g s .advance { TimingWheel.advanceClock g.num s.levels s 0 (bucketExpiration s b) with
        phase := .flushing b }
  | takeOwn {b : Bucket} {x : EntryId} {u : Timer} : s.phase = .flushing b → x ∈ ring s b.1 →
      (s.entry x).list = some b → Unlinked s x u →
      Stepped g s .take { u with phase := .reinserting b x }
  | takeOther {b b' : Bucket} {x : EntryId} : s.phase = .flushing b → x ∈ ring s b.1 →
      (s.entry x).list = some b' → b'.1 = b.1 → b' ≠ b →
      Stepped g s .take { s with phase := .reinserting b x }
  | reinsert {b : Bucket} {x : EntryId} {u : Timer} : s.phase = .reinserting b x →
      Inserted g s x u → Stepped g s .reinsert { u with phase := .flushing b }
  | endFlush {b : Bucket} : s.phase = .flushing b → (s.wheel b.1).root = [] →
      Stepped g s .endFlush { clearExpiration s b with phase := .draining }

theorem poll_stepped {i : ℕ} {l : Bool} (hph : s.phase = .idle ∨ s.phase = .draining)
    (hs : (DelayQueue.poll s i).map (afterPoll l) = some s') : Stepped g s (.poll i) s' := by
  obtain ⟨r, hr, rfl⟩ := Option.map_eq_some_iff.mp hs
  obtain ⟨rfl, hlate⟩ | ⟨first, hfirst, hmin, hdue, rfl⟩ := poll_cases hr
  · exact .pollNone hph hlate
  · exact .pollSome hph hfirst hmin hdue

theorem newEntry_clock (s : Timer) (e : ℤ) : clock (newEntry s e) = clock s := by
  rw [newEntry_eq]
  rfl

theorem add_stepped (h : Good g s) {e : ℤ}
    (hph : s.phase = .idle ∨ ∃ b, s.phase = .polled false b) (hf : g.Fits (clock s) e)
    (hs : add g.num s e = some s') : Stepped g s (.add e) s' := by
  have hinv : Inv g none s := by
    apply h.inv_none
    rcases hph with hph | ⟨b, hph⟩ <;> rw [hph] <;> rfl
  obtain ⟨u, hu, hins⟩ := addTimerTaskEntry_spec (newEntry_inv hinv e)
    ((newEntry_inv hinv e).owned.held s.count rfl).1
    (by rw [newEntry_clock, newEntry_expiration]; exact hf)
  have heq : u = s' := Option.some.inj (hu.symm.trans hs)
  exact .add hph (heq ▸ hins)

theorem step_stepped (h : Good g s) {a : Act} (hf : StepFits g s a)
    (hs : step g.num s a = some s') : Stepped g s a s' := by
  cases a with
  | clock now =>
    simp only [step] at hs
    split_ifs at hs with hn
    obtain rfl := Option.some.inj hs
    exact .clock hn.1 hn.2
  | add e =>
    simp only [step] at hs
    split_ifs at hs
    split at hs
    · exact add_stepped h (.inl ‹_›) hf hs
    · exact add_stepped h (.inr ⟨_, ‹_›⟩) hf hs
    · cases hs
  | poll i =>
    simp only [step] at hs
    split at hs
    · exact poll_stepped (.inl ‹_›) hs
    · exact poll_stepped (.inr ‹_›) hs
    · cases hs
  | advance =>
    simp only [step] at hs
    split at hs
    · obtain rfl := Option.some.inj hs
      exact .advance ‹_› hf
    · cases hs
  | take =>
    simp only [step] at hs
    split at hs
    · rename_i b hph
      have hinv : Inv g none s := h.inv_none (by rw [hph]; rfl)
      obtain ⟨x, tail, hring, ⟨hb, u, hu, rfl⟩ | ⟨b', hb', hlev, hne, rfl⟩⟩ :=
        takeHead_cases hinv hs
      · exact .takeOwn hph (by rw [hring]; exact List.mem_cons_self) hb hu
      · exact .takeOther hph (by rw [hring]; exact List.mem_cons_self) hb' hlev hne
    · cases hs
  | reinsert =>
    simp only [step] at hs
    split at hs
    · rename_i b x hph
      have hinv := h.inv_some hph
      obtain ⟨u, hu, hins⟩ := addTimerTaskEntry_spec hinv (hinv.owned.held x rfl).1
        (hf x (by rw [hph]; rfl))
      rw [hu] at hs
      obtain rfl := Option.some.inj hs
      exact .reinsert hph hins
    · cases hs
  | endFlush =>
    simp only [step] at hs
    split at hs
    · split_ifs at hs with hnil
      obtain rfl := Option.some.inj hs
      exact .endFlush ‹_› hnil
    · cases hs

theorem Stepped.good {a : Act} (st : Stepped g s a s') (h : Good g s) (ho : Ordered s a) :
    Good g s' := by
  have hnone : ∀ {p : Phase}, s.phase = p → p.inserting = none → Inv g none s := by
    intro p hp hi
    exact h.inv_none (by rw [hp]; exact hi)
  cases st with
  | clock hn hh => exact ⟨h.inv.setNow hn hh, h.other, h.own⟩
  | add hph hins =>
    have hinv : Inv g none s := by
      rcases hph with hph | ⟨b, hph⟩
      · exact hnone hph rfl
      · exact hnone hph rfl
    refine add_good hinv hph ?_ hins
    intro b hb
    have hw := hinv.clocks.shape 0 hinv.clocks.levels_pos
    have hg := ho b (by rw [hb]; rfl)
    rw [hw.tickMs, g.T_zero] at hg
    exact hg
  | pollNone hph _ =>
    refine Good.of_inv ?_ rfl
    rcases hph with hph | hph
    · exact (hnone hph rfl).setPhase (by rw [hph]) (by rw [hph]; exact id)
    · exact (hnone hph rfl).setPhase (by rw [hph]; rfl) (fun hp => hp.elim)
  | pollSome hph hfirst hmin hdue =>
    refine Good.of_inv ?_ rfl
    rcases hph with hph | hph
    · exact polled_inv (hnone hph rfl) _ (by rw [hph]; rfl) hfirst hmin hdue
    · exact polled_inv (hnone hph rfl) _ (by rw [hph]; rfl) hfirst hmin hdue
  | advance hph hsums => exact Good.of_inv (advance_inv (hnone hph rfl) hph hsums) rfl
  | takeOwn hph _ hb hu => exact takeOwn_good (hnone hph rfl) hph hb hu
  | takeOther hph _ hb hlev hne => exact takeOther_good (hnone hph rfl) hph hb hlev hne
  | reinsert hph hins => exact reinsert_good h hph hins
  | endFlush hph hnil => exact endFlush_good (hnone hph rfl) hph hnil

theorem step_good {a : Act} (h : Good g s) (ho : InRange g Ordered s a)
    (hs : step g.num s a = some s') : Good g s' :=
  (step_stepped h ho.2 hs).good h ho.1

theorem reach_good (h : (system g.num g.tick g.size).Reach (InRange g Ordered) s) : Good g s := by
  apply h.invariant
  · rintro s ⟨startMs, hh, rfl⟩
    exact new_good g startMs hh
  · intro s a s' hs ho hstep
    exact step_good hs ho hstep

theorem reach_good_of_sequential
    (h : (system g.num g.tick g.size).Reach (InRange g Sequential) s) : Good g s :=
  reach_good (h.mono (InRange.mono Ordered.of_sequential))

end

end Mutty.Timing
