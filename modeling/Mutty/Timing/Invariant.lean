import Mathlib.Data.List.Nodup
import Mutty.Lib.Grid
import Mutty.Timing.Wheel

/-!
# What holds of a timer between its steps

Wheel `k` has the tick `g.T k`, the first tick times a power of the wheel size, and its clock is
the first wheel's clock rounded down to that tick. A bucket is live when it is queued or is the
one `advanceClock` works on. The invariant is split by what it reads: the clocks (`Clocks`), the
rings (`Links`), where entries sit (`Seats`), the delay queue (`Queued`), the bucket in work
(`Working`) and the ownership of the entries (`Owned`). `Owned` allows one entry that is neither
linked nor handed over, the one being inserted.
-/

namespace Mutty.Timing

open Mutty.Lib

/-- The arithmetic and the constructor arguments of a timer. -/
structure Geometry where
  num : Arithmetic
  tick : ℤ
  size : ℕ
  tick_pos : 1 ≤ tick
  size_two : 2 ≤ size

def unitWheel : Geometry := ⟨.long, 1, 3, by decide, by decide⟩

namespace Geometry

variable (g : Geometry)

def T (k : ℕ) : ℤ := g.tick * g.size ^ k

theorem T_zero : g.T 0 = g.tick := by simp [T]

theorem T_succ (k : ℕ) : g.T (k + 1) = g.T k * g.size := by
  unfold T
  ring

theorem size_pos : 0 < g.size := by
  have h := g.size_two
  omega

theorem T_pos (k : ℕ) : 0 < g.T k := by
  have h1 := g.tick_pos
  have h2 : (0 : ℤ) < g.size := Int.natCast_pos.mpr g.size_pos
  have h3 : (0 : ℤ) < (g.size : ℤ) ^ k := Int.pow_pos h2
  unfold T
  exact Int.mul_pos (by omega) h3

theorem T_dvd_succ (k : ℕ) : g.T k ∣ g.T (k + 1) := ⟨g.size, g.T_succ k⟩

theorem T_dvd {k m : ℕ} (h : k ≤ m) : g.T k ∣ g.T m := by
  induction h with
  | refl => exact Int.dvd_refl _
  | step _ ih => exact ih.trans (g.T_dvd_succ _)

theorem tick_dvd_T (k : ℕ) : g.tick ∣ g.T k := ⟨(g.size : ℤ) ^ k, rfl⟩

theorem two_mul_T_le (k : ℕ) : 2 * g.T k ≤ g.T (k + 1) := by
  have h1 : (2 : ℤ) ≤ g.size := by exact_mod_cast g.size_two
  have h2 := g.T_pos k
  rw [T_succ]
  nlinarith

theorem lt_T (k : ℕ) : (k : ℤ) < g.T k := by
  induction k with
  | zero =>
    have h := g.T_pos 0
    simpa using h
  | succ k ih =>
    have h := g.two_mul_T_le k
    push_cast
    omega

/-- The wheel `m` that takes an entry of expiration `e` when the first clock is `c`. -/
def Lands (c e : ℤ) (m : ℕ) : Prop :=
  (∀ i < m, down (g.T i) c + g.T (i + 1) ≤ e) ∧ e < down (g.T m) c + g.T (m + 1)

/-- The comparisons of `TimingWheel::add` that decide on `e` come out as over the integers: the one
that refuses it, or the one at the wheel that takes it. -/
def Fits (c e : ℤ) : Prop :=
  if e < c + g.tick then e < g.num.wrap (c + g.tick)
  else ∀ m, g.Lands c e m → e < g.num.wrap (down (g.T m) c + g.num.wrap (g.T (m + 1)))

variable {g}

theorem fits_of_exact (hnum : g.num = .exact) (c e : ℤ) : g.Fits c e := by
  unfold Fits
  rw [hnum]
  split_ifs with hdue
  · exact hdue
  · exact fun m hm => hm.2

theorem Fits.of_due {c e : ℤ} (h : g.Fits c e) (he : e < c + g.tick) :
    e < g.num.wrap (c + g.tick) := by
  unfold Fits at h
  rwa [if_pos he] at h

theorem Fits.of_lands {c e : ℤ} {m : ℕ} (h : g.Fits c e) (he : c + g.tick ≤ e)
    (hm : g.Lands c e m) : e < g.num.wrap (down (g.T m) c + g.num.wrap (g.T (m + 1))) := by
  unfold Fits at h
  rw [if_neg (Int.not_lt.mpr he)] at h
  exact h m hm

theorem Lands.unique {c e : ℤ} {m m' : ℕ} (h : g.Lands c e m) (h' : g.Lands c e m') :
    m = m' := by
  rcases Nat.lt_trichotomy m m' with hlt | heq | hlt
  · have h1 := h'.1 m hlt
    have h2 := h.2
    omega
  · exact heq
  · have h1 := h.1 m' hlt
    have h2 := h'.2
    omega

theorem down_succ_le (c : ℤ) (k : ℕ) : down (g.T (k + 1)) c ≤ down (g.T k) c :=
  le_down (g.T_pos k) ((g.T_dvd_succ k).trans dvd_down) (down_le (g.T_pos (k + 1)))

theorem Lands.le_toNat {c e : ℤ} {m : ℕ} (h : g.Lands c e m) : m ≤ (e - c).toNat := by
  cases m with
  | zero => exact Nat.zero_le _
  | succ i =>
    have h1 := h.1 i (Nat.lt_succ_self i)
    have h2 := g.lt_T i
    have h3 := g.two_mul_T_le i
    have h4 := lt_down_add (g.T_pos i) (x := c)
    omega

instance (c e : ℤ) (m : ℕ) : Decidable (g.Lands c e m) :=
  inferInstanceAs (Decidable ((∀ i < m, _) ∧ _))

instance (c e : ℤ) : Decidable (g.Fits c e) :=
  decidable_of_iff (if e < c + g.tick then e < g.num.wrap (c + g.tick)
    else ∀ m < (e - c).toNat + 1, g.Lands c e m →
      e < g.num.wrap (down (g.T m) c + g.num.wrap (g.T (m + 1)))) (by
    unfold Fits
    split_ifs
    · exact Iff.rfl
    · exact ⟨fun h m hm => h m (Nat.lt_succ_of_le hm.le_toNat) hm, fun h m _ hm => h m hm⟩)

theorem Lands.le {c e : ℤ} {m : ℕ} (h : g.Lands c e m) (hc : g.tick ∣ c) (he : c + g.tick ≤ e) :
    down (g.T m) c + g.T m ≤ e := by
  cases m with
  | zero =>
    rw [T_zero, down_of_dvd hc]
    exact he
  | succ i =>
    have h1 := h.1 i (Nat.lt_succ_self i)
    have h2 := g.down_succ_le c i
    omega

end Geometry

theorem minus_tmod {num : Arithmetic} {t x : ℤ} (ht : 0 < t) (hx : 0 ≤ x) (hh : num.Holds x) :
    minus num x (x.tmod t) = down t x := by
  have hnn := down_nonneg ht hx
  have hdown : num.Holds (down t x) := hh.of_nonneg_of_le hnn (down_le ht)
  unfold minus
  rw [sub_tmod_eq_down hx, show num.wrap (down t x) = down t x from hdown]
  exact if_neg (Int.not_lt.mpr hnn)

/-! ## The invariant -/

def clock (s : Timer) : ℤ := (s.wheel 0).currentTime

def ring (s : Timer) (k : ℕ) : List EntryId := (s.wheel k).root

def expiration (s : Timer) (x : EntryId) : ℤ := (s.entry x).expiration

def Phase.active : Phase → Option Bucket
  | .polled _ b => some b
  | .flushing b => some b
  | .reinserting b _ => some b
  | _ => none

/-- The bucket's clock has been taken over by the wheels. -/
def Phase.entered : Phase → Prop
  | .flushing _ => True
  | .reinserting _ _ => True
  | _ => False

def Live (s : Timer) (b : Bucket) : Prop :=
  (∃ q ∈ s.queue, q.bucket = b) ∨ s.phase.active = some b

structure WheelRule (g : Geometry) (c : ℤ) (k : ℕ) (w : TimingWheel) : Prop where
  tickMs : w.tickMs = g.T k
  interval : w.interval = g.num.wrap (g.T (k + 1))
  wheelSize : w.wheelSize = g.size
  currentTime : w.currentTime = down (g.T k) c

structure WheelShape (g : Geometry) (c : ℤ) (k : ℕ) (w : TimingWheel) : Prop
    extends WheelRule g c k w where
  setFlag : w.setFlag = false

/-- What routing an entry relies on, also while other threads hold flags. -/
structure Ruled (g : Geometry) (s : Timer) : Prop where
  levels_pos : 0 < s.levels
  rule : ∀ k < s.levels, WheelRule g (clock s) k (s.wheel k)
  nonneg : 0 ≤ clock s

structure Clocks (g : Geometry) (s : Timer) : Prop where
  levels_pos : 0 < s.levels
  shape : ∀ k < s.levels, WheelShape g (clock s) k (s.wheel k)
  nonneg : 0 ≤ clock s
  le_now : clock s ≤ s.now
  now_holds : g.num.Holds s.now

structure Links (s : Timer) : Prop where
  of_mem : ∀ k x, x ∈ ring s k → k < s.levels ∧ ∃ j, (s.entry x).list = some (k, j)
  mem : ∀ x b, (s.entry x).list = some b → x ∈ ring s b.1
  nodup : ∀ k, (ring s k).Nodup

structure Seat (g : Geometry) (s : Timer) (x : EntryId) (b : Bucket) : Prop where
  slot : b.2 = slot (g.T b.1) g.size (expiration s x)
  start : bucketExpiration s b = down (g.T b.1) (expiration s x)
  live : Live s b

def Seats (g : Geometry) (s : Timer) : Prop :=
  ∀ x b, (s.entry x).list = some b → Seat g s x b

structure QueueSeat (g : Geometry) (s : Timer) (q : DelayQueueEntry) : Prop where
  level : q.bucket.1 < s.levels
  slot : q.bucket.2 = slot (g.T q.bucket.1) g.size q.expiration
  start : bucketExpiration s q.bucket = down (g.T q.bucket.1) q.expiration
  le : clock s ≤ q.expiration
  lt : q.expiration < down (g.T q.bucket.1) (clock s) + g.T (q.bucket.1 + 1)

structure Queued (g : Geometry) (s : Timer) : Prop where
  seat : ∀ q ∈ s.queue, QueueSeat g s q
  nodup : (s.queue.map DelayQueueEntry.bucket).Nodup
  quiet : ∀ b, b.1 < s.levels → ¬ Live s b → bucketExpiration s b < 0

structure Work (g : Geometry) (s : Timer) (b : Bucket) : Prop where
  level : b.1 < s.levels
  slot : b.2 = slot (g.T b.1) g.size (bucketExpiration s b)
  dvd : g.T b.1 ∣ bucketExpiration s b
  ge : down (g.T b.1) (clock s) ≤ bucketExpiration s b
  lt : bucketExpiration s b < down (g.T b.1) (clock s) + g.T (b.1 + 1)
  le_now : bucketExpiration s b ≤ s.now
  first : ∀ q ∈ s.queue, bucketExpiration s b ≤ q.expiration
  alone : ∀ q ∈ s.queue, q.bucket ≠ b
  entered : s.phase.entered → bucketExpiration s b = down (g.T b.1) (clock s)

def Working (g : Geometry) (s : Timer) : Prop := ∀ b, s.phase.active = some b → Work g s b

structure Owned (g : Geometry) (inserting : Option EntryId) (s : Timer) : Prop where
  linked_or_deleted : ∀ x < s.count, some x ≠ inserting →
    (s.entry x).list ≠ none ∨ x ∈ s.deleted
  unlinked : ∀ x ∈ s.deleted, x < s.count ∧ (s.entry x).list = none
  fresh : ∀ x, s.count ≤ x → (s.entry x).list = none
  nodup : s.deleted.Nodup
  task : ∀ x < s.count, (s.entry x).timerTask = x ∧ (s.task x).timerTaskEntry = some x
  handed : s.handed.map Prod.fst = s.deleted
  early : ∀ h ∈ s.handed, expiration s h.1 < h.2 + g.tick
  held : ∀ x, inserting = some x → x < s.count ∧ x ∉ s.deleted

structure Inv (g : Geometry) (inserting : Option EntryId) (s : Timer) : Prop where
  clocks : Clocks g s
  links : Links s
  seats : Seats g s
  queued : Queued g s
  working : Working g s
  owned : Owned g inserting s

def Phase.inserting : Phase → Option EntryId
  | .reinserting _ x => some x
  | _ => none

/-- A head that `remove` left linked sits in another bucket of the wheel in work, one that it
unlinked is of the cell in work. -/
structure Good (g : Geometry) (s : Timer) : Prop where
  inv : Inv g s.phase.inserting s
  other : ∀ b x b', s.phase = .reinserting b x → (s.entry x).list = some b' →
    b'.1 = b.1 ∧ b' ≠ b
  own : ∀ b x, s.phase = .reinserting b x → (s.entry x).list = none →
    expiration s x < down (g.T b.1) (clock s) + g.T b.1

/-! ## First consequences -/

section

variable {g : Geometry} {ins : Option EntryId} {s s' : Timer}

/-- The links read only levels, rings and the buckets of the entries. -/
theorem Links.congr (h : Links s) (hlev : s.levels ≤ s'.levels) (hring : ∀ k, ring s' k = ring s k)
    (hlist : ∀ x, (s'.entry x).list = (s.entry x).list) : Links s' where
  of_mem := by
    intro k x hx
    rw [hring] at hx
    rw [hlist]
    obtain ⟨hk, hj⟩ := h.of_mem k x hx
    exact ⟨hk.trans_le hlev, hj⟩
  mem := by
    intro x b hx
    rw [hlist] at hx
    rw [hring]
    exact h.mem x b hx
  nodup := by
    intro k
    rw [hring]
    exact h.nodup k

theorem Seats.congr (h : Seats g s) (hentry : s'.entry = s.entry)
    (hst : ∀ x b, (s.entry x).list = some b → bucketExpiration s' b = bucketExpiration s b)
    (hlive : ∀ x b, (s.entry x).list = some b → Live s b → Live s' b) : Seats g s' := by
  intro x b hx
  rw [hentry] at hx
  obtain ⟨h1, h2, h3⟩ := h x b hx
  have hexp : expiration s' x = expiration s x := by rw [expiration, hentry, expiration]
  exact ⟨by rw [hexp]; exact h1, by rw [hst x b hx, hexp]; exact h2, hlive x b hx h3⟩

theorem Owned.congr {ins : Option EntryId} (h : Owned g ins s) (hentry : s'.entry = s.entry)
    (hcount : s'.count = s.count) (hdeleted : s'.deleted = s.deleted) (htask : s'.task = s.task)
    (hhanded : s'.handed = s.handed) : Owned g ins s' := by
  obtain ⟨h1, h2, h3, h4, h5, h6, h7, h8⟩ := h
  unfold expiration at h7
  constructor
  · rwa [hcount, hentry, hdeleted]
  · rwa [hcount, hentry, hdeleted]
  · rwa [hcount, hentry]
  · rwa [hdeleted]
  · rwa [hcount, hentry, htask]
  · rwa [hhanded, hdeleted]
  · unfold expiration
    rwa [hentry, hhanded]
  · rwa [hcount, hdeleted]

theorem Queued.congr (h : Queued g s) (hlev : s'.levels = s.levels) (hc : clock s' = clock s)
    (hst : ∀ b, bucketExpiration s' b = bucketExpiration s b) (hq : s'.queue = s.queue)
    (hlive : ∀ b, Live s' b ↔ Live s b) : Queued g s' where
  seat := by
    intro q hmem
    rw [hq] at hmem
    obtain ⟨h1, h2, h3, h4, h5⟩ := h.seat q hmem
    exact ⟨by rw [hlev]; exact h1, h2, by rw [hst]; exact h3, by rw [hc]; exact h4,
      by rw [hc]; exact h5⟩
  nodup := by rw [hq]; exact h.nodup
  quiet := by
    intro b hb hn
    rw [hst]
    exact h.quiet b (hlev ▸ hb) fun hl => hn ((hlive b).mpr hl)

theorem Work.congr {b : Bucket} (h : Work g s b) (hlev : s'.levels = s.levels)
    (hc : clock s' = clock s) (hst : bucketExpiration s' b = bucketExpiration s b)
    (hq : s'.queue = s.queue) (hnow : s.now ≤ s'.now)
    (hent : s'.phase.entered → s.phase.entered) : Work g s' b := by
  obtain ⟨h1, h2, h3, h4, h5, h6, h7, h8, h9⟩ := h
  constructor
  · rwa [hlev]
  · rwa [hst]
  · rwa [hst]
  · rwa [hst, hc]
  · rwa [hst, hc]
  · rw [hst]
    exact h6.trans hnow
  · rwa [hst, hq]
  · rwa [hq]
  · intro hp
    rw [hst, hc]
    exact h9 (hent hp)

theorem Clocks.ruled (h : Clocks g s) : Ruled g s where
  levels_pos := h.levels_pos
  rule := fun k hk => (h.shape k hk).toWheelRule
  nonneg := h.nonneg

theorem Ruled.tick_dvd (h : Ruled g s) : g.tick ∣ clock s := by
  have h0 := (h.rule 0 h.levels_pos).currentTime
  rw [g.T_zero] at h0
  unfold clock at *
  rw [h0]
  exact dvd_down

theorem Clocks.tick_dvd (h : Clocks g s) : g.tick ∣ clock s := h.ruled.tick_dvd

theorem Owned.not_cancelled (h : Owned g ins s) {x : EntryId} (hx : x < s.count) :
    TimerTaskEntry.cancelled s x = false := by
  obtain ⟨h1, h2⟩ := h.task x hx
  simp [TimerTaskEntry.cancelled, h1, h2]

/-- A cell of slot `j` that wheel `k` may take is the one a live bucket `(k, j)` stands for. -/
theorem Inv.start_of_live (h : Inv g ins s) {k : ℕ} {e : ℤ}
    (hge : down (g.T k) (clock s) ≤ e) (hlt : e < down (g.T k) (clock s) + g.T (k + 1))
    (hl : Live s (k, slot (g.T k) g.size e)) :
    bucketExpiration s (k, slot (g.T k) g.size e) = down (g.T k) e := by
  have hT := g.T_pos k
  rw [g.T_succ] at hlt
  rcases hl with ⟨q, hq, hb⟩ | hact
  · have hseat := h.queued.seat q hq
    have h1 := hseat.slot
    have h2 := hseat.start
    have h3 := hseat.le
    have h4 := hseat.lt
    have h5 := down_le hT (x := clock s)
    rw [hb] at h1 h2 h4
    dsimp only at h1 h2 h4
    rw [g.T_succ] at h4
    rw [h2]
    exact down_eq_of_slot hT g.size_pos h1.symm dvd_down (by omega) h4 hge hlt
  · have hw := h.working _ hact
    have h1 := hw.slot
    have h2 := hw.lt
    rw [g.T_succ] at h2
    rw [← down_of_dvd hw.dvd]
    exact down_eq_of_slot hT g.size_pos h1.symm dvd_down hw.ge h2 hge hlt

theorem Inv.live_iff_start (h : Inv g ins s) {k : ℕ} {e : ℤ} (hk : k < s.levels)
    (hge : down (g.T k) (clock s) ≤ e) (hlt : e < down (g.T k) (clock s) + g.T (k + 1)) :
    Live s (k, slot (g.T k) g.size e) ↔
      bucketExpiration s (k, slot (g.T k) g.size e) = down (g.T k) e := by
  constructor
  · exact h.start_of_live hge hlt
  · intro hs
    by_contra hnl
    have hneg := h.queued.quiet _ hk hnl
    have hnn := down_nonneg (g.T_pos k) h.clocks.nonneg
    have hle := le_down (g.T_pos k) dvd_down hge
    omega

theorem Inv.other_not_due (h : Inv g ins s) {b b' : Bucket} {x : EntryId}
    (hact : s.phase.active = some b) (hent : s.phase.entered)
    (hx : (s.entry x).list = some b') (hlev : b'.1 = b.1) (hne : b' ≠ b) :
    down (g.T b.1) (clock s) + g.T b.1 ≤ expiration s x ∧
      clock s + g.tick ≤ expiration s x ∧
      expiration s x < down (g.T b.1) (clock s) + g.T (b.1 + 1) := by
  have hseat := h.seats x b' hx
  have hT := g.T_pos b.1
  have hstart := hseat.start
  rw [hlev] at hstart
  obtain ⟨q, hq, rfl⟩ | hact' := hseat.live
  · have hqs := h.queued.seat q hq
    have hw := h.working b hact
    have hstart' := hqs.start
    have hqlt := hqs.lt
    rw [hlev] at hstart' hqlt
    -- the cell of `x` is at or after the clock, and it is not the cell in work
    have hge : down (g.T b.1) (clock s) ≤ down (g.T b.1) (expiration s x) := by
      rw [← hstart, hstart']
      exact down_mono hT hqs.le
    have hneq : down (g.T b.1) (clock s) ≠ down (g.T b.1) (expiration s x) := by
      intro heq
      apply hne
      have h1 := hseat.slot
      have h2 := hw.slot
      rw [hlev, ← slot_down hT, ← heq] at h1
      rw [hw.entered hent] at h2
      exact Prod.ext hlev (by rw [h1, h2])
    have hstep := add_le_of_dvd_of_lt dvd_down dvd_down (lt_of_le_of_ne hge hneq)
    have hdown := down_le hT (x := expiration s x)
    have hc := lt_down_add hT (x := clock s)
    have htick := add_le_of_dvd_of_lt h.clocks.tick_dvd
      (Int.dvd_add ((g.tick_dvd_T b.1).trans dvd_down) (g.tick_dvd_T b.1)) hc
    refine ⟨by omega, by omega, ?_⟩
    have hup : down (g.T b.1) (expiration s x) + g.T b.1 ≤
        down (g.T b.1) (clock s) + g.T (b.1 + 1) := by
      apply add_le_of_dvd_of_lt dvd_down (Int.dvd_add dvd_down (g.T_dvd_succ b.1))
      rw [← hstart, hstart']
      have hq' := down_le hT (x := q.expiration)
      omega
    have hx' := lt_down_add hT (x := expiration s x)
    omega
  · rw [hact] at hact'
    exact absurd (Option.some.inj hact').symm hne

end

end Mutty.Timing
