import Mutty.Timing.Run

/-!
# Concurrent calls of `Timer::add`

`Timer::add` holds `m_rwMutex` only shared, so any number of threads run it at once and interleave
at their atomic steps: the insertion into the list under the bucket mutex, `test_and_set`, the
exchange of `m_expiration`, `clear`, and the offer to the delay queue. A thread that finds the
flag set returns from `setExpiration` with `false`, as if the expiration had not changed, and never
offers its bucket. The flag is shared by all buckets of a wheel, so the thread that holds it may be
busy with another bucket, and then nobody queues the bucket of the first.

A thread that runs alone makes the same change as `add` (`solo_run`).
-/

namespace Mutty.Timing

open Mutty.Lib

inductive Pc
  | outside
  | routed (x : EntryId) (k : ℕ)
  | inserted (x : EntryId) (b : Bucket) (expiration : ℤ)
  | holding (x : EntryId) (b : Bucket) (expiration : ℤ)
  | written (x : EntryId) (b : Bucket) (changed : Bool)
  | cleared (x : EntryId) (b : Bucket) (changed : Bool)
  deriving DecidableEq, Repr

structure Adders where
  timer : Timer
  thread : ℕ → Pc

inductive AddAct
  | call (i : ℕ) (expiration : ℤ)
  | insert (i : ℕ)
  | testAndSet (i : ℕ)
  | write (i : ℕ)
  | clear (i : ℕ)
  | offer (i : ℕ)
  deriving DecidableEq, Repr

namespace Adders

def goto (st : Adders) (i : ℕ) (s : Timer) (pc : Pc) : Adders :=
  ⟨s, Function.update st.thread i pc⟩

def setFlag (s : Timer) (k : ℕ) (held : Bool) : Timer :=
  setWheel s k { s.wheel k with setFlag := held }

/-- The end of the walk over the wheels: a due task is handed over, and the call returns. -/
def enter (st : Adders) (i : ℕ) (x : EntryId) : Option ℕ × Timer → Adders
  | (none, s) => st.goto i (if TimerTaskEntry.cancelled s x then s else handOver s x) .outside
  | (some k, s) => st.goto i s (.routed x k)

def step (num : Arithmetic) (st : Adders) : AddAct → Option Adders
  | .call i expiration =>
    if num.Holds expiration then
      match st.thread i with
      | .outside =>
        let x := st.timer.count
        (TimingWheel.route num (wheelBound expiration) (newEntry st.timer expiration) 0 x).map
          (st.enter i x)
      | _ => none
    else none
  | .insert i =>
    match st.thread i with
    | .routed x k =>
      let w := st.timer.wheel k
      let virtualId := (st.timer.entry x).expiration.tdiv w.tickMs
      if virtualId.tmod w.wheelSize < 0 then none
      else
        let bucket : Bucket := (k, (virtualId.tmod w.wheelSize).toNat)
        some (st.goto i (TimerTaskList.add st.timer bucket x)
          (.inserted x bucket (num.wrap (w.tickMs * virtualId))))
    | _ => none
  | .testAndSet i =>
    match st.thread i with
    | .inserted x b expiration =>
      if (st.timer.wheel b.1).setFlag then some (st.goto i st.timer .outside)
      else some (st.goto i (setFlag st.timer b.1 true) (.holding x b expiration))
    | _ => none
  | .write i =>
    match st.thread i with
    | .holding x b expiration =>
      let w := st.timer.wheel b.1
      some (st.goto i
        (setWheel st.timer b.1
          { w with expiration := Function.update w.expiration b.2 expiration })
        (.written x b (decide (expiration ≠ w.expiration b.2))))
    | _ => none
  | .clear i =>
    match st.thread i with
    | .written x b changed => some (st.goto i (setFlag st.timer b.1 false) (.cleared x b changed))
    | _ => none
  | .offer i =>
    match st.thread i with
    | .cleared x b changed =>
      some (st.goto i
        (if changed then DelayQueue.offer st.timer b (st.timer.entry x).expiration else st.timer)
        .outside)
    | _ => none

end Adders

/-- Threads enter `Timer::add` at any timer state that whole calls reach. -/
def adders (g : Geometry) : System Adders AddAct where
  init st := (system g.num g.tick g.size).Reach (InRange g Sequential) st.timer ∧
    st.timer.phase = .idle ∧ ∀ i, st.thread i = .outside
  step := Adders.step g.num

/-- No thread meets a flag that another thread holds. -/
def Uncontended (st : Adders) : AddAct → Prop
  | .testAndSet i =>
    match st.thread i with
    | .inserted _ b _ => (st.timer.wheel b.1).setFlag = false
    | _ => True
  | _ => True

/-- The comparisons of the walk over the wheels come out as over the integers. -/
def Adders.InRange (g : Geometry) (G : Adders → AddAct → Prop) (st : Adders) (a : AddAct) : Prop :=
  G st a ∧
    match a with
    | .call _ expiration => g.Fits (clock st.timer) expiration
    | _ => True

def Pending (s : Timer) (b : Bucket) : Prop := ∃ q ∈ s.queue, q.bucket = b

/-- Every task that was not handed over sits in a bucket with an entry in the delay queue. -/
def NotStranded (s : Timer) : Prop :=
  ∀ x < s.count, ¬ x ∈ s.deleted → ∃ b, (s.entry x).list = some b ∧ Pending s b

/-! ## The invariant of the threads -/

/-- The thread has changed the expiration of `b` and has not offered it yet. -/
def Pc.Offering : Pc → Bucket → Prop
  | .written _ b changed, b' => b = b' ∧ changed = true
  | .cleared _ b changed, b' => b = b' ∧ changed = true
  | _, _ => False

/-- The thread has inserted into `b` and may still offer it. -/
def Pc.Caring : Pc → Bucket → Prop
  | .inserted _ b _, b' => b = b'
  | .holding _ b _, b' => b = b'
  | pc, b' => pc.Offering b'

def Pc.Valid (num : Arithmetic) (s : Timer) : Pc → Prop
  | .routed x k =>
    k < s.levels ∧ x < s.count ∧ 0 ≤ expiration s x ∧ num.Holds (expiration s x)
  | .inserted _ b v => b.1 < s.levels ∧ 0 ≤ v
  | .holding _ b v => b.1 < s.levels ∧ 0 ≤ v
  | _ => True

structure Covered (g : Geometry) (st : Adders) : Prop where
  ruled : Ruled g st.timer
  valid : ∀ i, (st.thread i).Valid g.num st.timer
  owner : ∀ x < st.timer.count, x ∈ st.timer.deleted ∨
    (∃ b, (st.timer.entry x).list = some b) ∨ ∃ i k, st.thread i = .routed x k
  listed : ∀ x b, (st.timer.entry x).list = some b →
    Pending st.timer b ∨ ∃ i, (st.thread i).Caring b
  armed : ∀ b, b.1 < st.timer.levels → 0 ≤ bucketExpiration st.timer b →
    Pending st.timer b ∨ ∃ i, (st.thread i).Offering b

section

variable {g : Geometry} {st st' : Adders}

theorem Pc.Offering.caring {pc : Pc} {b : Bucket} (h : pc.Offering b) : pc.Caring b := by
  cases pc <;> first | exact h | exact h.elim

theorem Covered.notStranded (h : Covered g st) (hout : ∀ i, st.thread i = .outside) :
    NotStranded st.timer := by
  intro x hx hd
  rcases h.owner x hx with h1 | ⟨b, hb⟩ | ⟨i, k, hi⟩
  · exact absurd h1 hd
  · refine ⟨b, hb, ?_⟩
    rcases h.listed x b hb with hp | ⟨i, hi⟩
    · exact hp
    · rw [hout i] at hi
      exact hi.elim
  · rw [hout i] at hi
    cases hi

theorem covered_init (h : (adders g).init st) : Covered g st := by
  obtain ⟨hreach, hidle, hout⟩ := h
  have hinv := (reach_good_of_sequential hreach).inv_none (by rw [hidle]; rfl)
  have hlive : ∀ b, Live st.timer b → Pending st.timer b := by
    intro b hb
    rcases hb with hb | hb
    · exact hb
    · rw [hidle] at hb
      cases hb
  constructor
  case ruled => exact hinv.clocks.ruled
  case valid =>
    intro i
    rw [hout i]
    trivial
  case owner =>
    intro x hx
    rcases hinv.owned.linked_or_deleted x hx (by simp) with h1 | h1
    · exact .inr (.inl (Option.ne_none_iff_exists'.mp h1))
    · exact .inl h1
  case listed => exact fun x b hx => .inl (hlive b (hinv.seats x b hx).live)
  case armed =>
    intro b hb hnn
    left
    by_contra hn
    have hneg := hinv.queued.quiet b hb fun hl => hn (hlive b hl)
    omega

/-! ## Every step keeps it -/

theorem exists_update {P : Pc → Prop} {thread : ℕ → Pc} {i : ℕ} {pc : Pc}
    (h : ∃ j, P (thread j)) (hi : P (thread i) → P pc) :
    ∃ j, P (Function.update thread i pc j) := by
  obtain ⟨j, hj⟩ := h
  by_cases hji : j = i
  · subst hji
    exact ⟨j, by rw [Function.update_self]; exact hi hj⟩
  · exact ⟨j, by rw [Function.update_of_ne hji]; exact hj⟩

theorem pending_congr {s s' : Timer} (hqueue : s'.queue = s.queue) (b : Bucket) :
    Pending s' b ↔ Pending s b := by
  unfold Pending
  rw [hqueue]

theorem valid_update {num : Arithmetic} {s : Timer} {thread : ℕ → Pc} {i : ℕ} {pc : Pc}
    (h : ∀ j, (thread j).Valid num s) (hpc : pc.Valid num s) (j : ℕ) :
    (Function.update thread i pc j).Valid num s := by
  rw [Function.update_apply]
  split_ifs
  · exact hpc
  · exact h j

theorem Pc.Valid.mono {num : Arithmetic} {s s' : Timer} {pc : Pc} (h : pc.Valid num s)
    (hlev : s.levels ≤ s'.levels)
    (hcount : s.count ≤ s'.count) (hexp : ∀ x < s.count, expiration s' x = expiration s x) :
    pc.Valid num s' := by
  cases pc with
  | routed x k =>
    exact ⟨Nat.lt_of_lt_of_le h.1 hlev, Nat.lt_of_lt_of_le h.2.1 hcount,
      by rw [hexp x h.2.1]; exact h.2.2⟩
  | inserted _ b v => exact ⟨Nat.lt_of_lt_of_le h.1 hlev, h.2⟩
  | holding _ b v => exact ⟨Nat.lt_of_lt_of_le h.1 hlev, h.2⟩
  | _ => trivial

theorem Ruled.setWheel {s : Timer} (h : Ruled g s) {k : ℕ} {w : TimingWheel}
    (hw : ∀ c, WheelRule g c k (s.wheel k) → WheelRule g c k w)
    (hc : w.currentTime = (s.wheel k).currentTime) : Ruled g (setWheel s k w) := by
  have hclock : clock (Timing.setWheel s k w) = clock s := by
    simp only [clock, Timing.setWheel, Function.update_apply]
    split_ifs with h0
    · rw [hc, h0]
    · rfl
  refine ⟨h.levels_pos, ?_, by rw [hclock]; exact h.nonneg⟩
  intro m hm
  rw [hclock]
  simp only [Timing.setWheel, Function.update_apply]
  split_ifs with hmk
  · subst hmk
    exact hw _ (h.rule m hm)
  · exact h.rule m hm

theorem mul_tdiv_nonneg {e a : ℤ} (he : 0 ≤ e) : 0 ≤ a * e.tdiv a := by
  rcases Int.le_total 0 a with ha | ha
  · exact Int.mul_nonneg ha (Int.tdiv_nonneg he ha)
  · exact Int.mul_nonneg_of_nonpos_of_nonpos ha (Int.tdiv_nonpos_of_nonneg_of_nonpos he ha)

theorem wrap_mul_tdiv {num : Arithmetic} {e : ℤ} (he : 0 ≤ e) (hh : num.Holds e) (a : ℤ) :
    num.wrap (a * e.tdiv a) = a * e.tdiv a :=
  hh.of_nonneg_of_le (mul_tdiv_nonneg he) (Int.mul_tdiv_self_le he)

theorem newEntry_list (s : Timer) (e : ℤ) (y : EntryId) : ((newEntry s e).entry y).list =
    if y = s.count then none else (s.entry y).list := by
  rw [newEntry_eq]
  simp only [Function.update_apply]
  split_ifs <;> rfl

theorem Covered.enter {i : ℕ} {e : ℤ} {s' : Timer} {pc : Pc} (h : Covered g st)
    (hi : st.thread i = .outside) (hpc : pc.Valid g.num s') (hruled : Ruled g s')
    (hlev : st.timer.levels ≤ s'.levels)
    (hwheel : ∀ k < st.timer.levels, s'.wheel k = st.timer.wheel k)
    (hfresh : ∀ k, st.timer.levels ≤ k → k < s'.levels → ∀ j, (s'.wheel k).expiration j < 0)
    (hqueue : s'.queue = st.timer.queue) (hentry : s'.entry = (newEntry st.timer e).entry)
    (hcount : s'.count = st.timer.count + 1) (hdel : ∀ y ∈ st.timer.deleted, y ∈ s'.deleted)
    (hx : st.timer.count ∈ s'.deleted ∨ ∃ k, pc = .routed st.timer.count k) :
    Covered g (st.goto i s' pc) := by
  have hpend := pending_congr hqueue
  constructor
  case ruled => exact hruled
  case valid =>
    apply valid_update
    · intro j
      apply (h.valid j).mono hlev (by show _ ≤ s'.count; omega)
      intro y hy
      show expiration s' y = _
      unfold expiration
      rw [hentry, newEntry_eq]
      simp only [Function.update_of_ne (show y ≠ st.timer.count by rintro rfl; omega)]
    · exact hpc
  case owner =>
    intro y hy
    have hy' : y < st.timer.count + 1 := hcount ▸ hy
    show y ∈ s'.deleted ∨ (∃ b, (s'.entry y).list = some b) ∨ _
    rw [hentry, newEntry_list]
    by_cases hyx : y = st.timer.count
    · subst hyx
      rcases hx with hx | ⟨k, rfl⟩
      · exact .inl hx
      · exact .inr (.inr ⟨i, k, by simp only [Adders.goto, Function.update_self]⟩)
    · rw [if_neg hyx]
      rcases h.owner y (by omega) with h1 | h1 | ⟨j, m, hj⟩
      · exact .inl (hdel y h1)
      · exact .inr (.inl h1)
      · refine .inr (.inr ⟨j, m, ?_⟩)
        have hji : j ≠ i := by
          rintro rfl
          rw [hi] at hj
          cases hj
        exact (Function.update_of_ne hji _ _).trans hj
  case listed =>
    intro y b hy
    have hy' : (s'.entry y).list = some b := hy
    rw [hentry, newEntry_list] at hy'
    split_ifs at hy'
    show Pending s' b ∨ _
    rw [hpend]
    rcases h.listed y b hy' with h1 | h1
    · exact .inl h1
    · refine .inr (exists_update (P := fun pc => pc.Caring b) h1 ?_)
      rw [hi]
      exact fun hc => hc.elim
  case armed =>
    intro b hb hnn
    show Pending s' b ∨ _
    rw [hpend]
    have hnn' : 0 ≤ (s'.wheel b.1).expiration b.2 := hnn
    have hb' : b.1 < st.timer.levels := by
      by_contra hge
      have hneg := hfresh b.1 (Nat.not_lt.mp hge) hb b.2
      omega
    rw [hwheel b.1 hb'] at hnn'
    rcases h.armed b hb' hnn' with h1 | h1
    · exact .inl h1
    · refine .inr (exists_update (P := fun pc => pc.Offering b) h1 ?_)
      rw [hi]
      exact fun hc => hc.elim

theorem newEntry_not_cancelled (s : Timer) (e : ℤ) :
    TimerTaskEntry.cancelled (newEntry s e) s.count = false := by
  rw [newEntry_eq]
  simp [TimerTaskEntry.cancelled]

theorem Covered.call (i : ℕ) (e : ℤ) (h : Covered g st) (hi : st.thread i = .outside)
    (hh : g.num.Holds e) (hf : g.Fits (clock st.timer) e) :
    ∃ st', st.step g.num (.call i e) = some st' ∧ Covered g st' := by
  have hruled : Ruled g (newEntry st.timer e) := by
    rw [newEntry_eq]
    exact ⟨h.ruled.1, h.ruled.2, h.ruled.3⟩
  have hnc := newEntry_not_cancelled st.timer e
  have hexp := newEntry_expiration st.timer e
  have hclock := newEntry_clock st.timer e
  unfold Adders.step
  simp only [hi, if_pos hh]
  by_cases hdue : e < clock st.timer + g.tick
  · unfold wheelBound
    rw [route_due _ hruled hnc (by rw [hexp, hclock]; exact hf.of_due hdue)]
    refine ⟨_, rfl, ?_⟩
    simp only [Adders.enter, hnc, Bool.false_eq_true, if_false]
    refine h.enter (e := e) hi trivial ?_ ?_ ?_ ?_ ?_ rfl ?_ ?_ ?_
    · exact ⟨hruled.1, hruled.2, hruled.3⟩
    · rw [newEntry_eq]
      exact Nat.le_refl _
    · intro k _
      rw [newEntry_eq]
      rfl
    · intro k h1 h2
      rw [newEntry_eq] at h2
      exact absurd h2 (Nat.not_lt.mpr h1)
    · rw [newEntry_eq]
      rfl
    · rw [newEntry_eq]
      rfl
    · intro y hy
      rw [newEntry_eq]
      exact List.mem_append_left _ hy
    · left
      rw [newEntry_eq]
      exact List.mem_append_right _ (List.mem_singleton.mpr rfl)
  · have hnn := h.ruled.nonneg
    have htick := g.tick_pos
    obtain ⟨_, m, u, hgrown, hm, _, hroute⟩ := route_of_fits hruled hnc
      (by rw [hexp, hclock]; omega) (by rw [hexp, hclock]; exact hf)
    rw [hexp] at hroute
    rw [hroute]
    have hlev : (newEntry st.timer e).levels = st.timer.levels := by rw [newEntry_eq]
    have hwheel : (newEntry st.timer e).wheel = st.timer.wheel := by rw [newEntry_eq]
    refine ⟨_, rfl, ?_⟩
    refine h.enter (e := e) hi ⟨hm, ?_, ?_, ?_⟩ (hgrown.ruled hruled) ?_ ?_ ?_ ?_
      hgrown.entry ?_ ?_ (.inr ⟨m, rfl⟩)
    · rw [hgrown.rest, newEntry_eq]
      exact Nat.lt_succ_self _
    · unfold expiration at hexp ⊢
      rw [hgrown.entry, hexp]
      omega
    · unfold expiration at hexp ⊢
      rw [hgrown.entry, hexp]
      exact hh
    · rw [← hlev]
      exact hgrown.levels
    · intro k hk
      rw [hgrown.wheel k (.inl (by rw [hlev]; exact hk)), hwheel]
    · intro k h1 h2
      exact (hgrown.fresh k (by rw [hlev]; exact h1) h2).quiet
    · rw [hgrown.queue, newEntry_eq]
    · rw [hgrown.rest, newEntry_eq]
    · intro y hy
      rw [hgrown.rest, newEntry_eq]
      exact hy

theorem Covered.insert {i : ℕ} {x : EntryId} {k : ℕ} {b : Bucket} {v : ℤ} (h : Covered g st)
    (hi : st.thread i = .routed x k) (hb : b.1 = k) (hv : 0 ≤ v) :
    Covered g (st.goto i (TimerTaskList.add st.timer b x) (.inserted x b v)) := by
  obtain ⟨hr, hlist⟩ := remove_relinked st.timer x
  have hu := relink_relinked (TimerTaskEntry.remove st.timer x) b.1 x
    (((TimerTaskEntry.remove st.timer x).wheel b.1).root ++ [x]) (some b)
  have hl := relink_list (TimerTaskEntry.remove st.timer x) b.1 x
    (((TimerTaskEntry.remove st.timer x).wheel b.1).root ++ [x]) (some b)
  rw [listAdd_eq]
  generalize relink (TimerTaskEntry.remove st.timer x) b.1 x
    (((TimerTaskEntry.remove st.timer x).wheel b.1).root ++ [x]) (some b) = u at *
  have hlev : u.levels = st.timer.levels := hu.levels.trans hr.levels
  have hqueue : u.queue = st.timer.queue := hu.queue.trans hr.queue
  have hk : k < st.timer.levels := by
    have h1 := h.valid i
    rw [hi] at h1
    exact h1.1
  have hpend := pending_congr hqueue
  constructor
  case ruled => exact hu.toFrame.ruled (hr.toFrame.ruled h.ruled)
  case valid =>
    apply valid_update
    · intro j
      apply (h.valid j).mono hlev.ge (hu.count.trans hr.count).ge
      intro y _
      exact (hu.expiration y).trans (hr.expiration y)
    · refine ⟨?_, hv⟩
      show b.1 < u.levels
      rw [hlev, hb]
      exact hk
  case owner =>
    intro y hy
    have hy' : y < st.timer.count := by
      rw [← hr.count, ← hu.count]
      exact hy
    show y ∈ u.deleted ∨ (∃ b, (u.entry y).list = some b) ∨ _
    rw [hu.deleted, hr.deleted, hl]
    by_cases hyx : y = x
    · exact .inr (.inl ⟨b, if_pos hyx⟩)
    · rw [if_neg hyx, hlist, if_neg hyx]
      rcases h.owner y hy' with h1 | h1 | ⟨j, m, hj⟩
      · exact .inl h1
      · exact .inr (.inl h1)
      · refine .inr (.inr ?_)
        have hji : j ≠ i := by
          rintro rfl
          rw [hi] at hj
          cases hj
          exact hyx rfl
        exact ⟨j, m, by simp only [Adders.goto, Function.update_of_ne hji]; exact hj⟩
  case listed =>
    intro y c hy
    show Pending u c ∨ _
    rw [hpend]
    have hy' : (u.entry y).list = some c := hy
    rw [hl] at hy'
    split_ifs at hy' with hyx
    · obtain rfl := Option.some.inj hy'
      refine .inr ⟨i, ?_⟩
      simp only [Adders.goto, Function.update_self]
      rfl
    · rw [hlist, if_neg hyx] at hy'
      rcases h.listed y c hy' with h1 | h1
      · exact .inl h1
      · refine .inr (exists_update (P := fun pc => pc.Caring c) h1 ?_)
        rw [hi]
        exact fun hc => hc.elim
  case armed =>
    intro c hc hnn
    show Pending u c ∨ _
    rw [hpend]
    have hnn' : 0 ≤ bucketExpiration st.timer c := by
      rw [← hr.start, ← hu.start]
      exact hnn
    rcases h.armed c (hlev ▸ hc) hnn' with h1 | h1
    · exact .inl h1
    · refine .inr (exists_update (P := fun pc => pc.Offering c) h1 ?_)
      rw [hi]
      exact fun hc => hc.elim

theorem Covered.setWheel {i : ℕ} {pc : Pc} {k : ℕ} {w : TimingWheel} (h : Covered g st)
    (hw : ∀ c, WheelRule g c k (st.timer.wheel k) → WheelRule g c k w)
    (hc : w.currentTime = (st.timer.wheel k).currentTime)
    (hroute : ∀ x m, st.thread i ≠ .routed x m) (hpc : pc.Valid g.num st.timer)
    (hcare : ∀ b, (st.thread i).Caring b → Pending st.timer b ∨ pc.Caring b ∨
      ∃ j, j ≠ i ∧ (st.thread j).Offering b)
    (hoffer : ∀ b, (st.thread i).Offering b → pc.Offering b)
    (harm : ∀ j, 0 ≤ w.expiration j → 0 ≤ (st.timer.wheel k).expiration j ∨ pc.Offering (k, j)) :
    Covered g (st.goto i (Timing.setWheel st.timer k w) pc) := by
  have hmoved : ∀ b, (∃ j, j ≠ i ∧ (st.thread j).Offering b) →
      ∃ j, (Function.update st.thread i pc j).Caring b := by
    rintro b ⟨j, hji, hj⟩
    exact ⟨j, by rw [Function.update_of_ne hji]; exact hj.caring⟩
  constructor
  case ruled => exact h.ruled.setWheel hw hc
  case valid => exact valid_update h.valid hpc
  case owner =>
    intro y hy
    rcases h.owner y hy with h1 | h1 | ⟨j, m, hj⟩
    · exact .inl h1
    · exact .inr (.inl h1)
    · have hji : j ≠ i := by
        rintro rfl
        exact hroute y m hj
      exact .inr (.inr ⟨j, m, by simp only [Adders.goto, Function.update_of_ne hji]; exact hj⟩)
  case listed =>
    intro y b hy
    rcases h.listed y b hy with h1 | ⟨j, hj⟩
    · exact .inl h1
    · by_cases hji : j = i
      · subst hji
        rcases hcare b hj with h1 | h1 | h1
        · exact .inl h1
        · exact .inr ⟨j, by simp only [Adders.goto, Function.update_self]; exact h1⟩
        · exact .inr (hmoved b h1)
      · exact .inr ⟨j, by simp only [Adders.goto, Function.update_of_ne hji]; exact hj⟩
  case armed =>
    intro b hb hnn
    have hold : 0 ≤ bucketExpiration st.timer b ∨ pc.Offering b := by
      have hnn' : 0 ≤ (Function.update st.timer.wheel k w b.1).expiration b.2 := hnn
      rw [Function.update_apply] at hnn'
      split_ifs at hnn' with hbk
      · rcases harm b.2 hnn' with h1 | h1
        · exact .inl (by unfold bucketExpiration; rw [hbk]; exact h1)
        · exact .inr (by rw [← hbk] at h1; exact h1)
      · exact .inl hnn'
    rcases hold with hold | hold
    · rcases h.armed b hb hold with h1 | h1
      · exact .inl h1
      · exact .inr (exists_update (P := fun pc => pc.Offering b) h1 (hoffer b))
    · exact .inr ⟨i, by simp only [Adders.goto, Function.update_self]; exact hold⟩

theorem Covered.testAndSet {i : ℕ} {x : EntryId} {b : Bucket} {v : ℤ} (h : Covered g st)
    (hi : st.thread i = .inserted x b v) :
    Covered g (st.goto i (Adders.setFlag st.timer b.1 true) (.holding x b v)) := by
  have hv := h.valid i
  rw [hi] at hv
  apply h.setWheel
  · exact fun c hr => ⟨hr.tickMs, hr.interval, hr.wheelSize, hr.currentTime⟩
  · rfl
  · rw [hi]
    simp
  · exact hv
  · intro c hc
    rw [hi] at hc
    exact .inr (.inl hc)
  · intro c hc
    rw [hi] at hc
    exact hc.elim
  · exact fun j hj => .inl hj

/-- When the expiration did not change, the bucket was armed before. -/
theorem Covered.write {i : ℕ} {x : EntryId} {b : Bucket} {v : ℤ} (h : Covered g st)
    (hi : st.thread i = .holding x b v) :
    Covered g (st.goto i
      (Timing.setWheel st.timer b.1 { st.timer.wheel b.1 with
        expiration := Function.update (st.timer.wheel b.1).expiration b.2 v })
      (.written x b (decide (v ≠ (st.timer.wheel b.1).expiration b.2)))) := by
  have hv := h.valid i
  rw [hi] at hv
  apply h.setWheel
  · exact fun c hr => ⟨hr.tickMs, hr.interval, hr.wheelSize, hr.currentTime⟩
  · rfl
  · rw [hi]
    simp
  · trivial
  · intro c hc
    rw [hi] at hc
    obtain rfl : b = c := hc
    by_cases hch : v = (st.timer.wheel b.1).expiration b.2
    · have harmed : 0 ≤ bucketExpiration st.timer b := by
        unfold bucketExpiration
        rw [← hch]
        exact hv.2
      rcases h.armed b hv.1 harmed with h1 | ⟨j, hj⟩
      · exact .inl h1
      · refine .inr (.inr ⟨j, ?_, hj⟩)
        rintro rfl
        rw [hi] at hj
        exact hj.elim
    · exact .inr (.inl ⟨rfl, by simpa using hch⟩)
  · intro c hc
    rw [hi] at hc
    exact hc.elim
  · intro j hj
    by_cases hjb : j = b.2
    · subst hjb
      by_cases hch : v = (st.timer.wheel b.1).expiration b.2
      · left
        rw [← hch]
        exact hv.2
      · exact .inr ⟨rfl, by simpa using hch⟩
    · left
      have hj' : 0 ≤ Function.update (st.timer.wheel b.1).expiration b.2 v j := hj
      rwa [Function.update_of_ne hjb] at hj'

theorem Covered.clear {i : ℕ} {x : EntryId} {b : Bucket} {changed : Bool} (h : Covered g st)
    (hi : st.thread i = .written x b changed) :
    Covered g (st.goto i (Adders.setFlag st.timer b.1 false) (.cleared x b changed)) := by
  apply h.setWheel
  · exact fun c hr => ⟨hr.tickMs, hr.interval, hr.wheelSize, hr.currentTime⟩
  · rfl
  · rw [hi]
    simp
  · trivial
  · intro c hc
    rw [hi] at hc
    exact .inr (.inl hc)
  · intro c hc
    rw [hi] at hc
    exact hc
  · exact fun j hj => .inl hj

theorem Covered.offer {i : ℕ} {x : EntryId} {b : Bucket} {changed : Bool} (h : Covered g st)
    (hi : st.thread i = .cleared x b changed) :
    Covered g (st.goto i (if changed then
      DelayQueue.offer st.timer b (st.timer.entry x).expiration else st.timer) .outside) := by
  generalize hs : (if changed then DelayQueue.offer st.timer b (st.timer.entry x).expiration
    else st.timer) = u
  have hrest : u = { st.timer with queue := u.queue } := by
    rw [← hs]
    split_ifs <;> rfl
  have hmono : ∀ c, Pending st.timer c → Pending u c := by
    rintro c ⟨q, hq, rfl⟩
    refine ⟨q, ?_, rfl⟩
    rw [← hs]
    split_ifs
    · exact List.mem_append_left _ hq
    · exact hq
  have hnew : ∀ c, (st.thread i).Offering c → Pending u c := by
    intro c hc
    rw [hi] at hc
    obtain ⟨rfl, rfl⟩ := hc
    rw [← hs, if_pos rfl]
    exact ⟨_, List.mem_append_right _ (List.mem_singleton.mpr rfl), rfl⟩
  have hcare : ∀ c, (st.thread i).Caring c → (st.thread i).Offering c := by
    intro c hc
    rw [hi] at hc ⊢
    exact hc
  constructor
  case ruled =>
    rw [hrest]
    exact ⟨h.ruled.1, h.ruled.2, h.ruled.3⟩
  case valid =>
    apply valid_update
    · intro j
      rw [hrest]
      exact (h.valid j).mono (Nat.le_refl _) (Nat.le_refl _) fun _ _ => rfl
    · trivial
  case owner =>
    intro y hy
    rw [hrest] at hy ⊢
    rcases h.owner y hy with h1 | h1 | ⟨j, m, hj⟩
    · exact .inl h1
    · exact .inr (.inl h1)
    · have hji : j ≠ i := by
        rintro rfl
        rw [hi] at hj
        cases hj
      exact .inr (.inr ⟨j, m, by simp only [Adders.goto, Function.update_of_ne hji]; exact hj⟩)
  case listed =>
    intro y c hy
    have hy' : (st.timer.entry y).list = some c := by rw [hrest] at hy; exact hy
    rcases h.listed y c hy' with h1 | ⟨j, hj⟩
    · exact .inl (hmono c h1)
    · by_cases hji : j = i
      · subst hji
        exact .inl (hnew c (hcare c hj))
      · exact .inr ⟨j, by simp only [Adders.goto, Function.update_of_ne hji]; exact hj⟩
  case armed =>
    intro c hc hnn
    have hc' : c.1 < st.timer.levels := by rw [hrest] at hc; exact hc
    have hnn' : 0 ≤ bucketExpiration st.timer c := by rw [hrest] at hnn; exact hnn
    rcases h.armed c hc' hnn' with h1 | ⟨j, hj⟩
    · exact .inl (hmono c h1)
    · by_cases hji : j = i
      · subst hji
        exact .inl (hnew c hj)
      · exact .inr ⟨j, by simp only [Adders.goto, Function.update_of_ne hji]; exact hj⟩

theorem Covered.step {a : AddAct} (h : Covered g st) (hu : Adders.InRange g Uncontended st a)
    (hs : st.step g.num a = some st') : Covered g st' := by
  obtain ⟨hu, hf⟩ := hu
  cases a with
  | call i e =>
    have hi : st.thread i = .outside ∧ g.num.Holds e := by
      simp only [Adders.step] at hs
      split_ifs at hs with hh
      split at hs
      · exact ⟨‹_›, hh⟩
      · cases hs
    obtain ⟨u, hu', hc⟩ := h.call i e hi.1 hi.2 hf
    rw [hu'] at hs
    exact Option.some.inj hs ▸ hc
  | insert i =>
    simp only [Adders.step] at hs
    split at hs
    · rename_i x k hi
      split_ifs at hs
      obtain rfl := Option.some.inj hs
      have hv := h.valid i
      rw [hi] at hv
      obtain ⟨_, _, he, hh⟩ := hv
      unfold expiration at he hh
      refine h.insert hi rfl ?_
      rw [wrap_mul_tdiv he hh]
      exact mul_tdiv_nonneg he
    · cases hs
  | testAndSet i =>
    simp only [Adders.step] at hs
    split at hs
    · rename_i x b v hi
      have hflag : (st.timer.wheel b.1).setFlag = false := by
        simpa only [Uncontended, hi] using hu
      simp only [hflag, Bool.false_eq_true, if_false] at hs
      obtain rfl := Option.some.inj hs
      exact h.testAndSet hi
    · cases hs
  | write i =>
    simp only [Adders.step] at hs
    split at hs
    · obtain rfl := Option.some.inj hs
      exact h.write ‹_›
    · cases hs
  | clear i =>
    simp only [Adders.step] at hs
    split at hs
    · obtain rfl := Option.some.inj hs
      exact h.clear ‹_›
    · cases hs
  | offer i =>
    simp only [Adders.step] at hs
    split at hs
    · obtain rfl := Option.some.inj hs
      exact h.offer ‹_›
    · cases hs

/-! ## A thread leaves the others alone -/

def AddAct.actor : AddAct → ℕ
  | .call i _ => i
  | .insert i => i
  | .testAndSet i => i
  | .write i => i
  | .clear i => i
  | .offer i => i

theorem step_thread {num : Arithmetic} {a : AddAct} (hs : st.step num a = some st') {j : ℕ} (hj : j ≠ a.actor) :
    st'.thread j = st.thread j := by
  cases a with
  | call i e =>
    simp only [Adders.step] at hs
    split_ifs at hs
    split at hs
    · obtain ⟨⟨o, s⟩, _, rfl⟩ := Option.map_eq_some_iff.mp hs
      cases o <;> exact Function.update_of_ne hj _ _
    · cases hs
  | insert i =>
    simp only [Adders.step] at hs
    split at hs
    · split_ifs at hs
      obtain rfl := Option.some.inj hs
      exact Function.update_of_ne hj _ _
    · cases hs
  | testAndSet i =>
    simp only [Adders.step] at hs
    split at hs
    · split_ifs at hs <;> obtain rfl := Option.some.inj hs <;> exact Function.update_of_ne hj _ _
    · cases hs
  | _ =>
    simp only [Adders.step] at hs
    split at hs
    · obtain rfl := Option.some.inj hs
      exact Function.update_of_ne hj _ _
    · cases hs

theorem exec_thread {G : Adders → AddAct → Prop} [∀ st a, Decidable (G st a)]
    {as : List AddAct} {j : ℕ} (hs : (adders g).exec G st as = some st') (hj : ∀ a ∈ as, j ≠ a.actor) :
    st'.thread j = st.thread j := by
  induction as generalizing st with
  | nil =>
    obtain rfl := Option.some.inj hs
    rfl
  | cons a as ih =>
    simp only [System.exec] at hs
    split_ifs at hs
    obtain ⟨u, hu, hrest⟩ := Option.bind_eq_some_iff.mp hs
    rw [ih hrest fun b hb => hj b (List.mem_cons_of_mem a hb)]
    exact step_thread hu (hj a List.mem_cons_self)

theorem reach_covered (h : (adders g).Reach (Adders.InRange g Uncontended) st) : Covered g st := by
  refine h.invariant (I := Covered g) ?_ ?_
  · exact fun st hi => covered_init hi
  · exact fun st a st' hc hu hs => hc.step hu hs

/-! ## A thread alone -/

def outsideAll (s : Timer) : Adders := ⟨s, fun _ => .outside⟩

theorem setWheel_entry (s : Timer) (k : ℕ) (w : TimingWheel) :
    (Timing.setWheel s k w).entry = s.entry := rfl

theorem setFlag_write_clear {s : Timer} {k : ℕ} (hflag : (s.wheel k).setFlag = false)
    (f : ℕ → ℤ) :
    Adders.setFlag (Timing.setWheel (Adders.setFlag s k true) k
      { (Adders.setFlag s k true).wheel k with expiration := f }) k false =
    Timing.setWheel s k { s.wheel k with expiration := f } := by
  simp only [Adders.setFlag, Timing.setWheel, Function.update_self, Function.update_idem, hflag]

theorem solo_place {s : Timer} {x : EntryId} {k : ℕ} (hflag : (s.wheel k).setFlag = false) :
    (adders g).exec System.Free ((outsideAll s).goto 0 s (.routed x k))
        [.insert 0, .testAndSet 0, .write 0, .clear 0, .offer 0] =
      (TimingWheel.place g.num s k x).map outsideAll := by
  have hadd : ∀ b, ((TimerTaskList.add s b x).wheel k).setFlag = false := by
    intro b
    rw [listAdd_eq, (relink_relinked _ b.1 x _ (some b)).flag, (remove_relinked s x).1.flag]
    exact hflag
  have hexp : ∀ b, ((TimerTaskList.add s b x).entry x).expiration = (s.entry x).expiration := by
    intro b
    rw [listAdd_eq]
    exact ((relink_relinked _ b.1 x _ (some b)).expiration x).trans
      ((remove_relinked s x).1.expiration x)
  have hheld : ∀ u : Timer, ((Adders.setFlag u k true).wheel k).expiration =
      (u.wheel k).expiration := by
    intro u
    simp [Adders.setFlag, Timing.setWheel]
  by_cases hneg :
      ((s.entry x).expiration.tdiv (s.wheel k).tickMs).tmod (s.wheel k).wheelSize < 0
  · simp only [System.exec, System.Free, if_true, adders, Adders.step, Adders.goto, outsideAll,
      Function.update_self, TimingWheel.place, if_pos hneg, Option.bind_none, Option.map_none]
  simp only [System.exec, System.Free, if_true, adders, Adders.step, Adders.goto, outsideAll,
    Function.update_self, Option.bind_some, hadd, Bool.false_eq_true, if_false, if_neg hneg,
    setFlag_write_clear (hadd _), hheld, Function.update_idem, TimingWheel.place,
    TimerTaskList.setExpiration, Option.map_some]
  refine congrArg some ?_
  rw [Adders.mk.injEq]
  refine ⟨?_, Function.update_eq_self 0 _⟩
  simp only [setWheel_entry, hexp]

theorem solo_run {s : Timer} (h : Inv g none s) {e : ℤ} (hh : g.num.Holds e)
    (hf : g.Fits (clock s) e) :
    ∃ s' as, add g.num s e = some s' ∧ (∀ a ∈ as, AddAct.actor a = 0) ∧
      (adders g).exec System.Free (outsideAll s) as = some (outsideAll s') := by
  have hinv := newEntry_inv h e
  have hnc := newEntry_not_cancelled s e
  have hexp := newEntry_expiration s e
  have hf' : g.Fits (clock (newEntry s e)) (expiration (newEntry s e) s.count) := by
    rw [newEntry_clock, hexp]
    exact hf
  by_cases hdue : expiration (newEntry s e) s.count < clock (newEntry s e) + g.tick
  · have hroute := route_due (e.toNat + 18446744073709551615) hinv.clocks.ruled hnc
      (hf'.of_due hdue)
    refine ⟨handOver (newEntry s e) s.count, [.call 0 e], ?_, by simp [AddAct.actor], ?_⟩
    · unfold expiration at hexp
      unfold add addTimerTaskEntry wheelBound
      rw [TimingWheel.add_eq_route, hexp, hroute]
      simp [TimingWheel.finish, hnc, handOver]
    · simp only [System.exec, System.Free, if_true, adders, Adders.step, outsideAll, if_pos hh,
        wheelBound, hroute, Option.map_some, Adders.enter, hnc,
        Bool.false_eq_true, if_false, Adders.goto, Option.bind_some]
      refine congrArg some ?_
      rw [Adders.mk.injEq]
      exact ⟨rfl, Function.update_eq_self 0 _⟩
  · obtain ⟨_, m, u, hgrown, hm, _, hroute⟩ := route_of_fits hinv.clocks.ruled hnc
      (Int.not_lt.mp hdue) hf'
    rw [hexp] at hroute
    have hflag := ((hgrown.inv hinv).clocks.shape m hm).setFlag
    obtain ⟨s', hs', _⟩ := addTimerTaskEntry_spec hinv (hinv.owned.held s.count rfl).1 hf'
    have hplace : TimingWheel.place g.num u m s.count = some s' := by
      unfold expiration at hexp
      unfold addTimerTaskEntry at hs'
      rw [TimingWheel.add_eq_route, hexp, hroute] at hs'
      simpa [TimingWheel.finish] using hs'
    refine ⟨s', [.call 0 e, .insert 0, .testAndSet 0, .write 0, .clear 0, .offer 0], hs',
      by simp [AddAct.actor], ?_⟩
    have hcall : (outsideAll s).step g.num (.call 0 e) =
        some ((outsideAll u).goto 0 u (.routed s.count m)) := by
      simp only [Adders.step, outsideAll, if_pos hh, hroute, Option.map_some, Adders.enter,
        Adders.goto]
    have hrest := solo_place (g := g) (x := s.count) hflag
    rw [hplace] at hrest
    rw [System.exec, if_pos (show System.Free _ _ from trivial)]
    show ((outsideAll s).step g.num (.call 0 e)).bind _ = _
    rw [hcall]
    exact hrest

end

/-! ## Main result -/

instance (st : Adders) (a : AddAct) : Decidable (Uncontended st a) :=
  match a with
  | .testAndSet i =>
    match h : st.thread i with
    | .inserted _ b _ => decidable_of_iff ((st.timer.wheel b.1).setFlag = false)
        (by simp only [Uncontended, h])
    | .outside | .routed _ _ | .holding _ _ _ | .written _ _ _ | .cleared _ _ _ =>
      isTrue (by simp only [Uncontended, h])
  | .call _ _ | .insert _ | .write _ | .clear _ | .offer _ => isTrue trivial

instance (g : Geometry) (G : Adders → AddAct → Prop) [∀ st a, Decidable (G st a)] (st : Adders)
    (a : AddAct) : Decidable (Adders.InRange g G st a) :=
  match a with
  | .call _ _ => inferInstanceAs (Decidable (_ ∧ g.Fits _ _))
  | .insert _ | .testAndSet _ | .write _ | .clear _ | .offer _ =>
    inferInstanceAs (Decidable (_ ∧ True))

theorem not_stranded_of_uncontended (g : Geometry) (st : Adders)
    (h : (adders g).Reach (Adders.InRange g Uncontended) st) (hout : ∀ i, st.thread i = .outside) :
    NotStranded st.timer :=
  (reach_covered h).notStranded hout

theorem outsideAll_init (g : Geometry) (startMs : ℕ) (hh : g.num.Holds startMs) :
    (adders g).init (outsideAll (new g.num g.tick g.size startMs)) :=
  ⟨.init ⟨startMs, hh, rfl⟩, rfl, fun _ => rfl⟩

theorem outside_of_two {g : Geometry} {G : Adders → AddAct → Prop} [∀ st a, Decidable (G st a)]
    {s : Timer} {st : Adders} {as : List AddAct}
    (hs : (adders g).exec G (outsideAll s) as = some st)
    (hact : ∀ a ∈ as, a.actor < 2) (h0 : st.thread 0 = .outside) (h1 : st.thread 1 = .outside)
    (i : ℕ) : st.thread i = .outside := by
  match i with
  | 0 => exact h0
  | 1 => exact h1
  | i + 2 =>
    have hj : ∀ a ∈ as, i + 2 ≠ a.actor := by
      intro a ha
      have hlt := hact a ha
      omega
    exact exec_thread hs hj

theorem not_stranded_in_turn :
    ∃ st, (adders unitWheel).exec (Adders.InRange unitWheel Uncontended)
        (outsideAll (new .long 1 3 0))
        [.call 0 1, .call 1 2, .insert 0, .insert 1, .testAndSet 0, .write 0, .clear 0,
          .testAndSet 1, .offer 0, .write 1, .clear 1, .offer 1] = some st ∧
      (∀ i, st.thread i = .outside) ∧ NotStranded st.timer := by
  obtain ⟨st, hs, hreach, hp⟩ := System.exists_reach (M := adders unitWheel)
    (G := Adders.InRange unitWheel Uncontended)
    [.call 0 1, .call 1 2, .insert 0, .insert 1, .testAndSet 0, .write 0, .clear 0,
      .testAndSet 1, .offer 0, .write 1, .clear 1, .offer 1]
    (fun st => st.thread 0 = .outside ∧ st.thread 1 = .outside) (outsideAll_init unitWheel 0 rfl)
    (by decide)
  obtain ⟨h0, h1⟩ := of_decide_eq_true hp
  have hout := outside_of_two hs (by decide) h0 h1
  exact ⟨st, hs, hout, not_stranded_of_uncontended unitWheel st hreach hout⟩

/-- Thread 1 meets the flag that thread 0 holds for another bucket, and returns. -/
theorem stranded_by_held_flag :
    ∃ st, (adders unitWheel).exec System.Free (outsideAll (new .long 1 3 0))
        [.call 0 1, .call 1 2, .insert 0, .insert 1, .testAndSet 0, .testAndSet 1, .write 0,
          .clear 0, .offer 0] = some st ∧
      (adders unitWheel).Reach System.Free st ∧ (∀ i, st.thread i = .outside) ∧
      ¬ NotStranded st.timer := by
  obtain ⟨st, hs, hreach, hp⟩ := System.exists_reach (M := adders unitWheel) (G := System.Free)
    [.call 0 1, .call 1 2, .insert 0, .insert 1, .testAndSet 0, .testAndSet 1, .write 0,
      .clear 0, .offer 0]
    (fun st => st.thread 0 = .outside ∧ st.thread 1 = .outside ∧ 1 < st.timer.count ∧
      st.timer.deleted = [] ∧ (st.timer.entry 1).list = some (0, 2) ∧
      st.timer.queue = [⟨1, (0, 1)⟩]) (outsideAll_init unitWheel 0 rfl) (by decide)
  obtain ⟨h0, h1, hcount, hdel, hlist, hqueue⟩ := of_decide_eq_true hp
  refine ⟨st, hs, hreach, outside_of_two hs (by decide) h0 h1, ?_⟩
  intro hns
  obtain ⟨b, hb, q, hq, hqb⟩ := hns 1 hcount (by rw [hdel]; simp)
  rw [hqueue] at hq
  rw [hlist] at hb
  obtain rfl := List.mem_singleton.mp hq
  rw [← Option.some.inj hb] at hqb
  cases hqb

end Mutty.Timing
