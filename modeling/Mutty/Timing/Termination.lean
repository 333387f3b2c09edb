import Mathlib.Data.List.MinMax
import Mathlib.Algebra.BigOperators.Group.Finset.Basic
import Mathlib.Algebra.Order.BigOperators.Group.Finset
import Mathlib.Data.Prod.Lex
import Mathlib.Logic.Relation
import Mutty.Timing.Bounded

/-!
# When a call of `advanceClock` returns

`flush` walks the ring of the whole wheel until it is empty, and what it takes from the ring it
inserts again. An entry that lands on the same wheel goes back to the end of the same ring, so
the loop ends exactly when no linked entry of the wheel lands there: on the first wheel all of
them must be due, on a higher wheel all of them must fit into the wheel below. `Settles` states
this before the flush, and `terminates_iff_settles` shows that a call whose comparisons come out as
over the integers returns if and only if every state it runs through settles.
-/

namespace Mutty.Timing

open Mutty.Lib

/-- The steps that `advanceClock` makes itself. -/
def Act.internal : Act → Prop
  | .clock _ => False
  | .add _ => False
  | _ => True

/-- One step of a running call, which reads the clock at some later time. -/
inductive CallStep (num : Arithmetic) (s s' : Timer) : Prop
  | mk (now : ℤ) (a : Act) : s.phase ≠ .idle → s.now ≤ now → num.Holds now → a.internal →
      step num { s with now := now } a = some s' → CallStep num s s'

def CallRun (num : Arithmetic) : Timer → Timer → Prop := Relation.ReflTransGen (CallStep num)

/-- Every way to continue the call makes it return. -/
inductive Terminates (num : Arithmetic) : Timer → Prop
  | returned {s : Timer} : s.phase = .idle → Terminates num s
  | running {s : Timer} : (∃ s', CallStep num s s') → (∀ s', CallStep num s s' → Terminates num s') →
      Terminates num s

/-- The comparisons of the call's next step come out as over the integers. -/
def CallFits (g : Geometry) (s : Timer) : Prop :=
  match s.phase with
  | .polled _ _ => SumsHold g.num s
  | .reinserting _ x => g.Fits (clock s) (expiration s x)
  | _ => True

/-- Entries below this time are due, or fit into the wheel below wheel `k`, at clock `c`. -/
def Geometry.low (g : Geometry) (c : ℤ) : ℕ → ℤ
  | 0 => c + g.tick
  | k + 1 => down (g.T k) c + g.T (k + 1)

/-- No entry in the ring of the wheel in work lands on that wheel again. -/
def Settles (g : Geometry) (s : Timer) : Prop :=
  ∀ b, s.phase.active = some b → ∀ x ∈ ring s b.1,
    (s.entry x).expiration < g.low (max (clock s) (bucketExpiration s b)) b.1

section

variable {g : Geometry} {s s' : Timer} {x : EntryId} {b : Bucket}

/-! ## Where entries land -/

theorem down_add_T_mono (c : ℤ) {i k : ℕ} (h : i ≤ k) :
    down (g.T i) c + g.T (i + 1) ≤ down (g.T k) c + g.T (k + 1) := by
  induction h with
  | refl => exact le_rfl
  | @step m _ ih =>
    have h1 := down_le (g.T_pos m) (x := c)
    have h2 := lt_down_add (g.T_pos (m + 1)) (x := c)
    have h3 := g.two_mul_T_le (m + 1)
    simp only [Nat.succ_eq_add_one]
    omega

theorem lands_lt_of_lt_low {c e : ℤ} {m k : ℕ} (h : g.Lands c e m) (hdue : c + g.tick ≤ e)
    (he : e < g.low c k) : m < k := by
  cases k with
  | zero =>
    simp only [Geometry.low] at he
    omega
  | succ k =>
    by_contra hge
    have h1 := h.1 k (by omega)
    simp only [Geometry.low] at he
    omega

theorem lands_of_low_le {c e : ℤ} {k : ℕ} (hlow : g.low c k ≤ e)
    (hlt : e < down (g.T k) c + g.T (k + 1)) : g.Lands c e k := by
  refine ⟨?_, hlt⟩
  intro i hi
  obtain ⟨k, rfl⟩ : ∃ n, k = n + 1 := ⟨k - 1, by omega⟩
  have h1 := down_add_T_mono (g := g) c (Nat.le_of_lt_succ hi)
  simp only [Geometry.low] at hlow
  omega

theorem cell_lt_low (c : ℤ) (hc : g.tick ∣ c) (k : ℕ) :
    down (g.T k) c + g.T k ≤ g.low c k := by
  cases k with
  | zero =>
    simp only [Geometry.low]
    rw [g.T_zero, down_of_dvd hc]
  | succ k =>
    have h1 := g.down_succ_le c k
    simp only [Geometry.low]
    omega

theorem max_clock_of_entered {ins : Option EntryId} (h : Inv g ins s)
    (hact : s.phase.active = some b) (hent : s.phase.entered) :
    max (clock s) (bucketExpiration s b) = clock s := by
  rw [(h.working b hact).entered hent]
  exact max_eq_left (down_le (g.T_pos b.1))

/-! ## Progress -/

theorem exists_top (l : List DelayQueueEntry) (hl : l ≠ []) :
    ∃ (i : ℕ) (first : DelayQueueEntry), l[i]? = some first ∧ ∀ q ∈ l, first.expiration ≤ q.expiration := by
  obtain ⟨first, hfirst⟩ : ∃ a, List.argmin DelayQueueEntry.expiration l = some a := by
    apply Option.ne_none_iff_exists'.mp
    intro hnone
    exact hl (List.argmin_eq_none.mp hnone)
  obtain ⟨i, hi, hget⟩ := List.mem_iff_getElem.mp (List.argmin_mem hfirst)
  refine ⟨i, first, by rw [List.getElem?_eq_getElem hi, hget], ?_⟩
  intro q hq
  exact List.le_of_mem_argmin hq hfirst

theorem exists_poll (s : Timer) : ∃ i r, DelayQueue.poll s i = some r := by
  by_cases hnil : s.queue = []
  · exact ⟨0, (none, s), by simp [DelayQueue.poll, hnil]⟩
  · obtain ⟨i, first, hfirst, hmin⟩ := exists_top s.queue hnil
    unfold DelayQueue.poll
    refine ⟨i, ?_⟩
    rw [hfirst]
    simp only [if_pos hmin]
    split_ifs <;> exact ⟨_, rfl⟩

theorem exists_callStep (h : Good g s) (hf : CallFits g s) (hrun : s.phase ≠ .idle) :
    ∃ s', CallStep g.num s s' := by
  have hstep : ∀ a : Act, a.internal → (step g.num s a).isSome → ∃ s', CallStep g.num s s' := by
    intro a ha hs
    obtain ⟨s', hs'⟩ := Option.isSome_iff_exists.mp hs
    exact ⟨s', .mk s.now a hrun le_rfl h.inv.clocks.now_holds ha hs'⟩
  cases hph : s.phase with
  | idle => exact absurd hph hrun
  | polled l b => exact hstep .advance trivial (by simp [step, hph])
  | flushing b =>
    cases hroot : (s.wheel b.1).root with
    | nil => exact hstep .endFlush trivial (by simp [step, hph, hroot])
    | cons head tail =>
      apply hstep .take trivial
      have hinv := h.inv_none (by rw [hph]; rfl)
      obtain ⟨_, j, hj⟩ := hinv.links.of_mem b.1 head
        (by unfold ring; rw [hroot]; exact List.mem_cons_self)
      have hnd := hinv.not_deleted hj
      simp [step, hph, takeHead, hroot, hnd]
  | reinserting b x =>
    apply hstep .reinsert trivial
    have hinv := h.inv_some hph
    unfold CallFits at hf
    rw [hph] at hf
    obtain ⟨u, hu, _⟩ := addTimerTaskEntry_spec hinv (hinv.owned.held x rfl).1 hf
    simp [step, hph, hu]
  | draining =>
    obtain ⟨i, r, hr⟩ := exists_poll s
    exact hstep (.poll i) trivial (by simp [step, hph, hr])

/-! ## Steps of a call -/

theorem CallFits.stepFits (hf : CallFits g s) {a : Act} (ha : a.internal)
    (hs : (step g.num s a).isSome) : StepFits g s a := by
  unfold CallFits at hf
  cases a with
  | add e => exact ha.elim
  | advance =>
    cases hph : s.phase with
    | polled l b =>
      rw [hph] at hf
      exact hf
    | _ => simp [step, hph] at hs
  | reinsert =>
    cases hph : s.phase with
    | reinserting b x =>
      rw [hph] at hf
      intro y hy
      rw [hph] at hy
      obtain rfl := Option.some.inj hy
      exact hf
    | _ => simp [step, hph] at hs
  | _ => trivial

theorem CallStep.stepped (c : CallStep g.num s s') (h : Good g s) (hf : CallFits g s) :
    ∃ now a, s.now ≤ now ∧ a.internal ∧ Good g { s with now := now } ∧
      Stepped g { s with now := now } a s' := by
  obtain ⟨now, a, _, hnow, hh, ha, hs⟩ := c
  have hg : Good g { s with now := now } := ⟨h.inv.setNow hnow hh, h.other, h.own⟩
  have hfits : StepFits g { s with now := now } a :=
    CallFits.stepFits (s := { s with now := now }) hf ha (by rw [hs]; rfl)
  exact ⟨now, a, hnow, ha, hg, step_stepped hg hfits hs⟩

theorem ordered_of_internal {a : Act} (ha : a.internal) : Ordered s a := by
  cases a with
  | add e => exact ha.elim
  | _ => trivial

theorem CallStep.good (c : CallStep g.num s s') (h : Good g s) (hf : CallFits g s) : Good g s' := by
  obtain ⟨now, a, _, ha, hg, st⟩ := c.stepped h hf
  exact st.good hg (ordered_of_internal ha)

theorem Terminates.step {num : Arithmetic} (ht : Terminates num s) (c : CallStep num s s') :
    Terminates num s' := by
  cases ht with
  | returned hidle =>
    obtain ⟨_, _, hrun, _⟩ := c
    exact absurd hidle hrun
  | running _ hall => exact hall s' c

theorem Terminates.run {num : Arithmetic} (ht : Terminates num s) (c : CallRun num s s') :
    Terminates num s' := by
  induction c with
  | refl => exact ht
  | tail _ c ih => exact ih.step c

theorem good_of_callRun (h : Good g s) (hf : ∀ u, CallRun g.num s u → CallFits g u)
    (c : CallRun g.num s s') : Good g s' := by
  induction c with
  | refl => exact h
  | tail hrun c ih => exact c.good ih (hf _ hrun)

/-! ## A flush that does not settle never ends -/

/-- An entry that lands on the wheel in work, linked there while the flush is running. -/
structure Circling (g : Geometry) (x : EntryId) (b : Bucket) (s : Timer) : Prop where
  good : Good g s
  active : s.phase.active = some b
  entered : s.phase.entered
  mem : x ∈ ring s b.1
  low : g.low (clock s) b.1 ≤ expiration s x

theorem Circling.other (c : Circling g x b s) :
    ∃ b', (s.entry x).list = some b' ∧ b'.1 = b.1 ∧ b' ≠ b := by
  obtain ⟨_, j, hj⟩ := c.good.inv.links.of_mem b.1 x c.mem
  refine ⟨(b.1, j), hj, rfl, ?_⟩
  intro he
  -- the entries of the bucket in work are below `low`
  have hw := c.good.inv.working b c.active
  have hstart := (c.good.inv.seats x _ hj).start
  have hlow := cell_lt_low (g := g) (clock s) c.good.inv.clocks.tick_dvd b.1
  have hlt := lt_down_add (g.T_pos b.1) (x := expiration s x)
  have hge := c.low
  rw [he, hw.entered c.entered] at hstart
  omega

theorem Circling.lands (c : Circling g x b s) : g.Lands (clock s) (expiration s x) b.1 := by
  obtain ⟨b', hb', hlev, hne⟩ := c.other
  exact lands_of_low_le c.low
    (c.good.inv.other_not_due c.active c.entered hb' hlev hne).2.2

theorem mem_ring_of_inserted {ins : Option EntryId} {y : EntryId} (i : Inserted g s y s')
    (h : Inv g ins s) (hins : ∀ z, ins = some z → z = y) (hy : y < s.count)
    (hyd : y ∉ s.deleted) {k : ℕ} (hx : x ∈ ring s k)
    (hl : x = y → g.Lands (clock s) (expiration s y) k) : x ∈ ring s' k := by
  obtain ⟨_, rfl⟩ | ⟨_, m, hm, l⟩ := i.landed h hins hy hyd
  · exact hx
  · rw [l.ring]
    by_cases hxy : x = y
    · subst hxy
      obtain rfl := (hl rfl).unique hm
      simp
    · have hmem := (List.mem_erase_of_ne hxy).mpr hx
      split_ifs
      · exact List.mem_append_left _ hmem
      · exact hmem

theorem Inserted.clock_eq {ins : Option EntryId} {y : EntryId} (i : Inserted g s y s')
    (h : Inv g ins s) (hins : ∀ z, ins = some z → z = y) (hy : y < s.count)
    (hyd : y ∉ s.deleted) :
    clock s' = clock s ∧ ∀ z, expiration s' z = expiration s z := by
  obtain ⟨_, rfl⟩ | ⟨_, m, hm, l⟩ := i.landed h hins hy hyd
  · exact ⟨rfl, fun _ => rfl⟩
  · exact ⟨l.clock, l.expiration⟩

theorem Circling.step (c : Circling g x b s) (hf : CallFits g s) :
    ∃ s', CallStep g.num s s' ∧ Circling g x b s' := by
  have hrun : s.phase ≠ .idle := by
    intro hidle
    have hact := c.active
    rw [hidle] at hact
    cases hact
  obtain ⟨s', cs⟩ := exists_callStep c.good hf hrun
  refine ⟨s', cs, ?_⟩
  have hgood := cs.good c.good hf
  obtain ⟨now, a, hnow, ha, hg, st⟩ := cs.stepped c.good hf
  obtain ⟨b', hb', hlev, hne⟩ := c.other
  have hact := c.active
  have hent := c.entered
  cases st with
  | clock _ _ => exact ha.elim
  | add _ _ => exact ha.elim
  | pollNone hph _ => rcases hph with hph | hph <;> rw [hph] at hact <;> cases hact
  | pollSome hph _ _ _ => rcases hph with hph | hph <;> rw [hph] at hact <;> cases hact
  | advance hph _ => rw [hph] at hent; exact hent.elim
  | @takeOwn b₀ y u hph hy hyb hu =>
    have hb : b₀ = b := by rw [hph] at hact; exact Option.some.inj hact
    subst hb
    have hxy : x ≠ y := by
      rintro rfl
      exact hne (Option.some.inj (hb'.symm.trans hyb))
    refine ⟨hgood, rfl, trivial, ?_, ?_⟩
    · show x ∈ ring u b₀.1
      rw [hu.ring]
      exact (List.mem_erase_of_ne hxy).mpr c.mem
    · show g.low (clock u) b₀.1 ≤ expiration u x
      rw [hu.clock, hu.expiration]
      exact c.low
  | @takeOther b₀ _ y hph hy _ _ _ =>
    have hb : b₀ = b := by rw [hph] at hact; exact Option.some.inj hact
    subst hb
    exact ⟨hgood, rfl, trivial, c.mem, c.low⟩
  | @reinsert b₀ y u hph hins =>
    have hb : b₀ = b := by rw [hph] at hact; exact Option.some.inj hact
    subst hb
    have hinv := hg.inv_some hph
    obtain ⟨hlt, hnd⟩ := hinv.owned.held y rfl
    have hone : ∀ z, some y = some z → z = y := fun z hz => (Option.some.inj hz).symm
    obtain ⟨hclock, hexp⟩ := hins.clock_eq hinv hone hlt hnd
    refine ⟨hgood, rfl, trivial, ?_, ?_⟩
    · show x ∈ ring u b₀.1
      apply mem_ring_of_inserted hins hinv hone hlt hnd c.mem
      rintro rfl
      exact c.lands
    · show g.low (clock u) b₀.1 ≤ expiration u x
      rw [hclock, hexp]
      exact c.low
  | @endFlush b₀ hph hnil =>
    have hb : b₀ = b := by rw [hph] at hact; exact Option.some.inj hact
    subst hb
    have hmem := c.mem
    unfold ring at hmem
    rw [show (s.wheel b₀.1).root = [] from hnil] at hmem
    cases hmem

theorem Circling.not_terminates (c : Circling g x b s)
    (hf : ∀ u, CallRun g.num s u → CallFits g u) : ¬ Terminates g.num s := by
  intro ht
  induction ht with
  | returned hidle =>
    have hact := c.active
    rw [hidle] at hact
    cases hact
  | running _ _ ih =>
    obtain ⟨s', cs, c'⟩ := c.step (hf _ .refl)
    exact ih s' cs c' fun u hu => hf u (Relation.ReflTransGen.head cs hu)

theorem not_terminates_of_not_settles (h : Good g s)
    (hf : ∀ u, CallRun g.num s u → CallFits g u) (hs : ¬ Settles g s) : ¬ Terminates g.num s := by
  unfold Settles at hs
  push Not at hs
  obtain ⟨b, hact, x, hx, hlow⟩ := hs
  by_cases hent : s.phase.entered
  · rw [max_clock_of_entered h.inv hact hent] at hlow
    exact Circling.not_terminates ⟨h, hact, hent, hx, hlow⟩ hf
  · intro ht
    -- the bucket is still waiting; advancing the clocks starts the flush
    obtain ⟨l, hph⟩ : ∃ l, s.phase = .polled l b := by
      cases hp : s.phase with
      | polled l b' =>
        rw [hp] at hact
        exact ⟨l, by rw [Option.some.inj hact]⟩
      | flushing _ => rw [hp] at hent; exact absurd trivial hent
      | reinserting _ _ => rw [hp] at hent; exact absurd trivial hent
      | idle => rw [hp] at hact; cases hact
      | draining => rw [hp] at hact; cases hact
    have hsums := hf s .refl
    unfold CallFits at hsums
    rw [hph] at hsums
    have hstep : step g.num s .advance = some { TimingWheel.advanceClock g.num s.levels s 0
        (bucketExpiration s b) with phase := .flushing b } := by
      unfold step
      rw [hph]
    have hcs := CallStep.mk s.now .advance (by rw [hph]; simp) le_rfl h.inv.clocks.now_holds
      trivial hstep
    refine Circling.not_terminates (g := g) (x := x) (b := b) ?_
      (fun u hu => hf u (Relation.ReflTransGen.head hcs hu)) (ht.step hcs)
    have hadv := advanceClock_advanced g.num s.levels s 0 (bucketExpiration s b)
    have hclock := (advance_clock h.inv hact hsums).2
    have hmax : clock (TimingWheel.advanceClock g.num s.levels s 0 (bucketExpiration s b)) =
        max (clock s) (bucketExpiration s b) := by
      rcases hclock with ⟨h1, h2⟩ | ⟨h1, h2⟩
      · rw [h1, max_eq_right h2]
      · rw [h1, max_eq_left h2]
    refine ⟨hcs.good h (hf s .refl), rfl, trivial, ?_, ?_⟩
    · show x ∈ ((TimingWheel.advanceClock g.num s.levels s 0 (bucketExpiration s b)).wheel b.1).root
      rw [hadv.wheel]
      exact hx
    · show g.low (clock (TimingWheel.advanceClock g.num s.levels s 0 (bucketExpiration s b))) b.1 ≤
        ((TimingWheel.advanceClock g.num s.levels s 0 (bucketExpiration s b)).entry x).expiration
      rw [hmax, hadv.rest]
      exact hlow

/-! ## A call that settles returns -/

/-- How far the entry still has to fall: the number of wheels from its own down. -/
def weight (s : Timer) (x : EntryId) : ℕ :=
  match (s.entry x).list, s.phase with
  | some b, _ => b.1 + 1
  | none, .reinserting b y => if y = x then b.1 + 1 else 0
  | none, _ => 0

def Phase.rank : Phase → ℕ
  | .polled _ _ => 4
  | .flushing _ => 3
  | .reinserting _ _ => 2
  | .draining => 1
  | .idle => 0

def remaining (s : Timer) : ℕ ×ₗ ℕ ×ₗ ℕ :=
  toLex (∑ x ∈ Finset.range s.count, weight s x, toLex (s.queue.length, s.phase.rank))

theorem remaining_lt_of_weight (hc : s'.count = s.count) (hx : x < s.count)
    (hlt : weight s' x < weight s x) (hle : ∀ y, weight s' y ≤ weight s y) :
    remaining s' < remaining s := by
  apply Prod.Lex.left
  rw [hc]
  exact Finset.sum_lt_sum (fun y _ => hle y) ⟨x, Finset.mem_range.mpr hx, hlt⟩

theorem remaining_lt_of_rest (hc : s'.count = s.count) (hw : ∀ y, weight s' y = weight s y)
    (hr : s'.queue.length < s.queue.length ∨
      s'.queue = s.queue ∧ s'.phase.rank < s.phase.rank) : remaining s' < remaining s := by
  unfold remaining
  rw [hc, Finset.sum_congr rfl fun y _ => hw y]
  apply Prod.Lex.right
  rcases hr with hr | ⟨hq, hr⟩
  · exact Prod.Lex.left _ _ hr
  · rw [hq]
    exact Prod.Lex.right _ hr

theorem weight_of_phase (hl : ∀ y, (s'.entry y).list = (s.entry y).list)
    (hp : ∀ b y, s.phase ≠ .reinserting b y) (hp' : ∀ b y, s'.phase ≠ .reinserting b y)
    (y : EntryId) : weight s' y = weight s y := by
  unfold weight
  rw [hl]
  cases (s.entry y).list with
  | some b => rfl
  | none =>
    cases h : s.phase with
    | reinserting b z => exact absurd h (hp b z)
    | _ =>
      cases h' : s'.phase with
      | reinserting b z => exact absurd h' (hp' b z)
      | _ => rfl

theorem weight_reinserting (hph : s.phase = .reinserting b x) (h : Good g s) :
    weight s x = b.1 + 1 ∧ ∀ y, y ≠ x → weight s y =
      match (s.entry y).list with
      | some b' => b'.1 + 1
      | none => 0 := by
  constructor
  · unfold weight
    rw [hph]
    cases hl : (s.entry x).list with
    | some b' => exact congrArg (· + 1) (h.other b x b' hph hl).1
    | none => simp
  · intro y hy
    unfold weight
    rw [hph]
    cases (s.entry y).list with
    | some b' => rfl
    | none => exact if_neg fun he => hy he.symm

theorem weight_flushing (hph : s.phase = .flushing b) (y : EntryId) :
    weight s y =
      match (s.entry y).list with
      | some b' => b'.1 + 1
      | none => 0 := by
  unfold weight
  rw [hph]
  cases (s.entry y).list <;> rfl

theorem reinsert_remaining {u : Timer} (h : Good g s) (hph : s.phase = .reinserting b x)
    (hins : Inserted g s x u) (hlow : expiration s x < g.low (clock s) b.1) :
    remaining { u with phase := .flushing b } < remaining s := by
  have hinv := h.inv_some hph
  obtain ⟨hlt, hnd⟩ := hinv.owned.held x rfl
  obtain ⟨hwx, hwy⟩ := weight_reinserting hph h
  obtain ⟨hdue, rfl⟩ | ⟨hdue, m, hm, l⟩ :=
    hins.landed hinv (fun y hy => (Option.some.inj hy).symm) hlt hnd
  · have hnone : (s.entry x).list = none := by
      cases hl : (s.entry x).list with
      | none => rfl
      | some b' =>
        obtain ⟨hlev, hne⟩ := h.other b x b' hph hl
        have hnd := (hinv.other_not_due (by rw [hph]; rfl) (by rw [hph]; trivial) hl hlev hne).2.1
        omega
    refine remaining_lt_of_weight (x := x) rfl hlt ?_ ?_
    · rw [hwx, weight_flushing rfl]
      show (match (s.entry x).list with | some b' => b'.1 + 1 | none => 0) < _
      rw [hnone]
      exact Nat.succ_pos _
    · intro y
      rw [weight_flushing rfl]
      by_cases hy : y = x
      · subst hy
        show (match (s.entry y).list with | some b' => b'.1 + 1 | none => 0) ≤ _
        rw [hnone]
        exact Nat.zero_le _
      · rw [hwy y hy]
        exact le_rfl
  · have hmk := lands_lt_of_lt_low hm hdue hlow
    refine remaining_lt_of_weight (x := x) l.count hlt ?_ ?_
    · rw [hwx, weight_flushing rfl]
      show (match (u.entry x).list with | some b' => b'.1 + 1 | none => 0) < _
      rw [l.list, if_pos rfl]
      exact Nat.succ_lt_succ hmk
    · intro y
      rw [weight_flushing rfl]
      show (match (u.entry y).list with | some b' => b'.1 + 1 | none => 0) ≤ _
      rw [l.list]
      by_cases hy : y = x
      · subst hy
        rw [if_pos rfl, hwx]
        exact Nat.succ_le_succ hmk.le
      · rw [if_neg hy, hwy y hy]

theorem expiration_lt_low (h : Good g s) (hs : Settles g s) (hph : s.phase = .reinserting b x) :
    expiration s x < g.low (clock s) b.1 := by
  have hact : s.phase.active = some b := by rw [hph]; rfl
  have hent : s.phase.entered := by rw [hph]; trivial
  cases hl : (s.entry x).list with
  | none =>
    have h1 := h.own b x hph hl
    have h2 := cell_lt_low (g := g) (clock s) h.inv.clocks.tick_dvd b.1
    omega
  | some b' =>
    have hlev := (h.other b x b' hph hl).1
    have h1 := hs b hact x (hlev ▸ h.inv.links.mem x b' hl)
    rw [max_clock_of_entered h.inv hact hent] at h1
    exact h1

theorem Stepped.remaining_lt {a : Act} (st : Stepped g s a s') (h : Good g s) (hs : Settles g s)
    (ha : a.internal) (hrun : s.phase ≠ .idle) : remaining s' < remaining s := by
  cases st with
  | clock _ _ => exact ha.elim
  | add _ _ => exact ha.elim
  | pollNone hph _ =>
    have hph := hph.resolve_left hrun
    refine remaining_lt_of_rest rfl ?_ (.inr ⟨rfl, by rw [hph]; exact Nat.one_pos⟩)
    exact weight_of_phase (fun _ => rfl) (by simp [hph]) (by simp)
  | @pollSome i l first hph hfirst _ _ =>
    have hph := hph.resolve_left hrun
    refine remaining_lt_of_rest rfl ?_ (.inl ?_)
    · exact weight_of_phase (fun _ => rfl) (by simp [hph]) (by simp [afterPoll])
    · have hi := (List.getElem?_eq_some_iff.mp hfirst).1
      show (s.queue.eraseIdx i).length < _
      rw [List.length_eraseIdx_of_lt hi]
      omega
  | @advance _ b hph _ =>
    have hadv := advanceClock_advanced g.num s.levels s 0 (bucketExpiration s b)
    refine remaining_lt_of_rest ?_ ?_ (.inr ⟨?_, by rw [hph]; exact Nat.lt_succ_self 3⟩)
    · rw [hadv.rest]
    · refine weight_of_phase ?_ (by simp [hph]) (by simp)
      intro y
      rw [hadv.rest]
    · rw [hadv.rest]
  | @takeOwn b x u hph _ hb hu =>
    have hinv := h.inv_none (by rw [hph]; rfl)
    have hg := takeOwn_good hinv hph hb hu
    obtain ⟨hwx, hwy⟩ := weight_reinserting (s := { u with phase := .reinserting b x }) rfl hg
    refine remaining_lt_of_rest hu.count ?_ (.inr ⟨hu.queue, by rw [hph]; exact Nat.lt_succ_self 2⟩)
    intro y
    rw [weight_flushing hph]
    by_cases hy : y = x
    · subst hy
      rw [hwx, hb]
    · rw [hwy y hy]
      show (match (u.entry y).list with | some b' => b'.1 + 1 | none => 0) = _
      rw [hu.list, if_neg hy]
  | @takeOther b b' x hph _ hb hlev hne =>
    have hinv := h.inv_none (by rw [hph]; rfl)
    have hg := takeOther_good hinv hph hb hlev hne
    obtain ⟨hwx, hwy⟩ := weight_reinserting (s := { s with phase := .reinserting b x }) rfl hg
    refine remaining_lt_of_rest rfl ?_ (.inr ⟨rfl, by rw [hph]; exact Nat.lt_succ_self 2⟩)
    intro y
    rw [weight_flushing hph]
    by_cases hy : y = x
    · subst hy
      rw [hwx, hb]
      exact congrArg (· + 1) hlev.symm
    · rw [hwy y hy]
  | reinsert hph hins => exact reinsert_remaining h hph hins (expiration_lt_low h hs hph)
  | @endFlush b hph _ =>
    have hinv := h.inv_none (by rw [hph]; rfl)
    have hflag := (hinv.clocks.shape _ (hinv.working _ (by rw [hph]; rfl)).level).setFlag
    have hrest := clearExpiration_eq hflag
    refine remaining_lt_of_rest ?_ ?_ (.inr ⟨?_, by rw [hph]; exact (by decide : 1 < 3)⟩)
    · rw [hrest]
      rfl
    · refine weight_of_phase ?_ (by simp [hph]) (by simp)
      intro y
      rw [hrest]
      rfl
    · rw [hrest]
      rfl

theorem terminates_of_settles (h : Good g s) (hf : ∀ u, CallRun g.num s u → CallFits g u)
    (hs : ∀ s', CallRun g.num s s' → Settles g s') : Terminates g.num s := by
  induction hm : remaining s using WellFoundedLT.induction generalizing s with
  | ind m ih =>
    by_cases hidle : s.phase = .idle
    · exact .returned hidle
    · refine .running (exists_callStep h (hf s .refl) hidle) ?_
      intro s' c
      have hlt : remaining s' < remaining s := by
        obtain ⟨now, a, _, ha, hg, st⟩ := c.stepped h (hf s .refl)
        exact st.remaining_lt hg (hs s .refl) ha hidle
      exact ih (remaining s') (hm ▸ hlt) (c.good h (hf s .refl))
        (fun u hu => hf u (Relation.ReflTransGen.head c hu))
        (fun u hu => hs u (Relation.ReflTransGen.head c hu)) rfl

/-! ## Calls that stay in range -/

theorem Bounded.callFits {M : ℤ} (hb : Bounded g M s) (hM : g.num.Holds (M + M * g.size))
    (hc : Clocks g s) : CallFits g s := by
  unfold CallFits
  cases hph : s.phase with
  | polled l b => exact hb.sumsHold hM hc
  | reinserting b x => exact hb.fits hM hc (hb.entry x)
  | _ => trivial

theorem callRun_fits {M : ℤ} (h : Good g s) (hb : Bounded g M s) (hM : g.num.Holds (M + M * g.size))
    (c : CallRun g.num s s') : CallFits g s' := by
  have hkeep : Good g s' ∧ Bounded g M s' := by
    induction c with
    | refl => exact ⟨h, hb⟩
    | tail _ c ih =>
      obtain ⟨hgood, hb⟩ := ih
      have hf := hb.callFits hM hgood.inv.clocks
      obtain ⟨now, a, hnow, ha, hg, st⟩ := c.stepped hgood hf
      have hbelow : a.Below M := by
        cases a with
        | add e => exact ha.elim
        | _ => trivial
      exact ⟨c.good hgood hf, st.bounded hg ⟨hb.clock, hb.entry, hb.queue, hb.active, hb.levels⟩
        hbelow⟩
  exact hkeep.2.callFits hM hkeep.1.inv.clocks

end

/-! ## Main result -/

theorem terminates_iff_settles (g : Geometry) (s : Timer)
    (h : (system g.num g.tick g.size).Reach (InRange g Sequential) s)
    (hf : ∀ u, CallRun g.num s u → CallFits g u) :
    Terminates g.num s ↔ ∀ s', CallRun g.num s s' → Settles g s' := by
  have hg := reach_good_of_sequential h
  constructor
  · intro ht s' c
    by_contra hs
    exact not_terminates_of_not_settles (good_of_callRun hg hf c)
      (fun u hu => hf u (Relation.ReflTransGen.trans c hu)) hs (ht.run c)
  · exact terminates_of_settles hg hf

theorem terminates_iff_settles_in_cascade :
    ∃ s, (system .long 1 3).exec (UpTo 7 Sequential) (new .long 1 3 0)
        [.add 5, .add 3, .clock 7, .poll 0] = some s ∧
      (Terminates .long s ↔ ∀ s', CallRun .long s s' → Settles unitWheel s') := by
  obtain ⟨s, hs, hreach, hp⟩ := System.exists_reach (M := system .long 1 3)
    (G := UpTo 7 Sequential) [.add 5, .add 3, .clock 7, .poll 0] (fun s => clock s ≤ 7)
    ⟨0, rfl, rfl⟩ (by decide)
  obtain ⟨hin, hgood, hb⟩ := reach_inRange (g := unitWheel) (M := 7) Ordered.of_sequential
    (by decide) (by decide) hreach
  refine ⟨s, hs, terminates_iff_settles unitWheel s hin fun u hu => ?_⟩
  exact callRun_fits hgood (hb (of_decide_eq_true hp)) (by decide) hu

/-- Tasks 1 and 2 sit in two buckets of the first wheel. The flush of the first bucket takes task
2 from the shared ring and puts it back, forever. -/
theorem flush_circles_on_second_bucket :
    ∃ s, (system .long 1 3).exec (UpTo 2 Sequential) (new .long 1 3 0)
        [.add 1, .add 2, .clock 1, .poll 0] = some s ∧
      (system .long 1 3).Reach (InRange unitWheel Sequential) s ∧ ¬ Terminates .long s := by
  obtain ⟨s, hs, hreach, hp⟩ := System.exists_reach (M := system .long 1 3)
    (G := UpTo 2 Sequential) [.add 1, .add 2, .clock 1, .poll 0]
    (fun s => s.phase.active = some (0, 1) ∧ 1 ∈ ring s 0 ∧ (s.entry 1).expiration = 2 ∧
      clock s = 0 ∧ bucketExpiration s (0, 1) = 1) ⟨0, rfl, rfl⟩ (by decide)
  obtain ⟨hact, hmem, hexp, hclock, hstart⟩ := of_decide_eq_true hp
  obtain ⟨hin, hgood, hb⟩ := reach_inRange (g := unitWheel) (M := 2) Ordered.of_sequential
    (by decide) (by decide) hreach
  have hb := hb (by rw [hclock]; decide)
  refine ⟨s, hs, hin, ?_⟩
  apply not_terminates_of_not_settles (g := unitWheel) hgood
    fun u hu => callRun_fits hgood hb (by decide) hu
  intro hset
  have hlt := hset (0, 1) hact 1 hmem
  rw [hexp, hclock, hstart] at hlt
  revert hlt
  decide

end Mutty.Timing
