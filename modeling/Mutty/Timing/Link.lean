import Mutty.Timing.Invariant

/-!
# Unlinking an entry and placing it in a bucket

`Frame`, `Relinked`, `Unlinked` and `Placed` say what the list operations change. Unlinking takes the
invariant to the one with the entry in hand. Placing the entry in hand takes it back, when its
expiration is inside the span of the wheel and not in front of a bucket that waits for the lock:
the slot it goes to is then free or stands for the same cell.
-/

namespace Mutty.Timing

open Mutty.Lib

/-- Only rings, list pointers, bucket expirations and the queue may differ. -/
structure Frame (s s' : Timer) : Prop where
  levels : s'.levels = s.levels
  clock : clock s' = clock s
  rule : ∀ g c k, WheelRule g c k (s.wheel k) → WheelRule g c k (s'.wheel k)
  flag : ∀ k, (s'.wheel k).setFlag = (s.wheel k).setFlag
  now : s'.now = s.now
  phase : s'.phase = s.phase
  count : s'.count = s.count
  deleted : s'.deleted = s.deleted
  handed : s'.handed = s.handed
  task : s'.task = s.task
  expiration : ∀ y, expiration s' y = expiration s y
  timerTask : ∀ y, (s'.entry y).timerTask = (s.entry y).timerTask

/-- Only rings and list pointers may differ. -/
structure Relinked (s s' : Timer) : Prop extends Frame s s' where
  start : ∀ b, bucketExpiration s' b = bucketExpiration s b
  queue : s'.queue = s.queue

structure Unlinked (s : Timer) (x : EntryId) (s' : Timer) : Prop extends Relinked s s' where
  ring : ∀ k, ring s' k = (ring s k).erase x
  list : ∀ y, (s'.entry y).list = if y = x then none else (s.entry y).list

structure Placed (g : Geometry) (s : Timer) (x : EntryId) (k : ℕ) (s' : Timer) : Prop
    extends Frame s s' where
  ring : ∀ m, ring s' m = if m = k then ring s m ++ [x] else ring s m
  list : ∀ y, (s'.entry y).list =
    if y = x then some (k, slot (g.T k) g.size (Timing.expiration s x)) else (s.entry y).list
  start : ∀ b, bucketExpiration s' b =
    if b = (k, slot (g.T k) g.size (Timing.expiration s x)) then
      down (g.T k) (Timing.expiration s x)
    else bucketExpiration s b
  queue : s'.queue =
    if bucketExpiration s (k, slot (g.T k) g.size (Timing.expiration s x)) =
        down (g.T k) (Timing.expiration s x) then s.queue
    else s.queue ++
      [⟨Timing.expiration s x, (k, slot (g.T k) g.size (Timing.expiration s x))⟩]

section

variable {g : Geometry} {ins : Option EntryId} {s s' : Timer} {x : EntryId} {k : ℕ}

theorem Frame.clocks (f : Frame s s') (h : Clocks g s) : Clocks g s' where
  levels_pos := by rw [f.levels]; exact h.levels_pos
  shape := by
    intro k hk
    rw [f.levels] at hk
    have hw := h.shape k hk
    rw [f.clock]
    exact ⟨f.rule g _ k hw.toWheelRule, by rw [f.flag]; exact hw.setFlag⟩
  nonneg := by rw [f.clock]; exact h.nonneg
  le_now := by rw [f.clock, f.now]; exact h.le_now
  now_holds := by rw [f.now]; exact h.now_holds

theorem Frame.ruled (f : Frame s s') (h : Ruled g s) : Ruled g s' where
  levels_pos := by rw [f.levels]; exact h.levels_pos
  rule := by
    intro k hk
    rw [f.levels] at hk
    rw [f.clock]
    exact f.rule g _ k (h.rule k hk)
  nonneg := by rw [f.clock]; exact h.nonneg

/-! ## Unlinking -/

/-- The pointer updates of the list operations: a new ring for wheel `k`, a new list pointer for
`x`. -/
def relink (s : Timer) (k : ℕ) (x : EntryId) (root : List EntryId) (list : Option Bucket) :
    Timer :=
  setEntry (setWheel s k { s.wheel k with root := root }) x { s.entry x with list := list }

theorem relink_relinked (s : Timer) (k : ℕ) (x : EntryId) (root : List EntryId)
    (list : Option Bucket) : Relinked s (relink s k x root list) := by
  have hw : ∀ m, ((relink s k x root list).wheel m) =
      { s.wheel m with root := ((relink s k x root list).wheel m).root } := by
    intro m
    simp only [relink, setWheel, setEntry, Function.update_apply]
    split_ifs with hm
    · rw [hm]
    · rfl
  have he : ∀ y, (relink s k x root list).entry y =
      { s.entry y with list := ((relink s k x root list).entry y).list } := by
    intro y
    simp only [relink, setWheel, setEntry, Function.update_apply]
    split_ifs with hy
    · rw [hy]
    · rfl
  constructor
  case toFrame =>
    constructor <;> try rfl
    · unfold clock
      rw [hw]
    · intro g c m h
      rw [hw]
      exact ⟨h.tickMs, h.interval, h.wheelSize, h.currentTime⟩
    · intro m
      rw [hw]
    · intro y
      unfold expiration
      rw [he]
    · intro y
      rw [he]
  case start =>
    intro b
    unfold bucketExpiration
    rw [hw]
  case queue => rfl

theorem Relinked.refl (s : Timer) : Relinked s s where
  toFrame := by constructor <;> intros <;> first | rfl | assumption
  start := fun _ => rfl
  queue := rfl

theorem relink_list (s : Timer) (k : ℕ) (x : EntryId) (root : List EntryId)
    (list : Option Bucket) (y : EntryId) :
    ((relink s k x root list).entry y).list = if y = x then list else (s.entry y).list := by
  simp only [relink, setWheel, setEntry, Function.update_apply]
  split_ifs <;> rfl

theorem unlinked_of_list_none (hl : Links s) (hx : (s.entry x).list = none) : Unlinked s x s where
  toRelinked := Relinked.refl s
  ring := by
    intro k
    rw [List.erase_of_not_mem]
    intro hm
    obtain ⟨_, j, hj⟩ := hl.of_mem k x hm
    rw [hx] at hj
    cases hj
  list := by
    intro y
    split_ifs with hy
    · rw [hy, hx]
    · rfl

theorem listRemove_eq {b : Bucket} (hx : (s.entry x).list = some b) :
    TimerTaskList.remove s b x = relink s b.1 x ((s.wheel b.1).root.erase x) none := by
  unfold TimerTaskList.remove
  rw [if_pos hx]
  rfl

theorem listRemove_unlinked (hl : Links s) {b : Bucket} (hx : (s.entry x).list = some b) :
    Unlinked s x (TimerTaskList.remove s b x) := by
  rw [listRemove_eq hx]
  refine ⟨relink_relinked .., ?_, relink_list s b.1 x _ none⟩
  intro k
  simp only [ring, relink, setWheel, setEntry, Function.update_apply]
  split_ifs with hk
  · rw [hk]
  · rw [List.erase_of_not_mem]
    intro hm
    obtain ⟨_, j, hj⟩ := hl.of_mem k x hm
    rw [hx] at hj
    exact hk (congrArg Prod.fst (Option.some.inj hj)).symm

theorem remove_unlinked (hl : Links s) : Unlinked s x (TimerTaskEntry.remove s x) := by
  unfold TimerTaskEntry.remove
  split
  · exact unlinked_of_list_none hl ‹_›
  · exact listRemove_unlinked hl ‹_›

theorem Unlinked.live (u : Unlinked s x s') (b : Bucket) : Live s' b ↔ Live s b := by
  unfold Live
  rw [u.queue, u.phase]

theorem Unlinked.list_eq (u : Unlinked s x s') {y : EntryId} {b : Bucket}
    (h : (s'.entry y).list = some b) : y ≠ x ∧ (s.entry y).list = some b := by
  rw [u.list] at h
  split_ifs at h with hy
  exact ⟨hy, h⟩

theorem Unlinked.links (u : Unlinked s x s') (h : Links s) : Links s' where
  of_mem := by
    intro k y hy
    rw [u.ring] at hy
    have hne : y ≠ x := fun he => (h.nodup k).not_mem_erase (he ▸ hy)
    rw [u.levels, u.list, if_neg hne]
    exact h.of_mem k y (List.mem_of_mem_erase hy)
  mem := by
    intro y b hy
    obtain ⟨hne, hy⟩ := u.list_eq hy
    rw [u.ring]
    exact (List.mem_erase_of_ne hne).mpr (h.mem y b hy)
  nodup := by
    intro k
    rw [u.ring]
    exact (h.nodup k).erase x

theorem Unlinked.owned (u : Unlinked s x s') (h : Owned g ins s)
    (hins : ∀ y, ins = some y → y = x) (hx : x < s.count) (hxd : x ∉ s.deleted) :
    Owned g (some x) s' where
  linked_or_deleted := by
    intro y hy hne
    have hyx : y ≠ x := fun he => hne (by rw [he])
    rw [u.count] at hy
    rw [u.list, if_neg hyx, u.deleted]
    exact h.linked_or_deleted y hy fun he => hyx (hins y he.symm)
  unlinked := by
    intro y hy
    rw [u.deleted] at hy
    obtain ⟨h1, h2⟩ := h.unlinked y hy
    rw [u.count, u.list]
    refine ⟨h1, ?_⟩
    split_ifs
    · rfl
    · exact h2
  fresh := by
    intro y hy
    rw [u.count] at hy
    rw [u.list]
    split_ifs
    · rfl
    · exact h.fresh y hy
  nodup := by rw [u.deleted]; exact h.nodup
  task := by
    intro y hy
    rw [u.count] at hy
    rw [u.timerTask, u.task]
    exact h.task y hy
  handed := by rw [u.handed, u.deleted]; exact h.handed
  early := by
    intro p hp
    rw [u.handed] at hp
    rw [u.expiration]
    exact h.early p hp
  held := by
    intro y hy
    obtain rfl := Option.some.inj hy
    rw [u.count, u.deleted]
    exact ⟨hx, hxd⟩

theorem Unlinked.inv (u : Unlinked s x s') (h : Inv g ins s)
    (hins : ∀ y, ins = some y → y = x) (hx : x < s.count) (hxd : x ∉ s.deleted) :
    Inv g (some x) s' where
  clocks := u.toFrame.clocks h.clocks
  links := u.links h.links
  seats := by
    intro y b hy
    obtain ⟨_, hy⟩ := u.list_eq hy
    obtain ⟨h1, h2, h3⟩ := h.seats y b hy
    exact ⟨by rw [u.expiration]; exact h1, by rw [u.start, u.expiration]; exact h2,
      (u.live b).mpr h3⟩
  queued := h.queued.congr u.levels u.clock u.start u.queue u.live
  working := by
    intro b hb
    have hw := h.working b (u.phase ▸ hb)
    exact hw.congr u.levels u.clock (u.start b) u.queue u.now.ge (by rw [u.phase]; exact id)
  owned := u.owned h.owned hins hx hxd

/-! ## Placing -/

/-- Entry `x` appended to the ring of wheel `k`, in bucket `j` with expiration `v`. -/
def seated (s : Timer) (k j : ℕ) (x : EntryId) (v : ℤ) : Timer :=
  setEntry (setWheel s k { s.wheel k with
      root := (s.wheel k).root ++ [x]
      expiration := Function.update (s.wheel k).expiration j v })
    x { s.entry x with list := some (k, j) }

theorem seated_frame (s : Timer) (k j : ℕ) (x : EntryId) (v : ℤ) :
    Frame s (seated s k j x v) := by
  constructor <;> try rfl
  · simp only [clock, seated, setWheel, setEntry, Function.update_apply]
    split_ifs with hk
    · rw [hk]
    · rfl
  · intro g c m h
    simp only [seated, setWheel, setEntry, Function.update_apply]
    split_ifs with hk
    · subst hk
      exact ⟨h.tickMs, h.interval, h.wheelSize, h.currentTime⟩
    · exact h
  · intro m
    simp only [seated, setWheel, setEntry, Function.update_apply]
    split_ifs with hk
    · rw [hk]
    · rfl
  · intro y
    simp only [expiration, seated, setWheel, setEntry, Function.update_apply]
    split_ifs with hy
    · rw [hy]
    · rfl
  · intro y
    simp only [seated, setWheel, setEntry, Function.update_apply]
    split_ifs with hy
    · rw [hy]
    · rfl

theorem seated_start (s : Timer) (k j : ℕ) (x : EntryId) (v : ℤ) (b : Bucket) :
    bucketExpiration (seated s k j x v) b = if b = (k, j) then v else bucketExpiration s b := by
  simp only [bucketExpiration, seated, setWheel, setEntry, Function.update_apply, Prod.ext_iff]
  split_ifs with h1 h2 h3 <;> simp_all

theorem remove_of_list_none (hx : (s.entry x).list = none) : TimerTaskEntry.remove s x = s := by
  unfold TimerTaskEntry.remove
  rw [hx]

theorem remove_relinked (s : Timer) (x : EntryId) :
    Relinked s (TimerTaskEntry.remove s x) ∧ ∀ y, ((TimerTaskEntry.remove s x).entry y).list =
      if y = x then none else (s.entry y).list := by
  cases hx : (s.entry x).list with
  | none =>
    rw [remove_of_list_none hx]
    refine ⟨Relinked.refl s, ?_⟩
    intro y
    split_ifs with hy
    · rw [hy, hx]
    · rfl
  | some b =>
    have heq : TimerTaskEntry.remove s x =
        relink s b.1 x ((s.wheel b.1).root.erase x) none := by
      unfold TimerTaskEntry.remove
      rw [hx]
      exact listRemove_eq hx
    rw [heq]
    exact ⟨relink_relinked .., relink_list s b.1 x _ none⟩

theorem listAdd_eq (s : Timer) (b : Bucket) (x : EntryId) : TimerTaskList.add s b x =
    relink (TimerTaskEntry.remove s x) b.1 x
      (((TimerTaskEntry.remove s x).wheel b.1).root ++ [x]) (some b) := by
  have hnone : ((TimerTaskEntry.remove s x).entry x).list = none := by
    rw [(remove_relinked s x).2, if_pos rfl]
  unfold TimerTaskList.add
  simp only [hnone, if_true]
  rfl

theorem setExpiration_add (hx : (s.entry x).list = none) (hflag : (s.wheel k).setFlag = false)
    (j : ℕ) (v : ℤ) :
    TimerTaskList.setExpiration (TimerTaskList.add s (k, j) x) (k, j) v =
      (decide (v ≠ bucketExpiration s (k, j)), seated s k j x v) := by
  simp only [TimerTaskList.setExpiration, TimerTaskList.add, remove_of_list_none hx, hx, setWheel, setEntry,
    hflag, bucketExpiration, seated, Function.update_self, Function.update_idem, if_true]
  rfl

theorem place_eq (hc : Clocks g s) (hk : k < s.levels) (hx : (s.entry x).list = none)
    (he : 0 ≤ expiration s x) (hh : g.num.Holds (expiration s x)) {j : ℕ} {v : ℤ}
    (hj : slot (g.T k) g.size (expiration s x) = j) (hv : down (g.T k) (expiration s x) = v) :
    TimingWheel.place g.num s k x = some
      (if bucketExpiration s (k, j) = v then seated s k j x v
      else DelayQueue.offer (seated s k j x v) (k, j) (expiration s x)) := by
  obtain ⟨⟨htick, _, hsize, _⟩, hflag⟩ := hc.shape k hk
  have hT := g.T_pos k
  have hsize' : (g.size : ℤ) ≠ 0 := Int.natCast_ne_zero.mpr g.size_pos.ne'
  have hdiv : (s.entry x).expiration.tdiv (s.wheel k).tickMs = expiration s x / g.T k := by
    rw [htick]
    exact Int.tdiv_eq_ediv_of_nonneg he
  have hmod : (expiration s x / g.T k).tmod (s.wheel k).wheelSize =
      expiration s x / g.T k % g.size := by
    rw [hsize]
    exact Int.tmod_eq_emod_of_nonneg (Int.ediv_nonneg he hT.le)
  have hnot : ¬ expiration s x / g.T k % g.size < 0 := Int.not_lt.mpr (Int.emod_nonneg _ hsize')
  have hj' : (expiration s x / g.T k % g.size).toNat = j := hj
  have hv' : g.num.wrap ((s.wheel k).tickMs * (expiration s x / g.T k)) = v := by
    have hdown := hh.of_nonneg_of_le (down_nonneg hT he) (down_le hT)
    rw [htick, ← hv]
    exact hdown
  unfold TimingWheel.place
  simp only [hdiv, hmod, if_neg hnot, hj', hv', setExpiration_add hx hflag]
  by_cases hb : bucketExpiration s (k, j) = v
  · simp [hb]
  · have hb' : v ≠ bucketExpiration s (k, j) := fun h => hb h.symm
    simp only [decide_eq_true_eq, if_pos hb', if_neg hb]
    rfl

theorem place_placed (hc : Clocks g s) (hk : k < s.levels) (hx : (s.entry x).list = none)
    (he : 0 ≤ expiration s x) (hh : g.num.Holds (expiration s x)) :
    ∃ s', TimingWheel.place g.num s k x = some s' ∧ Placed g s x k s' := by
  refine ⟨_, place_eq hc hk hx he hh rfl rfl, ?_⟩
  have hf := seated_frame s k (slot (g.T k) g.size (expiration s x)) x
    (down (g.T k) (expiration s x))
  have hring : ∀ m, ring (seated s k (slot (g.T k) g.size (expiration s x)) x
      (down (g.T k) (expiration s x))) m = if m = k then ring s m ++ [x] else ring s m := by
    intro m
    simp only [ring, seated, setWheel, setEntry, Function.update_apply]
    split_ifs with hm
    · rw [hm]
    · rfl
  have hlist : ∀ y, ((seated s k (slot (g.T k) g.size (expiration s x)) x
      (down (g.T k) (expiration s x))).entry y).list =
      if y = x then some (k, slot (g.T k) g.size (expiration s x)) else (s.entry y).list := by
    intro y
    simp only [seated, setWheel, setEntry, Function.update_apply]
    split_ifs <;> rfl
  split_ifs with hb
  · refine ⟨hf, hring, hlist, seated_start _ _ _ _ _, ?_⟩
    rw [if_pos hb]
    rfl
  · refine ⟨⟨hf.1, hf.2, hf.3, hf.4, hf.5, hf.6, hf.7, hf.8, hf.9, hf.10, hf.11, hf.12⟩, hring, hlist,
      seated_start _ _ _ _ _, ?_⟩
    rw [if_neg hb]
    rfl

theorem place_remove (hc : Clocks g s) (hl : Links s) (hk : k < s.levels) :
    TimingWheel.place g.num s k x = TimingWheel.place g.num (TimerTaskEntry.remove s x) k x := by
  have u := remove_unlinked hl (x := x)
  have hx : ((TimerTaskEntry.remove s x).entry x).list = none := by simp [u.list]
  have hadd : ∀ b, TimerTaskList.add (TimerTaskEntry.remove s x) b x =
      TimerTaskList.add s b x := by
    intro b
    unfold TimerTaskList.add
    rw [remove_of_list_none hx]
  have hshape := hc.shape k hk
  have hshape' := u.rule g _ k hshape.toWheelRule
  have he : ((TimerTaskEntry.remove s x).entry x).expiration = (s.entry x).expiration :=
    u.expiration x
  unfold TimingWheel.place
  simp only [he, hshape.tickMs, hshape'.tickMs, hshape.wheelSize, hshape'.wheelSize, hadd]

/-! ### A placed entry keeps the invariant -/

theorem Placed.live_iff (p : Placed g s x k s') (b : Bucket) :
    Live s' b ↔ Live s b ∨
      (b = (k, slot (g.T k) g.size (expiration s x)) ∧
        bucketExpiration s b ≠ down (g.T k) (expiration s x)) := by
  unfold Live
  rw [p.queue, p.phase]
  split_ifs with hb
  · constructor
    · exact Or.inl
    · rintro (h | ⟨rfl, hne⟩)
      · exact h
      · exact absurd hb hne
  · simp only [List.mem_append, List.mem_singleton]
    constructor
    · rintro (⟨q, hq | rfl, rfl⟩ | h)
      · exact .inl (.inl ⟨q, hq, rfl⟩)
      · exact .inr ⟨rfl, hb⟩
      · exact .inl (.inr h)
    · rintro ((⟨q, hq, rfl⟩ | h) | ⟨rfl, -⟩)
      · exact .inl ⟨q, .inl hq, rfl⟩
      · exact .inr h
      · exact .inl ⟨_, .inr rfl, rfl⟩

theorem Placed.list_eq (p : Placed g s x k s') {y : EntryId} {b : Bucket}
    (h : (s'.entry y).list = some b) :
    (y = x ∧ b = (k, slot (g.T k) g.size (expiration s x))) ∨
      (y ≠ x ∧ (s.entry y).list = some b) := by
  rw [p.list] at h
  split_ifs at h with hy
  · exact .inl ⟨hy, (Option.some.inj h).symm⟩
  · exact .inr ⟨hy, h⟩

theorem Placed.links (p : Placed g s x k s') (h : Links s) (hk : k < s.levels)
    (hx : (s.entry x).list = none) : Links s' where
  of_mem := by
    intro m y hy
    rw [p.levels, p.list]
    rw [p.ring] at hy
    by_cases hyx : y = x
    · subst hyx
      rw [if_pos rfl]
      split_ifs at hy with hm
      · exact ⟨hm ▸ hk, _, by rw [hm]⟩
      · obtain ⟨_, j, hj⟩ := h.of_mem m y hy
        rw [hx] at hj
        cases hj
    · rw [if_neg hyx]
      apply h.of_mem m y
      split_ifs at hy with hm
      · simpa [hyx] using hy
      · exact hy
  mem := by
    intro y b hy
    rw [p.ring]
    rcases p.list_eq hy with ⟨rfl, rfl⟩ | ⟨_, hy⟩
    · simp
    · have hm := h.mem y b hy
      split_ifs
      · exact List.mem_append_left _ hm
      · exact hm
  nodup := by
    intro m
    rw [p.ring]
    split_ifs
    · apply (h.nodup m).append (List.nodup_singleton x)
      intro y hy hyx
      obtain rfl := List.mem_singleton.mp hyx
      obtain ⟨_, j, hj⟩ := h.of_mem m y hy
      rw [hx] at hj
      cases hj
    · exact h.nodup m

section

variable (p : Placed g s x k s') (h : Inv g ins s) (hk : k < s.levels)
  (hge : down (g.T k) (clock s) + g.T k ≤ expiration s x)
  (hlt : expiration s x < down (g.T k) (clock s) + g.T (k + 1))
include p h hge hlt

theorem Placed.start_of_live {b : Bucket} (hb : Live s b) :
    bucketExpiration s' b = bucketExpiration s b := by
  have hT := g.T_pos k
  rw [p.start]
  split_ifs with hbk
  · subst hbk
    exact (h.start_of_live (by omega) hlt hb).symm
  · rfl

/-- An entry inserted while a polled bucket waits for the lock must not precede that bucket. -/
theorem Placed.working
    (hwin : ∀ l b, s.phase = .polled l b → bucketExpiration s b ≤ expiration s x) :
    Working g s' := by
  intro b hb
  rw [p.phase] at hb
  have hw := h.working b hb
  have hT := g.T_pos k
  have hst := p.start_of_live h hge hlt (.inr hb)
  have hle : bucketExpiration s b ≤ expiration s x := by
    cases hph : s.phase with
    | polled l b' =>
      simp only [hph, Phase.active, Option.some.injEq] at hb
      subst hb
      exact hwin l b' hph
    | flushing b' =>
      have he := hw.entered (by simp [hph, Phase.entered])
      have hd := down_le (g.T_pos b.1) (x := clock s)
      have hc := lt_down_add (g.T_pos k) (x := clock s)
      omega
    | reinserting b' y =>
      have he := hw.entered (by simp [hph, Phase.entered])
      have hd := down_le (g.T_pos b.1) (x := clock s)
      have hc := lt_down_add (g.T_pos k) (x := clock s)
      omega
    | idle => simp [hph, Phase.active] at hb
    | draining => simp [hph, Phase.active] at hb
  obtain ⟨h1, h2, h3, h4, h5, h6, h7, h8, h9⟩ := hw
  constructor
  · rwa [p.levels]
  · rwa [hst]
  · rwa [hst]
  · rwa [hst, p.clock]
  · rwa [hst, p.clock]
  · rwa [hst, p.now]
  · intro q hq
    rw [hst]
    rw [p.queue] at hq
    split_ifs at hq with hkj
    · exact h7 q hq
    · rcases List.mem_append.mp hq with hq | hq
      · exact h7 q hq
      · obtain rfl := List.mem_singleton.mp hq
        exact hle
  · intro q hq
    rw [p.queue] at hq
    split_ifs at hq with hkj
    · exact h8 q hq
    · rcases List.mem_append.mp hq with hq | hq
      · exact h8 q hq
      · obtain rfl := List.mem_singleton.mp hq
        rintro rfl
        exact hkj (h.start_of_live (by omega) hlt (.inr hb))
  · rwa [hst, p.clock, p.phase]

include hk

theorem Placed.seats : Seats g s' := by
  have hT := g.T_pos k
  intro y b hy
  rcases p.list_eq hy with ⟨rfl, rfl⟩ | ⟨_, hy⟩
  · refine ⟨by rw [p.expiration], by rw [p.start, if_pos rfl, p.expiration], ?_⟩
    rw [p.live_iff, h.live_iff_start hk (by omega) hlt]
    simp [Classical.em]
  · obtain ⟨h1, h2, h3⟩ := h.seats y b hy
    exact ⟨by rw [p.expiration]; exact h1,
      by rw [p.start_of_live h hge hlt h3, p.expiration]; exact h2, (p.live_iff b).mpr (.inl h3)⟩

theorem Placed.queued : Queued g s' where
  seat := by
    have hold : ∀ q ∈ s.queue, QueueSeat g s' q := by
      intro q hq
      obtain ⟨h1, h2, h3, h4, h5⟩ := h.queued.seat q hq
      have hst := p.start_of_live h hge hlt (.inl ⟨q, hq, rfl⟩)
      exact ⟨by rw [p.levels]; exact h1, h2, by rw [hst]; exact h3, by rw [p.clock]; exact h4,
        by rw [p.clock]; exact h5⟩
    have hc := lt_down_add (g.T_pos k) (x := clock s)
    intro q hq
    rw [p.queue] at hq
    split_ifs at hq with hb
    · exact hold q hq
    · rcases List.mem_append.mp hq with hq | hq
      · exact hold q hq
      · obtain rfl := List.mem_singleton.mp hq
        exact ⟨by rw [p.levels]; exact hk, rfl, by rw [p.start, if_pos rfl],
          by rw [p.clock]; dsimp only; omega, by rw [p.clock]; exact hlt⟩
  nodup := by
    have hT := g.T_pos k
    rw [p.queue]
    split_ifs with hb
    · exact h.queued.nodup
    · rw [List.map_append]
      apply h.queued.nodup.append (List.nodup_singleton _)
      intro b hb1 hb2
      obtain ⟨q, hq, rfl⟩ := List.mem_map.mp hb1
      have hlive : Live s q.bucket := .inl ⟨q, hq, rfl⟩
      rw [List.mem_singleton.mp hb2] at hlive
      exact hb (h.start_of_live (by omega) hlt hlive)
  quiet := by
    intro b hb hn
    rw [p.levels] at hb
    rw [p.live_iff, not_or] at hn
    have hneg := h.queued.quiet b hb hn.1
    have hT := g.T_pos k
    have hne : b ≠ (k, slot (g.T k) g.size (expiration s x)) := by
      rintro rfl
      have hs := not_not.mp fun hne => hn.2 ⟨rfl, hne⟩
      exact hn.1 ((h.live_iff_start hk (by omega) hlt).mpr hs)
    rw [p.start, if_neg hne]
    exact hneg

end

theorem Placed.owned (p : Placed g s x k s') (h : Owned g (some x) s) : Owned g none s' where
  linked_or_deleted := by
    intro y hy _
    rw [p.count] at hy
    rw [p.list, p.deleted]
    split_ifs with hyx
    · exact .inl (by simp)
    · exact h.linked_or_deleted y hy fun he => hyx (Option.some.inj he)
  unlinked := by
    intro y hy
    rw [p.deleted] at hy
    obtain ⟨h1, h2⟩ := h.unlinked y hy
    have hyx : y ≠ x := fun he => (h.held x rfl).2 (he ▸ hy)
    rw [p.count, p.list, if_neg hyx]
    exact ⟨h1, h2⟩
  fresh := by
    intro y hy
    rw [p.count] at hy
    have hx := (h.held x rfl).1
    have hyx : y ≠ x := by
      rintro rfl
      exact absurd hx (Nat.not_lt.mpr hy)
    rw [p.list, if_neg hyx]
    exact h.fresh y hy
  nodup := by rw [p.deleted]; exact h.nodup
  task := by
    intro y hy
    rw [p.count] at hy
    rw [p.timerTask, p.task]
    exact h.task y hy
  handed := by rw [p.handed, p.deleted]; exact h.handed
  early := by
    intro q hq
    rw [p.handed] at hq
    rw [p.expiration]
    exact h.early q hq
  held := by
    intro y hy
    cases hy

theorem Placed.inv (p : Placed g s x k s') (h : Inv g (some x) s) (hk : k < s.levels)
    (hx : (s.entry x).list = none)
    (hge : down (g.T k) (clock s) + g.T k ≤ expiration s x)
    (hlt : expiration s x < down (g.T k) (clock s) + g.T (k + 1))
    (hwin : ∀ l b, s.phase = .polled l b → bucketExpiration s b ≤ expiration s x) :
    Inv g none s' where
  clocks := p.toFrame.clocks h.clocks
  links := p.links h.links hk hx
  seats := p.seats h hk hge hlt
  queued := p.queued h hk hge hlt
  working := p.working h hge hlt hwin
  owned := p.owned h.owned

end

end Mutty.Timing
