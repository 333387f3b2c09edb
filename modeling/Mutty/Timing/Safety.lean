import Mutty.Timing.Run

/-!
# Slots, ownership and early firing

Three properties of every reachable state, each read off the invariant. `SlotsConsistent`: no
slot is shared by two rotations, stranded or queued twice. `EntriesOwned`: a task is handed over
at most once and a deleted entry is linked nowhere. `NeverEarly`: the first wheel's clock never
passes the clock reading. The first two fail in runs that leave `Ordered`, where an `add` of another
thread queues a bucket in front of the one already polled, and all three where sums wrap.
-/

namespace Mutty.Timing

open Mutty.Lib

structure SlotsConsistent (s : Timer) : Prop where
  rounded : ∀ k < s.levels,
    (s.wheel k).currentTime = down (s.wheel k).tickMs (s.wheel 0).currentTime
  cell : ∀ x b, (s.entry x).list = some b → b.1 < s.levels ∧
    (s.entry x).expiration / (s.wheel b.1).tickMs =
      bucketExpiration s b / (s.wheel b.1).tickMs
  queued : ∀ x b, (s.entry x).list = some b →
    if s.phase.active = some b then s.queue.countP (fun q => q.bucket = b) = 0
    else s.queue.countP (fun q => q.bucket = b) = 1

/-- The entry is in the ring of one wheel, once, and its list pointer names a bucket there. -/
def LinkedOnce (s : Timer) (x : EntryId) : Prop :=
  ∃ k j, (s.entry x).list = some (k, j) ∧ ∀ m, (ring s m).count x = if m = k then 1 else 0

def LinkedNowhere (s : Timer) (x : EntryId) : Prop :=
  (s.entry x).list = none ∧ ∀ m, x ∉ ring s m

def HandedOver (s : Timer) (x : EntryId) : Prop :=
  (s.entry x).timerTask ∈ s.handed.map Prod.fst

structure EntriesOwned (s : Timer) : Prop where
  once : ∀ t, (s.handed.map Prod.fst).count t ≤ 1
  owner : ∀ x < s.count,
    (LinkedOnce s x ∧ ¬ HandedOver s x ∧ x ∉ s.deleted) ∨
    ((∃ b, s.phase = .reinserting b x) ∧ LinkedNowhere s x ∧ ¬ HandedOver s x ∧
      x ∉ s.deleted) ∨
    (HandedOver s x ∧ x ∈ s.deleted ∧ LinkedNowhere s x)

section

variable {g : Geometry} {ins : Option EntryId} {s : Timer} {x : EntryId} {b : Bucket}

theorem countP_bucket (h : Inv g ins s) (b : Bucket) :
    s.queue.countP (fun q => q.bucket = b) ≤ 1 := by
  have hcount := List.nodup_iff_count_le_one.mp h.queued.nodup b
  rw [List.count, List.countP_map] at hcount
  refine le_trans (le_of_eq ?_) hcount
  apply List.countP_congr
  intro q _
  simp

theorem Inv.slotsConsistent (h : Inv g ins s) : SlotsConsistent s where
  rounded := by
    intro k hk
    have hw := h.clocks.shape k hk
    rw [hw.currentTime, hw.tickMs]
    rfl
  cell := by
    intro x b hx
    have hseat := h.seats x b hx
    have hlev := hseat.live.level h
    refine ⟨hlev, ?_⟩
    rw [hseat.start, (h.clocks.shape b.1 hlev).tickMs]
    unfold down
    rw [Int.mul_ediv_cancel_left _ (g.T_pos b.1).ne']
    rfl
  queued := by
    intro x b hx
    have hlive := (h.seats x b hx).live
    split_ifs with hact
    · apply List.countP_eq_zero.mpr
      intro q hq
      simpa using (h.working b hact).alone q hq
    · obtain ⟨q, hq, hqb⟩ := hlive.resolve_right hact
      have hpos : 0 < s.queue.countP (fun q => q.bucket = b) :=
        List.countP_pos_iff.mpr ⟨q, hq, by simpa using hqb⟩
      have hle := countP_bucket h b
      omega

theorem Inv.linkedOnce (h : Inv g ins s) (hx : (s.entry x).list = some b) : LinkedOnce s x := by
  refine ⟨b.1, b.2, hx, ?_⟩
  intro m
  split_ifs with hm
  · subst hm
    exact List.count_eq_one_of_mem (h.links.nodup b.1) (h.links.mem x b hx)
  · apply List.count_eq_zero_of_not_mem
    intro hmem
    obtain ⟨_, j, hj⟩ := h.links.of_mem m x hmem
    rw [hx] at hj
    exact hm (congrArg Prod.fst (Option.some.inj hj)).symm

theorem Inv.linkedNowhere (h : Inv g ins s) (hx : (s.entry x).list = none) :
    LinkedNowhere s x := by
  refine ⟨hx, ?_⟩
  intro m hmem
  obtain ⟨_, j, hj⟩ := h.links.of_mem m x hmem
  rw [hx] at hj
  cases hj

theorem Inv.handedOver_iff (h : Inv g ins s) (hx : x < s.count) :
    HandedOver s x ↔ x ∈ s.deleted := by
  unfold HandedOver
  rw [h.owned.handed, (h.owned.task x hx).1]

theorem Good.entriesOwned (h : Good g s) : EntriesOwned s where
  once := by
    intro t
    rw [h.inv.owned.handed]
    exact List.nodup_iff_count_le_one.mp h.inv.owned.nodup t
  owner := by
    intro x hx
    rw [h.inv.handedOver_iff hx]
    by_cases hd : x ∈ s.deleted
    · exact .inr (.inr ⟨hd, hd, h.inv.linkedNowhere (h.inv.owned.unlinked x hd).2⟩)
    · cases hl : (s.entry x).list with
      | some b => exact .inl ⟨h.inv.linkedOnce hl, hd, hd⟩
      | none =>
        refine .inr (.inl ⟨?_, h.inv.linkedNowhere hl, hd, hd⟩)
        by_contra hph
        have hown := h.inv.owned.linked_or_deleted x hx ?_
        · rcases hown with h1 | h1
          · exact h1 hl
          · exact hd h1
        · intro hins
          apply hph
          cases hp : s.phase with
          | reinserting b y =>
            rw [hp] at hins
            exact ⟨b, by rw [Option.some.inj hins]⟩
          | _ =>
            rw [hp] at hins
            cases hins

end

/-! ## Main results -/

theorem slots_consistent_of_ordered (g : Geometry) (s : Timer)
    (h : (system g.num g.tick g.size).Reach (InRange g Ordered) s) : SlotsConsistent s :=
  (reach_good h).inv.slotsConsistent

theorem slots_consistent_during_flush :
    ∃ s, (system .long 1 3).exec (InRange unitWheel Ordered) (new .long 1 3 0)
        [.add 4, .add 5, .clock 4, .poll 0, .add 6, .advance, .take] = some s ∧
      SlotsConsistent s := by
  obtain ⟨s, hs, hreach, -⟩ := System.exists_reach (M := system .long 1 3)
    (G := InRange unitWheel Ordered) [.add 4, .add 5, .clock 4, .poll 0, .add 6, .advance, .take]
    (fun _ => true) ⟨0, rfl, rfl⟩ (by decide)
  exact ⟨s, hs, slots_consistent_of_ordered unitWheel s hreach⟩

/-- Task 4 is polled, task 1 is added before the lock and queues slot 1, and the flush puts task
4 into the same slot and queues it again. -/
theorem slot_shared_after_late_add :
    ∃ s, (system .long 1 3).exec System.Free (new .long 1 3 0)
        [.add 4, .clock 4, .poll 0, .add 1, .advance, .take, .reinsert] = some s ∧
      (system .long 1 3).Reach System.Free s ∧ ¬ SlotsConsistent s := by
  obtain ⟨s, hs, hreach, hp⟩ := System.exists_reach (M := system .long 1 3) (G := System.Free)
    [.add 4, .clock 4, .poll 0, .add 1, .advance, .take, .reinsert]
    (fun s => (s.entry 0).list = some (0, 1) ∧ (s.entry 0).expiration = 4 ∧
      (s.entry 1).list = some (0, 1) ∧ (s.entry 1).expiration = 1 ∧ (s.wheel 0).tickMs = 1)
    ⟨0, rfl, rfl⟩ (by decide)
  refine ⟨s, hs, hreach, ?_⟩
  intro hc
  obtain ⟨h0, e0, h1, e1, htick⟩ := of_decide_eq_true hp
  have c0 := (hc.cell 0 (0, 1) h0).2
  have c1 := (hc.cell 1 (0, 1) h1).2
  rw [htick, e0] at c0
  rw [htick, e1, ← c0] at c1
  revert c1
  decide

theorem entries_owned_of_ordered (g : Geometry) (s : Timer)
    (h : (system g.num g.tick g.size).Reach (InRange g Ordered) s) : EntriesOwned s :=
  (reach_good h).entriesOwned

theorem entries_owned_during_flush :
    ∃ s, (system .long 1 3).exec (InRange unitWheel Ordered) (new .long 1 3 0)
        [.add 1, .add 2, .clock 1, .poll 0, .advance, .take, .reinsert, .take] = some s ∧
      EntriesOwned s := by
  obtain ⟨s, hs, hreach, -⟩ := System.exists_reach (M := system .long 1 3)
    (G := InRange unitWheel Ordered)
    [.add 1, .add 2, .clock 1, .poll 0, .advance, .take, .reinsert, .take]
    (fun _ => true) ⟨0, rfl, rfl⟩ (by decide)
  exact ⟨s, hs, entries_owned_of_ordered unitWheel s hreach⟩

/-- Task 2 is polled, task 1 is added before the lock, and the flush of the bucket of task 2
meets task 1 as an entry of another bucket that is due: it is deleted while it is linked. -/
theorem deleted_entry_linked_after_late_add :
    ∃ s, (system .long 1 3).exec System.Free (new .long 1 3 0)
        [.add 2, .clock 2, .poll 0, .add 1, .advance, .take, .reinsert, .take, .reinsert] =
          some s ∧
      (system .long 1 3).Reach System.Free s ∧ ¬ EntriesOwned s := by
  obtain ⟨s, hs, hreach, hp⟩ := System.exists_reach (M := system .long 1 3) (G := System.Free)
    [.add 2, .clock 2, .poll 0, .add 1, .advance, .take, .reinsert, .take, .reinsert]
    (fun s => 1 < s.count ∧ 1 ∈ s.deleted ∧ (s.entry 1).list = some (0, 1)) ⟨0, rfl, rfl⟩
    (by decide)
  refine ⟨s, hs, hreach, ?_⟩
  intro hc
  obtain ⟨hlt, hdel, hlist⟩ := of_decide_eq_true hp
  rcases hc.owner 1 hlt with ⟨_, _, h⟩ | ⟨_, _, _, h⟩ | ⟨_, _, h, _⟩
  · exact h hdel
  · exact h hdel
  · rw [hlist] at h
    cases h

/-- The first wheel's clock is not past the clock reading, and no task was handed over more than a
tick before its expiration. -/
structure NeverEarly (tickMs : ℤ) (s : Timer) : Prop where
  clock_le : (s.wheel 0).currentTime ≤ s.now
  early : ∀ x < s.count, ∀ t, ((s.entry x).timerTask, t) ∈ s.handed →
    (s.entry x).expiration < t + tickMs

/-- `Sequential` is a run of whole calls: no `add` comes inside a call of `advanceClock`. -/
theorem never_early (g : Geometry) (s : Timer)
    (h : (system g.num g.tick g.size).Reach (InRange g Sequential) s) : NeverEarly g.tick s := by
  have hg := reach_good_of_sequential h
  refine ⟨hg.inv.clocks.le_now, ?_⟩
  intro x hx t ht
  rw [(hg.inv.owned.task x hx).1] at ht
  exact hg.inv.owned.early (x, t) ht

theorem never_early_after_cascade :
    ∃ s, (system .long 2 3).exec (InRange ⟨.long, 2, 3, by decide, by decide⟩ Sequential)
        (new .long 2 3 0)
        [.add 8, .clock 8, .poll 0, .advance, .take, .reinsert, .endFlush, .poll 0, .advance,
          .take, .reinsert] = some s ∧
      s.handed = [(0, 8)] ∧ NeverEarly 2 s := by
  obtain ⟨s, hs, hreach, hp⟩ := System.exists_reach (M := system .long 2 3)
    (G := InRange ⟨.long, 2, 3, by decide, by decide⟩ Sequential)
    [.add 8, .clock 8, .poll 0, .advance, .take, .reinsert, .endFlush, .poll 0, .advance,
      .take, .reinsert]
    (fun s => s.handed = [(0, 8)]) ⟨0, rfl, rfl⟩ (by decide)
  exact ⟨s, hs, of_decide_eq_true hp, never_early ⟨.long, 2, 3, by decide, by decide⟩ s hreach⟩

/-- A task for five years from now. The sum at the second wheel wraps, the third wheel is made with
a clock of zero, and there the task is due. -/
theorem early_after_overflow :
    ∃ s, (system .long 2147483647 65536).exec Sequential
        (new .long 2147483647 65536 1700000000000000) [.add 1857680000000000] = some s ∧
      (system .long 2147483647 65536).Reach Sequential s ∧ ¬ NeverEarly 2147483647 s := by
  obtain ⟨s, hs, hreach, hp⟩ := System.exists_reach (M := system .long 2147483647 65536)
    (G := Sequential) [.add 1857680000000000]
    (fun s => 0 < s.count ∧ (s.entry 0).timerTask = 0 ∧ s.handed = [(0, 1700000000000000)] ∧
      (s.entry 0).expiration = 1857680000000000) ⟨1700000000000000, by decide, rfl⟩ (by decide)
  obtain ⟨hlt, htask, hhanded, hexp⟩ := of_decide_eq_true hp
  refine ⟨s, hs, hreach, ?_⟩
  intro hn
  have hearly := hn.early 0 hlt 1700000000000000 (by rw [htask, hhanded]; simp)
  rw [hexp] at hearly
  revert hearly
  decide

end Mutty.Timing
