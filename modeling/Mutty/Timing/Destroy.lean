import Mutty.Lib.Checked
import Mutty.Timing.Safety

/-!
# The destruction of a timer

`~Timer` deletes its wheels, the overflow wheel first, and with them their buckets. The buckets of a
wheel share one ring, and `~TimerTaskList` deletes the entries of the ring but does not reset its
root. So the second bucket follows the root to an entry that the first has deleted: a timer can
be destroyed when all of its tasks have been handed over, and never before.
-/

namespace Mutty.Timing

open Mutty.Lib

/-! ## The destructors -/

/-- The walk of `~TimerTaskList`; the next entry is read from one that must not be deleted yet. -/
def TimerTaskList.deleteEntries (s : Timer) : List EntryId → Checked Timer
  | [] => .ok s
  | itd :: rest =>
    if itd ∈ s.deleted then .error .null
    else deleteEntries { s with deleted := s.deleted ++ [itd] } rest

def TimerTaskList.destroy (s : Timer) (b : Bucket) : Checked Timer :=
  TimerTaskList.deleteEntries s (s.wheel b.1).root

namespace TimingWheel

/-- The first `n` buckets of `m_buckets`. -/
def destroyBuckets (s : Timer) (k : ℕ) : ℕ → Checked Timer
  | 0 => .ok s
  | n + 1 => do
    let s ← destroyBuckets s k n
    TimerTaskList.destroy s (k, n)

/-- The first argument counts the wheels from `k` on. -/
def destroy : ℕ → Timer → ℕ → Checked Timer
  | 0, s, _ => .ok s
  | rest + 1, s, k => do
    let s ← destroy rest s (k + 1)
    destroyBuckets s k (s.wheel k).wheelSize

end TimingWheel

def Timer.destroy (s : Timer) : Checked Timer := TimingWheel.destroy s.levels s 0

/-! ## What they do to the rings -/

variable {s s' : Timer} {k n : ℕ}

theorem deleteEntries_ok {l : List EntryId} (h : TimerTaskList.deleteEntries s l = .ok s') :
    s'.wheel = s.wheel ∧ s.deleted ⊆ s'.deleted ∧ l ⊆ s'.deleted ∧ ∀ x ∈ l, x ∉ s.deleted := by
  induction l generalizing s with
  | nil =>
    obtain rfl := Except.ok.inj h
    exact ⟨rfl, List.Subset.refl _, List.nil_subset _, fun _ hx => absurd hx List.not_mem_nil⟩
  | cons itd rest ih =>
    simp only [TimerTaskList.deleteEntries] at h
    split_ifs at h with hdel
    obtain ⟨hwheel, hkeep, hrest, hfresh⟩ := ih h
    have hitd : itd ∈ s'.deleted := hkeep (List.mem_append_right _ (List.mem_singleton.mpr rfl))
    refine ⟨hwheel, fun x hx => hkeep (List.mem_append_left _ hx), ?_, ?_⟩
    · exact List.cons_subset.mpr ⟨hitd, hrest⟩
    · intro x hx
      rcases List.mem_cons.mp hx with rfl | hx
      · exact hdel
      · exact fun hmem => hfresh x hx (List.mem_append_left _ hmem)

/-- The ring is as long for the second bucket as for the first, and all of it has been deleted. -/
theorem destroyBuckets_ok (h : TimingWheel.destroyBuckets s k n = .ok s') :
    s'.wheel = s.wheel ∧ (1 ≤ n → ring s k ⊆ s'.deleted) ∧ (2 ≤ n → ring s k = []) := by
  induction n generalizing s' with
  | zero =>
    obtain rfl := Except.ok.inj h
    exact ⟨rfl, fun hn => absurd hn (by omega), fun hn => absurd hn (by omega)⟩
  | succ n ih =>
    obtain ⟨s₁, hbuckets, hlast⟩ := bind_eq_ok.mp h
    obtain ⟨hwheel, hdeleted, -⟩ := ih hbuckets
    obtain ⟨hwheel', -, hall, hfresh⟩ := deleteEntries_ok hlast
    rw [hwheel] at hall hfresh
    refine ⟨hwheel'.trans hwheel, fun _ => hall, fun hn => ?_⟩
    refine List.eq_nil_iff_forall_not_mem.mpr fun x hx => ?_
    exact hfresh x hx (hdeleted (by omega) hx)

theorem destroy_ok {rest : ℕ} (h : TimingWheel.destroy rest s k = .ok s') :
    s'.wheel = s.wheel ∧
      ∀ m, k ≤ m → m < k + rest → 2 ≤ (s.wheel m).wheelSize → ring s m = [] := by
  induction rest generalizing k s' with
  | zero =>
    obtain rfl := Except.ok.inj h
    exact ⟨rfl, fun m hk hm => absurd hm (by omega)⟩
  | succ rest ih =>
    obtain ⟨s₁, habove, hbuckets⟩ := bind_eq_ok.mp h
    obtain ⟨hwheel, hrings⟩ := ih habove
    obtain ⟨hwheel', -, hring⟩ := destroyBuckets_ok hbuckets
    rw [hwheel] at hring
    refine ⟨hwheel'.trans hwheel, fun m hk hm hsize => ?_⟩
    rcases Nat.eq_or_lt_of_le hk with rfl | hlt
    · have hempty := hring hsize
      rwa [ring, hwheel] at hempty
    · exact hrings m hlt (by omega) hsize

theorem destroyBuckets_of_empty (h : ring s k = []) (n : ℕ) :
    TimingWheel.destroyBuckets s k n = .ok s := by
  induction n with
  | zero => rfl
  | succ n ih =>
    refine bind_eq_ok.mpr ⟨s, ih, ?_⟩
    rw [TimerTaskList.destroy, show (s.wheel k).root = [] from h]
    rfl

theorem destroy_of_empty (h : ∀ m, ring s m = []) (rest k : ℕ) :
    TimingWheel.destroy rest s k = .ok s := by
  induction rest generalizing k with
  | zero => rfl
  | succ rest ih => exact bind_eq_ok.mpr ⟨s, ih (k + 1), destroyBuckets_of_empty (h k) _⟩

/-! ## When a timer can be destroyed -/

variable {g : Geometry}

/-- Between two calls of `advanceClock` an entry is in a ring or it has been handed over. -/
theorem Inv.rings_empty_iff (h : Inv g none s) :
    (∀ m, ring s m = []) ↔ ∀ x < s.count, HandedOver s x := by
  constructor
  · intro hempty x hx
    rw [h.handedOver_iff hx]
    refine (h.owned.linked_or_deleted x hx (by simp)).resolve_left fun hlist => ?_
    obtain ⟨b, hb⟩ := Option.ne_none_iff_exists'.mp hlist
    have hmem := h.links.mem x b hb
    rw [hempty b.1] at hmem
    cases hmem
  · intro hall m
    refine List.eq_nil_iff_forall_not_mem.mpr fun x hx => ?_
    obtain ⟨-, j, hj⟩ := h.links.of_mem m x hx
    have hlt : x < s.count := by
      by_contra hge
      rw [h.owned.fresh x (Nat.not_lt.mp hge)] at hj
      cases hj
    have hdel := (h.handedOver_iff hlt).mp (hall x hlt)
    rw [(h.owned.unlinked x hdel).2] at hj
    cases hj

/-- Between two calls of `advanceClock`, after a run in range whose late adds are ordered. -/
theorem destroy_ok_iff (g : Geometry) (s : Timer)
    (h : (system g.num g.tick g.size).Reach (InRange g Ordered) s) (hidle : s.phase = .idle) :
    (∃ s', s.destroy = .ok s') ↔ ∀ x < s.count, HandedOver s x := by
  have hinv := (reach_good h).inv_none (by rw [hidle]; rfl)
  rw [← hinv.rings_empty_iff]
  constructor
  · rintro ⟨s', hs'⟩ m
    obtain ⟨-, hrings⟩ := destroy_ok hs'
    by_cases hm : m < s.levels
    · refine hrings m (Nat.zero_le m) (by omega) ?_
      rw [(hinv.clocks.shape m hm).wheelSize]
      exact g.size_two
    · refine List.eq_nil_iff_forall_not_mem.mpr fun x hx => ?_
      exact hm (hinv.links.of_mem m x hx).1
  · intro hempty
    exact ⟨s, destroy_of_empty hempty _ _⟩

/-- Of two tasks, one has been handed over, and the other is in its bucket when `~Timer` runs. -/
theorem destroy_ok_iff_pending : ∃ s, (system .long 1 3).Reach (InRange unitWheel Ordered) s ∧
    s.phase = .idle ∧ s.count = 2 ∧ HandedOver s 0 ∧ ¬ HandedOver s 1 ∧
    ¬ ∃ s', s.destroy = .ok s' := by
  obtain ⟨s, -, hreach, hp⟩ := System.exists_reach (M := system .long 1 3)
    (G := InRange unitWheel Ordered)
    [.add 1, .add 7, .clock 1, .poll 0, .advance, .take, .reinsert, .endFlush, .poll 0]
    (fun s => s.phase = .idle ∧ s.count = 2 ∧ (s.entry 0).timerTask ∈ s.handed.map Prod.fst ∧
      (s.entry 1).timerTask ∉ s.handed.map Prod.fst) ⟨0, rfl, rfl⟩ (by decide)
  obtain ⟨hidle, hcount, hhanded, hpending⟩ := of_decide_eq_true hp
  have hiff := destroy_ok_iff unitWheel s hreach hidle
  refine ⟨s, hreach, hidle, hcount, hhanded, hpending, fun hok => ?_⟩
  exact hpending (hiff.mp hok 1 (by omega))

end Mutty.Timing
