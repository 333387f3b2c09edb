import Mathlib.Data.List.Perm.Basic
import Mutty.Lib.Locked
import Mutty.Timing.Termination

/-!
# The delay queue under its spin lock

`offer` and `poll` of the timer machine are single steps. In the code each holds the spin lock
around several: `poll` tests for an empty queue, copies the top, reads the clock and pops. Here the
calls of any number of threads interleave step by step, and their completed calls are shown to be
calls of the machine's `offer` and `poll`, one after another.
-/

namespace Mutty.Timing

open Mutty.Lib

namespace DelayQueue

inductive QueueCall
  | offer (bucket : Bucket) (expiration : ℤ)
  | poll
  deriving DecidableEq

inductive QueuePc
  | emplace (bucket : Bucket) (expiration : ℤ)
  | empty
  | top
  | getDelay (i : ℕ) (first : DelayQueueEntry)
  | pop (i : ℕ) (first : DelayQueueEntry)
  deriving DecidableEq

/-- What a step reads: nothing, which of the least entries is on top, or the clock. -/
inductive QueueInput
  | nothing
  | top (i : ℕ)
  | now (time : ℤ)
  deriving DecidableEq

inductive QueueResult
  | offered
  | polled (bucket : Option Bucket)
  deriving DecidableEq

def start : QueueCall → QueuePc
  | .offer bucket expiration => .emplace bucket expiration
  | .poll => .empty

def step (pc : QueuePc) (q : List DelayQueueEntry) (input : QueueInput) :
    Option ((QueuePc ⊕ QueueResult) × List DelayQueueEntry) :=
  match pc, input with
  | .emplace bucket expiration, .nothing => some (.inr .offered, q ++ [⟨expiration, bucket⟩])
  | .empty, .nothing => some (if q = [] then .inr (.polled none) else .inl .top, q)
  | .top, .top i =>
    match q[i]? with
    | none => none
    | some first =>
      if ∀ e ∈ q, first.expiration ≤ e.expiration then some (.inl (.getDelay i first), q) else none
  | .getDelay i first, .now time =>
    some (if first.expiration > time then .inr (.polled none) else .inl (.pop i first), q)
  | .pop i first, .nothing => some (.inr (.polled (some first.bucket)), q.eraseIdx i)
  | _, _ => none

def criticalSection :
    Section (List DelayQueueEntry) QueueCall QueueInput QueuePc QueueResult where
  start := start
  step := step

def concurrent := lockMachine criticalSection fun q => q = []

abbrev State := Locked (List DelayQueueEntry) QueueCall QueueInput QueuePc QueueResult

abbrev Completed := Call QueueCall QueueInput QueueResult

/-- The call as one step of the timer, with the clock at what the call has read. -/
def Atomic (s s' : Timer) (c : Completed) : Prop :=
  match c.op, c.result with
  | .offer bucket expiration, .offered => s' = offer s bucket expiration
  | .poll, .polled bucket =>
    ∃ i now, (s.queue ≠ [] → .now now ∈ c.inputs) ∧
      poll { s with now } i = some (bucket, { s with now, queue := s'.queue }) ∧
      s' = { s with queue := s'.queue }
  | _, _ => False

inductive AtomicRun (s : Timer) : List Completed → Timer → Prop
  | nil : AtomicRun s [] s
  | snoc {calls : List Completed} {c : Completed} {s' s'' : Timer} :
      AtomicRun s calls s' → Atomic s' s'' c → AtomicRun s (calls ++ [c]) s''

def QueueCall.buckets : QueueCall → List Bucket
  | .offer bucket _ => [bucket]
  | .poll => []

def QueueResult.buckets : QueueResult → List Bucket
  | .offered => []
  | .polled bucket => bucket.toList

def offeredBuckets (calls : List Completed) : List Bucket := calls.flatMap fun c => c.op.buckets

def polledBuckets (calls : List Completed) : List Bucket := calls.flatMap fun c => c.result.buckets

/-! ## One call -/

def Top (q : List DelayQueueEntry) (i : ℕ) (first : DelayQueueEntry) : Prop :=
  q[i]? = some first ∧ ∀ e ∈ q, first.expiration ≤ e.expiration

/-- How far a call has come that found the queue `q` when it got the lock. -/
def Partial (op : QueueCall) (q : List DelayQueueEntry) (inputs : List QueueInput) :
    QueuePc ⊕ QueueResult → List DelayQueueEntry → Prop
  | .inl (.emplace bucket expiration), q' => op = .offer bucket expiration ∧ q' = q
  | .inl .empty, q' => op = .poll ∧ q' = q
  | .inl .top, q' => op = .poll ∧ q' = q ∧ q ≠ []
  | .inl (.getDelay i first), q' => op = .poll ∧ q' = q ∧ Top q i first
  | .inl (.pop i first), q' => op = .poll ∧ q' = q ∧ Top q i first ∧
      ∃ now, .now now ∈ inputs ∧ first.expiration ≤ now
  | .inr .offered, q' =>
    ∃ bucket expiration, op = .offer bucket expiration ∧ q' = q ++ [⟨expiration, bucket⟩]
  | .inr (.polled none), q' => op = .poll ∧ q' = q ∧
      (q = [] ∨ ∃ i first now, Top q i first ∧ .now now ∈ inputs ∧ first.expiration > now)
  | .inr (.polled (some bucket)), q' => op = .poll ∧ ∃ i first now, Top q i first ∧
      .now now ∈ inputs ∧ first.expiration ≤ now ∧ bucket = first.bucket ∧ q' = q.eraseIdx i

theorem Partial.step {op : QueueCall} {q₀ q q' : List DelayQueueEntry} {inputs : List QueueInput}
    {pc : QueuePc} {input : QueueInput} {next : QueuePc ⊕ QueueResult}
    (h : Partial op q₀ inputs (.inl pc) q) (hstep : step pc q input = some (next, q')) :
    Partial op q₀ (inputs ++ [input]) next q' := by
  cases pc with
  | emplace bucket expiration =>
    cases input with
    | nothing =>
      obtain ⟨rfl, rfl⟩ := Prod.mk.inj (Option.some.inj hstep)
      exact ⟨bucket, expiration, h.1, by rw [h.2]⟩
    | top i => cases hstep
    | now time => cases hstep
  | empty =>
    cases input with
    | nothing =>
      obtain ⟨rfl, rfl⟩ := Prod.mk.inj (Option.some.inj hstep)
      obtain ⟨hop, rfl⟩ := h
      split_ifs with hq
      · exact ⟨hop, rfl, Or.inl hq⟩
      · exact ⟨hop, rfl, hq⟩
    | top i => cases hstep
    | now time => cases hstep
  | top =>
    cases input with
    | nothing => cases hstep
    | top i =>
      obtain ⟨hop, rfl, -⟩ := h
      simp only [DelayQueue.step] at hstep
      split at hstep
      · cases hstep
      · rename_i first hfirst
        split_ifs at hstep with hleast
        obtain ⟨rfl, rfl⟩ := Prod.mk.inj (Option.some.inj hstep)
        exact ⟨hop, rfl, hfirst, hleast⟩
    | now time => cases hstep
  | getDelay i first =>
    cases input with
    | nothing => cases hstep
    | top j => cases hstep
    | now time =>
      obtain ⟨hop, rfl, htop⟩ := h
      obtain ⟨rfl, rfl⟩ := Prod.mk.inj (Option.some.inj hstep)
      split_ifs with hlate
      · exact ⟨hop, rfl, Or.inr ⟨i, first, time, htop, by simp, hlate⟩⟩
      · exact ⟨hop, rfl, htop, time, by simp, Int.not_lt.mp hlate⟩
  | pop i first =>
    cases input with
    | nothing =>
      obtain ⟨hop, rfl, htop, now, hnow, hdue⟩ := h
      obtain ⟨rfl, rfl⟩ := Prod.mk.inj (Option.some.inj hstep)
      exact ⟨hop, i, first, now, htop, List.mem_append_left _ hnow, hdue, rfl, rfl⟩
    | top j => cases hstep
    | now time => cases hstep

theorem exec_partial {op : QueueCall} {q q' : List DelayQueueEntry} {inputs : List QueueInput}
    {next : QueuePc ⊕ QueueResult}
    (h : criticalSection.exec (criticalSection.start op) q inputs = some (next, q')) :
    Partial op q inputs next q' := by
  refine Section.exec_keeps (R := Partial op q) ?_ h ?_
  · intro is k s i next s' hk hstep
    exact hk.step hstep
  · cases op with
    | offer bucket expiration => exact ⟨rfl, rfl⟩
    | poll => exact ⟨rfl, rfl⟩

theorem atomic_of_exec {s : Timer} {c : Completed} {q' : List DelayQueueEntry}
    (h : criticalSection.exec (criticalSection.start c.op) s.queue c.inputs =
      some (.inr c.result, q')) :
    Atomic s { s with queue := q' } c := by
  have hpartial := exec_partial h
  cases hresult : c.result with
  | offered =>
    rw [hresult] at hpartial
    obtain ⟨bucket, expiration, hop, rfl⟩ := hpartial
    simp only [Atomic, hop, hresult]
    rfl
  | polled bucket =>
    rw [hresult] at hpartial
    cases bucket with
    | none =>
      obtain ⟨hop, rfl, hnone⟩ := hpartial
      simp only [Atomic, hop, hresult]
      rcases hnone with hempty | ⟨i, first, now, ⟨hi, hleast⟩, hnow, hlate⟩
      · exact ⟨0, 0, fun hne => absurd hempty hne, by simp [poll, hempty], trivial⟩
      · refine ⟨i, now, fun _ => hnow, ?_, trivial⟩
        simp only [poll, hi, if_pos hleast, if_pos hlate]
    | some bucket =>
      obtain ⟨hop, i, first, now, ⟨hi, hleast⟩, hnow, hdue, rfl, rfl⟩ := hpartial
      simp only [Atomic, hop, hresult]
      refine ⟨i, now, fun _ => hnow, ?_, trivial⟩
      simp only [poll, hi, if_pos hleast, if_neg (Int.not_lt.mpr hdue)]

/-! ## Runs -/

theorem atomicRun_of_serial {s : Timer} {calls : List Completed} {q' : List DelayQueueEntry}
    (h : criticalSection.Serial s.queue calls q') : AtomicRun s calls { s with queue := q' } := by
  generalize hq : s.queue = q at h
  induction h with
  | nil =>
    rw [← hq]
    exact .nil
  | snoc _ hcall ih => exact .snoc ih (atomic_of_exec (s := { s with queue := _ }) hcall)

theorem poll_buckets {s s' : Timer} {i : ℕ} {bucket : Option Bucket}
    (h : poll s i = some (bucket, s')) : (s.queue.map DelayQueueEntry.bucket).Perm
      (bucket.toList ++ s'.queue.map DelayQueueEntry.bucket) := by
  unfold poll at h
  split at h
  · split_ifs at h
    obtain ⟨rfl, rfl⟩ := Prod.mk.inj (Option.some.inj h)
    exact List.Perm.refl _
  · rename_i first hfirst
    split_ifs at h
    · obtain ⟨rfl, rfl⟩ := Prod.mk.inj (Option.some.inj h)
      exact List.Perm.refl _
    · obtain ⟨rfl, rfl⟩ := Prod.mk.inj (Option.some.inj h)
      obtain ⟨hlt, hget⟩ := List.getElem?_eq_some_iff.mp hfirst
      have hperm := (List.getElem_cons_eraseIdx_perm hlt).symm.map DelayQueueEntry.bucket
      rwa [hget] at hperm

theorem AtomicRun.conserved {s s' : Timer} {calls : List Completed} (h : AtomicRun s calls s')
    (hs : s.queue = []) : (offeredBuckets calls).Perm
      (polledBuckets calls ++ s'.queue.map DelayQueueEntry.bucket) := by
  induction h with
  | nil => simp [offeredBuckets, polledBuckets, hs]
  | snoc _ hcall ih =>
    rename_i calls c s' s'' _
    simp only [offeredBuckets, polledBuckets, List.flatMap_append, List.flatMap_singleton] at ih ⊢
    cases hop : c.op with
    | offer bucket expiration =>
      cases hresult : c.result with
      | polled _ => simp [Atomic, hop, hresult] at hcall
      | offered =>
        simp only [Atomic, hop, hresult] at hcall
        rw [hcall]
        simp only [QueueCall.buckets, QueueResult.buckets, offer, List.map_append, List.append_nil, List.map_singleton, ← List.append_assoc]
        exact ih.append_right _
    | poll =>
      cases hresult : c.result with
      | offered => simp [Atomic, hop, hresult] at hcall
      | polled bucket =>
        simp only [Atomic, hop, hresult] at hcall
        obtain ⟨i, now, -, hpoll, -⟩ := hcall
        simp only [QueueCall.buckets, QueueResult.buckets, List.append_nil]
        refine ih.trans ?_
        rw [List.append_assoc]
        exact (poll_buckets hpoll).append_left _

theorem exists_input {op : QueueCall} {q q' : List DelayQueueEntry} {inputs : List QueueInput}
    {pc : QueuePc}
    (h : criticalSection.exec (criticalSection.start op) q inputs = some (.inl pc, q')) :
    ∃ i, (criticalSection.step pc q' i).isSome := by
  have hpartial := exec_partial h
  cases pc with
  | emplace bucket expiration => exact ⟨.nothing, rfl⟩
  | empty => exact ⟨.nothing, rfl⟩
  | getDelay i first => exact ⟨.now 0, rfl⟩
  | pop i first => exact ⟨.nothing, rfl⟩
  | top =>
    obtain ⟨-, rfl, hne⟩ := hpartial
    obtain ⟨i, first, hfirst, hleast⟩ := exists_top _ hne
    refine ⟨.top i, ?_⟩
    simp [criticalSection, step, hfirst, if_pos hleast]

/-- However the calls of any number of threads interleave, the completed ones are calls of the
timer's `offer` and `poll` one after another, in the order of their returns, with the clock at what
each has read. Every bucket offered is polled once or still there, and while a call is on its way
some step is enabled. -/
theorem concurrent_atomic {st : State} (h : System.Reach concurrent System.Free st) (s : Timer)
    (hs : s.queue = []) :
    ∃ s', AtomicRun s st.calls s' ∧ (st.holder = none → st.object = s'.queue) ∧
      (offeredBuckets st.calls).Perm
        (polledBuckets st.calls ++ s'.queue.map DelayQueueEntry.bucket) ∧
      ((∃ t, st.place t ≠ .outside) →
        ∃ a, (∀ t op, a ≠ .call t op) ∧ (st.run criticalSection a).isSome) := by
  obtain ⟨base, hbase⟩ := Locked.Serialized.reach h
  obtain ⟨first, rfl, hserial⟩ := hbase.serial
  rw [← hs] at hserial
  have hrun := atomicRun_of_serial hserial
  refine ⟨{ s with queue := base }, hrun, hbase.free, hrun.conserved hs, ?_⟩
  rintro ⟨t, ht⟩
  exact hbase.exists_step (fun op inputs k object hexec => exists_input hexec) ht

theorem concurrent_atomic_poll_waits :
    ∃ (st : State) (s' : Timer), System.Reach concurrent System.Free st ∧
      polledBuckets st.calls = [(0, 3)] ∧ AtomicRun (Timing.new .long 10 4 0) st.calls s' ∧
      s'.queue = [] := by
  obtain ⟨st, -, hreach, hp⟩ := System.exists_reach (M := concurrent) (G := System.Free)
    [.call 0 (.offer (0, 3) 35), .call 1 .poll, .acquire 0, .step 0 .nothing, .release 0,
      .acquire 1, .step 1 .nothing, .step 1 (.top 0), .call 0 .poll, .step 1 (.now 40),
      .step 1 .nothing, .release 1]
    (fun st => st.holder = none ∧ st.object = [] ∧ polledBuckets st.calls = [(0, 3)])
    ⟨[], rfl, rfl⟩ (by decide)
  obtain ⟨hfree, hempty, hpolled⟩ := of_decide_eq_true hp
  obtain ⟨s', hrun, hobject, -, -⟩ := concurrent_atomic hreach (Timing.new .long 10 4 0) rfl
  exact ⟨st, s', hreach, hpolled, hrun, (hobject hfree).symm.trans hempty⟩

end DelayQueue
end Mutty.Timing
