import Mathlib.Data.Multiset.AddSub
import Mathlib.Order.Bounds.Basic
import Mutty.Buffer.PoolChunk

/-!
# The queue of runs as a bag

`BagStep` says what a priority queue is for: a bag of values from which `poll` takes the least.
Every sequence of calls on a fresh `LongPriorityQueue` answers as the bag does, keeps the heap
order, and stays inside the array. `size` and the indices are `int` in the source; a chunk has at
most `2 ^ 18` pages, so they are natural numbers here.
-/

namespace Mutty.Buffer

open Mutty.Lib

inductive QueueCall
  | offer (handle : Int64)
  | remove (value : Int64)
  | poll
  | peek
  deriving DecidableEq

/-- A call on a bag of values, with the value it returns and the bag after it. -/
inductive BagStep : Multiset Int64 → QueueCall → Option Int64 → Multiset Int64 → Prop
  | offer (m : Multiset Int64) (v : Int64) : BagStep m (.offer v) none (v ::ₘ m)
  | remove (m : Multiset Int64) (v : Int64) : BagStep m (.remove v) none (m.erase v)
  | poll {m : Multiset Int64} {x : Int64} (hx : IsLeast {y | y ∈ m} x) :
      BagStep m .poll (some x) (m.erase x)
  | pollEmpty : BagStep 0 .poll (some (-1)) 0
  | peek {m : Multiset Int64} {x : Int64} (hx : IsLeast {y | y ∈ m} x) : BagStep m .peek (some x) m
  | peekEmpty : BagStep 0 .peek (some (-1)) 0

inductive BagRun : Multiset Int64 → List QueueCall → List (Option Int64) → Multiset Int64 → Prop
  | nil (m : Multiset Int64) : BagRun m [] [] m
  | cons {m m' m'' : Multiset Int64} {a : Option Int64} {c : QueueCall} {answers cs} :
      BagStep m c a m' → BagRun m' cs answers m'' → BagRun m (c :: cs) (a :: answers) m''

namespace LongPriorityQueue

def peek (q : LongPriorityQueue) : Checked Int64 :=
  if q.size = 0 then .ok (-1) else q.get 1

/-- The queue after a call, and the value the call returns. -/
def call (q : LongPriorityQueue) : QueueCall → Checked (LongPriorityQueue × Option Int64)
  | .offer handle => do
    let q ← offer q handle
    return (q, none)
  | .remove value => do
    let q ← q.remove value
    return (q, none)
  | .poll => do
    let (val, q) ← poll q
    return (q, some val)
  | .peek => do
    let val ← peek q
    return (q, some val)

def calls : LongPriorityQueue → List QueueCall → Checked (LongPriorityQueue × List (Option Int64))
  | q, [] => return (q, [])
  | q, c :: cs => do
    let (q, a) ← call q c
    let (q, answers) ← calls q cs
    return (q, a :: answers)

def bag (q : LongPriorityQueue) : Multiset Int64 := q.elems

theorem new_valid : new.Valid :=
  ⟨by decide, by decide, fun j h2 hj => by simp only [new] at hj; omega⟩

variable {q : LongPriorityQueue}

theorem bag_eq_zero (h : q.size = 0) : bag q = 0 := by
  simp [bag, Heap.elems, h]

theorem offer_spec (hv : q.Valid) {handle : Int64} (hne : handle ≠ -1) :
    ∃ q', offer q handle = .ok q' ∧ q'.Valid ∧ q'.elems.Perm (handle :: q.elems) := by
  rw [offer, if_neg hne]
  exact Heap.insert_spec hv handle

theorem isLeast_root (hv : q.Valid) (h1 : 1 ≤ q.size) : IsLeast {y | y ∈ q.elems} (q.array 1) := by
  refine ⟨?_, fun y hy => Heap.root_le hv hy⟩
  exact List.mem_map.mpr ⟨1, List.mem_range'_1.mpr (by omega), rfl⟩

theorem poll_spec (hv : q.Valid) (h1 : 1 ≤ q.size) :
    ∃ x q', poll q = .ok (x, q') ∧ q'.Valid ∧ q.elems.Perm (x :: q'.elems) ∧
      IsLeast {y | y ∈ q.elems} x := by
  obtain ⟨q', hpop, hv', hperm⟩ := Heap.pop_spec hv h1 0
  refine ⟨q.array 1, q', ?_, hv', hperm, isLeast_root hv h1⟩
  rw [poll, if_neg (by omega), hpop]

theorem peek_spec (hv : q.Valid) (h1 : 1 ≤ q.size) : peek q = .ok (q.array 1) := by
  have hr := hv.room
  rw [peek, if_neg (by omega)]
  exact Heap.get_eq (by omega)

theorem call_bagStep (hv : q.Valid) {c : QueueCall} (hc : c ≠ .offer (-1)) :
    ∃ q' a, call q c = .ok (q', a) ∧ q'.Valid ∧ BagStep (bag q) c a (bag q') := by
  cases c with
  | offer handle =>
    obtain ⟨q', hq', hv', hperm⟩ := offer_spec hv fun h => hc (h ▸ rfl)
    refine ⟨q', none, by simp [call, hq', bind, Except.bind, pure, Except.pure], hv', ?_⟩
    have hbag : bag q' = handle ::ₘ bag q := Multiset.coe_eq_coe.mpr hperm
    rw [hbag]
    exact .offer _ _
  | remove value =>
    obtain ⟨q', hq', hv', hperm⟩ := Heap.remove_spec hv value
    refine ⟨q', none, by simp [call, hq', bind, Except.bind, pure, Except.pure], hv', ?_⟩
    have hbag : bag q' = (bag q).erase value := Multiset.coe_eq_coe.mpr hperm
    rw [hbag]
    exact .remove _ _
  | poll =>
    by_cases h0 : q.size = 0
    · refine ⟨q, some (-1), by simp [call, poll, h0, bind, Except.bind, pure, Except.pure], hv, ?_⟩
      rw [bag_eq_zero h0]
      exact .pollEmpty
    · obtain ⟨x, q', hq', hv', hperm, hleast⟩ := poll_spec hv (by omega)
      refine ⟨q', some x, by simp [call, hq', bind, Except.bind, pure, Except.pure], hv', ?_⟩
      have hbag : bag q = x ::ₘ bag q' := Multiset.coe_eq_coe.mpr hperm
      have hrest : bag q' = (bag q).erase x := by rw [hbag, Multiset.erase_cons_head]
      rw [hrest]
      exact .poll hleast
  | peek =>
    by_cases h0 : q.size = 0
    · refine ⟨q, some (-1), by simp [call, peek, h0, bind, Except.bind, pure, Except.pure], hv, ?_⟩
      rw [bag_eq_zero h0]
      exact .peekEmpty
    · have hpeek := peek_spec hv (by omega)
      refine ⟨q, some (q.array 1), by simp [call, hpeek, bind, Except.bind, pure, Except.pure], hv, ?_⟩
      exact .peek (isLeast_root hv (by omega))

theorem calls_bagRun (cs : List QueueCall) (hcs : ∀ c ∈ cs, c ≠ .offer (-1)) (hv : q.Valid) :
    ∃ q' answers, calls q cs = .ok (q', answers) ∧ q'.Valid ∧ BagRun (bag q) cs answers (bag q') := by
  induction cs generalizing q with
  | nil => exact ⟨q, [], rfl, hv, .nil _⟩
  | cons c cs ih =>
    obtain ⟨q₁, a, hcall, hv₁, hstep⟩ := call_bagStep hv (hcs c List.mem_cons_self)
    obtain ⟨q₂, answers, hcalls, hv₂, hrun⟩ :=
      ih (fun c hc => hcs c (List.mem_cons_of_mem _ hc)) hv₁
    refine ⟨q₂, a :: answers, ?_, hv₂, .cons hstep hrun⟩
    simp only [calls, hcall, hcalls, bind, Except.bind, pure, Except.pure]

theorem queue_refines_bag (cs : List QueueCall) (hcs : ∀ c ∈ cs, c ≠ .offer (-1)) :
    ∃ q answers, calls new cs = .ok (q, answers) ∧ Heap.Ordered q.array q.size ∧
      BagRun 0 cs answers (q.elems : Multiset Int64) := by
  obtain ⟨q, answers, hcalls, hv, hrun⟩ := calls_bagRun cs hcs new_valid
  exact ⟨q, answers, hcalls, hv.ordered, hrun⟩

/-- The removed `3` is the last element of the array. -/
theorem queue_refines_bag_after_remove :
    ∃ q answers, calls new [.offer 5, .offer 2, .offer 3, .remove 3, .poll, .poll, .peek] =
        .ok (q, answers) ∧ Heap.Ordered q.array q.size ∧
      BagRun 0 [.offer 5, .offer 2, .offer 3, .remove 3, .poll, .poll, .peek] answers
        (q.elems : Multiset Int64) :=
  queue_refines_bag _ (by decide)

end LongPriorityQueue
end Mutty.Buffer
