import Mathlib.Data.Int.Basic
import Mathlib.Logic.Function.Basic
import Mutty.Lib.Arithmetic
import Mutty.Lib.Transition

/-!
# The hierarchical timing wheel

Times are microsecond counts: an `m_timeval` is only ever compared, added and divided through
`tv_sec * 1000000 + tv_usec`. The code takes these sums in a `long`, where they may wrap around:
that is the arithmetic `.long`. The same definitions with `.exact` are the wheel over the integers.

A wheel's buckets are copies of one `TimerTaskList`, and its copy constructor shares the root node,
the mutex and the flag, so a wheel here has one ring `root` of linked entries (from `root->next` on)
and one `setFlag`, while `expiration` is kept per bucket. The wheel `m_overflowWheel` of wheel `k` is
wheel `k + 1`, and it exists when `k + 1 < levels`.

The machine at the end runs the code at the granularity of its critical sections. `Timer::add`
is one step, since it holds `m_rwMutex` shared. The first `poll` of `Timer::advanceClock` comes
before the exclusive lock is taken, so another thread's `add` fits between the two.
-/

namespace Mutty.Timing

open Mutty.Lib

abbrev EntryId := ℕ

abbrev TaskId := ℕ

abbrev Bucket := ℕ × ℕ

structure TimerTask where
  timerTaskEntry : Option EntryId := none
  deriving DecidableEq, Repr

structure TimerTaskEntry where
  expiration : ℤ := -1000001
  timerTask : TaskId := 0
  list : Option Bucket := none
  deriving DecidableEq, Repr

structure TimingWheel where
  tickMs : ℤ
  interval : ℤ
  wheelSize : ℕ
  currentTime : ℤ
  root : List EntryId
  setFlag : Bool
  expiration : ℕ → ℤ

structure DelayQueueEntry where
  expiration : ℤ
  bucket : Bucket
  deriving DecidableEq, Repr

inductive Phase
  | idle
  | polled (locked : Bool) (bucket : Bucket)
  | flushing (bucket : Bucket)
  | reinserting (bucket : Bucket) (head : EntryId)
  | draining
  deriving DecidableEq, Repr

/-- `handed` lists the calls of `ThreadPool::addTask` with the clock at the call, `deleted` the
entries passed to `delete`. Entries and tasks are numbered in the order of their creation. -/
structure Timer where
  levels : ℕ
  wheel : ℕ → TimingWheel
  entry : EntryId → TimerTaskEntry
  task : TaskId → TimerTask
  count : ℕ
  queue : List DelayQueueEntry
  handed : List (TaskId × ℤ)
  deleted : List EntryId
  phase : Phase
  now : ℤ

def setWheel (s : Timer) (k : ℕ) (w : TimingWheel) : Timer :=
  { s with wheel := Function.update s.wheel k w }

def setEntry (s : Timer) (x : EntryId) (e : TimerTaskEntry) : Timer :=
  { s with entry := Function.update s.entry x e }

/-! ## Entries and bucket lists -/

def TimerTaskEntry.cancelled (s : Timer) (x : EntryId) : Bool :=
  decide ((s.task (s.entry x).timerTask).timerTaskEntry ≠ some x)

def TimerTaskList.remove (s : Timer) (b : Bucket) (x : EntryId) : Timer :=
  if (s.entry x).list = some b then
    let w := s.wheel b.1
    let s := setWheel s b.1 { w with root := w.root.erase x }
    setEntry s x { s.entry x with list := none }
  else s

/-- The loop of the source runs at most once: `remove` clears the pointer it tests. -/
def TimerTaskEntry.remove (s : Timer) (x : EntryId) : Timer :=
  match (s.entry x).list with
  | none => s
  | some currentList => TimerTaskList.remove s currentList x

def TimerTaskList.add (s : Timer) (b : Bucket) (x : EntryId) : Timer :=
  let s := TimerTaskEntry.remove s x
  if (s.entry x).list = none then
    let w := s.wheel b.1
    let s := setWheel s b.1 { w with root := w.root ++ [x] }
    setEntry s x { s.entry x with list := some b }
  else s

/-- A held flag makes the call return `false` without a write. -/
def TimerTaskList.setExpiration (s : Timer) (b : Bucket) (expiration : ℤ) : Bool × Timer :=
  let w := s.wheel b.1
  if w.setFlag then (false, s)
  else
    (decide (expiration ≠ w.expiration b.2),
      setWheel s b.1 { w with expiration := Function.update w.expiration b.2 expiration })

def TimerTask.setTimerTaskEntry (s : Timer) (t : TaskId) (x : EntryId) : Timer :=
  let s :=
    match (s.task t).timerTaskEntry with
    | none => s
    | some y => if y = x then s else TimerTaskEntry.remove s y
  { s with task := Function.update s.task t { s.task t with timerTaskEntry := some x } }

def DelayQueue.offer (s : Timer) (b : Bucket) (expiration : ℤ) : Timer :=
  { s with queue := s.queue ++ [⟨expiration, b⟩] }

/-- `i` is the position of the entry at the top of the priority queue, one of least expiration.
The result is the polled bucket, if the clock has reached that entry. -/
def DelayQueue.poll (s : Timer) (i : ℕ) : Option (Option Bucket × Timer) :=
  match s.queue[i]? with
  | none => if s.queue = [] then some (none, s) else none
  | some first =>
    if ∀ q ∈ s.queue, first.expiration ≤ q.expiration then
      if first.expiration > s.now then some (none, s)
      else some (some first.bucket, { s with queue := s.queue.eraseIdx i })
    else none

/-! ## Wheels -/

/-- `operator-` of `m_timeval` has the default value for a negative difference. -/
def minus (num : Arithmetic) (lval rval : ℤ) : ℤ :=
  let sum := num.wrap (lval - rval)
  if sum < 0 then -1000001 else sum

namespace TimingWheel

/-- A default `m_timeval` is minus one second and minus one microsecond. -/
def new (num : Arithmetic) (tickMs : ℤ) (wheelSize : ℕ) (startMs : ℤ) : TimingWheel where
  tickMs := tickMs
  interval := num.wrap (tickMs * wheelSize)
  wheelSize := wheelSize
  currentTime := minus num startMs (startMs.tmod tickMs)
  root := []
  setFlag := false
  expiration := fun _ => -1000001

/-- The constructor of the new wheel divides by its tick, and a zero tick ends the program. -/
def addOverflowWheel (num : Arithmetic) (s : Timer) (k : ℕ) : Option Timer :=
  let w := s.wheel k
  if k + 1 < s.levels then some s
  else if w.interval = 0 then none
  else
    some { setWheel s (k + 1) (new num w.interval w.wheelSize w.currentTime) with levels := k + 2 }

/-- The branch of `add` that puts the entry into a bucket of wheel `k`; `m_buckets.at` throws on a
negative index. -/
def place (num : Arithmetic) (s : Timer) (k : ℕ) (x : EntryId) : Option Timer :=
  let w := s.wheel k
  let expiration := (s.entry x).expiration
  let virtualId := expiration.tdiv w.tickMs
  if virtualId.tmod w.wheelSize < 0 then none
  else
    let bucket : Bucket := (k, (virtualId.tmod w.wheelSize).toNat)
    let s := TimerTaskList.add s bucket x
    let r := TimerTaskList.setExpiration s bucket (num.wrap (w.tickMs * virtualId))
    some (if r.1 then DelayQueue.offer r.2 bucket expiration else r.2)

/-- The first natural number bounds the number of wheels visited. -/
def add (num : Arithmetic) : ℕ → Timer → ℕ → EntryId → Option (Bool × Timer)
  | 0, _, _, _ => none
  | fuel + 1, s, k, x =>
    let w := s.wheel k
    let expiration := (s.entry x).expiration
    if TimerTaskEntry.cancelled s x then some (false, s)
    else if expiration < num.wrap (w.currentTime + w.tickMs) then some (false, s)
    else if expiration < num.wrap (w.currentTime + w.interval) then
      (place num s k x).map fun s => (true, s)
    else (addOverflowWheel num s k).bind fun s => add num fuel s (k + 1) x

/-- The walk of `add` over the wheels without its end: the wheel that takes the entry, if any. -/
def route (num : Arithmetic) : ℕ → Timer → ℕ → EntryId → Option (Option ℕ × Timer)
  | 0, _, _, _ => none
  | fuel + 1, s, k, x =>
    let w := s.wheel k
    let expiration := (s.entry x).expiration
    if TimerTaskEntry.cancelled s x then some (none, s)
    else if expiration < num.wrap (w.currentTime + w.tickMs) then some (none, s)
    else if expiration < num.wrap (w.currentTime + w.interval) then some (some k, s)
    else (addOverflowWheel num s k).bind fun s => route num fuel s (k + 1) x

def finish (num : Arithmetic) (x : EntryId) : Option ℕ × Timer → Option (Bool × Timer)
  | (none, s) => some (false, s)
  | (some k, s) => (place num s k x).map fun s => (true, s)

theorem add_eq_route (num : Arithmetic) (fuel : ℕ) (s : Timer) (k : ℕ) (x : EntryId) :
    add num fuel s k x = (route num fuel s k x).bind (finish num x) := by
  induction fuel generalizing s k with
  | zero => rfl
  | succ fuel ih =>
    unfold add route
    dsimp only
    split_ifs
    · rfl
    · rfl
    · rfl
    · rw [Option.bind_assoc]
      exact Option.bind_congr fun s _ => ih s (k + 1)

def advanceClock (num : Arithmetic) : ℕ → Timer → ℕ → ℤ → Timer
  | 0, s, _, _ => s
  | rest + 1, s, k, timeMs =>
    let w := s.wheel k
    if timeMs ≥ num.wrap (w.currentTime + w.tickMs) then
      let currentTime := minus num timeMs (timeMs.tmod w.tickMs)
      advanceClock num rest (setWheel s k { w with currentTime := currentTime }) (k + 1) currentTime
    else s

end TimingWheel

/-! ## The timer -/

/-- Over the integers wheel `e` has an interval above `e` already, see `route_spec`; no machine holds
`2 ^ 64` wheels. -/
def wheelBound (expiration : ℤ) : ℕ := expiration.toNat + 18446744073709551616

def addTimerTaskEntry (num : Arithmetic) (s : Timer) (x : EntryId) : Option Timer :=
  (TimingWheel.add num (wheelBound (s.entry x).expiration) s 0 x).map fun r =>
    if r.1 then r.2
    else if TimerTaskEntry.cancelled r.2 x then r.2
    else
      { r.2 with
        handed := r.2.handed ++ [((r.2.entry x).timerTask, r.2.now)]
        deleted := r.2.deleted ++ [x] }

/-- `new TimerTask`, then `new TimerTaskEntry(timerTask, expiration)`. -/
def newEntry (s : Timer) (expiration : ℤ) : Timer :=
  let x := s.count
  let s := { s with count := x + 1, task := Function.update s.task x {} }
  let s := setEntry s x { expiration := expiration, timerTask := x }
  TimerTask.setTimerTaskEntry s x x

/-- `Timer::add` as `addByDelay` calls it, with a new task each time. -/
def add (num : Arithmetic) (s : Timer) (expiration : ℤ) : Option Timer :=
  addTimerTaskEntry num (newEntry s expiration) s.count

def bucketExpiration (s : Timer) (b : Bucket) : ℤ := (s.wheel b.1).expiration b.2

def new (num : Arithmetic) (tickMs : ℤ) (wheelSize : ℕ) (startMs : ℕ) : Timer where
  levels := 1
  wheel := fun _ => TimingWheel.new num tickMs wheelSize startMs
  entry := fun _ => {}
  task := fun _ => {}
  count := 0
  queue := []
  handed := []
  deleted := []
  phase := .idle
  now := startMs

/-! ## The machine -/

inductive Act
  | clock (now : ℤ)
  | add (expiration : ℤ)
  | poll (i : ℕ)
  | advance
  | take
  | reinsert
  | endFlush
  deriving DecidableEq, Repr

/-- The value `poll` returned decides how `Timer::advanceClock` goes on. -/
def afterPoll (locked : Bool) (r : Option Bucket × Timer) : Timer :=
  match r.1 with
  | none => { r.2 with phase := .idle }
  | some b => { r.2 with phase := .polled locked b }

/-- Taking the head of the ring: `remove(head)` of the bucket that is being flushed. A head that
was deleted has no next state, the source reads freed memory there. -/
def takeHead (s : Timer) (b : Bucket) : Option Timer :=
  match (s.wheel b.1).root with
  | [] => none
  | head :: _ =>
    if head ∈ s.deleted then none
    else some { TimerTaskList.remove s b head with phase := .reinserting b head }

/-- The end of `flush`: `m_expiration = -1L`. -/
def clearExpiration (s : Timer) (b : Bucket) : Timer :=
  let w := s.wheel b.1
  if w.setFlag then s
  else setWheel s b.1 { w with expiration := Function.update w.expiration b.2 (-1) }

/-- Clock readings and expirations are values of the arithmetic. -/
def step (num : Arithmetic) (s : Timer) : Act → Option Timer
  | .clock now => if s.now ≤ now ∧ num.Holds now then some { s with now := now } else none
  | .add expiration =>
    if num.Holds expiration then
      match s.phase with
      | .idle => add num s expiration
      | .polled false _ => add num s expiration
      | _ => none
    else none
  | .poll i =>
    match s.phase with
    | .idle => (DelayQueue.poll s i).map (afterPoll false)
    | .draining => (DelayQueue.poll s i).map (afterPoll true)
    | _ => none
  | .advance =>
    match s.phase with
    | .polled _ b =>
      let s' := TimingWheel.advanceClock num s.levels s 0 (bucketExpiration s b)
      some { s' with phase := .flushing b }
    | _ => none
  | .take =>
    match s.phase with
    | .flushing b => takeHead s b
    | _ => none
  | .reinsert =>
    match s.phase with
    | .reinserting b head =>
      (addTimerTaskEntry num s head).map fun s' => { s' with phase := .flushing b }
    | _ => none
  | .endFlush =>
    match s.phase with
    | .flushing b =>
      if (s.wheel b.1).root = [] then some { clearExpiration s b with phase := .draining }
      else none
    | _ => none

def system (num : Arithmetic) (tickMs : ℤ) (wheelSize : ℕ) : System Timer Act where
  init s := ∃ startMs : ℕ, num.Holds startMs ∧ s = new num tickMs wheelSize startMs
  step := step num

end Mutty.Timing
