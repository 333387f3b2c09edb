import Mutty.Lib.Owners
import Mutty.Lib.Transition

/-!
# The thread pool and its shutdown

Workers loop over an unlocked test, a locked take with a condition variable, and the task they
took; `addTask` runs on any number of other threads; one thread calls `stop`, which writes
`m_isStarted` and notifies without the mutex and then joins the workers. Each read or write of
`m_isStarted`, each locked access to `m_tasks` and each operation on the mutex or the condition
variable is one step. A blocked worker may also wake up spuriously.
-/

namespace Mutty.Thread

open Mutty.Lib

inductive WorkerPc (τ : Type)
  /-- `threadLoop`: the read of `m_isStarted`, then that of `m_tasks` -/
  | testStarted
  | testTasks
  /-- `take`: the lock, and the two reads of the wait condition -/
  | lock
  | testEmpty
  | testWait
  /-- the condition held; next the mutex is released and the worker blocks -/
  | wait
  | blocked
  | relock
  | takeTask
  | running (task : τ)
  | exited
  deriving DecidableEq, Repr

inductive AdderPc (τ : Type)
  | idle
  | lock (task : τ)
  | test (task : τ)
  | append (task : τ)
  | notify
  | unlock
  deriving DecidableEq, Repr

inductive StopPc
  | idle
  | notifyAll
  | join (worker : ℕ)
  | returned
  deriving DecidableEq, Repr

inductive Party
  | worker (i : ℕ)
  | adder (a : ℕ)
  deriving DecidableEq, Repr

structure ThreadPool (τ : Type) where
  isStarted : Bool
  tasks : List τ
  mutex : Option Party
  workers : List (WorkerPc τ)
  adders : List (AdderPc τ)
  stop : StopPc
  /-- what the run has done: the tasks appended, the tasks run, and the tasks appended when no
  worker was left in `threadLoop` -/
  appended : List τ
  ran : List τ
  late : List τ

inductive ThreadPoolAction (τ : Type)
  | worker (i : ℕ)
  | spurious (i : ℕ)
  | addTask (a : ℕ) (task : τ)
  | adder (a : ℕ)
  | notifyOne (a : ℕ) (woken : Option ℕ)
  | stop

namespace ThreadPool

variable {τ : Type}

/-- `start` has set `m_isStarted` and created `n` workers; `m` threads may call `addTask`. -/
def start (n m : ℕ) : ThreadPool τ where
  isStarted := true
  tasks := []
  mutex := none
  workers := List.replicate n .testStarted
  adders := List.replicate m .idle
  stop := .idle
  appended := []
  ran := []
  late := []

def setWorker (σ : ThreadPool τ) (i : ℕ) (pc : WorkerPc τ) : ThreadPool τ :=
  { σ with workers := σ.workers.set i pc }

def setAdder (σ : ThreadPool τ) (a : ℕ) (pc : AdderPc τ) : ThreadPool τ :=
  { σ with adders := σ.adders.set a pc }

def isExited : WorkerPc τ → Bool
  | .exited => true
  | _ => false

def isBlocked : WorkerPc τ → Bool
  | .blocked => true
  | _ => false

def allExited (σ : ThreadPool τ) : Bool := σ.workers.all isExited

def workerStep (σ : ThreadPool τ) (i : ℕ) : WorkerPc τ → Option (ThreadPool τ)
  | .testStarted => some (σ.setWorker i (if σ.isStarted then .lock else .testTasks))
  | .testTasks => some (σ.setWorker i (if σ.tasks.isEmpty then .exited else .lock))
  | .lock =>
    if σ.mutex = none then some { σ.setWorker i .testEmpty with mutex := some (.worker i) } else none
  | .testEmpty => some (σ.setWorker i (if σ.tasks.isEmpty then .testWait else .takeTask))
  | .testWait => some (σ.setWorker i (if σ.isStarted then .wait else .takeTask))
  | .wait => some { σ.setWorker i .blocked with mutex := none }
  | .blocked => none
  | .relock =>
    if σ.mutex = none then some { σ.setWorker i .testEmpty with mutex := some (.worker i) } else none
  | .takeTask =>
    match σ.tasks with
    | [] => some { σ.setWorker i .testStarted with mutex := none }
    | task :: rest => some { σ.setWorker i (.running task) with tasks := rest, mutex := none }
  | .running task => some { σ.setWorker i .testStarted with ran := σ.ran ++ [task] }
  | .exited => none

/-- The next step of adder `a`, which is at `pc`; its `notify_one` is an action of its own. -/
def adderStep (σ : ThreadPool τ) (a : ℕ) : AdderPc τ → Option (ThreadPool τ)
  | .idle => none
  | .lock task =>
    if σ.mutex = none then some { σ.setAdder a (.test task) with mutex := some (.adder a) } else none
  | .test task => some (σ.setAdder a (if σ.isStarted then .append task else .unlock))
  | .append task => some { σ.setAdder a .notify with
      tasks := σ.tasks ++ [task]
      appended := σ.appended ++ [task]
      late := if σ.allExited then σ.late ++ [task] else σ.late }
  | .notify => none
  | .unlock => some { σ.setAdder a .idle with mutex := none }

def wake : WorkerPc τ → WorkerPc τ
  | .blocked => .relock
  | pc => pc

def stopStep (σ : ThreadPool τ) : Option (ThreadPool τ) :=
  match σ.stop with
  | .idle => some { σ with isStarted := false, stop := .notifyAll }
  | .notifyAll => some { σ with workers := σ.workers.map wake, stop := .join 0 }
  | .join i =>
    match σ.workers[i]? with
    | some pc => if isExited pc then some { σ with stop := .join (i + 1) } else none
    | none => some { σ with stop := .returned }
  | .returned => none

def step (σ : ThreadPool τ) : ThreadPoolAction τ → Option (ThreadPool τ)
  | .worker i => (σ.workers[i]?).bind (σ.workerStep i)
  | .spurious i =>
    (σ.workers[i]?).bind fun pc => if isBlocked pc then some (σ.setWorker i .relock) else none
  | .addTask a task =>
    match σ.adders[a]? with
    | some .idle => some (σ.setAdder a (.lock task))
    | _ => none
  | .adder a => (σ.adders[a]?).bind (σ.adderStep a)
  | .notifyOne a woken =>
    match σ.adders[a]?, woken with
    | some .notify, some i =>
      (σ.workers[i]?).bind fun pc =>
        if isBlocked pc then some ((σ.setWorker i .relock).setAdder a .unlock) else none
    | some .notify, none => if σ.workers.any isBlocked then none else some (σ.setAdder a .unlock)
    | _, _ => none
  | .stop => σ.stopStep

end ThreadPool

open ThreadPool

def threadPoolMachine (τ : Type) (n : ℕ) : System (ThreadPool τ) (ThreadPoolAction τ) where
  init σ := ∃ m, σ = .start n m
  step := ThreadPool.step

/-! ## What a step does -/

namespace ThreadPool

variable {τ : Type} {σ σ' : ThreadPool τ}

def inFlight : WorkerPc τ → List τ
  | .running task => [task]
  | _ => []

/-- What a worker's step does to the tasks: nothing, or it takes the first one, or ends its own. -/
inductive TaskMove (σ : ThreadPool τ) (pc pc' : WorkerPc τ) (σ' : ThreadPool τ) : Prop
  | keep : σ'.tasks = σ.tasks → σ'.ran = σ.ran → inFlight pc' = inFlight pc → TaskMove σ pc pc' σ'
  | take (task : τ) : σ.tasks = task :: σ'.tasks → σ'.ran = σ.ran → inFlight pc = [] →
      inFlight pc' = [task] → TaskMove σ pc pc' σ'
  | done (task : τ) : σ'.tasks = σ.tasks → σ'.ran = σ.ran ++ [task] → inFlight pc = [task] →
      inFlight pc' = [] → TaskMove σ pc pc' σ'

/-- Worker `i` goes from `pc` to `pc'`: what the rest of the state and the tasks make of it. -/
structure WorkerMove (σ : ThreadPool τ) (i : ℕ) (pc pc' : WorkerPc τ) (σ' : ThreadPool τ) :
    Prop where
  at_pc : σ.workers[i]? = some pc
  workers : σ'.workers = σ.workers.set i pc'
  adders : σ'.adders = σ.adders
  isStarted : σ'.isStarted = σ.isStarted
  stop : σ'.stop = σ.stop
  appended : σ'.appended = σ.appended
  late : σ'.late = σ.late
  moves : pc ≠ .exited
  stopping : pc' = .testTasks → σ.isStarted = false
  leaves : pc' = .exited → pc = .testTasks ∧ σ.tasks = [] ∧ σ'.tasks = []
  waits : pc' = .wait → σ.isStarted = true
  blocks : pc' = .blocked → pc = .wait
  task : TaskMove σ pc pc' σ'

theorem WorkerMove.tasks {i : ℕ} {pc pc' : WorkerPc τ} (h : WorkerMove σ i pc pc' σ') :
    (σ'.ran ++ (inFlight pc' ++ σ'.tasks)).Perm (σ.ran ++ (inFlight pc ++ σ.tasks)) := by
  cases h.task with
  | keep htasks hran hflight =>
    rw [htasks, hran, hflight]
  | take task htasks hran hold hnew =>
    rw [htasks, hran, hold, hnew]
    exact List.Perm.refl _
  | done task htasks hran hold hnew =>
    rw [htasks, hran, hold, hnew, List.append_assoc]
    exact List.Perm.refl _

theorem WorkerMove.plain {i : ℕ} {pc pc' : WorkerPc τ} {mutex : Option Party}
    (hpc : σ.workers[i]? = some pc) (hmoves : pc ≠ .exited)
    (hold : inFlight pc = []) (hnew : inFlight pc' = [])
    (hstopping : pc' = .testTasks → σ.isStarted = false)
    (hleaves : pc' = .exited → pc = .testTasks ∧ σ.tasks = [])
    (hwaits : pc' = .wait → σ.isStarted = true) (hblocks : pc' = .blocked → pc = .wait) :
    WorkerMove σ i pc pc' { σ.setWorker i pc' with mutex } where
  at_pc := hpc
  workers := rfl
  adders := rfl
  isStarted := rfl
  stop := rfl
  appended := rfl
  late := rfl
  moves := hmoves
  stopping := hstopping
  leaves := fun h => ⟨(hleaves h).1, (hleaves h).2, (hleaves h).2⟩
  waits := hwaits
  blocks := hblocks
  task := .keep rfl rfl (hnew.trans hold.symm)

theorem workerStep_move {i : ℕ} {pc : WorkerPc τ} (hpc : σ.workers[i]? = some pc)
    (h : σ.workerStep i pc = some σ') : ∃ pc', WorkerMove σ i pc pc' σ' := by
  cases pc with
  | testStarted =>
    obtain rfl := Option.some.inj h
    refine ⟨_, .plain hpc (by simp) rfl ?_ ?_ ?_ ?_ ?_⟩ <;> split_ifs with hs <;> simp_all [inFlight]
  | testTasks =>
    obtain rfl := Option.some.inj h
    refine ⟨_, .plain hpc (by simp) rfl ?_ ?_ ?_ ?_ ?_⟩ <;> split_ifs with hs <;> simp_all [inFlight]
  | lock =>
    simp only [workerStep] at h
    split_ifs at h
    obtain rfl := Option.some.inj h
    exact ⟨_, .plain hpc (by simp) rfl rfl (by simp) (by simp) (by simp) (by simp)⟩
  | testEmpty =>
    obtain rfl := Option.some.inj h
    refine ⟨_, .plain hpc (by simp) rfl ?_ ?_ ?_ ?_ ?_⟩ <;> split_ifs with hs <;> simp_all [inFlight]
  | testWait =>
    obtain rfl := Option.some.inj h
    refine ⟨_, .plain hpc (by simp) rfl ?_ ?_ ?_ ?_ ?_⟩ <;> split_ifs with hs <;> simp_all [inFlight]
  | wait =>
    obtain rfl := Option.some.inj h
    exact ⟨_, .plain hpc (by simp) rfl rfl (by simp) (by simp) (by simp) (by simp)⟩
  | blocked => cases h
  | relock =>
    simp only [workerStep] at h
    split_ifs at h
    obtain rfl := Option.some.inj h
    exact ⟨_, .plain hpc (by simp) rfl rfl (by simp) (by simp) (by simp) (by simp)⟩
  | takeTask =>
    simp only [workerStep] at h
    split at h
    · obtain rfl := Option.some.inj h
      exact ⟨_, .plain hpc (by simp) rfl rfl (by simp) (by simp) (by simp) (by simp)⟩
    · rename_i task rest htasks
      obtain rfl := Option.some.inj h
      exact ⟨.running task, hpc, rfl, rfl, rfl, rfl, rfl, rfl, by simp, by simp, by simp, by simp,
        by simp, .take task htasks rfl rfl rfl⟩
  | running task =>
    obtain rfl := Option.some.inj h
    exact ⟨.testStarted, hpc, rfl, rfl, rfl, rfl, rfl, rfl, by simp, by simp, by simp, by simp,
      by simp, .done task rfl rfl rfl rfl⟩
  | exited => cases h

theorem WorkerMove.wake {i : ℕ} {pc : WorkerPc τ} (hpc : σ.workers[i]? = some pc)
    (hb : isBlocked pc = true) : WorkerMove σ i pc .relock (σ.setWorker i .relock) := by
  cases pc <;> simp only [isBlocked, Bool.false_eq_true] at hb
  exact .plain hpc (by simp) rfl rfl (by simp) (by simp) (by simp) (by simp)

/-- The calls of `addTask` that have seen `m_isStarted` set and not yet appended. -/
def isAppending : AdderPc τ → Bool
  | .append _ => true
  | _ => false

def isNotifying : AdderPc τ → Bool
  | .append _ => true
  | .notify => true
  | _ => false

structure AdderMove (σ : ThreadPool τ) (a : ℕ) (pc pc' : AdderPc τ) (σ' : ThreadPool τ) :
    Prop where
  at_pc : σ.adders[a]? = some pc
  adders : σ'.adders = σ.adders.set a pc'
  workers : σ'.workers = σ.workers
  isStarted : σ'.isStarted = σ.isStarted
  stop : σ'.stop = σ.stop
  ran : σ'.ran = σ.ran
  sees : isAppending pc' = true → σ.isStarted = true
  notifies : isNotifying pc' = true → isAppending pc = true ∨ σ.isStarted = true
  appends : (σ'.tasks = σ.tasks ∧ σ'.appended = σ.appended ∧ σ'.late = σ.late) ∨
    ∃ task, pc = .append task ∧ σ'.tasks = σ.tasks ++ [task] ∧
      σ'.appended = σ.appended ++ [task] ∧
      σ'.late = if σ.allExited then σ.late ++ [task] else σ.late

theorem adderStep_move {a : ℕ} {pc : AdderPc τ} (hpc : σ.adders[a]? = some pc)
    (h : σ.adderStep a pc = some σ') : ∃ pc', AdderMove σ a pc pc' σ' := by
  cases pc with
  | idle => cases h
  | lock task =>
    simp only [adderStep] at h
    split_ifs at h
    obtain rfl := Option.some.inj h
    exact ⟨_, hpc, rfl, rfl, rfl, rfl, rfl, by simp [isAppending], by simp [isNotifying],
      Or.inl ⟨rfl, rfl, rfl⟩⟩
  | test task =>
    obtain rfl := Option.some.inj h
    refine ⟨_, hpc, rfl, rfl, rfl, rfl, rfl, ?_, ?_, Or.inl ⟨rfl, rfl, rfl⟩⟩ <;>
      split_ifs with hs <;> simp_all [isAppending, isNotifying]
  | append task =>
    obtain rfl := Option.some.inj h
    exact ⟨.notify, hpc, rfl, rfl, rfl, rfl, rfl, by simp [isAppending], fun _ => Or.inl rfl,
      Or.inr ⟨task, rfl, rfl, rfl, rfl⟩⟩
  | notify => cases h
  | unlock =>
    obtain rfl := Option.some.inj h
    exact ⟨_, hpc, rfl, rfl, rfl, rfl, rfl, by simp [isAppending], by simp [isNotifying],
      Or.inl ⟨rfl, rfl, rfl⟩⟩

inductive Moves (σ : ThreadPool τ) : ThreadPoolAction τ → ThreadPool τ → Prop
  | worker {i : ℕ} {pc pc' : WorkerPc τ} {σ' : ThreadPool τ} :
      WorkerMove σ i pc pc' σ' → Moves σ (.worker i) σ'
  | spurious {i : ℕ} {pc : WorkerPc τ} {σ' : ThreadPool τ} :
      WorkerMove σ i pc .relock σ' → Moves σ (.spurious i) σ'
  | addTask {a : ℕ} {task : τ} {pc' : AdderPc τ} {σ' : ThreadPool τ} :
      AdderMove σ a .idle pc' σ' → Moves σ (.addTask a task) σ'
  | adder {a : ℕ} {pc pc' : AdderPc τ} {σ' : ThreadPool τ} :
      AdderMove σ a pc pc' σ' → Moves σ (.adder a) σ'
  | notifyOne {a i : ℕ} {pc : WorkerPc τ} {σ₁ σ' : ThreadPool τ} :
      WorkerMove σ i pc .relock σ₁ → AdderMove σ₁ a .notify .unlock σ' →
      Moves σ (.notifyOne a (some i)) σ'
  | notifyNone {a : ℕ} {σ' : ThreadPool τ} :
      AdderMove σ a .notify .unlock σ' → Moves σ (.notifyOne a none) σ'
  | write : σ.stop = .idle →
      Moves σ .stop { σ with isStarted := false, stop := .notifyAll }
  | notifyAll : σ.stop = .notifyAll →
      Moves σ .stop { σ with workers := σ.workers.map ThreadPool.wake, stop := .join 0 }
  | join {i : ℕ} : σ.stop = .join i → σ.workers[i]? = some .exited →
      Moves σ .stop { σ with stop := .join (i + 1) }
  | returned {i : ℕ} : σ.stop = .join i → σ.workers[i]? = none →
      Moves σ .stop { σ with stop := .returned }

theorem setAdder_move {a : ℕ} {pc pc' : AdderPc τ} (hpc : σ.adders[a]? = some pc)
    (hn : isNotifying pc' = false) : AdderMove σ a pc pc' (σ.setAdder a pc') := by
  refine ⟨hpc, rfl, rfl, rfl, rfl, rfl, fun happ => ?_, ?_, Or.inl ⟨rfl, rfl, rfl⟩⟩
  · cases pc' <;> simp_all [isAppending, isNotifying]
  · simp [hn]

theorem isExited_eq_true {pc : WorkerPc τ} : isExited pc = true ↔ pc = .exited := by
  cases pc <;> simp [isExited]

theorem step_moves {a : ThreadPoolAction τ} (h : σ.step a = some σ') : Moves σ a σ' := by
  cases a with
  | worker i =>
    obtain ⟨pc, hpc, hstep⟩ := Option.bind_eq_some_iff.mp h
    obtain ⟨pc', hmove⟩ := workerStep_move hpc hstep
    exact .worker hmove
  | spurious i =>
    obtain ⟨pc, hpc, hstep⟩ := Option.bind_eq_some_iff.mp h
    split_ifs at hstep with hb
    obtain rfl := Option.some.inj hstep
    exact .spurious (.wake hpc hb)
  | addTask a task =>
    simp only [step] at h
    split at h
    · rename_i hidle
      obtain rfl := Option.some.inj h
      exact .addTask (setAdder_move hidle rfl)
    · cases h
  | adder a =>
    obtain ⟨pc, hpc, hstep⟩ := Option.bind_eq_some_iff.mp h
    obtain ⟨pc', hmove⟩ := adderStep_move hpc hstep
    exact .adder hmove
  | notifyOne a woken =>
    simp only [step] at h
    split at h
    · rename_i i hnotify
      obtain ⟨pc, hpc, hstep⟩ := Option.bind_eq_some_iff.mp h
      split_ifs at hstep with hb
      obtain rfl := Option.some.inj hstep
      exact .notifyOne (.wake hpc hb) (setAdder_move hnotify rfl)
    · rename_i hnotify
      split_ifs at h
      obtain rfl := Option.some.inj h
      exact .notifyNone (setAdder_move hnotify rfl)
    · cases h
  | stop =>
    simp only [step, stopStep] at h
    split at h
    · rename_i hstop
      obtain rfl := Option.some.inj h
      exact .write hstop
    · rename_i hstop
      obtain rfl := Option.some.inj h
      exact .notifyAll hstop
    · rename_i i hstop
      split at h
      · rename_i pc hpc
        split_ifs at h with hex
        obtain rfl := Option.some.inj h
        rw [isExited_eq_true] at hex
        exact .join hstop (by rw [hpc, hex])
      · rename_i hnone
        obtain rfl := Option.some.inj h
        exact .returned hstop hnone
    · cases h

end ThreadPool
end Mutty.Thread
