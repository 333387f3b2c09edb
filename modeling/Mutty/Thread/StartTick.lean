import Mutty.Thread.Order

/-!
# A timer and its pool

`newTimer` constructs the timer and starts it inside `call_once`, so nobody has the timer before
`start` has put `startTick` into the pool. Tasks that are due are added by the threads that have the
timer, and by `startTick` itself. `startTick` goes round until `isRunning` is cleared, which only
`shutdown` does; until then it takes one worker of the pool away.
-/

namespace Mutty.Thread

open Mutty.Lib ThreadPool

inductive Job (α : Type)
  | startTick
  | task (func : α)
  deriving DecidableEq, Repr

/-- Where the thread in `call_once` is: it has constructed the timer, it has set `isRunning`, or it is in
`addTask`. Afterwards the timer has been made, and it may be shut down. -/
inductive TimerPhase
  | notCalled
  | constructed (a : ℕ)
  | running (a : ℕ)
  | adding (a : ℕ)
  | made
  | shutDown
  deriving DecidableEq, Repr

structure Timer (α : Type) where
  pool : ThreadPool (Job α)
  isRunning : Bool := false
  phase : TimerPhase := .notCalled

inductive TimerAction (α : Type)
  | newTimer (a : ℕ)
  /-- the next step of the thread in `call_once` -/
  | start
  | addTimerTaskEntry (a : ℕ) (func : α)
  | pool (x : ThreadPoolAction (Job α))
  | shutdown
  /-- the next step of `m_threadPool->stop()` in `shutdown` -/
  | stop

section

variable {α : Type} {n : ℕ}

def isTicking : WorkerPc (Job α) → Bool
  | .running .startTick => true
  | _ => false

def hasReturned {τ : Type} : AdderPc τ → Bool
  | .idle => true
  | _ => false

namespace Timer

variable (s : Timer α)

def onPool (x : ThreadPoolAction (Job α)) : Option (Timer α) :=
  (s.pool.step x).map fun pool => { s with pool }

/-- The two lines of `start`, and the return from `newTimer`. -/
def startStep : Option (Timer α) :=
  match s.phase with
  | .constructed a => some { s with isRunning := true, phase := .running a }
  | .running a => { s with phase := .adding a }.onPool (.addTask a .startTick)
  | .adding a => if (s.pool.adders[a]?).any hasReturned then some { s with phase := .made } else none
  | _ => none

/-- A round of `startTick` leaves the pool as it is. -/
def poolStep : ThreadPoolAction (Job α) → Option (Timer α)
  | .worker i =>
    if (s.pool.workers[i]?).any isTicking ∧ s.isRunning then some s else s.onPool (.worker i)
  | .spurious i => s.onPool (.spurious i)
  | .adder a => s.onPool (.adder a)
  | .notifyOne a woken => s.onPool (.notifyOne a woken)
  | .addTask _ _ => none
  | .stop => none

def run : TimerAction α → Option (Timer α)
  | .newTimer a => if s.phase = .notCalled then some { s with phase := .constructed a } else none
  | .start => s.startStep
  | .addTimerTaskEntry a func =>
    if s.phase = .made ∨ s.phase = .shutDown ∨ s.pool.workers.any isTicking then
      s.onPool (.addTask a (.task func))
    else none
  | .pool x => if s.phase = .notCalled then none else s.poolStep x
  | .shutdown =>
    if s.phase = .made then some { s with isRunning := false, phase := .shutDown } else none
  | .stop => if s.phase = .shutDown then s.onPool .stop else none

end Timer

def timerMachine (α : Type) (n : ℕ) : System (Timer α) (TimerAction α) where
  init s := ∃ m, s = { pool := .start n m }
  step := Timer.run

/-! ## What a step does -/

/-- A step of a thread that is inside the pool already. -/
def Inside {τ : Type} : ThreadPoolAction τ → Prop
  | .addTask _ _ => False
  | .stop => False
  | _ => True

namespace Timer

variable {s s' : Timer α}

inductive Move (s : Timer α) : Timer α → Prop
  | newTimer (a : ℕ) : s.phase = .notCalled → Move s { s with phase := .constructed a }
  | start {a : ℕ} : s.phase = .constructed a → Move s { s with isRunning := true, phase := .running a }
  | addTick {a : ℕ} {pool : ThreadPool (Job α)} : s.phase = .running a →
      s.pool.step (.addTask a .startTick) = some pool → Move s { s with pool, phase := .adding a }
  | made {a : ℕ} : s.phase = .adding a → (s.pool.adders[a]?).any hasReturned = true →
      Move s { s with phase := .made }
  | add {a : ℕ} {func : α} {pool : ThreadPool (Job α)} :
      s.phase = .made ∨ s.phase = .shutDown ∨ s.pool.workers.any isTicking = true →
      s.pool.step (.addTask a (.task func)) = some pool → Move s { s with pool }
  | round : Move s s
  | inside {x : ThreadPoolAction (Job α)} {pool : ThreadPool (Job α)} : Inside x →
      (∀ i, x = .worker i → s.pool.workers[i]? = some (.running .startTick) → s.isRunning = false) →
      s.pool.step x = some pool → Move s { s with pool }
  | shutdown : s.phase = .made → Move s { s with isRunning := false, phase := .shutDown }
  | stop {pool : ThreadPool (Job α)} : s.phase = .shutDown → s.pool.step .stop = some pool →
      Move s { s with pool }

theorem move_of_inside {x : ThreadPoolAction (Job α)} (hx : Inside x) (hne : ∀ i, x ≠ .worker i)
    (h : s.onPool x = some s') : Move s s' := by
  obtain ⟨pool, hpool, rfl⟩ := Option.map_eq_some_iff.mp h
  exact .inside hx (fun i heq => absurd heq (hne i)) hpool

theorem run_move {a : TimerAction α} (h : s.run a = some s') : Move s s' := by
  cases a with
  | newTimer a =>
    simp only [run] at h
    split_ifs at h with hphase
    rw [← Option.some.inj h]
    exact .newTimer a hphase
  | start =>
    simp only [run, startStep] at h
    split at h
    · rename_i a hphase
      rw [← Option.some.inj h]
      exact .start hphase
    · rename_i a hphase
      obtain ⟨pool, hpool, rfl⟩ := Option.map_eq_some_iff.mp h
      exact .addTick hphase hpool
    · rename_i a hphase
      split_ifs at h with hidle
      rw [← Option.some.inj h]
      exact .made hphase hidle
    · cases h
  | addTimerTaskEntry a func =>
    simp only [run] at h
    split_ifs at h with hhas
    obtain ⟨pool, hpool, rfl⟩ := Option.map_eq_some_iff.mp h
    exact .add hhas hpool
  | pool x =>
    simp only [run] at h
    split_ifs at h
    cases x with
    | worker i =>
      simp only [poolStep] at h
      split_ifs at h with htick
      · rw [← Option.some.inj h]
        exact .round
      · obtain ⟨pool, hpool, rfl⟩ := Option.map_eq_some_iff.mp h
        refine .inside (x := .worker i) trivial (fun j heq hpc => ?_) hpool
        obtain rfl := ThreadPoolAction.worker.inj heq
        by_contra hrunning
        exact htick ⟨by simp [hpc, isTicking], by simpa using hrunning⟩
    | spurious i => exact move_of_inside (x := .spurious i) trivial (by simp) h
    | adder b => exact move_of_inside (x := .adder b) trivial (by simp) h
    | notifyOne b woken => exact move_of_inside (x := .notifyOne b woken) trivial (by simp) h
    | addTask b task => cases h
    | stop => cases h
  | shutdown =>
    simp only [run] at h
    split_ifs at h with hphase
    rw [← Option.some.inj h]
    exact .shutdown hphase
  | stop =>
    simp only [run] at h
    split_ifs at h with hphase
    obtain ⟨pool, hpool, rfl⟩ := Option.map_eq_some_iff.mp h
    exact .stop hphase hpool

theorem move_shutDown (h : Move s s') (hdown : s.phase = .shutDown) : s'.phase = .shutDown := by
  cases h with
  | newTimer a hphase => exact absurd (hphase.symm.trans hdown) (by simp)
  | start hphase => exact absurd (hphase.symm.trans hdown) (by simp)
  | addTick hphase _ => exact absurd (hphase.symm.trans hdown) (by simp)
  | made hphase _ => exact absurd (hphase.symm.trans hdown) (by simp)
  | add _ _ => exact hdown
  | round => exact hdown
  | inside _ _ _ => exact hdown
  | shutdown _ => rfl
  | stop _ _ => exact hdown

/-- The pool of the timer is a thread pool like any other. -/
theorem reach_pool (h : System.Reach (timerMachine α n) System.Free s) :
    System.Reach (threadPoolMachine (Job α) n) System.Free s.pool := by
  induction h with
  | init hinit =>
    obtain ⟨m, rfl⟩ := hinit
    exact .init ⟨m, rfl⟩
  | step _ _ hstep ih =>
    have hnext : ∀ {x pool}, ThreadPool.step _ x = some pool →
        System.Reach (threadPoolMachine (Job α) n) System.Free pool :=
      fun hpool => System.Reach.step ih trivial hpool
    cases run_move hstep with
    | newTimer _ _ => exact ih
    | start _ => exact ih
    | addTick _ hpool => exact hnext hpool
    | made _ _ => exact ih
    | add _ hpool => exact hnext hpool
    | round => exact ih
    | inside _ _ hpool => exact hnext hpool
    | shutdown _ => exact ih
    | stop _ hpool => exact hnext hpool

end Timer

/-! ## The tick is in the pool first -/

section

variable {τ : Type} {σ σ' : ThreadPool τ}

/-- What a call of `addTask` has still to append. -/
def carried : AdderPc τ → List τ
  | .lock task => [task]
  | .test task => [task]
  | .append task => [task]
  | _ => []

def coming (σ : ThreadPool τ) : List τ := σ.adders.flatMap carried

theorem step_addTask {a : ℕ} {job : τ} (h : σ.step (.addTask a job) = some σ') :
    σ.adders[a]? = some .idle ∧ σ' = σ.setAdder a (.lock job) := by
  simp only [ThreadPool.step] at h
  split at h
  · rename_i hidle
    exact ⟨hidle, (Option.some.inj h).symm⟩
  · cases h

/-- While the pool is started, the threads inside `addTask` lose nothing: one of them appends what it has
carried, or all carry what they carried before. -/
theorem inside_coming {x : ThreadPoolAction τ} (hx : Inside x) (hs : σ.isStarted = true)
    (hstep : σ.step x = some σ') : σ'.isStarted = true ∧
      ((σ'.appended = σ.appended ∧ σ'.adders.map carried = σ.adders.map carried) ∨
        ∃ b job, σ.adders[b]? = some (.append job) ∧ σ'.adders = σ.adders.set b .notify ∧
          σ'.appended = σ.appended ++ [job]) := by
  cases x with
  | addTask a job => exact hx.elim
  | stop => exact hx.elim
  | worker i =>
    cases step_moves hstep with
    | worker hm => exact ⟨hm.isStarted.trans hs, Or.inl ⟨hm.appended, by rw [hm.adders]⟩⟩
  | spurious i =>
    cases step_moves hstep with
    | spurious hm => exact ⟨hm.isStarted.trans hs, Or.inl ⟨hm.appended, by rw [hm.adders]⟩⟩
  | adder b =>
    obtain ⟨pc, hpc, hadder⟩ := Option.bind_eq_some_iff.mp hstep
    have hsame : ∀ {pc'}, carried pc' = carried pc →
        (σ.adders.set b pc').map carried = σ.adders.map carried := fun hc => map_set_same hpc hc
    cases pc with
    | idle => cases hadder
    | lock task =>
      simp only [adderStep] at hadder
      split_ifs at hadder
      rw [← Option.some.inj hadder]
      exact ⟨hs, Or.inl ⟨rfl, hsame rfl⟩⟩
    | test task =>
      simp only [adderStep, hs, if_true] at hadder
      rw [← Option.some.inj hadder]
      exact ⟨hs, Or.inl ⟨rfl, hsame rfl⟩⟩
    | append task =>
      rw [← Option.some.inj hadder]
      exact ⟨hs, Or.inr ⟨b, task, hpc, rfl, rfl⟩⟩
    | notify => cases hadder
    | unlock =>
      rw [← Option.some.inj hadder]
      exact ⟨hs, Or.inl ⟨rfl, hsame rfl⟩⟩
  | notifyOne b woken =>
    have hquiet : ∀ {ρ : ThreadPool τ}, AdderMove ρ b .notify .unlock σ' → ρ.isStarted = σ.isStarted →
        ρ.appended = σ.appended → ρ.adders = σ.adders → σ'.isStarted = true ∧
          σ'.appended = σ.appended ∧ σ'.adders.map carried = σ.adders.map carried := by
      intro ρ hm hstarted happended hadders
      refine ⟨hm.isStarted.trans (hstarted.trans hs), ?_, ?_⟩
      · rcases hm.appends with ⟨-, happ, -⟩ | ⟨task, hpc, -⟩
        · exact happ.trans happended
        · cases hpc
      · rw [hm.adders, ← hadders]
        exact map_set_same hm.at_pc rfl
    cases step_moves hstep with
    | notifyOne hm hm' =>
      obtain ⟨h1, h2⟩ := hquiet hm' hm.isStarted hm.appended hm.adders
      exact ⟨h1, Or.inl h2⟩
    | notifyNone hm =>
      obtain ⟨h1, h2⟩ := hquiet hm rfl rfl rfl
      exact ⟨h1, Or.inl h2⟩

theorem running_of_inFlight {pc : WorkerPc τ} {task : τ} (h : inFlight pc = [task]) :
    pc = .running task := by
  cases pc with
  | running t => simpa [inFlight] using h
  | _ => cases h

theorem inside_ran {x : ThreadPoolAction τ} (hx : Inside x) (hstep : σ.step x = some σ') :
    σ'.ran = σ.ran ∨ ∃ i job, x = .worker i ∧ σ.workers[i]? = some (.running job) ∧
      σ'.ran = σ.ran ++ [job] := by
  cases x with
  | addTask a job => exact hx.elim
  | stop => exact hx.elim
  | worker i =>
    cases step_moves hstep with
    | worker hm =>
      cases hm.task with
      | keep _ hran _ => exact Or.inl hran
      | take _ _ hran _ _ => exact Or.inl hran
      | done job _ hran hold _ =>
        exact Or.inr ⟨i, job, rfl, running_of_inFlight hold ▸ hm.at_pc, hran⟩
  | spurious i =>
    obtain ⟨pc, -, hmove⟩ := Option.bind_eq_some_iff.mp hstep
    split_ifs at hmove
    rw [← Option.some.inj hmove]
    exact Or.inl rfl
  | adder b =>
    cases step_moves hstep with
    | adder hm => exact Or.inl hm.ran
  | notifyOne b woken =>
    simp only [ThreadPool.step] at hstep
    split at hstep
    · obtain ⟨pc, -, hmove⟩ := Option.bind_eq_some_iff.mp hstep
      split_ifs at hmove
      rw [← Option.some.inj hmove]
      exact Or.inl rfl
    · split_ifs at hstep
      rw [← Option.some.inj hstep]
      exact Or.inl rfl
    · cases hstep

theorem mem_inFlight {workers : List (WorkerPc τ)} {task : τ} :
    task ∈ workers.flatMap inFlight ↔ .running task ∈ workers := by
  rw [List.mem_flatMap]
  constructor
  · rintro ⟨pc, hpc, hmem⟩
    cases pc with
    | running t =>
      obtain rfl : task = t := by simpa [inFlight] using hmem
      exact hpc
    | _ => cases hmem
  · exact fun hmem => ⟨_, hmem, List.mem_singleton_self task⟩

theorem coming_setAdder {a : ℕ} {pc : AdderPc τ} (pc' : AdderPc τ) (hpc : σ.adders[a]? = some pc) :
    ((σ.adders.set a pc').flatMap carried ++ carried pc).Perm (coming σ ++ carried pc') :=
  flatMap_set_perm hpc

end

def isStartTick : Job α → Bool
  | .startTick => true
  | .task _ => false

/-- The thread in `call_once` has not called `addTask` yet. -/
def TimerPhase.isEarly : TimerPhase → Bool
  | .notCalled => true
  | .constructed _ => true
  | .running _ => true
  | _ => false

/-- Until the timer is shut down: `startTick` is appended first and once, and has not returned. -/
structure Ticking (s : Timer α) : Prop where
  up : s.phase ≠ .shutDown
  started : s.pool.isStarted = true
  isRunning : s.phase ≠ .notCalled → (∀ a, s.phase ≠ .constructed a) → s.isRunning = true
  early : s.phase.isEarly = true → s.pool.appended = [] ∧ coming s.pool = []
  adding : ∀ a, s.phase = .adding a → s.pool.appended = [] →
    ∃ pc, s.pool.adders[a]? = some pc ∧ carried pc = [.startTick]
  made : s.phase = .made → s.pool.appended ≠ []
  pending : s.pool.appended = [] → ∀ job ∈ coming s.pool, job = .startTick
  first : ∀ job ∈ s.pool.appended.head?, job = .startTick
  once : s.pool.appended.countP isStartTick + (coming s.pool).countP isStartTick ≤ 1
  unfinished : .startTick ∉ s.pool.ran

namespace Ticking

variable {s s' : Timer α}

theorem start (m : ℕ) : Ticking ({ pool := .start n m } : Timer α) := by
  have hnone : (List.replicate m (AdderPc.idle : AdderPc (Job α))).flatMap carried = [] := by
    simp [carried]
  refine ⟨by simp, rfl, by simp, fun _ => ⟨rfl, hnone⟩, by simp, by simp, ?_, by simp [ThreadPool.start], ?_,
    by simp [ThreadPool.start]⟩
  · intro _ job hjob
    rw [coming, ThreadPool.start, hnone] at hjob
    cases hjob
  · rw [coming, ThreadPool.start, hnone]
    simp

theorem appended_of_running (hpool : System.Reach (threadPoolMachine (Job α) n) System.Free s.pool)
    {job : Job α} (hrunning : .running job ∈ s.pool.workers) : s.pool.appended ≠ [] := by
  obtain ⟨-, taken, happended, hperm, -⟩ := InOrder.reach hpool
  have hmem := hperm.mem_iff.mpr (List.mem_append_right s.pool.ran (mem_inFlight.mpr hrunning))
  intro hnone
  rw [hnone] at happended
  rw [(List.append_eq_nil_iff.mp happended.symm).1] at hmem
  cases hmem

theorem not_early (h : Ticking s) (happended : s.pool.appended ≠ []) : s.phase.isEarly = false := by
  by_contra hearly
  exact happended (h.early (by simpa using hearly)).1

theorem running_of_appended (h : Ticking s) (happended : s.pool.appended ≠ []) : s.isRunning = true := by
  have hlate := h.not_early happended
  refine h.isRunning ?_ ?_
  · intro hphase
    rw [hphase] at hlate
    cases hlate
  · intro a hphase
    rw [hphase] at hlate
    cases hlate

theorem addTick (h : Ticking s) {a : ℕ} (hphase : s.phase = .running a) {pool : ThreadPool (Job α)}
    (hpool : s.pool.step (.addTask a .startTick) = some pool) :
    Ticking { s with pool, phase := .adding a } := by
  obtain ⟨hidle, rfl⟩ := step_addTask hpool
  obtain ⟨hnone, hcoming⟩ := h.early (by rw [hphase]; rfl)
  have hperm := coming_setAdder (.lock .startTick) hidle
  rw [hcoming] at hperm
  have htick : coming (s.pool.setAdder a (.lock .startTick)) = [Job.startTick] :=
    List.perm_singleton.mp (by simpa [carried, coming, setAdder] using hperm)
  have hat : (s.pool.setAdder a (.lock .startTick)).adders[a]? = some (.lock Job.startTick) :=
    List.getElem?_set_self (List.getElem?_eq_some_iff.mp hidle).1
  refine ⟨by simp, h.started, fun _ _ => ?_, (fun hearly => by cases hearly), ?_, by simp, ?_, h.first, ?_,
    h.unfinished⟩
  · exact h.isRunning (by simp [hphase]) (by simp [hphase])
  · rintro b ⟨⟩ -
    exact ⟨_, hat, rfl⟩
  · intro _ job hjob
    rw [htick] at hjob
    exact List.mem_singleton.mp hjob
  · rw [htick]
    simp [setAdder, hnone, isStartTick]

theorem add (h : Ticking s) (happended : s.pool.appended ≠ []) {a : ℕ} {func : α}
    {pool : ThreadPool (Job α)} (hpool : s.pool.step (.addTask a (.task func)) = some pool) :
    Ticking { s with pool } := by
  obtain ⟨hidle, rfl⟩ := step_addTask hpool
  have hcount := (coming_setAdder (.lock (.task func)) hidle).countP_eq isStartTick
  have hnew : coming (s.pool.setAdder a (.lock (.task func))) =
    (s.pool.adders.set a (.lock (.task func))).flatMap carried := rfl
  have honce := h.once
  refine ⟨h.up, h.started, h.isRunning, fun hearly => ?_, fun b hb hnone => absurd hnone happended, h.made,
    fun hnone => absurd hnone happended, h.first, ?_, h.unfinished⟩
  · have hlate : s.phase.isEarly = false := h.not_early happended
    rw [hlate] at hearly
    cases hearly
  · simp only [carried, List.append_nil, List.countP_append, List.countP_singleton, isStartTick] at hcount
    rw [hnew]
    simp only [setAdder]
    simp at hcount
    omega

/-- `startTick` does not return from a step inside the pool. -/
theorem inside_unfinished (h : Ticking s)
    (hreach : System.Reach (threadPoolMachine (Job α) n) System.Free s.pool)
    {x : ThreadPoolAction (Job α)} {pool : ThreadPool (Job α)} (hx : Inside x)
    (hround : ∀ i, x = .worker i → s.pool.workers[i]? = some (.running .startTick) → s.isRunning = false)
    (hpool : s.pool.step x = some pool) : .startTick ∉ pool.ran := by
  rcases inside_ran hx hpool with hran | ⟨i, job, rfl, hrunning, hran⟩
  · rw [hran]
    exact h.unfinished
  · have htick : job ≠ .startTick := by
      rintro rfl
      have hflag := h.running_of_appended (appended_of_running hreach (List.mem_of_getElem? hrunning))
      rw [hround i rfl hrunning] at hflag
      cases hflag
    rw [hran, List.mem_append, List.mem_singleton]
    exact fun hmem => hmem.elim h.unfinished fun heq => htick heq.symm

theorem nothing_appended (h : Ticking s) {pool : ThreadPool (Job α)} (hstarted : pool.isStarted = true)
    (happended : pool.appended = s.pool.appended)
    (hadders : pool.adders.map carried = s.pool.adders.map carried)
    (hunfinished : .startTick ∉ pool.ran) : Ticking { s with pool } := by
  have hcoming : coming pool = coming s.pool := by
    rw [coming, coming, List.flatMap_def, List.flatMap_def, hadders]
  refine ⟨h.up, hstarted, h.isRunning, ?_, ?_, ?_, ?_, ?_, ?_, hunfinished⟩
  · rw [happended, hcoming]
    exact h.early
  · intro a ha hnone
    rw [happended] at hnone
    obtain ⟨pc, hpc, hcarried⟩ := h.adding a ha hnone
    have hat := congrArg (fun l => l[a]?) hadders
    simp only [List.getElem?_map, hpc, Option.map_some] at hat
    obtain ⟨pc', hpc', heq⟩ := Option.map_eq_some_iff.mp hat
    exact ⟨pc', hpc', heq.trans hcarried⟩
  · rw [happended]
    exact h.made
  · rw [happended, hcoming]
    exact h.pending
  · rw [happended]
    exact h.first
  · rw [happended, hcoming]
    exact h.once

/-- What is appended to an empty list was carried there before anything else, so it is `startTick`. -/
theorem job_appended (h : Ticking s) {pool : ThreadPool (Job α)} (hstarted : pool.isStarted = true)
    {b : ℕ} {job : Job α} (hjob : s.pool.adders[b]? = some (.append job))
    (hadders : pool.adders = s.pool.adders.set b .notify)
    (happended : pool.appended = s.pool.appended ++ [job]) (hunfinished : .startTick ∉ pool.ran) :
    Ticking { s with pool } := by
  have hcomes : job ∈ coming s.pool :=
    List.mem_flatMap.mpr ⟨_, List.mem_of_getElem? hjob, List.mem_singleton_self job⟩
  have hne : pool.appended ≠ [] := by simp [happended]
  have hcount := (coming_setAdder .notify hjob).countP_eq isStartTick
  have honce := h.once
  refine ⟨h.up, hstarted, h.isRunning, ?_, fun _ _ hnone => absurd hnone hne, fun _ => hne,
    fun hnone => absurd hnone hne, ?_, ?_, hunfinished⟩
  · intro hearly
    rw [(h.early hearly).2] at hcomes
    cases hcomes
  · intro first hfirst
    rw [happended] at hfirst
    cases hold : s.pool.appended with
    | nil =>
      rw [hold] at hfirst
      obtain rfl : job = first := by simpa using hfirst
      exact h.pending hold job hcomes
    | cons head rest =>
      rw [hold] at hfirst
      exact h.first first (by simpa [hold] using hfirst)
  · simp only [carried, List.append_nil, List.countP_append] at hcount
    rw [happended, coming, hadders, List.countP_append]
    omega

theorem inside (h : Ticking s) (hreach : System.Reach (threadPoolMachine (Job α) n) System.Free s.pool)
    {x : ThreadPoolAction (Job α)} {pool : ThreadPool (Job α)} (hx : Inside x)
    (hround : ∀ i, x = .worker i → s.pool.workers[i]? = some (.running .startTick) → s.isRunning = false)
    (hpool : s.pool.step x = some pool) : Ticking { s with pool } := by
  have hunfinished := h.inside_unfinished hreach hx hround hpool
  obtain ⟨hstarted, hmove⟩ := inside_coming hx h.started hpool
  rcases hmove with ⟨happended, hadders⟩ | ⟨b, job, hjob, hadders, happended⟩
  · exact h.nothing_appended hstarted happended hadders hunfinished
  · exact h.job_appended hstarted hjob hadders happended hunfinished

theorem move (h : Ticking s) (hreach : System.Reach (threadPoolMachine (Job α) n) System.Free s.pool)
    (hmove : Timer.Move s s') : s'.phase = .shutDown ∨ Ticking s' := by
  cases hmove with
  | newTimer a hphase =>
    refine Or.inr ⟨by simp, h.started, ?_, fun _ => h.early (by rw [hphase]; rfl), by simp, by simp,
      h.pending, h.first, h.once, h.unfinished⟩
    exact fun _ hne => absurd rfl (hne a)
  | start hphase =>
    exact Or.inr ⟨by simp, h.started, fun _ _ => rfl, fun _ => h.early (by rw [hphase]; rfl), by simp,
      by simp, h.pending, h.first, h.once, h.unfinished⟩
  | addTick hphase hpool => exact Or.inr (h.addTick hphase hpool)
  | made hphase hreturned =>
    refine Or.inr ⟨by simp, h.started, fun _ _ => ?_, (fun hearly => by cases hearly), by simp,
      fun _ hnone => ?_, h.pending, h.first, h.once, h.unfinished⟩
    · exact h.isRunning (by simp [hphase]) (by simp [hphase])
    · obtain ⟨pc, hpc, hcarried⟩ := h.adding _ hphase hnone
      rw [hpc, Option.any_some] at hreturned
      cases pc with
      | idle => cases hcarried
      | _ => cases hreturned
  | add hhas hpool =>
    refine Or.inr (h.add ?_ hpool)
    rcases hhas with hmade | hdown | hticking
    · exact h.made hmade
    · exact absurd hdown h.up
    · obtain ⟨pc, hpc, htick⟩ := List.any_eq_true.mp hticking
      cases pc with
      | running job => exact appended_of_running hreach hpc
      | _ => cases htick
  | round => exact Or.inr h
  | inside hx hround hpool => exact Or.inr (h.inside hreach hx hround hpool)
  | shutdown _ => exact Or.inl rfl
  | stop hphase _ => exact absurd hphase h.up

theorem reach (h : System.Reach (timerMachine α n) System.Free s) :
    s.phase = .shutDown ∨ Ticking s := by
  induction h with
  | init hinit =>
    obtain ⟨m, rfl⟩ := hinit
    exact Or.inr (.start m)
  | step hreach _ hstep ih =>
    have hmove := Timer.run_move hstep
    rcases ih with hdown | hticking
    · exact Or.inl (Timer.move_shutDown hmove hdown)
    · exact hticking.move (Timer.reach_pool hreach) hmove

/-- What is taken first is `startTick`, and it is still with the worker that took it. -/
theorem running_startTick (h : Ticking s)
    (hreach : System.Reach (threadPoolMachine (Job α) n) System.Free s.pool) {job : Job α}
    (hjob : job ∈ s.pool.ran ++ s.pool.workers.flatMap inFlight) :
    .running .startTick ∈ s.pool.workers := by
  obtain ⟨-, taken, happended, hperm, -⟩ := InOrder.reach hreach
  have htaken : job ∈ taken := hperm.mem_iff.mpr hjob
  have htick : .startTick ∈ taken := by
    cases taken with
    | nil => cases htaken
    | cons head rest =>
      have hhead : head = .startTick := h.first head (by simp [happended])
      exact hhead ▸ List.mem_cons_self
  rcases List.mem_append.mp (hperm.mem_iff.mp htick) with hran | hflight
  · exact absurd hran h.unfinished
  · exact mem_inFlight.mp hflight

end Ticking

def runsTask : WorkerPc (Job α) → Bool
  | .running (.task _) => true
  | _ => false

theorem runsTask_lt {workers : List (WorkerPc (Job α))} (h : .running .startTick ∈ workers) :
    workers.countP runsTask < workers.length := by
  refine Nat.lt_of_le_of_ne List.countP_le_length fun hall => ?_
  have := List.countP_eq_length.mp hall _ h
  cases this

/-- Until the timer is shut down: `startTick` has been appended first and once, and it has not returned.
So a worker is in it whenever a task has been taken, and in a pool of one thread no task is. -/
theorem tick_occupies_worker {s : Timer α} (h : System.Reach (timerMachine α n) System.Free s)
    (hup : s.phase ≠ .shutDown) :
    (∀ job ∈ s.pool.appended.head?, job = .startTick) ∧ s.pool.appended.countP isStartTick ≤ 1 ∧
      .startTick ∉ s.pool.ran ∧
      (∀ func, .task func ∈ s.pool.ran ++ s.pool.workers.flatMap inFlight →
        .running .startTick ∈ s.pool.workers) ∧
      s.pool.workers.countP runsTask ≤ n - 1 ∧
      (n = 1 → s.pool.ran = [] ∧ ∀ func, .running (.task func) ∉ s.pool.workers) := by
  have ht : Ticking s := (Ticking.reach h).resolve_left hup
  have hpool := Timer.reach_pool h
  obtain ⟨hlen, taken, happended, hperm, hsingle⟩ := InOrder.reach hpool
  have htick : ∀ func, .running (.task func) ∈ s.pool.workers → .running .startTick ∈ s.pool.workers :=
    fun func hmem => ht.running_startTick hpool
      (List.mem_append_right _ (mem_inFlight.mpr hmem))
  refine ⟨ht.first, Nat.le_of_add_right_le ht.once, ht.unfinished,
    fun _ hmem => ht.running_startTick hpool hmem, ?_, fun hone => ⟨?_, fun func hmem => ?_⟩⟩
  · by_cases hruns : .running .startTick ∈ s.pool.workers
    · have hlt := runsTask_lt hruns
      omega
    · have hnone : s.pool.workers.countP runsTask = 0 := by
        refine List.countP_eq_zero.mpr fun pc hpc hrunsTask => hruns ?_
        cases pc with
        | running job =>
          cases job with
          | startTick => exact hpc
          | task func => exact htick func hpc
        | _ => cases hrunsTask
      omega
  · cases hran : s.pool.ran with
    | nil => rfl
    | cons first rest =>
      have hfirst : first = .startTick := ht.first first (by simp [happended, hsingle hone, hran])
      exact absurd (hran ▸ hfirst ▸ List.mem_cons_self) ht.unfinished
  · obtain ⟨w, hw⟩ := List.length_eq_one_iff.mp (hlen.trans hone)
    have hother := htick func hmem
    rw [hw, List.mem_singleton] at hmem hother
    cases hmem.trans hother.symm

/-- One thread, and a task that is never taken. -/
theorem tick_occupies_worker_alone :
    ∃ s : Timer ℕ, System.Reach (timerMachine ℕ 1) System.Free s ∧
      s.pool.appended = [.startTick, .task 7] ∧ s.pool.ran = [] ∧
      ∀ func, .running (.task func) ∉ s.pool.workers := by
  obtain ⟨s, -, hreach, hp⟩ := System.exists_reach (M := timerMachine ℕ 1) (G := System.Free)
    [.newTimer 0, .start, .start, .pool (.adder 0), .pool (.adder 0), .pool (.adder 0),
      .pool (.notifyOne 0 none), .pool (.adder 0), .start, .pool (.worker 0), .pool (.worker 0),
      .pool (.worker 0), .pool (.worker 0), .addTimerTaskEntry 0 7, .pool (.adder 0),
      .pool (.adder 0), .pool (.adder 0)]
    (fun s => s.phase = .made ∧ s.pool.appended = [.startTick, .task 7]) ⟨1, rfl⟩ (by decide)
  obtain ⟨hmade, happended⟩ := of_decide_eq_true hp
  obtain ⟨-, -, -, -, -, halone⟩ := tick_occupies_worker hreach (by simp [hmade])
  exact ⟨s, hreach, happended, halone rfl⟩

end

end Mutty.Thread
