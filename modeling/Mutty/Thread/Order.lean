import Mutty.Thread.Shutdown

/-!
# The order in which tasks are taken

Tasks leave the queue in the order of their appends. While the pool is started, `notify_one` under
the mutex loses no wakeup: as long as a worker sleeps, every queued task has a worker that is awake,
or a notification about to be sent.
-/

namespace Mutty.Thread

open Mutty.Lib ThreadPool

variable {τ : Type} {n : ℕ} {σ σ' : ThreadPool τ} {a : ThreadPoolAction τ}

/-! ## First in, first out -/

/-- The tasks taken so far are the first ones appended; a single worker has them in order. -/
structure InOrder (n : ℕ) (σ : ThreadPool τ) : Prop where
  length : σ.workers.length = n
  taken : ∃ taken, σ.appended = taken ++ σ.tasks ∧
    taken.Perm (σ.ran ++ σ.workers.flatMap inFlight) ∧
    (n = 1 → taken = σ.ran ++ σ.workers.flatMap inFlight)

namespace InOrder

theorem flatMap_single {i : ℕ} {pc pc' : WorkerPc τ} (h : σ.workers.length = 1)
    (hpc : σ.workers[i]? = some pc) :
    σ.workers.flatMap inFlight = inFlight pc ∧
      (σ.workers.set i pc').flatMap inFlight = inFlight pc' := by
  obtain ⟨w, hw⟩ := List.length_eq_one_iff.mp h
  rw [hw] at hpc ⊢
  cases i with
  | zero =>
    obtain rfl : w = pc := by simpa using hpc
    simp
  | succ i => simp at hpc

theorem worker {i : ℕ} {pc pc' : WorkerPc τ} (h : InOrder n σ) (hm : WorkerMove σ i pc pc' σ') :
    InOrder n σ' := by
  obtain ⟨hlen, taken, htaken, hperm, hone⟩ := h
  have hpc := hm.at_pc
  have hset := flatMap_set_perm (f := inFlight) (x := pc') hpc
  have hsingle : n = 1 → σ.workers.flatMap inFlight = inFlight pc ∧
      (σ.workers.set i pc').flatMap inFlight = inFlight pc' :=
    fun h1 => flatMap_single (hlen.trans h1) hpc
  refine ⟨by rw [hm.workers, List.length_set, hlen], ?_⟩
  rw [hm.workers, hm.appended]
  cases hm.task with
  | keep htasks hran hflight =>
    refine ⟨taken, by rw [htasks, htaken], ?_, ?_⟩
    · rw [hran]
      rw [hflight] at hset
      exact hperm.trans (((List.perm_append_right_iff _).mp hset).symm.append_left _)
    · intro h1
      rw [hone h1, hran, (hsingle h1).1, (hsingle h1).2, hflight]
  | take task htasks hran hold hnew =>
    refine ⟨taken ++ [task], by rw [htaken, htasks]; simp, ?_, ?_⟩
    · rw [hran]
      rw [hold, hnew, List.append_nil] at hset
      refine (hperm.append_right [task]).trans ?_
      rw [List.append_assoc]
      exact hset.symm.append_left _
    · intro h1
      rw [hone h1, hran, (hsingle h1).1, (hsingle h1).2, hold, hnew]
      simp
  | done task htasks hran hold hnew =>
    refine ⟨taken, by rw [htasks, htaken], ?_, ?_⟩
    · rw [hran]
      rw [hold, hnew, List.append_nil] at hset
      refine hperm.trans ((hset.symm.trans List.perm_append_comm).append_left _ |>.trans ?_)
      rw [List.append_assoc]
    · intro h1
      rw [hone h1, hran, (hsingle h1).1, (hsingle h1).2, hold, hnew]
      simp

theorem adder {b : ℕ} {pc pc' : AdderPc τ} (h : InOrder n σ) (hm : AdderMove σ b pc pc' σ') :
    InOrder n σ' := by
  obtain ⟨hlen, taken, htaken, hperm, hone⟩ := h
  refine ⟨by rw [hm.workers, hlen], taken, ?_, ?_⟩
  · rcases hm.appends with ⟨ht, happ, -⟩ | ⟨task, -, ht, happ, -⟩
    · rw [happ, ht, htaken]
    · rw [happ, ht, htaken, List.append_assoc]
  · rw [hm.ran, hm.workers]
    exact ⟨hperm, hone⟩

theorem step (h : InOrder n σ) (hstep : σ.step a = some σ') : InOrder n σ' := by
  cases step_moves hstep with
  | worker hm => exact h.worker hm
  | spurious hm => exact h.worker hm
  | addTask hm => exact h.adder hm
  | adder hm => exact h.adder hm
  | notifyOne hm hm' => exact (h.worker hm).adder hm'
  | notifyNone hm => exact h.adder hm
  | write _ => exact ⟨h.length, h.taken⟩
  | notifyAll _ =>
    refine ⟨by rw [List.length_map, h.length], ?_⟩
    simpa only [List.flatMap_map, inFlight_wake] using h.taken
  | join _ _ => exact ⟨h.length, h.taken⟩
  | returned _ _ => exact ⟨h.length, h.taken⟩

theorem reach {G : ThreadPool τ → ThreadPoolAction τ → Prop}
    (h : System.Reach (threadPoolMachine τ n) G σ) : InOrder n σ := by
  induction h with
  | init hinit =>
    obtain ⟨m, rfl⟩ := hinit
    refine ⟨by simp [start], [], rfl, ?_⟩
    have hnone : (List.replicate n (WorkerPc.testStarted : WorkerPc τ)).flatMap inFlight = [] := by
      simp [inFlight]
    simp only [start, hnone]
    exact ⟨List.Perm.refl _, fun _ => rfl⟩
  | step _ _ hstep ih => exact ih.step hstep

end InOrder

/-- In every run, stopped or not, the tasks taken from the queue are the first ones appended, each
taken once; no more than one for each worker is in flight, and a single worker runs them in the
order of their appends. -/
theorem taken_in_order (h : System.Reach (threadPoolMachine τ n) System.Free σ) :
    (σ.workers.flatMap inFlight).length ≤ n ∧
      ∃ taken, σ.appended = taken ++ σ.tasks ∧
        taken.Perm (σ.ran ++ σ.workers.flatMap inFlight) ∧
        (n = 1 → taken = σ.ran ++ σ.workers.flatMap inFlight) := by
  obtain ⟨hlen, htaken⟩ := InOrder.reach h
  refine ⟨?_, htaken⟩
  rw [← hlen]
  generalize σ.workers = workers
  induction workers with
  | nil => simp
  | cons pc workers ih =>
    have hone : (inFlight pc).length ≤ 1 := by cases pc <;> simp [inFlight]
    rw [List.flatMap_cons, List.length_append, List.length_cons]
    omega

theorem taken_in_order_two_tasks :
    ∃ σ : ThreadPool ℕ, System.Reach (threadPoolMachine ℕ 1) System.Free σ ∧ σ.ran = [7] ∧
      ∃ taken, σ.appended = taken ++ σ.tasks ∧ taken = [7] ∧ σ.tasks = [8] := by
  obtain ⟨σ, -, hreach, hp⟩ := System.exists_reach (M := threadPoolMachine ℕ 1) (G := System.Free)
    [.addTask 0 7, .adder 0, .adder 0, .adder 0, .notifyOne 0 none, .adder 0, .addTask 0 8, .adder 0,
      .adder 0, .adder 0, .notifyOne 0 none, .adder 0, .worker 0, .worker 0, .worker 0, .worker 0,
      .worker 0]
    (fun σ => σ.ran = [7] ∧ σ.tasks = [8] ∧ σ.workers.flatMap inFlight = []) ⟨1, rfl⟩ (by decide)
  obtain ⟨hran, htasks, hflight⟩ := of_decide_eq_true hp
  obtain ⟨-, taken, happended, -, hone⟩ := taken_in_order hreach
  refine ⟨σ, hreach, hran, taken, happended, ?_, htasks⟩
  rw [hone rfl, hran, hflight, List.append_nil]

/-! ## No wakeup is lost -/

namespace ThreadPool

def workerHolds : WorkerPc τ → Bool
  | .testEmpty | .testWait | .wait | .takeTask => true
  | _ => false

def adderHolds : AdderPc τ → Bool
  | .test _ | .append _ | .notify | .unlock => true
  | _ => false

/-- Has found the queue empty and is about to block. -/
def isWaiting : WorkerPc τ → Bool
  | .testWait | .wait => true
  | _ => false

/-- Neither asleep nor busy: a worker that will look at the queue again. -/
def awakeWeight : WorkerPc τ → ℕ
  | .running _ | .blocked | .exited => 0
  | _ => 1

def notifyWeight : AdderPc τ → ℕ
  | .notify => 1
  | _ => 0

def awake (σ : ThreadPool τ) : ℕ := (σ.workers.map awakeWeight).sum

def notifying (σ : ThreadPool τ) : ℕ := (σ.adders.map notifyWeight).sum

end ThreadPool

/-- The mutex around a step of `party`, which holds it before and after as said. -/
inductive LockMove (mutex : Option Party) (party : Party) (before after : Bool) :
    Option Party → Prop
  | keep : (after = true → before = true) → LockMove mutex party before after mutex
  | lock : mutex = none → LockMove mutex party before after (some party)
  | unlock : before = true → after = false → LockMove mutex party before after none

theorem LockMove.self {mutex mutex' : Option Party} {party : Party} {before after : Bool}
    (h : LockMove mutex party before after mutex') (hold : before = true → mutex = some party)
    (ha : after = true) : mutex' = some party := by
  cases h with
  | keep hkeep => exact hold (hkeep ha)
  | lock _ => rfl
  | unlock _ hafter =>
    rw [ha] at hafter
    cases hafter

theorem LockMove.other {mutex mutex' : Option Party} {party party' : Party} {before after : Bool}
    (h : LockMove mutex party before after mutex') (hold : before = true → mutex = some party)
    (hne : party' ≠ party) (hm : mutex = some party') : mutex' = some party' := by
  cases h with
  | keep _ => exact hm
  | lock hfree =>
    rw [hm] at hfree
    cases hfree
  | unlock hbefore _ =>
    rw [hm] at hold
    exact absurd (Option.some.inj (hold hbefore)) hne

/-- While the pool is started and a worker sleeps, there is a worker awake or a notification on its
way for every queued task. -/
structure Fed (σ : ThreadPool τ) : Prop where
  workers : ∀ (i : ℕ) pc, σ.workers[i]? = some pc → workerHolds pc = true → σ.mutex = some (.worker i)
  adders : ∀ (b : ℕ) pc, σ.adders[b]? = some pc → adderHolds pc = true → σ.mutex = some (.adder b)
  empty : ∀ (i : ℕ) pc, σ.workers[i]? = some pc → isWaiting pc = true → σ.tasks = []
  stopped : σ.stop ≠ .idle → σ.isStarted = false
  working : σ.isStarted = true → ∀ pc ∈ σ.workers, pc ≠ .testTasks ∧ pc ≠ .exited
  fed : σ.isStarted = true → .blocked ∈ σ.workers → σ.tasks.length ≤ σ.awake + σ.notifying

namespace Fed

theorem worker {i : ℕ} {pc pc' : WorkerPc τ} {tasks ran : List τ} {mutex : Option Party}
    (h : Fed σ) (hpc : σ.workers[i]? = some pc)
    (hlock : LockMove σ.mutex (.worker i) (workerHolds pc) (workerHolds pc') mutex)
    (htasks : tasks = σ.tasks ∨ ∃ task, σ.tasks = task :: tasks)
    (hwaits : isWaiting pc' = true → tasks = [])
    (hstays : σ.isStarted = true → pc' ≠ .testTasks ∧ pc' ≠ .exited)
    (hfed : tasks = [] ∨ pc' ≠ .blocked ∧
      tasks.length + awakeWeight pc ≤ σ.tasks.length + awakeWeight pc') :
    Fed { σ.setWorker i pc' with tasks, mutex, ran } := by
  have hlt := (List.getElem?_eq_some_iff.mp hpc).1
  have hself : ∀ w, (σ.workers.set i pc')[i]? = some w → w = pc' := by
    intro w hw
    rw [List.getElem?_set_self hlt] at hw
    exact (Option.some.inj hw).symm
  refine ⟨?_, ?_, ?_, h.stopped, ?_, ?_⟩
  · intro j w hw hholds
    by_cases hij : i = j
    · subst hij
      rw [hself w hw] at hholds
      exact hlock.self (h.workers i pc hpc) hholds
    · refine hlock.other (h.workers i pc hpc) ?_ (h.workers j w ?_ hholds)
      · exact fun heq => hij (Party.worker.inj heq).symm
      · rwa [setWorker, List.getElem?_set_ne hij] at hw
  · intro b w hw hholds
    exact hlock.other (h.workers i pc hpc) (by simp) (h.adders b w hw hholds)
  · intro j w hw hwait
    by_cases hij : i = j
    · subst hij
      rw [hself w hw] at hwait
      exact hwaits hwait
    · rw [setWorker, List.getElem?_set_ne hij] at hw
      have hnil := h.empty j w hw hwait
      rcases htasks with rfl | ⟨task, htask⟩
      · exact hnil
      · rw [hnil] at htask
        cases htask
  · intro hstarted w hw
    rcases List.mem_or_eq_of_mem_set hw with hw | rfl
    · exact h.working hstarted w hw
    · exact hstays hstarted
  · intro hstarted hblocked
    rcases hfed with rfl | ⟨hne, hcount⟩
    · simp
    · have hold : WorkerPc.blocked ∈ σ.workers :=
        (List.mem_or_eq_of_mem_set hblocked).resolve_right fun heq => hne heq.symm
      have hle := h.fed hstarted hold
      have hsum := sum_map_set (w := awakeWeight) (x := pc') hpc
      simp only [awake, notifying, setWorker] at hle ⊢
      omega

theorem adder {b : ℕ} {pc pc' : AdderPc τ} {tasks appended late : List τ} {mutex : Option Party}
    (h : Fed σ) (hpc : σ.adders[b]? = some pc)
    (hlock : LockMove σ.mutex (.adder b) (adderHolds pc) (adderHolds pc') mutex)
    (htasks : tasks = σ.tasks ∨ adderHolds pc = true)
    (hfed : σ.isStarted = true → .blocked ∈ σ.workers →
      tasks.length + notifyWeight pc ≤ σ.awake + σ.notifying + notifyWeight pc') :
    Fed { σ.setAdder b pc' with tasks, mutex, appended, late } := by
  have hlt := (List.getElem?_eq_some_iff.mp hpc).1
  refine ⟨?_, ?_, ?_, h.stopped, h.working, ?_⟩
  · intro j w hw hholds
    exact hlock.other (h.adders b pc hpc) (by simp) (h.workers j w hw hholds)
  · intro c w hw hholds
    by_cases hbc : b = c
    · subst hbc
      rw [setAdder, List.getElem?_set_self hlt] at hw
      rw [← Option.some.inj hw] at hholds
      exact hlock.self (h.adders b pc hpc) hholds
    · refine hlock.other (h.adders b pc hpc) ?_ (h.adders c w ?_ hholds)
      · exact fun heq => hbc (Party.adder.inj heq).symm
      · rwa [setAdder, List.getElem?_set_ne hbc] at hw
  · intro j w hw hwait
    rcases htasks with rfl | hholds
    · exact h.empty j w hw hwait
    · have hworker : workerHolds w = true := by cases w <;> first | rfl | cases hwait
      have := (h.workers j w hw hworker).symm.trans (h.adders b pc hpc hholds)
      cases this
  · intro hstarted hblocked
    have hle := hfed hstarted hblocked
    have hsum := sum_map_set (w := notifyWeight) (x := pc') hpc
    simp only [awake, notifying, setAdder] at hle ⊢
    omega

theorem workerStep {i : ℕ} {pc : WorkerPc τ} (h : Fed σ) (hpc : σ.workers[i]? = some pc)
    (hstep : σ.workerStep i pc = some σ') : Fed σ' := by
  cases pc with
  | testStarted =>
    rw [← Option.some.inj hstep]
    refine h.worker hpc (.keep ?_) (Or.inl rfl) ?_ ?_ (Or.inr ⟨?_, ?_⟩) <;>
      split_ifs <;> simp_all [workerHolds, isWaiting, awakeWeight]
  | testTasks =>
    have hstopped : σ.isStarted = false := by
      by_contra hstarted
      exact (h.working (by simpa using hstarted) _ (List.mem_of_getElem? hpc)).1 rfl
    rw [← Option.some.inj hstep]
    refine h.worker hpc (.keep ?_) (Or.inl rfl) ?_ (by simp [hstopped]) ?_
    · split_ifs <;> simp [workerHolds]
    · split_ifs <;> simp [isWaiting]
    · by_cases hempty : σ.tasks = []
      · exact Or.inl hempty
      · simp [hempty, awakeWeight]
  | lock =>
    simp only [ThreadPool.workerStep] at hstep
    split_ifs at hstep with hfree
    rw [← Option.some.inj hstep]
    exact h.worker hpc (.lock hfree) (Or.inl rfl) (by simp [isWaiting]) (by simp)
      (Or.inr ⟨by simp, by simp [setWorker, awakeWeight]⟩)
  | testEmpty =>
    rw [← Option.some.inj hstep]
    refine h.worker hpc (.keep fun _ => rfl) (Or.inl rfl) ?_ ?_ (Or.inr ⟨?_, ?_⟩) <;>
      split_ifs with hempty <;> simp_all [isWaiting, awakeWeight]
  | testWait =>
    have hempty := h.empty i _ hpc rfl
    rw [← Option.some.inj hstep]
    refine h.worker hpc (.keep fun _ => rfl) (Or.inl rfl) (fun _ => hempty) ?_ (Or.inl hempty)
    split_ifs <;> simp
  | wait =>
    have hempty := h.empty i _ hpc rfl
    rw [← Option.some.inj hstep]
    exact h.worker hpc (.unlock rfl rfl) (Or.inl rfl) (by simp [isWaiting]) (by simp) (Or.inl hempty)
  | blocked => cases hstep
  | relock =>
    simp only [ThreadPool.workerStep] at hstep
    split_ifs at hstep with hfree
    rw [← Option.some.inj hstep]
    exact h.worker hpc (.lock hfree) (Or.inl rfl) (by simp [isWaiting]) (by simp)
      (Or.inr ⟨by simp, by simp [setWorker, awakeWeight]⟩)
  | takeTask =>
    simp only [ThreadPool.workerStep] at hstep
    split at hstep
    · rename_i hempty
      rw [← Option.some.inj hstep]
      exact h.worker hpc (.unlock rfl rfl) (Or.inl rfl) (by simp [isWaiting]) (by simp)
        (Or.inl hempty)
    · rename_i task rest htasks
      rw [← Option.some.inj hstep]
      exact h.worker hpc (.unlock rfl rfl) (Or.inr ⟨task, htasks⟩) (by simp [isWaiting]) (by simp)
        (Or.inr ⟨by simp, by simp [awakeWeight, htasks]⟩)
  | running task =>
    rw [← Option.some.inj hstep]
    exact h.worker hpc (.keep (by simp [workerHolds])) (Or.inl rfl) (by simp [isWaiting]) (by simp)
      (Or.inr ⟨by simp, by simp [setWorker, awakeWeight]⟩)
  | exited => cases hstep

theorem wake {i : ℕ} {pc : WorkerPc τ} (h : Fed σ) (hpc : σ.workers[i]? = some pc)
    (hb : isBlocked pc = true) : Fed (σ.setWorker i .relock) ∧
      (σ.setWorker i .relock).awake = σ.awake + 1 := by
  obtain rfl : pc = .blocked := by cases pc <;> first | rfl | cases hb
  constructor
  · exact h.worker hpc (.keep (by simp [workerHolds])) (Or.inl rfl) (by simp [isWaiting]) (by simp)
      (Or.inr ⟨by simp, by simp [awakeWeight]⟩)
  · have hsum := sum_map_set (w := awakeWeight) (x := WorkerPc.relock) hpc
    simpa [awake, setWorker, awakeWeight] using hsum

theorem adder_quiet {b : ℕ} {pc pc' : AdderPc τ} {tasks appended late : List τ}
    {mutex : Option Party} (h : Fed σ) (hpc : σ.adders[b]? = some pc)
    (hlock : LockMove σ.mutex (.adder b) (adderHolds pc) (adderHolds pc') mutex)
    (htasks : tasks = σ.tasks ∨ adderHolds pc = true)
    (hcount : tasks.length + notifyWeight pc ≤ σ.tasks.length + notifyWeight pc') :
    Fed { σ.setAdder b pc' with tasks, mutex, appended, late } := by
  refine h.adder hpc hlock htasks ?_
  intro hstarted hblocked
  have hle := h.fed hstarted hblocked
  omega

theorem adderStep {b : ℕ} {pc : AdderPc τ} (h : Fed σ) (hpc : σ.adders[b]? = some pc)
    (hstep : σ.adderStep b pc = some σ') : Fed σ' := by
  cases pc with
  | idle => cases hstep
  | lock task =>
    simp only [ThreadPool.adderStep] at hstep
    split_ifs at hstep with hfree
    rw [← Option.some.inj hstep]
    exact h.adder_quiet hpc (.lock hfree) (Or.inl rfl) (by simp [setAdder, notifyWeight])
  | test task =>
    rw [← Option.some.inj hstep]
    refine h.adder_quiet hpc (.keep fun _ => rfl) (Or.inl rfl) ?_
    split_ifs <;> simp [notifyWeight]
  | append task =>
    rw [← Option.some.inj hstep]
    exact h.adder_quiet hpc (.keep fun _ => rfl) (Or.inr rfl) (by simp [notifyWeight])
  | notify => cases hstep
  | unlock =>
    rw [← Option.some.inj hstep]
    exact h.adder_quiet hpc (.unlock rfl rfl) (Or.inl rfl) (by simp [setAdder, notifyWeight])

/-- A worker that sleeps is woken, and counts for the notification that has woken it. -/
theorem notify {b i : ℕ} {pc : WorkerPc τ} (h : Fed σ) (hnotify : σ.adders[b]? = some .notify)
    (hpc : σ.workers[i]? = some pc) (hb : isBlocked pc = true) :
    Fed ((σ.setWorker i .relock).setAdder b .unlock) := by
  obtain ⟨hwoken, hawake⟩ := h.wake hpc hb
  obtain rfl : pc = .blocked := by cases pc <;> first | rfl | cases hb
  refine hwoken.adder hnotify (.keep fun _ => rfl) (Or.inl rfl) ?_
  intro hstarted _
  have hle := h.fed hstarted (List.mem_of_getElem? hpc)
  have hsame : (σ.setWorker i .relock).notifying = σ.notifying := rfl
  rw [hawake, hsame]
  simp only [setWorker, notifyWeight]
  omega

/-- Nobody sleeps, so nobody misses the notification. -/
theorem notify_none {b : ℕ} (h : Fed σ) (hnotify : σ.adders[b]? = some .notify)
    (hnone : ¬ σ.workers.any isBlocked) : Fed (σ.setAdder b .unlock) := by
  refine h.adder hnotify (.keep fun _ => rfl) (Or.inl rfl) ?_
  intro _ hblocked
  exact absurd (List.any_eq_true.mpr ⟨_, hblocked, rfl⟩) hnone

theorem stop (h : Fed σ) (hstep : σ.stopStep = some σ') : Fed σ' := by
  have hmoves := step_moves (a := .stop) hstep
  cases hmoves with
  | write _ => exact ⟨h.workers, h.adders, h.empty, fun _ => rfl, by simp, by simp⟩
  | notifyAll hstop =>
    have hstopped := h.stopped (by simp [hstop])
    have hold : ∀ (i : ℕ) pc, (σ.workers.map ThreadPool.wake)[i]? = some pc →
        workerHolds pc = true ∨ isWaiting pc = true → σ.workers[i]? = some pc := by
      intro i pc hpc hholds
      rw [List.getElem?_map] at hpc
      obtain ⟨pc₀, hpc₀, rfl⟩ := Option.map_eq_some_iff.mp hpc
      rw [hpc₀]
      cases pc₀ <;> first | rfl | simp [ThreadPool.wake, workerHolds, isWaiting] at hholds
    refine ⟨?_, h.adders, ?_, fun _ => hstopped, by simp [hstopped], by simp [hstopped]⟩
    · intro i pc hpc hholds
      exact h.workers i pc (hold i pc hpc (Or.inl hholds)) hholds
    · intro i pc hpc hwaits
      exact h.empty i pc (hold i pc hpc (Or.inr hwaits)) hwaits
  | join hstop _ =>
    exact ⟨h.workers, h.adders, h.empty, fun _ => h.stopped (by simp [hstop]), h.working, h.fed⟩
  | returned hstop _ =>
    exact ⟨h.workers, h.adders, h.empty, fun _ => h.stopped (by simp [hstop]), h.working, h.fed⟩

theorem step (h : Fed σ) (hstep : σ.step a = some σ') : Fed σ' := by
  cases a with
  | worker i =>
    obtain ⟨pc, hpc, hmove⟩ := Option.bind_eq_some_iff.mp hstep
    exact h.workerStep hpc hmove
  | spurious i =>
    obtain ⟨pc, hpc, hmove⟩ := Option.bind_eq_some_iff.mp hstep
    split_ifs at hmove with hb
    rw [← Option.some.inj hmove]
    exact (h.wake hpc hb).1
  | addTask b task =>
    simp only [ThreadPool.step] at hstep
    split at hstep
    · rename_i hidle
      rw [← Option.some.inj hstep]
      exact h.adder_quiet hidle (.keep (by simp [adderHolds])) (Or.inl rfl)
        (by simp [notifyWeight])
    · cases hstep
  | adder b =>
    obtain ⟨pc, hpc, hmove⟩ := Option.bind_eq_some_iff.mp hstep
    exact h.adderStep hpc hmove
  | notifyOne b woken =>
    simp only [ThreadPool.step] at hstep
    split at hstep
    · rename_i i hnotify
      obtain ⟨pc, hpc, hmove⟩ := Option.bind_eq_some_iff.mp hstep
      split_ifs at hmove with hb
      rw [← Option.some.inj hmove]
      exact h.notify hnotify hpc hb
    · rename_i hnotify
      split_ifs at hstep with hnone
      rw [← Option.some.inj hstep]
      exact h.notify_none hnotify hnone
    · cases hstep
  | stop => exact h.stop hstep

theorem reach {G : ThreadPool τ → ThreadPoolAction τ → Prop}
    (h : System.Reach (threadPoolMachine τ n) G σ) : Fed σ := by
  induction h with
  | init hinit =>
    obtain ⟨m, rfl⟩ := hinit
    have hworker : ∀ {i : ℕ} {pc : WorkerPc τ},
        (List.replicate n WorkerPc.testStarted)[i]? = some pc → pc = .testStarted := by
      intro i pc hpc
      exact List.eq_of_mem_replicate (List.mem_of_getElem? hpc)
    have hadder : ∀ {b : ℕ} {pc : AdderPc τ},
        (List.replicate m AdderPc.idle)[b]? = some pc → pc = .idle := by
      intro b pc hpc
      exact List.eq_of_mem_replicate (List.mem_of_getElem? hpc)
    refine ⟨?_, ?_, fun _ _ _ _ => rfl, by simp [start], ?_, by simp [start]⟩
    · intro i pc hpc hholds
      rw [hworker hpc] at hholds
      cases hholds
    · intro b pc hpc hholds
      rw [hadder hpc] at hholds
      cases hholds
    · intro _ pc hpc
      rw [List.eq_of_mem_replicate hpc]
      simp
  | step _ _ hstep ih => exact ih.step hstep

end Fed

/-- Until `stop` is called: while a worker is blocked, every queued task has a worker that is awake
and will look at the queue again, or a `notify_one` that is still to come. -/
theorem queued_have_workers (h : System.Reach (threadPoolMachine τ n) System.Free σ)
    (hstarted : σ.isStarted = true) (hblocked : .blocked ∈ σ.workers) :
    σ.tasks.length ≤ σ.awake + σ.notifying :=
  (Fed.reach h).fed hstarted hblocked

theorem queued_have_workers_two_tasks :
    ∃ σ : ThreadPool ℕ, System.Reach (threadPoolMachine ℕ 3) System.Free σ ∧
      .blocked ∈ σ.workers ∧ σ.tasks = [7, 8] ∧ 2 ≤ σ.awake + σ.notifying := by
  obtain ⟨σ, -, hreach, hp⟩ := System.exists_reach (M := threadPoolMachine ℕ 3) (G := System.Free)
    [.worker 0, .worker 0, .worker 0, .worker 0, .worker 0, .worker 1, .worker 1, .worker 1,
      .worker 1, .worker 1, .worker 2, .worker 2, .worker 2, .worker 2, .worker 2,
      .addTask 0 7, .adder 0, .adder 0, .adder 0, .notifyOne 0 (some 1), .adder 0,
      .addTask 0 8, .adder 0, .adder 0, .adder 0]
    (fun σ => σ.isStarted = true ∧ .blocked ∈ σ.workers ∧ σ.tasks = [7, 8]) ⟨1, rfl⟩ (by decide)
  obtain ⟨hstarted, hblocked, htasks⟩ := of_decide_eq_true hp
  have hle := queued_have_workers hreach hstarted hblocked
  rw [htasks] at hle
  exact ⟨σ, hreach, hblocked, htasks, hle⟩

end Mutty.Thread
