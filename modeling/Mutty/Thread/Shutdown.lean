import Mutty.Thread.ThreadPool

/-!
# What stop() guarantees

`stop` writes `m_isStarted` without the mutex. A call of `addTask` that has read the flag before may
append after every worker has gone, and a worker that has read it in its wait condition may block
after `notify_all`. Outside these two windows nothing goes wrong: the pool drains, and no worker is
left blocked.
-/

namespace Mutty.Thread

open Mutty.Lib ThreadPool

variable {τ : Type} {n : ℕ} {σ σ' : ThreadPool τ} {a : ThreadPoolAction τ}

/-! ## Draining -/

/-- When `stop` has returned every task appended has been run exactly once, and no task was ever
appended with no worker left to run it. -/
structure Drained (σ : ThreadPool τ) : Prop where
  ran : σ.stop = .returned → σ.ran.Perm σ.appended
  late : σ.late = []

def isTestTasks : WorkerPc τ → Bool
  | .testTasks => true
  | _ => false

def lastLeaves (σ : ThreadPool τ) (i : ℕ) : Bool :=
  (σ.workers[i]?).any isTestTasks && σ.tasks.isEmpty && (σ.workers.set i .exited).all isExited

/-- The last worker does not leave `threadLoop` while a call of `addTask` has seen `m_isStarted` set
and has not appended its task yet. -/
def LastLeavesAlone (σ : ThreadPool τ) : ThreadPoolAction τ → Prop
  | .worker i => lastLeaves σ i = true → σ.adders.any isAppending = false
  | _ => True

instance (σ : ThreadPool τ) (a : ThreadPoolAction τ) : Decidable (LastLeavesAlone σ a) :=
  match a with
  | .worker i =>
    inferInstanceAs (Decidable (lastLeaves σ i = true → σ.adders.any isAppending = false))
  | .spurious _ => isTrue trivial
  | .addTask _ _ => isTrue trivial
  | .adder _ => isTrue trivial
  | .notifyOne _ _ => isTrue trivial
  | .stop => isTrue trivial

/-- The tasks appended are those run, those in the hands of a worker and those still queued. -/
def Conserved (σ : ThreadPool τ) : Prop :=
  σ.appended.Perm (σ.ran ++ (σ.workers.flatMap inFlight ++ σ.tasks))

theorem Conserved.worker {i : ℕ} {pc pc' : WorkerPc τ} (h : Conserved σ)
    (hm : WorkerMove σ i pc pc' σ') : Conserved σ' := by
  classical
  have hset := flatMap_set_perm (f := inFlight) (x := pc') hm.at_pc
  have htasks := hm.tasks
  unfold Conserved at h ⊢
  rw [hm.workers, hm.appended]
  rw [List.perm_iff_count] at h hset htasks ⊢
  intro t
  have h₁ := h t
  have h₂ := hset t
  have h₃ := htasks t
  simp only [List.count_append] at h₁ h₂ h₃ ⊢
  omega

theorem Conserved.adder {b : ℕ} {pc pc' : AdderPc τ} (h : Conserved σ)
    (hm : AdderMove σ b pc pc' σ') : Conserved σ' := by
  unfold Conserved at h ⊢
  rw [hm.ran, hm.workers]
  rcases hm.appends with ⟨ht, happ, -⟩ | ⟨task, -, ht, happ, -⟩
  · rw [ht, happ]
    exact h
  · rw [ht, happ]
    have := h.append_right [task]
    simpa only [List.append_assoc] using this

theorem inFlight_wake (pc : WorkerPc τ) : inFlight (wake pc) = inFlight pc := by
  cases pc <;> rfl

theorem isExited_wake (pc : WorkerPc τ) : isExited (wake pc) = isExited pc := by
  cases pc <;> rfl

theorem Conserved.step (h : Conserved σ) (hm : Moves σ a σ') : Conserved σ' := by
  cases hm with
  | worker hm => exact h.worker hm
  | spurious hm => exact h.worker hm
  | addTask hm => exact h.adder hm
  | adder hm => exact h.adder hm
  | notifyOne hw ha => exact (h.worker hw).adder ha
  | notifyNone hm => exact h.adder hm
  | write _ => exact h
  | notifyAll _ =>
    unfold Conserved at h ⊢
    simpa only [List.flatMap_map, inFlight_wake] using h
  | join _ _ => exact h
  | returned _ _ => exact h

def Joined (σ : ThreadPool τ) : Prop :=
  (∀ i, σ.stop = .join i → ∀ j < i, σ.workers[j]? = some .exited) ∧
    (σ.stop = .returned → ∀ pc ∈ σ.workers, pc = .exited)

theorem Joined.worker {i : ℕ} {pc pc' : WorkerPc τ} (h : Joined σ)
    (hm : WorkerMove σ i pc pc' σ') : Joined σ' := by
  constructor
  · intro k hk j hj
    rw [hm.stop] at hk
    have hex := h.1 k hk j hj
    have hij : i ≠ j := by
      rintro rfl
      rw [hm.at_pc] at hex
      exact hm.moves (Option.some.inj hex)
    rw [hm.workers, List.getElem?_set_ne hij, hex]
  · intro hr
    rw [hm.stop] at hr
    exact absurd (h.2 hr pc (List.mem_of_getElem? hm.at_pc)) hm.moves

theorem Joined.congr (h : Joined σ) (hw : σ'.workers = σ.workers) (hs : σ'.stop = σ.stop) :
    Joined σ' := by
  unfold Joined
  rw [hw, hs]
  exact h

theorem Joined.step (h : Joined σ) (hm : Moves σ a σ') : Joined σ' := by
  cases hm with
  | worker hm => exact h.worker hm
  | spurious hm => exact h.worker hm
  | addTask hm => exact h.congr hm.workers hm.stop
  | adder hm => exact h.congr hm.workers hm.stop
  | notifyOne hw ha => exact (h.worker hw).congr ha.workers ha.stop
  | notifyNone hm => exact h.congr hm.workers hm.stop
  | write _ => exact ⟨by simp, by simp⟩
  | notifyAll _ =>
    refine ⟨?_, by simp⟩
    rintro i ⟨⟩ j hj
    omega
  | join hstop hex =>
    refine ⟨?_, by simp⟩
    rintro i ⟨⟩ j hj
    rcases Nat.lt_succ_iff_lt_or_eq.mp hj with hlt | rfl
    · exact h.1 _ hstop j hlt
    · exact hex
  | @returned i hstop hnone =>
    refine ⟨by simp, fun _ pc hpc => ?_⟩
    obtain ⟨j, hj⟩ := List.mem_iff_getElem?.mp hpc
    have hlen : j < σ.workers.length := (List.getElem?_eq_some_iff.mp hj).1
    have hlt : j < i := by
      have := List.getElem?_eq_none_iff.mp hnone
      omega
    have hex := h.1 _ hstop j hlt
    rw [hj] at hex
    exact Option.some.inj hex

structure Draining (σ : ThreadPool τ) : Prop where
  conserved : Conserved σ
  joined : Joined σ
  someWorker : σ.workers ≠ []
  /-- only after `m_isStarted` was reset does a worker look whether to leave -/
  stopped : ∀ pc ∈ σ.workers, pc = .testTasks ∨ pc = .exited → σ.isStarted = false
  /-- when all workers have left, the queue is empty and no task can be appended any more -/
  quiet : σ.allExited = true → σ.tasks = [] ∧ σ.adders.any isAppending = false
  late : σ.late = []

theorem allExited_iff : σ.allExited = true ↔ ∀ pc ∈ σ.workers, pc = .exited := by
  simp [allExited, isExited_eq_true]

theorem Draining.worker {i : ℕ} {pc pc' : WorkerPc τ} (h : Draining σ)
    (hm : WorkerMove σ i pc pc' σ')
    (hlast : pc' = .exited → (σ.workers.set i .exited).all isExited = true →
      σ.adders.any isAppending = false) : Draining σ' where
  conserved := h.conserved.worker hm
  joined := h.joined.worker hm
  someWorker := by
    rw [hm.workers]
    simpa using h.someWorker
  stopped := by
    intro q hq hleaves
    rw [hm.isStarted]
    rw [hm.workers] at hq
    rcases List.mem_or_eq_of_mem_set hq with hq | rfl
    · exact h.stopped q hq hleaves
    · rcases hleaves with htest | hexit
      · exact hm.stopping htest
      · exact h.stopped pc (List.mem_of_getElem? hm.at_pc) (Or.inl (hm.leaves hexit).1)
  quiet := by
    intro hall
    rw [allExited, hm.workers] at hall
    have hi : i < σ.workers.length := (List.getElem?_eq_some_iff.mp hm.at_pc).1
    have hexit : pc' = .exited :=
      isExited_eq_true.mp (List.all_eq_true.mp hall pc' (List.mem_set hi pc'))
    rw [hexit] at hall
    rw [hm.adders]
    exact ⟨(hm.leaves hexit).2.2, hlast hexit hall⟩
  late := by
    rw [hm.late]
    exact h.late

theorem Draining.adder {b : ℕ} {pc pc' : AdderPc τ} (h : Draining σ)
    (hm : AdderMove σ b pc pc' σ') : Draining σ' where
  conserved := h.conserved.adder hm
  joined := h.joined.congr hm.workers hm.stop
  someWorker := by
    rw [hm.workers]
    exact h.someWorker
  stopped := by
    rw [hm.workers, hm.isStarted]
    exact h.stopped
  quiet := by
    intro hall
    rw [allExited, hm.workers] at hall
    obtain ⟨hempty, hnone⟩ := h.quiet hall
    have hpc : isAppending pc = false := by
      have := List.any_eq_false.mp hnone pc (List.mem_of_getElem? hm.at_pc)
      simpa using this
    constructor
    · rcases hm.appends with ⟨ht, -⟩ | ⟨task, rfl, -⟩
      · rw [ht, hempty]
      · cases hpc
    · -- a call that reads the flag now reads it reset
      obtain ⟨w, hw⟩ := List.exists_mem_of_ne_nil _ h.someWorker
      have hreset : σ.isStarted = false :=
        h.stopped w hw (Or.inr (allExited_iff.mp hall w hw))
      rw [hm.adders, List.any_eq_false]
      intro q hq happ
      rcases List.mem_or_eq_of_mem_set hq with hq | rfl
      · exact List.any_eq_false.mp hnone q hq happ
      · rw [hm.sees happ] at hreset
        cases hreset
  late := by
    rcases hm.appends with ⟨-, -, hlate⟩ | ⟨task, rfl, -, -, hlate⟩
    · rw [hlate]
      exact h.late
    · have hsome : ¬ σ.allExited = true := fun hall => by
        have := List.any_eq_false.mp (h.quiet hall).2 _ (List.mem_of_getElem? hm.at_pc)
        exact this rfl
      rw [hlate, if_neg hsome]
      exact h.late

theorem Draining.step (h : Draining σ) (hg : LastLeavesAlone σ a) (hm : Moves σ a σ') :
    Draining σ' := by
  have hc := h.conserved.step hm
  have hj := h.joined.step hm
  cases hm with
  | worker hm =>
    refine h.worker hm fun hexit hall => hg ?_
    obtain ⟨rfl, hempty, -⟩ := hm.leaves hexit
    simp [lastLeaves, hm.at_pc, hempty, hall, isTestTasks]
  | spurious hm => exact h.worker hm (by simp)
  | addTask hm => exact h.adder hm
  | adder hm => exact h.adder hm
  | notifyOne hw ha => exact (h.worker hw (by simp)).adder ha
  | notifyNone hm => exact h.adder hm
  | write _ => exact ⟨hc, hj, h.someWorker, fun _ _ _ => rfl, h.quiet, h.late⟩
  | notifyAll _ =>
    refine ⟨hc, hj, by simpa using h.someWorker, ?_, ?_, h.late⟩
    · intro pc hpc hleaves
      obtain ⟨q, hq, rfl⟩ := List.mem_map.mp hpc
      refine h.stopped q hq ?_
      cases q <;> simp_all [ThreadPool.wake]
    · intro hall
      refine h.quiet ?_
      simpa only [allExited, List.all_map, Function.comp_def, isExited_wake] using hall
  | join _ _ => exact ⟨hc, hj, h.someWorker, h.stopped, h.quiet, h.late⟩
  | returned _ _ => exact ⟨hc, hj, h.someWorker, h.stopped, h.quiet, h.late⟩

/-- A pool with a worker drains in every run in which the last worker does not leave while a call
of `addTask` is between its test of `m_isStarted` and its append. -/
theorem drained_of_lastLeavesAlone (hn : 0 < n)
    (h : System.Reach (threadPoolMachine τ n) LastLeavesAlone σ) : Drained σ := by
  have hinv : Draining σ := by
    refine System.Reach.invariant (I := Draining) ?_ ?_ h
    · rintro σ ⟨m, rfl⟩
      have hall : (ThreadPool.start (τ := τ) n m).allExited = false := by
        obtain ⟨k, rfl⟩ : ∃ k, n = k + 1 := ⟨n - 1, by omega⟩
        rfl
      refine ⟨?_, ⟨by simp [ThreadPool.start], by simp [ThreadPool.start]⟩, ?_, ?_, ?_, rfl⟩
      · simp [Conserved, ThreadPool.start, inFlight]
      · simp [ThreadPool.start]
        omega
      · intro pc hpc
        obtain ⟨-, rfl⟩ := List.mem_replicate.mp hpc
        simp
      · simp [hall]
    · intro σ a σ' hd hg hstep
      exact hd.step hg (step_moves hstep)
  refine ⟨fun hstop => ?_, hinv.late⟩
  have hexited := hinv.joined.2 hstop
  have hflight : σ.workers.flatMap inFlight = [] := by
    rw [List.flatMap_eq_nil_iff]
    intro pc hpc
    rw [hexited pc hpc]
    rfl
  have hempty := (hinv.quiet (allExited_iff.mpr hexited)).1
  have hconserved := hinv.conserved
  rw [Conserved, hflight, hempty] at hconserved
  simpa using hconserved.symm

theorem drained_after_stop :
    ∃ σ : ThreadPool ℕ, System.Reach (threadPoolMachine ℕ 2) LastLeavesAlone σ ∧
      σ.stop = .returned ∧ σ.ran = [7] ∧ Drained σ := by
  obtain ⟨σ, -, hreach, hp⟩ := System.exists_reach (M := threadPoolMachine ℕ 2)
    (G := LastLeavesAlone)
    [.worker 0, .addTask 0 7, .adder 0, .adder 0, .stop, .adder 0, .notifyOne 0 none, .adder 0,
      .worker 0, .worker 0, .worker 0, .worker 1, .worker 1, .stop, .worker 0, .worker 0, .worker 0,
      .stop, .stop, .stop]
    (fun σ => σ.stop = .returned ∧ σ.ran = [7]) (s := .start 2 1) ⟨1, rfl⟩ (by decide)
  obtain ⟨hstop, hran⟩ := of_decide_eq_true hp
  exact ⟨σ, hreach, hstop, hran, drained_of_lastLeavesAlone (by decide) hreach⟩

/-- `addTask` reads the flag, `stop` runs to its end, and then the task is appended: it is never
run. -/
theorem not_drained_after_late_append :
    ¬ ∀ (n : ℕ) (σ : ThreadPool ℕ), System.Reach (threadPoolMachine ℕ n) System.Free σ →
      Drained σ := by
  intro h
  obtain ⟨σ, -, hreach, hp⟩ := System.exists_reach (M := threadPoolMachine ℕ 1) (G := System.Free)
    [.addTask 0 7, .adder 0, .adder 0, .stop, .stop, .worker 0, .worker 0, .stop, .stop, .adder 0]
    (fun σ => σ.stop = .returned ∧ σ.ran = [] ∧ σ.appended = [7] ∧ σ.late = [7])
    (s := .start 1 1) ⟨1, rfl⟩ (by decide)
  obtain ⟨hstop, hran, happended, -⟩ := of_decide_eq_true hp
  have hperm := (h 1 σ hreach).ran hstop
  rw [hran, happended] at hperm
  exact absurd hperm.length_eq (by decide)

/-! ## Blocked workers -/

def pastNotifyAll : StopPc → Bool
  | .join _ => true
  | .returned => true
  | _ => false

/-- A worker is blocked after `notify_all`, and no call of `addTask` is going to notify. -/
def Stranded (σ : ThreadPool τ) : Prop :=
  pastNotifyAll σ.stop = true ∧ (∃ pc ∈ σ.workers, isBlocked pc = true) ∧
    ∀ pc ∈ σ.adders, isNotifying pc = false

def isWait : WorkerPc τ → Bool
  | .wait => true
  | _ => false

/-- `notify_all` is not executed while a worker has found its wait condition true and has not
blocked yet. -/
def NotifiesBlocked (σ : ThreadPool τ) : ThreadPoolAction τ → Prop
  | .stop => σ.stop = .notifyAll → σ.workers.any isWait = false
  | _ => True

instance (σ : ThreadPool τ) (a : ThreadPoolAction τ) : Decidable (NotifiesBlocked σ a) :=
  match a with
  | .stop => inferInstanceAs (Decidable (σ.stop = .notifyAll → σ.workers.any isWait = false))
  | .worker _ => isTrue trivial
  | .spurious _ => isTrue trivial
  | .addTask _ _ => isTrue trivial
  | .adder _ => isTrue trivial
  | .notifyOne _ _ => isTrue trivial

/-- After `notify_all` no worker is blocked or about to block. -/
structure Awake (σ : ThreadPool τ) : Prop where
  reset : σ.stop ≠ .idle → σ.isStarted = false
  awake : pastNotifyAll σ.stop = true → ∀ pc ∈ σ.workers, pc ≠ .wait ∧ pc ≠ .blocked

theorem Awake.worker {i : ℕ} {pc pc' : WorkerPc τ} (h : Awake σ)
    (hm : WorkerMove σ i pc pc' σ') : Awake σ' where
  reset := by
    rw [hm.stop, hm.isStarted]
    exact h.reset
  awake := by
    intro hpast q hq
    rw [hm.stop] at hpast
    rw [hm.workers] at hq
    have hreset : σ.isStarted = false := h.reset fun hidle => by simp [hidle, pastNotifyAll] at hpast
    rcases List.mem_or_eq_of_mem_set hq with hq | rfl
    · exact h.awake hpast q hq
    · constructor
      · intro hw
        rw [hm.waits hw] at hreset
        cases hreset
      · intro hb
        exact (h.awake hpast pc (List.mem_of_getElem? hm.at_pc)).1 (hm.blocks hb)

theorem Awake.adder {b : ℕ} {pc pc' : AdderPc τ} (h : Awake σ) (hm : AdderMove σ b pc pc' σ') :
    Awake σ' where
  reset := by
    rw [hm.stop, hm.isStarted]
    exact h.reset
  awake := by
    rw [hm.stop, hm.workers]
    exact h.awake

theorem Awake.step (h : Awake σ) (hg : NotifiesBlocked σ a) (hm : Moves σ a σ') : Awake σ' := by
  cases hm with
  | worker hm => exact h.worker hm
  | spurious hm => exact h.worker hm
  | addTask hm => exact h.adder hm
  | adder hm => exact h.adder hm
  | notifyOne hw ha => exact (h.worker hw).adder ha
  | notifyNone hm => exact h.adder hm
  | write _ => exact ⟨fun _ => rfl, by simp [pastNotifyAll]⟩
  | notifyAll hstop =>
    refine ⟨fun _ => h.reset (by simp [hstop]), fun _ pc hpc => ?_⟩
    obtain ⟨q, hq, rfl⟩ := List.mem_map.mp hpc
    have hwait := List.any_eq_false.mp (hg hstop) q hq
    cases q <;> simp_all [ThreadPool.wake, isWait]
  | join hstop _ =>
    exact ⟨fun _ => h.reset (by simp [hstop]), fun _ => h.awake (by simp [hstop, pastNotifyAll])⟩
  | returned hstop _ =>
    exact ⟨fun _ => h.reset (by simp [hstop]), fun _ => h.awake (by simp [hstop, pastNotifyAll])⟩

/-- No worker is stranded in the runs in which `notify_all` does not fall between a worker's test of
the wait condition and its block. -/
theorem not_stranded_of_notifiesBlocked
    (h : System.Reach (threadPoolMachine τ n) NotifiesBlocked σ) : ¬ Stranded σ := by
  have hinv : Awake σ := by
    refine System.Reach.invariant (I := Awake) ?_ ?_ h
    · rintro σ ⟨m, rfl⟩
      exact ⟨by simp [ThreadPool.start], by simp [ThreadPool.start, pastNotifyAll]⟩
    · intro σ a σ' ha hg hstep
      exact ha.step hg (step_moves hstep)
  rintro ⟨hpast, ⟨pc, hpc, hb⟩, -⟩
  have hne := (hinv.awake hpast pc hpc).2
  cases pc <;> simp_all [isBlocked]

/-- A worker that is blocked when `stop` notifies is woken, finds the flag reset and leaves. -/
theorem not_stranded_after_stop :
    ∃ σ : ThreadPool ℕ, System.Reach (threadPoolMachine ℕ 1) NotifiesBlocked σ ∧
      σ.workers = [.exited] ∧ σ.stop = .returned ∧ ¬ Stranded σ := by
  obtain ⟨σ, -, hreach, hp⟩ := System.exists_reach (M := threadPoolMachine ℕ 1)
    (G := NotifiesBlocked)
    [.worker 0, .worker 0, .worker 0, .worker 0, .worker 0, .stop, .stop, .worker 0, .worker 0,
      .worker 0, .worker 0, .worker 0, .worker 0, .stop, .stop]
    (fun σ => σ.workers = [.exited] ∧ σ.stop = .returned) (s := .start 1 0) ⟨0, rfl⟩ (by decide)
  obtain ⟨hworkers, hstop⟩ := of_decide_eq_true hp
  exact ⟨σ, hreach, hworkers, hstop, not_stranded_of_notifiesBlocked hreach⟩

/-- A worker finds its wait condition true, `stop` resets the flag and notifies, and the worker
blocks for good. -/
theorem stranded_after_early_notify :
    ¬ ∀ (n : ℕ) (σ : ThreadPool ℕ), System.Reach (threadPoolMachine ℕ n) System.Free σ →
      ¬ Stranded σ := by
  intro h
  obtain ⟨σ, -, hreach, hp⟩ := System.exists_reach (M := threadPoolMachine ℕ 1) (G := System.Free)
    [.worker 0, .worker 0, .worker 0, .worker 0, .stop, .stop, .worker 0]
    (fun σ => σ.workers = [.blocked] ∧ σ.stop = .join 0 ∧ σ.adders = [])
    (s := .start 1 0) ⟨0, rfl⟩ (by decide)
  obtain ⟨hworkers, hstop, hadders⟩ := of_decide_eq_true hp
  refine h 1 σ hreach ⟨?_, ⟨.blocked, ?_, rfl⟩, ?_⟩
  · rw [hstop]
    rfl
  · rw [hworkers]
    simp
  · simp [hadders]

end Mutty.Thread
