import Mathlib.Logic.Relation
import Mutty.Net.EventLoop

/-!
# A thread that runs an event loop

The constructor starts a thread, which builds the loop, queues the functor that keeps the promise
`promiseForLoop_`, publishes the loop and waits for `run()`. `run()` lets it go on and waits in turn
until that functor has run. The destructor asks the loop to quit and joins the thread. The owner
is one thread, everyone else who has got the loop by `getLoop()` another. When the thread returns,
its loop is gone, and a call on it is a fault. The destructor reads `loop_` without a lock: when
someone else has made the loop quit, it may find null there, and then `thread_` is destroyed
without a join.
-/

namespace Mutty.Net

open Mutty.Lib

/-- `threadFunc`; `queued` and `linked` are inside its `queueInLoop`. -/
inductive WorkerPc
  | starting | queued | linked | publishing
  /-- waiting for `promiseForRun_` -/
  | awaiting
  | entering | looping | done
  deriving DecidableEq

inductive OwnerPc
  /-- in the constructor, waiting for `promiseForLoopPointer_` -/
  | constructing
  | constructed
  /-- in `run()`, waiting for `promiseForLoop_` -/
  | waiting
  | started
  /-- in the destructor, before `quit_ = true`, before `wakeup()` and before `join()` -/
  | quitting
  | waking
  | joining
  | joined
  /-- `std::thread` was destroyed without a join -/
  | terminated
  deriving DecidableEq

/-- `none` is the functor that keeps `promiseForLoop_`. -/
structure EventLoopThread (α : Type) where
  eventLoop : LoopState (Option α)
  worker : WorkerPc := .starting
  owner : OwnerPc := .constructing
  promiseForLoopPointer : Bool := false
  promiseForRun : Bool := false
  /-- `loop_ != NULL` -/
  loop : Bool := false

inductive ThreadAction (α : Type)
  | queue (address : ℕ)
  | store
  | wakeup
  | publish
  | await
  | enter
  | loop (a : LoopAction (Option α))
  | leave
  | constructed
  | run
  | ran
  | destroy
  | quit
  | wakeupQuit
  | join
  | other (a : LoopAction (Option α))

def ownerThread : ℕ := 1

def LoopAction.thread {α : Type} : LoopAction α → ℕ
  | .exchange t _ _ => t
  | .store t => t
  | .wakeup t => t
  | .quit t => t
  | .wakeupQuit t => t
  | _ => loopThread

def LoopAction.isQuit {α : Type} : LoopAction α → Bool
  | .quit _ => true
  | _ => false

namespace EventLoopThread

variable {α : Type}

def promiseForLoop (s : EventLoopThread α) : Bool := s.eventLoop.ran.any Option.isNone

/-- A step inside the event loop, after which the thread is at `worker` and the owner at `owner`. -/
def onEventLoop (s : EventLoopThread α) (a : LoopAction (Option α)) (worker : WorkerPc)
    (owner : OwnerPc) : Option (Checked (EventLoopThread α)) :=
  (s.eventLoop.run a).map fun r => do
    let eventLoop ← r
    return { s with eventLoop, worker, owner }

/-- A call by a thread that is not the loop's; the loop may be gone. -/
def callLoop (s : EventLoopThread α) (a : LoopAction (Option α)) (owner : OwnerPc) :
    Option (Checked (EventLoopThread α)) :=
  if s.worker = .done then some (.error .null) else s.onEventLoop a s.worker owner

def run (s : EventLoopThread α) : ThreadAction α → Option (Checked (EventLoopThread α))
  | .queue address =>
    if s.worker = .starting then s.onEventLoop (.exchange loopThread address none) .queued s.owner
    else none
  | .store =>
    if s.worker = .queued then s.onEventLoop (.store loopThread) .linked s.owner else none
  | .wakeup =>
    if s.worker = .linked then s.onEventLoop (.wakeup loopThread) .publishing s.owner else none
  | .publish =>
    if s.worker = .publishing then
      some (.ok { s with promiseForLoopPointer := true, worker := .awaiting })
    else none
  | .await =>
    if s.worker = .awaiting ∧ s.promiseForRun then some (.ok { s with worker := .entering })
    else none
  | .enter => if s.worker = .entering then s.onEventLoop .enter .looping s.owner else none
  | .loop a =>
    if s.worker = .looping ∧ s.eventLoop.pc ≠ .outside ∧ a.thread = loopThread then
      s.onEventLoop a .looping s.owner
    else none
  | .leave =>
    -- `loop_ = NULL`, and the loop goes out of scope
    if s.worker = .looping ∧ s.eventLoop.pc = .outside then
      some (.ok { s with loop := false, worker := .done })
    else none
  | .constructed =>
    if s.owner = .constructing ∧ s.promiseForLoopPointer then
      some (.ok { s with loop := true, owner := .constructed })
    else none
  | .run =>
    if s.owner = .constructed then some (.ok { s with promiseForRun := true, owner := .waiting })
    else none
  | .ran => if s.owner = .waiting ∧ s.promiseForLoop then some (.ok { s with owner := .started }) else none
  | .destroy =>
    if s.owner = .constructed ∨ s.owner = .started then
      some (.ok { s with owner := if s.loop then .quitting else .terminated })
    else none
  | .quit => if s.owner = .quitting then s.callLoop (.quit ownerThread) .waking else none
  | .wakeupQuit =>
    if s.owner = .waking then s.callLoop (.wakeupQuit ownerThread) .joining else none
  | .join =>
    if s.owner = .joining ∧ s.worker = .done then some (.ok { s with owner := .joined }) else none
  | .other a =>
    if s.promiseForLoopPointer ∧ a.thread ≠ loopThread ∧ a.thread ≠ ownerThread then
      s.callLoop a s.owner
    else none

end EventLoopThread

def threadMachine (α : Type) : System (EventLoopThread α) (ThreadAction α) where
  init s := ∃ address, s = { eventLoop := ⟨.new address, fun _ => .idle, .outside, false, false, 0,
    [], []⟩ }
  step s a := (s.run a).bind Except.toOption

/-- Nobody but the destructor asks the loop to quit. -/
def OwnerQuits {α : Type} (_ : EventLoopThread α) : ThreadAction α → Prop
  | .loop a => a.isQuit = false
  | .other a => a.isQuit = false
  | _ => True

instance {α : Type} (s : EventLoopThread α) (x : ThreadAction α) : Decidable (OwnerQuits s x) :=
  match x with
  | .loop a => inferInstanceAs (Decidable (a.isQuit = false))
  | .other a => inferInstanceAs (Decidable (a.isQuit = false))
  | .queue _ | .store | .wakeup | .publish | .await | .enter | .leave | .constructed | .run | .ran
  | .destroy | .quit | .wakeupQuit | .join => isTrue trivial

/-! ## The way out of the loop -/

namespace LoopState

variable {α : Type} (σ : LoopState α)

/-- Whether `dequeue` and `empty` see a next value. -/
def seesNext : Bool :=
  match σ.funcs.loadNext with
  | .ok (some _) => true
  | _ => false

/-- The next step of the loop's thread, when no event is reported and every functor returns. -/
def onward : LoopAction α :=
  match σ.phase loopThread with
  | .exchanged _ => .store loopThread
  | .linked => .wakeup loopThread
  | .quitting => .wakeupQuit loopThread
  | .idle =>
    match σ.pc with
    | .outside => .enter
    | .test => .test
    | .poll => .pollReturns false
    | .handling true => .handleRead
    | .handling false => .handled
    | .begin => .begin
    | .testEmpty => .testEmpty
    | .dequeue => .load
    | .take _ => .take
    | .running => .functorDone
    | .leave => .leave

def placeRank : ℕ :=
  match σ.pc with
  | .outside => 0
  | .test => 1
  | .leave => 2
  | .testEmpty => if σ.seesNext then 7 else 3
  | .dequeue => if σ.seesNext then 6 else 4
  | .take _ => 5
  | .running => 7
  | .begin => 8
  | .handling false => 9
  | .handling true => 10
  | .poll => 11

def phaseRank : ℕ :=
  match σ.phase loopThread with
  | .idle => 0
  | .exchanged _ => 2
  | _ => 1

def distance : ℕ :=
  40 * (σ.exchanged.length - σ.ran.length) + 3 * σ.placeRank + σ.phaseRank

end LoopState

namespace LoopInv

variable {α : Type} {σ : LoopState α} {chain : List ℕ}

theorem onward_call (h : LoopInv σ chain) (hphase : σ.phase loopThread ≠ .idle) :
    ∃ σ', σ.run σ.onward = some (.ok σ') ∧ σ'.quit = σ.quit ∧ σ'.distance < σ.distance := by
  have huser := h.loopIdle hphase
  have hrank : ∀ τ : LoopState α, τ.pc = σ.pc → τ.placeRank = σ.placeRank := by
    intro τ hτ
    unfold LoopState.placeRank
    rw [hτ]
    cases hpc : σ.pc with
    | outside => rfl
    | handling wakeup => cases wakeup <;> rfl
    | running => rfl
    | _ => simp [hpc, LoopPc.runsUserCode] at huser
  cases hp : σ.phase loopThread with
  | idle => exact absurd hp hphase
  | exchanged e =>
    obtain ⟨q, hq, -⟩ := h.store hp
    refine ⟨{ σ.setPhase loopThread .linked with funcs := q }, ?_, rfl, ?_⟩
    · simp [LoopState.onward, hp, LoopState.run, Phase.pending, hq, bind, Except.bind, pure,
        Except.pure]
    · have hplace := hrank { σ.setPhase loopThread .linked with funcs := q } rfl
      simp only [LoopState.distance, hplace]
      simp [LoopState.phaseRank, LoopState.setPhase, hp]
  | linked =>
    by_cases hcall : σ.callingPendingFuncs = false
    · refine ⟨{ σ.setPhase loopThread .idle with counter := σ.counter + 1 }, ?_, rfl, ?_⟩
      · simp [LoopState.onward, hp, LoopState.run, hcall]
      · have hplace := hrank { σ.setPhase loopThread .idle with counter := σ.counter + 1 } rfl
        simp only [LoopState.distance, hplace]
        simp [LoopState.phaseRank, LoopState.setPhase, hp]
    · refine ⟨σ.setPhase loopThread .idle, ?_, rfl, ?_⟩
      · simp [LoopState.onward, hp, LoopState.run, hcall]
      · have hplace := hrank (σ.setPhase loopThread .idle) rfl
        simp only [LoopState.distance, hplace]
        simp [LoopState.phaseRank, LoopState.setPhase, hp]
  | quitting =>
    refine ⟨{ σ.setPhase loopThread .idle with counter := σ.counter + 1 }, ?_, rfl, ?_⟩
    · simp [LoopState.onward, hp, LoopState.run]
    · have hplace := hrank { σ.setPhase loopThread .idle with counter := σ.counter + 1 } rfl
      simp only [LoopState.distance, hplace]
      simp [LoopState.phaseRank, LoopState.setPhase, hp]

theorem onward (h : LoopInv σ chain) (hquit : σ.quit = true) (hpc : σ.pc ≠ .outside) :
    ∃ σ', σ.run σ.onward = some (.ok σ') ∧ σ'.quit = true ∧ σ'.distance < σ.distance := by
  by_cases hphase : σ.phase loopThread = .idle
  · obtain ⟨next, hnext, -⟩ := h.enqueues.linked.loadNext
    have hsees : σ.seesNext = next.isSome := by
      rw [LoopState.seesNext, hnext]
      cases next <;> rfl
    cases hp : σ.pc with
    | outside => exact absurd hp hpc
    | test =>
      refine ⟨{ σ with pc := .outside }, ?_, hquit, ?_⟩
      · simp [LoopState.onward, hphase, hp, LoopState.run, LoopState.onLoop, hquit]
      · simp [LoopState.distance, LoopState.placeRank, LoopState.phaseRank, hp]
    | poll =>
      refine ⟨{ σ with pc := .handling false }, ?_, hquit, ?_⟩
      · simp [LoopState.onward, hphase, hp, LoopState.run, LoopState.onLoop]
      · simp [LoopState.distance, LoopState.placeRank, LoopState.phaseRank, hp]
    | handling wakeup =>
      cases wakeup with
      | true =>
        refine ⟨{ σ with pc := .handling false, counter := 0 }, ?_, hquit, ?_⟩
        · simp [LoopState.onward, hphase, hp, LoopState.run, LoopState.onLoop]
        · simp [LoopState.distance, LoopState.placeRank, LoopState.phaseRank, hp]
      | false =>
        refine ⟨{ σ with pc := .begin }, ?_, hquit, ?_⟩
        · simp [LoopState.onward, hphase, hp, LoopState.run, LoopState.onLoop]
        · simp [LoopState.distance, LoopState.placeRank, LoopState.phaseRank, hp]
    | begin =>
      refine ⟨{ σ with pc := .testEmpty, callingPendingFuncs := true }, ?_, hquit, ?_⟩
      · simp [LoopState.onward, hphase, hp, LoopState.run, LoopState.onLoop]
      · simp only [LoopState.distance, LoopState.placeRank, LoopState.phaseRank, hp]
        split_ifs <;> omega
    | testEmpty =>
      refine ⟨{ σ with pc := if next.isNone then .leave else .dequeue }, ?_, hquit, ?_⟩
      · simp [LoopState.onward, hphase, hp, LoopState.run, LoopState.onLoop, hnext, bind,
          Except.bind, pure, Except.pure]
      · cases next with
        | none => simp [LoopState.distance, LoopState.placeRank, LoopState.phaseRank, hp, hsees]
        | some next =>
          have hsame : ({ σ with pc := .dequeue } : LoopState α).seesNext = σ.seesNext := rfl
          simp [LoopState.distance, LoopState.placeRank, LoopState.phaseRank, hp, hsees, hsame]
    | dequeue =>
      cases next with
      | none =>
        have hsame : ({ σ with pc := .testEmpty } : LoopState α).seesNext = σ.seesNext := rfl
        refine ⟨{ σ with pc := .testEmpty }, ?_, hquit, ?_⟩
        · simp [LoopState.onward, hphase, hp, LoopState.run, LoopState.onLoop, hnext, bind,
            Except.bind, pure, Except.pure]
        · simp [LoopState.distance, LoopState.placeRank, LoopState.phaseRank, hp, hsees, hsame]
      | some next =>
        refine ⟨{ σ with pc := .take next }, ?_, hquit, ?_⟩
        · simp [LoopState.onward, hphase, hp, LoopState.run, LoopState.onLoop, hnext, bind,
            Except.bind, pure, Except.pure]
        · simp [LoopState.distance, LoopState.placeRank, LoopState.phaseRank, hp, hsees]
    | take next =>
      obtain ⟨v, q, hq, hv, -⟩ := h.enqueues.take (h.taking next hp)
      have hlt := (List.getElem?_eq_some_iff.mp hv).1
      rw [List.length_map] at hlt
      refine ⟨{ σ with funcs := q, pc := .running, ran := σ.ran ++ [v] }, ?_, hquit, ?_⟩
      · simp [LoopState.onward, hphase, hp, LoopState.run, LoopState.onLoop, hq, bind, Except.bind,
          pure, Except.pure]
      · simp only [LoopState.distance, LoopState.placeRank, LoopState.phaseRank, hp,
          List.length_append, List.length_singleton]
        omega
    | running =>
      have hsame : ({ σ with pc := .dequeue } : LoopState α).seesNext = σ.seesNext := rfl
      refine ⟨{ σ with pc := .dequeue }, ?_, hquit, ?_⟩
      · simp [LoopState.onward, hphase, hp, LoopState.run, LoopState.onLoop]
      · simp only [LoopState.distance, LoopState.placeRank, LoopState.phaseRank, hp]
        split_ifs <;> omega
    | leave =>
      refine ⟨{ σ with pc := .test, callingPendingFuncs := false }, ?_, hquit, ?_⟩
      · simp [LoopState.onward, hphase, hp, LoopState.run, LoopState.onLoop]
      · simp [LoopState.distance, LoopState.placeRank, LoopState.phaseRank, hp]
  · obtain ⟨σ', hrun, hsame, hlt⟩ := h.onward_call hphase
    exact ⟨σ', hrun, hsame.trans hquit, hlt⟩

end LoopInv

/-! ## What a step inside the loop can change -/

/-- The actions of `queueInLoop` and `quit`, which any thread may take. -/
def LoopAction.isCall {α : Type} : LoopAction α → Bool
  | .exchange _ _ _ => true
  | .store _ => true
  | .wakeup _ => true
  | .quit _ => true
  | .wakeupQuit _ => true
  | _ => false

structure Called {α : Type} (σ σ' : LoopState α) (a : LoopAction α) : Prop where
  pc : σ'.pc = σ.pc
  ran : σ'.ran = σ.ran
  quit : σ'.quit = (σ.quit || a.isQuit)
  phase : ∀ t, t ≠ a.thread → σ'.phase t = σ.phase t

/-- A step of the loop's thread; it leaves `loop()` only when `quit_` is set. -/
structure Looped {α : Type} (σ σ' : LoopState α) : Prop where
  quit : σ'.quit = σ.quit
  phase : σ'.phase = σ.phase
  outside : σ'.pc = .outside → σ.pc = .test ∧ σ.quit = true
  before : σ.pc ≠ .outside

namespace LoopState

variable {α : Type} {σ σ' : LoopState α} {a : LoopAction α}

theorem run_call (ha : a.isCall = true) (h : σ.run a = some (.ok σ')) : Called σ σ' a := by
  cases a with
  | exchange t address functor =>
    simp only [run] at h
    split_ifs at h
    rw [← Except.ok.inj (Option.some.inj h)]
    exact ⟨rfl, rfl, by simp [setPhase, LoopAction.isQuit],
      fun s hs => Function.update_of_ne hs _ _⟩
  | store t =>
    obtain ⟨e, -, h⟩ := Option.map_eq_some_iff.mp h
    obtain ⟨q, -, h⟩ := bind_eq_ok.mp h
    rw [← Except.ok.inj h]
    exact ⟨rfl, rfl, by simp [setPhase, LoopAction.isQuit],
      fun s hs => Function.update_of_ne hs _ _⟩
  | wakeup t =>
    simp only [run] at h
    split_ifs at h <;> rw [← Except.ok.inj (Option.some.inj h)] <;>
      exact ⟨rfl, rfl, by simp [setPhase, LoopAction.isQuit],
        fun s hs => Function.update_of_ne hs _ _⟩
  | quit t =>
    by_cases hc : σ.CanCall t
    · rw [run, if_pos hc] at h
      rw [← Except.ok.inj (Option.some.inj h)]
      exact ⟨rfl, rfl, by simp [LoopAction.isQuit], fun s hs => Function.update_of_ne hs _ _⟩
    · rw [run, if_neg hc] at h
      cases h
  | wakeupQuit t =>
    simp only [run] at h
    split_ifs at h
    rw [← Except.ok.inj (Option.some.inj h)]
    exact ⟨rfl, rfl, by simp [setPhase, LoopAction.isQuit],
      fun s hs => Function.update_of_ne hs _ _⟩
  | _ => cases ha

theorem run_enter (h : σ.run .enter = some (.ok σ')) :
    σ' = { σ with pc := .test, quit := false } := by
  obtain ⟨-, h⟩ := onLoop_eq_some.mp h
  exact (Except.ok.inj h).symm

theorem run_loop (ha : a.isCall = false) (hne : σ.pc ≠ .outside) (h : σ.run a = some (.ok σ')) :
    Looped σ σ' := by
  cases a with
  | enter => exact absurd (onLoop_eq_some.mp h).1.1 hne
  | test =>
    obtain ⟨⟨hpc, -⟩, h⟩ := onLoop_eq_some.mp h
    rw [← Except.ok.inj h]
    refine ⟨rfl, rfl, ?_, hne⟩
    dsimp only
    split_ifs with hq
    · exact fun _ => ⟨hpc, hq⟩
    · intro hout
      cases hout
  | pollReturns wakeup =>
    simp only [run] at h
    split_ifs at h
    obtain ⟨-, h⟩ := onLoop_eq_some.mp h
    rw [← Except.ok.inj h]
    exact ⟨rfl, rfl, by simp, hne⟩
  | testEmpty =>
    obtain ⟨-, h⟩ := onLoop_eq_some.mp h
    obtain ⟨next, -, h⟩ := bind_eq_ok.mp h
    rw [← Except.ok.inj h]
    refine ⟨rfl, rfl, ?_, hne⟩
    dsimp only
    split_ifs <;> simp
  | load =>
    obtain ⟨-, h⟩ := onLoop_eq_some.mp h
    obtain ⟨next, -, h⟩ := bind_eq_ok.mp h
    cases next <;> rw [← Except.ok.inj h] <;> exact ⟨rfl, rfl, by simp, hne⟩
  | take =>
    simp only [run] at h
    split at h
    · obtain ⟨-, h⟩ := onLoop_eq_some.mp h
      obtain ⟨v, -, h⟩ := bind_eq_ok.mp h
      rw [← Except.ok.inj h]
      exact ⟨rfl, rfl, by simp, hne⟩
    · cases h
  | handleRead =>
    obtain ⟨-, h⟩ := onLoop_eq_some.mp h
    rw [← Except.ok.inj h]
    exact ⟨rfl, rfl, by simp, hne⟩
  | handled =>
    obtain ⟨-, h⟩ := onLoop_eq_some.mp h
    rw [← Except.ok.inj h]
    exact ⟨rfl, rfl, by simp, hne⟩
  | begin =>
    obtain ⟨-, h⟩ := onLoop_eq_some.mp h
    rw [← Except.ok.inj h]
    exact ⟨rfl, rfl, by simp, hne⟩
  | functorDone =>
    obtain ⟨-, h⟩ := onLoop_eq_some.mp h
    rw [← Except.ok.inj h]
    exact ⟨rfl, rfl, by simp, hne⟩
  | leave =>
    obtain ⟨-, h⟩ := onLoop_eq_some.mp h
    rw [← Except.ok.inj h]
    exact ⟨rfl, rfl, by simp, hne⟩
  | _ => cases ha

end LoopState

/-! ## Runs -/

/-- What holds between any two steps when only the destructor asks the loop to quit. -/
structure Threaded {α : Type} (s : EventLoopThread α) : Prop where
  reach : System.Reach (loopMachine (Option α)) System.Free s.eventLoop
  before : s.worker ≠ .looping → s.worker ≠ .done →
    s.eventLoop.pc = .outside ∧ s.eventLoop.ran = []
  promised : s.worker = .entering ∨ s.worker = .looping ∨ s.worker = .done →
    s.promiseForRun = true
  early : s.owner = .constructing ∨ s.owner = .constructed → s.promiseForRun = false
  inLoop : s.owner = .started ∨ s.promiseForRun = true → s.owner ≠ .waiting →
    s.worker = .looping ∨ s.worker = .done
  loop : s.owner ≠ .constructing → s.worker ≠ .done → s.loop = true
  asked : s.eventLoop.quit = true → s.owner = .waking ∨ s.owner = .joining ∨ s.owner = .joined
  kept : s.owner = .waking ∨ s.owner = .joining ∨ s.owner = .joined →
    s.worker = .looping ∨ s.worker = .done → s.eventLoop.quit = true
  left : s.worker = .looping ∨ s.worker = .done → s.eventLoop.pc = .outside →
    s.eventLoop.quit = true
  after : s.worker = .done → s.eventLoop.pc = .outside
  joined : s.owner = .joined → s.worker = .done
  alive : s.owner ≠ .terminated
  phase : s.eventLoop.phase ownerThread = if s.owner = .waking then .quitting else .idle

namespace Threaded

variable {α : Type} {s s' : EventLoopThread α} {a : LoopAction (Option α)}

theorem step_reach (hs : Threaded s) {σ : LoopState (Option α)} (h : s.eventLoop.run a = some (.ok σ)) :
    System.Reach (loopMachine (Option α)) System.Free σ := by
  refine .step (a := a) hs.reach trivial ?_
  simp [loopMachine, h, Except.toOption]

theorem run_ok (hs : Threaded s) {r : Checked (LoopState (Option α))}
    (h : s.eventLoop.run a = some r) : ∃ σ, r = .ok σ := by
  obtain ⟨chain, hinv⟩ := LoopInv.reach hs.reach
  obtain ⟨σ, -, hok, -⟩ := hinv.run h
  exact ⟨σ, hok⟩

theorem onEventLoop {worker : WorkerPc} {owner : OwnerPc} {r : Checked (EventLoopThread α)}
    (hs : Threaded s) (h : s.onEventLoop a worker owner = some r) :
    ∃ σ, s.eventLoop.run a = some (.ok σ) ∧ r = .ok { s with eventLoop := σ, worker, owner } := by
  obtain ⟨x, hx, rfl⟩ := Option.map_eq_some_iff.mp h
  obtain ⟨σ, rfl⟩ := hs.run_ok hx
  exact ⟨σ, hx, rfl⟩

theorem called {σ : LoopState (Option α)} {worker : WorkerPc} (hs : Threaded s)
    (h : s.eventLoop.run a = some (.ok σ)) (hcall : a.isCall = true) (hquit : a.isQuit = false)
    (howner : a.thread ≠ ownerThread)
    (hworker : worker = s.worker ∨ s.worker ≠ .looping ∧ s.worker ≠ .done ∧ s.worker ≠ .entering ∧
      worker ≠ .looping ∧ worker ≠ .done ∧ worker ≠ .entering) :
    Threaded { s with eventLoop := σ, worker } := by
  have hc := LoopState.run_call hcall h
  have hq : σ.quit = s.eventLoop.quit := by rw [hc.quit, hquit, Bool.or_false]
  have hphase : σ.phase ownerThread = s.eventLoop.phase ownerThread := hc.phase _ (Ne.symm howner)
  rcases hworker with rfl | ⟨h1, h2, h3, h4, h5, h6⟩
  · refine ⟨hs.step_reach h, ?_, hs.promised, hs.early, hs.inLoop, hs.loop, ?_, ?_, ?_, ?_, hs.joined,
      hs.alive, ?_⟩
    · dsimp only
      rw [hc.pc, hc.ran]
      exact hs.before
    · dsimp only
      rw [hq]
      exact hs.asked
    · dsimp only
      rw [hq]
      exact hs.kept
    · dsimp only
      rw [hq, hc.pc]
      exact hs.left
    · dsimp only
      rw [hc.pc]
      exact hs.after
    · dsimp only
      rw [hphase]
      exact hs.phase
  · obtain ⟨hpc, hran⟩ := hs.before h1 h2
    refine ⟨hs.step_reach h, fun _ _ => ⟨hc.pc.trans hpc, hc.ran.trans hran⟩, by simp [h4, h5, h6],
      hs.early, ?_, fun hne _ => hs.loop hne h2, ?_, by simp [h4, h5], by simp [h4, h5], by simp [h5],
      ?_, hs.alive, ?_⟩
    · intro hrun hne
      rcases hs.inLoop hrun hne with hw | hw
      · exact absurd hw h1
      · exact absurd hw h2
    · dsimp only
      rw [hq]
      exact hs.asked
    · intro hj
      exact absurd (hs.joined hj) h2
    · dsimp only
      rw [hphase]
      exact hs.phase

theorem looped {σ : LoopState (Option α)} (hs : Threaded s) (hworker : s.worker = .looping)
    (hpc : s.eventLoop.pc ≠ .outside) (h : s.eventLoop.run a = some (.ok σ))
    (hcall : a.isCall = false) : Threaded { s with eventLoop := σ, worker := .looping } := by
  have hl := LoopState.run_loop hcall hpc h
  refine ⟨hs.step_reach h, by simp, fun _ => hs.promised (Or.inr (Or.inl hworker)), hs.early,
    fun _ _ => Or.inl rfl, fun hne _ => hs.loop hne (by simp [hworker]), ?_, ?_, ?_, by simp, ?_,
    hs.alive, ?_⟩
  · dsimp only
    rw [hl.quit]
    exact hs.asked
  · dsimp only
    rw [hl.quit]
    exact fun ho _ => hs.kept ho (Or.inl hworker)
  · dsimp only
    rw [hl.quit]
    exact fun _ hout => (hl.outside hout).2
  · intro hj
    have hd := hs.joined hj
    rw [hworker] at hd
    cases hd
  · dsimp only
    rw [hl.phase]
    exact hs.phase

theorem isCall_of_foreign (h : a.thread ≠ loopThread) : a.isCall = true := by
  cases a <;> first | rfl | exact absurd rfl h

/-- Nobody is past `quit_ = true` while the loop is still being entered. -/
theorem enter {σ : LoopState (Option α)} (hs : Threaded s) (hworker : s.worker = .entering)
    (h : s.eventLoop.run .enter = some (.ok σ)) :
    Threaded { s with eventLoop := σ, worker := .looping } := by
  have hrun := hs.promised (Or.inl hworker)
  have hwaiting : s.owner = .waiting := by
    by_contra hne
    rcases hs.inLoop (Or.inr hrun) hne with hw | hw <;> rw [hworker] at hw <;> cases hw
  have hreach := hs.step_reach h
  rw [LoopState.run_enter h] at hreach ⊢
  refine ⟨hreach, by simp, fun _ => hrun, hs.early, fun _ _ => Or.inl rfl,
    fun hne _ => hs.loop hne (by simp [hworker]), by simp, by simp [hwaiting], by simp, by simp,
    by simp [hwaiting], hs.alive, hs.phase⟩

theorem not_done (hs : Threaded s) (ho : s.owner ≠ .waking ∧ s.owner ≠ .joining ∧ s.owner ≠ .joined) :
    s.worker ≠ .done := by
  intro hw
  rcases hs.asked (hs.left (Or.inr hw) (hs.after hw)) with h | h | h
  · exact ho.1 h
  · exact ho.2.1 h
  · exact ho.2.2 h

theorem owned {owner : OwnerPc} (hs : Threaded s) (hnew : owner ≠ .terminated)
    (hearly : owner ≠ .constructing ∧ owner ≠ .constructed)
    (hloop : s.owner ≠ .constructing)
    (hinLoop : owner = .started ∨ s.promiseForRun = true → s.worker = .looping ∨ s.worker = .done)
    (hasked : s.eventLoop.quit = true → owner = .waking ∨ owner = .joining ∨ owner = .joined)
    (hkept : owner = .waking ∨ owner = .joining ∨ owner = .joined →
      s.owner = .waking ∨ s.owner = .joining ∨ s.owner = .joined)
    (hjoined : owner = .joined → s.worker = .done)
    (hphase : owner ≠ .waking ∧ s.owner ≠ .waking) : Threaded { s with owner } := by
  refine ⟨hs.reach, hs.before, hs.promised, ?_, fun hrun _ => hinLoop hrun, fun _ => hs.loop hloop,
    hasked, fun ho => hs.kept (hkept ho), hs.left, hs.after, hjoined, hnew, ?_⟩
  · rintro (h | h)
    · exact absurd h hearly.1
    · exact absurd h hearly.2
  · rw [if_neg hphase.1, hs.phase, if_neg hphase.2]

theorem quit {σ : LoopState (Option α)} (hs : Threaded s) (ho : s.owner = .quitting)
    (h : s.eventLoop.run (.quit ownerThread) = some (.ok σ)) :
    Threaded { s with eventLoop := σ, owner := .waking } := by
  have hc := LoopState.run_call rfl h
  have hq : σ.quit = true := by rw [hc.quit]; exact Bool.or_true _
  have hphase : σ.phase ownerThread = .quitting := by
    by_cases hcall : s.eventLoop.CanCall ownerThread
    · rw [LoopState.run, if_pos hcall] at h
      rw [← Except.ok.inj (Option.some.inj h)]
      simp [LoopState.setPhase, ownerThread, loopThread]
    · rw [LoopState.run, if_neg hcall] at h
      cases h
  have hnotDone := hs.not_done (by simp [ho])
  refine ⟨hs.step_reach h, ?_, hs.promised, by simp, ?_, fun _ => hs.loop (by simp [ho]), by simp,
    fun _ _ => hq, fun _ _ => hq, ?_, by simp, by simp, by simpa using hphase⟩
  · dsimp only
    rw [hc.pc, hc.ran]
    exact hs.before
  · exact fun hrun _ => hs.inLoop (Or.inr (by simpa using hrun)) (by simp [ho])
  · exact fun hd => absurd hd hnotDone

theorem wakeupQuit {σ : LoopState (Option α)} (hs : Threaded s) (ho : s.owner = .waking)
    (hd : s.worker ≠ .done) (h : s.eventLoop.run (.wakeupQuit ownerThread) = some (.ok σ)) :
    Threaded { s with eventLoop := σ, owner := .joining } := by
  have hc := LoopState.run_call rfl h
  have hq : σ.quit = s.eventLoop.quit := by rw [hc.quit]; exact Bool.or_false _
  have hphase : σ.phase ownerThread = .idle := by
    simp only [LoopState.run] at h
    split_ifs at h
    rw [← Except.ok.inj (Option.some.inj h)]
    simp [LoopState.setPhase]
  refine ⟨hs.step_reach h, ?_, hs.promised, by simp, ?_, fun _ => hs.loop (by simp [ho]), by simp,
    ?_, ?_, ?_, by simp, by simp, by simpa using hphase⟩
  · dsimp only
    rw [hc.pc, hc.ran]
    exact hs.before
  · exact fun hrun _ => hs.inLoop (Or.inr (by simpa using hrun)) (by simp [ho])
  · dsimp only
    rw [hq]
    exact fun _ => hs.kept (Or.inl ho)
  · dsimp only
    rw [hq, hc.pc]
    exact hs.left
  · exact fun hw => absurd hw hd

theorem run_destroy (hs : Threaded s) (ho : s.owner = .constructed ∨ s.owner = .started) :
    s.run .destroy = some (.ok { s with owner := .quitting }) ∧
      Threaded { s with owner := .quitting } := by
  have hnotDone := hs.not_done (by rcases ho with h | h <;> simp [h])
  have hconstructing : s.owner ≠ .constructing := by rcases ho with h | h <;> simp [h]
  have hloop := hs.loop hconstructing hnotDone
  refine ⟨by simp [EventLoopThread.run, ho, hloop], hs.owned (by simp) (by simp) hconstructing ?_ ?_
    (by simp) (by simp) ?_⟩
  · intro hrun
    refine hs.inLoop (Or.inr (by simpa using hrun)) ?_
    rcases ho with h | h <;> simp [h]
  · intro hq
    rcases hs.asked hq with h | h | h <;> rcases ho with h' | h' <;> rw [h] at h' <;> cases h'
  · rcases ho with h | h <;> simp [h]

/-- The only fault of a step is a call on the loop after its thread has returned. -/
theorem run (hs : Threaded s) {x : ThreadAction α} (hg : OwnerQuits s x)
    {r : Checked (EventLoopThread α)} (h : s.run x = some r) :
    (∃ s', r = .ok s' ∧ Threaded s') ∨
      r = .error .null ∧ s.worker = .done ∧ (x = .wakeupQuit ∨ ∃ a, x = .other a) := by
  cases x with
  | queue address =>
    simp only [EventLoopThread.run] at h
    split_ifs at h with hw
    obtain ⟨σ, hσ, rfl⟩ := hs.onEventLoop h
    exact Or.inl ⟨_, rfl, hs.called hσ rfl rfl Nat.zero_ne_one (Or.inr (by simp [hw]))⟩
  | store =>
    simp only [EventLoopThread.run] at h
    split_ifs at h with hw
    obtain ⟨σ, hσ, rfl⟩ := hs.onEventLoop h
    exact Or.inl ⟨_, rfl, hs.called hσ rfl rfl Nat.zero_ne_one (Or.inr (by simp [hw]))⟩
  | wakeup =>
    simp only [EventLoopThread.run] at h
    split_ifs at h with hw
    obtain ⟨σ, hσ, rfl⟩ := hs.onEventLoop h
    exact Or.inl ⟨_, rfl, hs.called hσ rfl rfl Nat.zero_ne_one (Or.inr (by simp [hw]))⟩
  | publish =>
    simp only [EventLoopThread.run] at h
    split_ifs at h with hw
    obtain rfl := Option.some.inj h
    refine Or.inl ⟨_, rfl, hs.reach, fun _ _ => hs.before (by simp [hw]) (by simp [hw]), by simp,
      hs.early, ?_, fun hne _ => hs.loop hne (by simp [hw]), hs.asked, by simp, by simp, by simp, ?_,
      hs.alive, hs.phase⟩
    · intro hrun hne
      rcases hs.inLoop hrun hne with hw' | hw' <;> rw [hw] at hw' <;> cases hw'
    · intro hj
      have hd := hs.joined hj
      rw [hw] at hd
      cases hd
  | await =>
    simp only [EventLoopThread.run] at h
    split_ifs at h with hw
    obtain rfl := Option.some.inj h
    obtain ⟨hw, hrun⟩ := hw
    refine Or.inl ⟨_, rfl, hs.reach, fun _ _ => hs.before (by simp [hw]) (by simp [hw]),
      fun _ => hrun, hs.early, ?_, fun hne _ => hs.loop hne (by simp [hw]), hs.asked, by simp,
      by simp, by simp, ?_, hs.alive, hs.phase⟩
    · intro hrun hne
      rcases hs.inLoop hrun hne with hw' | hw' <;> rw [hw] at hw' <;> cases hw'
    · intro hj
      have hd := hs.joined hj
      rw [hw] at hd
      cases hd
  | enter =>
    simp only [EventLoopThread.run] at h
    split_ifs at h with hw
    obtain ⟨σ, hσ, rfl⟩ := hs.onEventLoop h
    exact Or.inl ⟨_, rfl, hs.enter hw hσ⟩
  | loop a =>
    simp only [EventLoopThread.run] at h
    split_ifs at h with hw
    obtain ⟨σ, hσ, rfl⟩ := hs.onEventLoop h
    obtain ⟨hworker, hpc, hthread⟩ := hw
    by_cases hcall : a.isCall = true
    · refine Or.inl ⟨_, rfl, hs.called hσ hcall hg ?_ (Or.inl hworker.symm)⟩
      rw [hthread]
      decide
    · exact Or.inl ⟨_, rfl, hs.looped hworker hpc hσ (by simpa using hcall)⟩
  | leave =>
    simp only [EventLoopThread.run] at h
    split_ifs at h with hw
    obtain rfl := Option.some.inj h
    obtain ⟨hw, hpc⟩ := hw
    have hquit := hs.left (Or.inl hw) hpc
    exact Or.inl ⟨_, rfl, hs.reach, by simp, fun _ => hs.promised (Or.inr (Or.inl hw)), hs.early,
      fun _ _ => Or.inr rfl, by simp, hs.asked, fun _ _ => hquit, fun _ _ => hquit, fun _ => hpc,
      fun _ => rfl, hs.alive, hs.phase⟩
  | constructed =>
    simp only [EventLoopThread.run] at h
    split_ifs at h with ho
    obtain rfl := Option.some.inj h
    have hrun := hs.early (Or.inl ho.1)
    refine Or.inl ⟨_, rfl, hs.reach, hs.before, hs.promised, fun _ => hrun, ?_, fun _ _ => rfl, ?_,
      by simp, hs.left, hs.after, by simp, by simp, by simp [hs.phase, ho.1]⟩
    · simp [hrun]
    · intro hq
      rcases hs.asked hq with h | h | h <;> rw [ho.1] at h <;> cases h
  | run =>
    simp only [EventLoopThread.run] at h
    split_ifs at h with ho
    obtain rfl := Option.some.inj h
    refine Or.inl ⟨_, rfl, hs.reach, hs.before, fun _ => rfl, by simp, by simp,
      fun _ => hs.loop (by simp [ho]), ?_, by simp, hs.left, hs.after, by simp, by simp,
      by simp [hs.phase, ho]⟩
    intro hq
    rcases hs.asked hq with h | h | h <;> rw [ho] at h <;> cases h
  | ran =>
    simp only [EventLoopThread.run] at h
    split_ifs at h with ho
    obtain rfl := Option.some.inj h
    obtain ⟨ho, hkept⟩ := ho
    refine Or.inl ⟨_, rfl, hs.owned (by simp) (by simp) (by simp [ho]) ?_ ?_ (by simp) (by simp)
      (by simp [ho])⟩
    · intro _
      by_contra hw
      obtain ⟨-, hran⟩ := hs.before (fun h => hw (Or.inl h)) fun h => hw (Or.inr h)
      simp [EventLoopThread.promiseForLoop, hran] at hkept
    · intro hq
      rcases hs.asked hq with h | h | h <;> rw [ho] at h <;> cases h
  | destroy =>
    by_cases ho : s.owner = .constructed ∨ s.owner = .started
    · obtain ⟨hrun, hnext⟩ := hs.run_destroy ho
      rw [hrun] at h
      exact Or.inl ⟨_, (Option.some.inj h).symm, hnext⟩
    · rw [EventLoopThread.run, if_neg ho] at h
      cases h
  | quit =>
    simp only [EventLoopThread.run] at h
    split_ifs at h with ho
    rw [EventLoopThread.callLoop, if_neg (hs.not_done (by simp [ho]))] at h
    obtain ⟨σ, hσ, rfl⟩ := hs.onEventLoop h
    exact Or.inl ⟨_, rfl, hs.quit ho hσ⟩
  | wakeupQuit =>
    simp only [EventLoopThread.run] at h
    split_ifs at h with ho
    unfold EventLoopThread.callLoop at h
    split_ifs at h with hd
    · exact Or.inr ⟨(Option.some.inj h).symm, hd, Or.inl rfl⟩
    · obtain ⟨σ, hσ, rfl⟩ := hs.onEventLoop h
      exact Or.inl ⟨_, rfl, hs.wakeupQuit ho hd hσ⟩
  | join =>
    simp only [EventLoopThread.run] at h
    split_ifs at h with ho
    obtain rfl := Option.some.inj h
    obtain ⟨ho, hd⟩ := ho
    refine Or.inl ⟨_, rfl, hs.owned (by simp) (by simp) (by simp [ho]) (fun _ => Or.inr hd) (by simp)
      (fun _ => Or.inr (Or.inl ho)) (fun _ => hd) (by simp [ho])⟩
  | other a =>
    simp only [EventLoopThread.run] at h
    split_ifs at h with hcaller
    unfold EventLoopThread.callLoop at h
    split_ifs at h with hd
    · exact Or.inr ⟨(Option.some.inj h).symm, hd, Or.inr ⟨a, rfl⟩⟩
    · obtain ⟨σ, hσ, rfl⟩ := hs.onEventLoop h
      exact Or.inl ⟨_, rfl, hs.called hσ (isCall_of_foreign hcaller.2.1) hg hcaller.2.2 (Or.inl rfl)⟩

theorem reach_inv (h : System.Reach (threadMachine α) OwnerQuits s) : Threaded s := by
  refine System.Reach.invariant (I := Threaded) ?_ ?_ h
  · rintro t ⟨address, rfl⟩
    exact ⟨.init ⟨address, rfl⟩, fun _ _ => ⟨rfl, rfl⟩, by simp, fun _ => rfl, by simp, by simp,
      by simp, by simp, by simp, by simp, by simp, by simp, rfl⟩
  · intro t x t' ht hg hstep
    obtain ⟨r, hr, hok⟩ := Option.bind_eq_some_iff.mp hstep
    rcases ht.run hg hr with ⟨u, rfl, hu⟩ | ⟨rfl, -⟩
    · obtain rfl : u = t' := by simpa using hok
      exact hu
    · cases hok

end Threaded

/-- When only the destructor asks the loop to quit: `run()` has returned to a loop that is in
`loop()` and not told to quit, so the `quit_ = true` of the destructor is not overwritten; the
destructor never skips the join; and the one access to a loop that is gone is a call that comes
after the thread has seen `quit_`, the destructor's own `wakeup()` among them. -/
theorem run_returns_in_loop {α : Type} {s : EventLoopThread α}
    (h : System.Reach (threadMachine α) OwnerQuits s) :
    (s.owner = .started → s.worker = .looping ∧ s.eventLoop.quit = false) ∧
      (s.owner = .waking ∨ s.owner = .joining ∨ s.owner = .joined → s.promiseForRun = true →
        s.eventLoop.quit = true) ∧
      s.owner ≠ .terminated ∧
      ∀ x r, OwnerQuits s x → s.run x = some r → (∃ s', r = .ok s') ∨
        s.worker = .done ∧ s.eventLoop.quit = true ∧ (x = .wakeupQuit ∨ ∃ a, x = .other a) := by
  have hs := Threaded.reach_inv h
  refine ⟨?_, ?_, hs.alive, ?_⟩
  · intro ho
    have hquit : s.eventLoop.quit = false := by
      by_contra hq
      rcases hs.asked (by simpa using hq) with h | h | h <;> rw [ho] at h <;> cases h
    have hnotDone := hs.not_done (by simp [ho])
    rcases hs.inLoop (Or.inl ho) (by simp [ho]) with hw | hw
    · exact ⟨hw, hquit⟩
    · exact absurd hw hnotDone
  · intro ho hrun
    refine hs.kept ho (hs.inLoop (Or.inr hrun) ?_)
    rcases ho with h | h | h <;> simp [h]
  · intro x r hg hx
    rcases hs.run hg hx with ⟨s', hr, -⟩ | ⟨-, hd, hcall⟩
    · exact Or.inl ⟨s', hr⟩
    · exact Or.inr ⟨hd, hs.left (Or.inr hd) (hs.after hd), hcall⟩

theorem run_returns_in_loop_started :
    ∃ s : EventLoopThread ℕ, System.Reach (threadMachine ℕ) OwnerQuits s ∧ s.owner = .started ∧
      s.worker = .looping ∧ s.eventLoop.quit = false := by
  obtain ⟨s, -, hreach, hp⟩ := System.exists_reach (M := threadMachine ℕ) (G := OwnerQuits)
    [.queue 1, .store, .wakeup, .publish, .constructed, .run, .await, .enter, .loop .test,
      .loop (.pollReturns true), .loop .handleRead, .loop .handled, .loop .begin, .loop .testEmpty,
      .loop .load, .loop .take, .ran]
    (fun s => s.owner = .started) ⟨0, rfl⟩ (by decide)
  have howner := of_decide_eq_true hp
  exact ⟨s, hreach, howner, (run_returns_in_loop hreach).1 howner⟩

def WorkerSteps {α : Type} : EventLoopThread α → EventLoopThread α → Prop :=
  Relation.ReflTransGen fun s s' =>
    ∃ x, (x = .leave ∨ ∃ a, x = .loop a) ∧ (threadMachine α).step s x = some s'

theorem LoopState.onward_own {α : Type} (σ : LoopState α) :
    σ.onward.thread = loopThread ∧ σ.onward.isQuit = false := by
  unfold LoopState.onward
  split
  · exact ⟨rfl, rfl⟩
  · exact ⟨rfl, rfl⟩
  · exact ⟨rfl, rfl⟩
  · split <;> exact ⟨rfl, rfl⟩

/-- From `joining` the thread comes to its end by its own steps. -/
theorem Threaded.ends {α : Type} {s : EventLoopThread α} (hs : Threaded s)
    (ho : s.owner = .joining) (hworker : s.worker = .looping ∨ s.worker = .done) :
    ∃ t, WorkerSteps s t ∧ t.owner = .joining ∧ t.worker = .done := by
  induction hn : s.eventLoop.distance using Nat.strongRecOn generalizing s with
  | ind n ih =>
    rcases hworker with hw | hw
    · by_cases hpc : s.eventLoop.pc = .outside
      · refine ⟨{ s with loop := false, worker := .done }, .single ⟨.leave, Or.inl rfl, ?_⟩, ho, rfl⟩
        simp [threadMachine, EventLoopThread.run, hw, hpc, Except.toOption]
      · obtain ⟨chain, hinv⟩ := LoopInv.reach hs.reach
        have hquit := hs.kept (Or.inr (Or.inl ho)) (Or.inl hw)
        obtain ⟨σ, hσ, -, hlt⟩ := hinv.onward hquit hpc
        obtain ⟨hthread, hnoQuit⟩ := s.eventLoop.onward_own
        have hrun : s.run (.loop s.eventLoop.onward) =
            some (.ok { s with eventLoop := σ, worker := .looping }) := by
          simp only [EventLoopThread.run, if_pos (And.intro hw (And.intro hpc hthread)),
            EventLoopThread.onEventLoop, hσ]
          rfl
        have hnext : Threaded { s with eventLoop := σ, worker := .looping } := by
          rcases hs.run (x := .loop s.eventLoop.onward) hnoQuit hrun with ⟨s', hr, hs'⟩ | ⟨hr, -⟩
          · rwa [Except.ok.inj hr]
          · cases hr
        obtain ⟨t, hsteps, hto, htw⟩ := ih σ.distance (hn ▸ hlt) hnext ho (Or.inl rfl) rfl
        refine ⟨t, .head ⟨.loop s.eventLoop.onward, Or.inr ⟨_, rfl⟩, ?_⟩ hsteps, hto, htw⟩
        simp [threadMachine, hrun, Except.toOption]
    · exact ⟨s, .refl, ho, hw⟩

/-- The destructor returns after `run()`, and never without it: once it has asked the loop to quit,
the thread can always come to its end by its own steps, whatever else has been queued. -/
theorem destructor_returns {α : Type} {s : EventLoopThread α}
    (h : System.Reach (threadMachine α) OwnerQuits s) :
    (s.owner = .joining → s.promiseForRun = true →
      ∃ t t', WorkerSteps s t ∧ (threadMachine α).step t .join = some t') ∧
    (s.owner = .joined → s.promiseForRun = true) := by
  have hs := Threaded.reach_inv h
  constructor
  · intro ho hrun
    obtain ⟨t, hsteps, hto, htw⟩ := hs.ends ho (hs.inLoop (Or.inr hrun) (by simp [ho]))
    refine ⟨t, { t with owner := .joined }, hsteps, ?_⟩
    simp [threadMachine, EventLoopThread.run, hto, htw, Except.toOption]
  · intro ho
    exact hs.promised (Or.inr (Or.inr (hs.joined ho)))

theorem destructor_returns_joining :
    ∃ s t t' : EventLoopThread ℕ, System.Reach (threadMachine ℕ) OwnerQuits s ∧ s.owner = .joining ∧
      WorkerSteps s t ∧ (threadMachine ℕ).step t .join = some t' := by
  obtain ⟨s, -, hreach, hp⟩ := System.exists_reach (M := threadMachine ℕ) (G := OwnerQuits)
    [.queue 1, .store, .wakeup, .publish, .constructed, .run, .await, .enter, .loop .test,
      .loop (.pollReturns true), .loop .handleRead, .loop .handled, .loop .begin, .loop .testEmpty,
      .loop .load, .loop .take, .ran, .destroy, .quit, .wakeupQuit]
    (fun s => s.owner = .joining ∧ s.promiseForRun = true) ⟨0, rfl⟩ (by decide)
  obtain ⟨howner, hrun⟩ := of_decide_eq_true hp
  obtain ⟨t, t', hsteps, hjoin⟩ := (destructor_returns hreach).1 howner hrun
  exact ⟨s, t, t', hreach, howner, hsteps, hjoin⟩

end Mutty.Net
