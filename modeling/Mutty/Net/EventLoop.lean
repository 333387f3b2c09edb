import Mutty.Net.MpscQueue

/-!
# The event loop and its wakeups

Any thread may queue a functor: the two steps of `enqueue`, then a write to the eventfd, which only
the loop thread leaves out, and only while it is running functors. The loop thread polls, handles
events, among them the read of the eventfd, and runs functors until the queue looks empty. Event
handlers and functors may queue functors themselves. Thread `0` is the loop thread. The eventfd is
a counter that a write increments and a read resets.
-/

namespace Mutty.Net

open Mutty.Lib

/-- Where a thread is inside `queueInLoop` (or `quit`). -/
inductive Phase
  | idle
  | exchanged (e : Pending)
  | linked
  | quitting
  deriving DecidableEq

def Phase.pending : Phase → Option Pending
  | .exchanged e => some e
  | _ => none

/-- Inside `queueInLoop`, with the functor in the queue and the eventfd not yet written. -/
def Phase.Unwritten : Phase → Prop
  | .exchanged _ => True
  | .linked => True
  | _ => False

inductive LoopPc
  | outside
  /-- `while (!quit_)` -/
  | test
  | poll
  /-- handling events; the flag says that the wakeup channel is active and not handled yet -/
  | handling (wakeup : Bool)
  | begin
  | testEmpty
  | dequeue
  | take (next : ℕ)
  | running
  | leave
  deriving DecidableEq

def LoopPc.runsUserCode : LoopPc → Bool
  | .outside => true
  | .handling _ => true
  | .running => true
  | _ => false

structure LoopState (α : Type) where
  funcs : MpscQueue α
  phase : ℕ → Phase
  pc : LoopPc
  callingPendingFuncs : Bool
  quit : Bool
  counter : ℕ
  exchanged : List (ℕ × α)
  /-- the functors taken from the queue and run, in order -/
  ran : List α

def loopThread : ℕ := 0

inductive LoopAction (α : Type)
  | exchange (thread address : ℕ) (functor : α)
  | store (thread : ℕ)
  | wakeup (thread : ℕ)
  | quit (thread : ℕ)
  | wakeupQuit (thread : ℕ)
  | enter
  | test
  | pollReturns (wakeup : Bool)
  | handleRead
  | handled
  | begin
  | testEmpty
  | load
  | take
  | functorDone
  | leave

namespace LoopState

variable {α : Type}

/-- A thread can begin a call: it is in no other call, and the loop thread is in user code. -/
def CanCall (σ : LoopState α) (t : ℕ) : Prop :=
  σ.phase t = .idle ∧ (t = loopThread → σ.pc.runsUserCode = true)

instance (σ : LoopState α) (t : ℕ) : Decidable (σ.CanCall t) := inferInstanceAs (Decidable (_ ∧ _))

def setPhase (σ : LoopState α) (t : ℕ) (phase : Phase) : LoopState α :=
  { σ with phase := Function.update σ.phase t phase }

/-- A step of the loop thread at place `pc`, outside any call. -/
def onLoop (σ : LoopState α) (pc : LoopPc) (r : Checked (LoopState α)) :
    Option (Checked (LoopState α)) :=
  if σ.pc = pc ∧ σ.phase loopThread = .idle then some r else none

/-- One atomic step; `none` when the program of its thread is not there. -/
def run (σ : LoopState α) : LoopAction α → Option (Checked (LoopState α))
  | .exchange t address functor =>
    if σ.CanCall t ∧ (σ.funcs.node address).isNone then
      let (prevhead, funcs) := σ.funcs.exchange address functor
      some (.ok { σ.setPhase t (.exchanged ⟨prevhead, address, σ.exchanged.length⟩) with
        funcs
        exchanged := σ.exchanged ++ [(t, functor)] })
    else none
  | .store t =>
    (σ.phase t).pending.map fun e => do
      let funcs ← σ.funcs.store e.prevhead e.node
      return { σ.setPhase t .linked with funcs }
  | .wakeup t =>
    if σ.phase t = .linked then
      -- `if (!isInLoopThread() || !callingPendingFuncs_) wakeup();`
      if t ≠ loopThread ∨ ¬ σ.callingPendingFuncs then
        some (.ok { σ.setPhase t .idle with counter := σ.counter + 1 })
      else some (.ok (σ.setPhase t .idle))
    else none
  | .quit t =>
    if σ.CanCall t then
      some (.ok { σ.setPhase t (if t = loopThread then .idle else .quitting) with quit := true })
    else none
  | .wakeupQuit t =>
    if σ.phase t = .quitting then
      some (.ok { σ.setPhase t .idle with counter := σ.counter + 1 })
    else none
  | .enter => σ.onLoop .outside (.ok { σ with pc := .test, quit := false })
  | .test => σ.onLoop .test (.ok { σ with pc := if σ.quit then .outside else .poll })
  | .pollReturns wakeup =>
    if wakeup → σ.counter > 0 then σ.onLoop .poll (.ok { σ with pc := .handling wakeup }) else none
  | .handleRead => σ.onLoop (.handling true) (.ok { σ with pc := .handling false, counter := 0 })
  | .handled => σ.onLoop (.handling false) (.ok { σ with pc := .begin })
  | .begin => σ.onLoop .begin (.ok { σ with pc := .testEmpty, callingPendingFuncs := true })
  | .testEmpty => σ.onLoop .testEmpty do
      let next ← σ.funcs.loadNext
      return { σ with pc := if next.isNone then .leave else .dequeue }
  | .load => σ.onLoop .dequeue do
      let next ← σ.funcs.loadNext
      match next with
      | none => return { σ with pc := .testEmpty }
      | some next => return { σ with pc := .take next }
  | .take =>
    match σ.pc with
    | .take next => σ.onLoop (.take next) do
        let (functor, funcs) ← σ.funcs.take next
        return { σ with funcs, pc := .running, ran := σ.ran ++ [functor] }
    | _ => none
  | .functorDone => σ.onLoop .running (.ok { σ with pc := .dequeue })
  | .leave => σ.onLoop .leave (.ok { σ with pc := .test, callingPendingFuncs := false })

end LoopState

def loopMachine (α : Type) : System (LoopState α) (LoopAction α) where
  init σ := ∃ address, σ = ⟨.new address, fun _ => .idle, .outside, false, false, 0, [], []⟩
  step σ a := (σ.run a).bind Except.toOption

/-- The places between the last look at the queue and the next read of the eventfd. -/
def LoopPc.Resting : LoopPc → Prop
  | .outside => True
  | .test => True
  | .poll => True
  | .leave => True
  | _ => False

/-- The places of `doPendingFunctors` at which `callingPendingFuncs_` is set. -/
def LoopPc.calling : LoopPc → Bool
  | .testEmpty => true
  | .dequeue => true
  | .take _ => true
  | .running => true
  | .leave => true
  | _ => false

/-- What holds between any two steps. `woken` is the reason no wakeup is lost: from the look that
found the queue empty on, a functor that is not run yet is that of a thread which has still to
write, or a write has been made that no read has reset. -/
structure LoopInv {α : Type} (σ : LoopState α) (chain : List ℕ) : Prop where
  enqueues : Enqueues σ.funcs σ.exchanged σ.ran.length (fun t => (σ.phase t).pending) chain
  taking : ∀ next, σ.pc = .take next → σ.funcs.loadNext = .ok (some next)
  ran : σ.ran <+: σ.exchanged.map Prod.snd
  loopIdle : σ.phase loopThread ≠ .idle → σ.pc.runsUserCode = true
  calling : σ.callingPendingFuncs = σ.pc.calling
  woken : σ.pc.Resting → σ.counter = 0 → σ.ran.length < σ.exchanged.length →
    ∃ t, (σ.phase t).Unwritten

theorem Phase.pending_update (phase : ℕ → Phase) (t : ℕ) (p : Phase) :
    (fun s => (Function.update phase t p s).pending) =
      Function.update (fun s => (phase s).pending) t p.pending := by
  funext s
  by_cases hs : s = t
  · subst hs
    simp
  · simp [hs]

theorem Phase.pending_eq_some {p : Phase} {e : Pending} : p.pending = some e ↔ p = .exchanged e := by
  cases p <;> simp [Phase.pending]

theorem LoopState.onLoop_eq_some {α : Type} {σ : LoopState α} {pc : LoopPc}
    {r r' : Checked (LoopState α)} :
    σ.onLoop pc r = some r' ↔ (σ.pc = pc ∧ σ.phase loopThread = .idle) ∧ r = r' := by
  unfold LoopState.onLoop
  split_ifs with h <;> simp [h]

namespace LoopInv

variable {α : Type} {σ : LoopState α} {chain : List ℕ}

theorem move (h : LoopInv σ chain) (hidle : σ.phase loopThread = .idle) {pc : LoopPc}
    {calling quit : Bool} {counter : ℕ}
    (htaking : ∀ next, pc = .take next → σ.funcs.loadNext = .ok (some next))
    (hcalling : calling = pc.calling)
    (hwoken : pc.Resting → counter = 0 → σ.ran.length < σ.exchanged.length →
      ∃ t, (σ.phase t).Unwritten) :
    LoopInv { σ with pc, callingPendingFuncs := calling, quit, counter } chain where
  enqueues := h.enqueues
  taking := htaking
  ran := h.ran
  loopIdle := fun hne => absurd hidle hne
  calling := hcalling
  woken := hwoken

theorem setPhase (h : LoopInv σ chain) {t : ℕ} {phase : Phase} {quit : Bool} {counter : ℕ}
    (hold : (σ.phase t).pending = none) (hnew : phase.pending = none)
    (hloop : t = loopThread → phase = .idle ∨ σ.pc.runsUserCode = true)
    (hwoken : σ.pc.Resting → counter = 0 → σ.ran.length < σ.exchanged.length →
      ∃ s, (Function.update σ.phase t phase s).Unwritten) :
    LoopInv { σ.setPhase t phase with quit, counter } chain where
  enqueues := by
    have hsame : (fun s => (Function.update σ.phase t phase s).pending) =
        fun s => (σ.phase s).pending := by
      rw [Phase.pending_update, hnew, ← hold]
      exact Function.update_eq_self t fun s => (σ.phase s).pending
    have henq := h.enqueues
    rw [← hsame] at henq
    exact henq
  taking := h.taking
  ran := h.ran
  loopIdle := by
    intro hne
    by_cases ht : t = loopThread
    · subst ht
      rcases hloop rfl with hidle | huser
      · simp [LoopState.setPhase, hidle] at hne
      · exact huser
    · refine h.loopIdle ?_
      simpa [LoopState.setPhase, Function.update_of_ne (Ne.symm ht)] using hne
  calling := h.calling
  woken := hwoken

theorem exchange (h : LoopInv σ chain) {t a : ℕ} {f : α} (hcall : σ.CanCall t)
    (ha : σ.funcs.node a = none) :
    LoopInv { σ.setPhase t (.exchanged ⟨σ.funcs.head, a, σ.exchanged.length⟩) with
      funcs := (σ.funcs.exchange a f).2
      exchanged := σ.exchanged ++ [(t, f)] } (chain ++ [a]) where
  enqueues := by
    simp only [LoopState.setPhase, Phase.pending_update]
    exact h.enqueues.exchange (p := t) (by simp [hcall.1, Phase.pending]) ha f
  taking := by
    intro next hnext
    exact h.enqueues.loadNext_exchange (p := t) (by simp [hcall.1, Phase.pending]) ha
      (h.taking next hnext)
  ran := by
    rw [List.map_append]
    exact h.ran.trans (List.prefix_append _ _)
  loopIdle := by
    intro hne
    by_cases ht : t = loopThread
    · exact hcall.2 ht
    · refine h.loopIdle ?_
      simpa [LoopState.setPhase, Function.update_of_ne (Ne.symm ht)] using hne
  calling := h.calling
  woken := fun _ _ _ => ⟨t, by simp [LoopState.setPhase, Phase.Unwritten]⟩

theorem store (h : LoopInv σ chain) {t : ℕ} {e : Pending} (he : σ.phase t = .exchanged e) :
    ∃ q, σ.funcs.store e.prevhead e.node = .ok q ∧
      LoopInv { σ.setPhase t .linked with funcs := q } chain := by
  have hp : (σ.phase t).pending = some e := by rw [he]; rfl
  obtain ⟨q, hq, henq⟩ := h.enqueues.store (p := t) hp
  refine ⟨q, hq, ⟨?_, ?_, h.ran, ?_, h.calling, ?_⟩⟩
  · simp only [LoopState.setPhase, Phase.pending_update]
    exact henq
  · intro next hnext
    exact h.enqueues.loadNext_store (p := t) hp hq (h.taking next hnext)
  · intro hne
    refine h.loopIdle fun hidle => ?_
    by_cases ht : t = loopThread
    · subst ht
      simp [he] at hidle
    · exact hne (by simpa [LoopState.setPhase, Function.update_of_ne (Ne.symm ht)] using hidle)
  · exact fun _ _ _ => ⟨t, by simp [LoopState.setPhase, Phase.Unwritten]⟩

/-- The write, and the one case in which it is left out: the loop thread is running functors. -/
theorem wakeup (h : LoopInv σ chain) {t : ℕ} {r : Checked (LoopState α)}
    (hr : σ.run (.wakeup t) = some r) : ∃ σ', r = .ok σ' ∧ LoopInv σ' chain := by
  simp only [LoopState.run] at hr
  split_ifs at hr with hlinked hwrite
  · obtain rfl := Option.some.inj hr
    refine ⟨_, rfl, h.setPhase (by simp [hlinked, Phase.pending]) rfl (fun _ => Or.inl rfl) ?_⟩
    intro _ hzero
    omega
  · obtain rfl := Option.some.inj hr
    refine ⟨_, rfl, h.setPhase (by simp [hlinked, Phase.pending]) rfl (fun _ => Or.inl rfl) ?_⟩
    intro hrest
    simp only [not_or, not_not] at hwrite
    obtain ⟨rfl, hcalling⟩ := hwrite
    have huser := h.loopIdle (by simp [hlinked])
    rw [h.calling] at hcalling
    cases hpc : σ.pc <;> simp [hpc, LoopPc.Resting, LoopPc.calling, LoopPc.runsUserCode] at *

theorem quit (h : LoopInv σ chain) {t : ℕ} {r : Checked (LoopState α)}
    (hr : σ.run (.quit t) = some r) : ∃ σ', r = .ok σ' ∧ LoopInv σ' chain := by
  by_cases hc : σ.CanCall t
  · rw [LoopState.run, if_pos hc] at hr
    obtain rfl := Option.some.inj hr
    refine ⟨_, rfl, h.setPhase (by simp [hc.1, Phase.pending]) ?_ ?_ ?_⟩
    · split_ifs <;> rfl
    · intro ht
      exact Or.inl (if_pos ht)
    · intro hrest hzero hleft
      obtain ⟨s, hs⟩ := h.woken hrest hzero hleft
      have hst : s ≠ t := by
        rintro rfl
        simp [hc.1, Phase.Unwritten] at hs
      exact ⟨s, by rwa [Function.update_of_ne hst]⟩
  · rw [LoopState.run, if_neg hc] at hr
    cases hr

theorem work (h : LoopInv σ chain) (hidle : σ.phase loopThread = .idle) {pc : LoopPc} {counter : ℕ}
    (htaking : ∀ next, pc = .take next → σ.funcs.loadNext = .ok (some next))
    (hcalling : pc.calling = σ.pc.calling) (hrest : ¬ pc.Resting) :
    LoopInv { σ with pc, counter } chain :=
  h.move hidle htaking (h.calling.trans hcalling.symm) fun hr => absurd hr hrest

theorem testEmpty (h : LoopInv σ chain) {r : Checked (LoopState α)}
    (hr : σ.run .testEmpty = some r) : ∃ σ', r = .ok σ' ∧ LoopInv σ' chain := by
  obtain ⟨next, hnext, -⟩ := h.enqueues.linked.loadNext
  obtain ⟨⟨hpc, hidle⟩, rfl⟩ := LoopState.onLoop_eq_some.mp hr
  refine ⟨{ σ with pc := if next.isNone then .leave else .dequeue },
    by simp [hnext, bind, Except.bind, pure, Except.pure], h.move hidle ?_ ?_ ?_⟩
  · intro next'
    split_ifs <;> simp
  · rw [h.calling, hpc]
    split_ifs <;> rfl
  · -- the queue looks empty: a functor left in it waits for a store
    intro hrest _ hleft
    cases next with
    | some next => cases hrest
    | none =>
      obtain ⟨t, -, e, -, ht, -⟩ := h.enqueues.blocked hnext hleft
      exact ⟨t, by simp [Phase.pending_eq_some.mp ht, Phase.Unwritten]⟩

theorem load (h : LoopInv σ chain) {r : Checked (LoopState α)}
    (hr : σ.run .load = some r) : ∃ σ', r = .ok σ' ∧ LoopInv σ' chain := by
  obtain ⟨next, hnext, -⟩ := h.enqueues.linked.loadNext
  obtain ⟨⟨hpc, hidle⟩, rfl⟩ := LoopState.onLoop_eq_some.mp hr
  cases next with
  | none =>
    refine ⟨{ σ with pc := .testEmpty }, by simp [hnext, bind, Except.bind, pure, Except.pure],
      h.work hidle (by simp) ?_ id⟩
    rw [hpc]
    rfl
  | some next =>
    refine ⟨{ σ with pc := .take next }, by simp [hnext, bind, Except.bind, pure, Except.pure],
      h.work hidle ?_ ?_ id⟩
    · rintro next' ⟨⟩
      exact hnext
    · rw [hpc]
      rfl

theorem take (h : LoopInv σ chain) {r : Checked (LoopState α)}
    (hr : σ.run .take = some r) : ∃ σ', r = .ok σ' ∧ LoopInv σ' chain.tail := by
  simp only [LoopState.run] at hr
  split at hr
  · rename_i next' hpc
    obtain ⟨⟨-, hidle⟩, rfl⟩ := LoopState.onLoop_eq_some.mp hr
    obtain ⟨v, q, hq, hv, henq⟩ := h.enqueues.take (h.taking next' hpc)
    refine ⟨{ σ with funcs := q, pc := .running, ran := σ.ran ++ [v] },
      by simp [hq, bind, Except.bind, pure, Except.pure],
      ⟨by simpa using henq, by simp, prefix_concat h.ran hv, fun _ => rfl, ?_, ?_⟩⟩
    · rw [h.calling, hpc]
      rfl
    · intro hrest
      cases hrest
  · cases hr

theorem run (h : LoopInv σ chain) {a : LoopAction α} {r : Checked (LoopState α)}
    (hr : σ.run a = some r) : ∃ σ' chain', r = .ok σ' ∧ LoopInv σ' chain' := by
  cases a with
  | exchange t address functor =>
    simp only [LoopState.run] at hr
    split_ifs at hr with hc
    obtain rfl := Option.some.inj hr
    exact ⟨_, _, rfl, h.exchange hc.1 (by simpa using hc.2)⟩
  | store t =>
    obtain ⟨e, he, rfl⟩ := Option.map_eq_some_iff.mp hr
    obtain ⟨q, hq, hinv⟩ := h.store (Phase.pending_eq_some.mp he)
    exact ⟨_, chain, by simp [hq, bind, Except.bind, pure, Except.pure], hinv⟩
  | wakeup t =>
    obtain ⟨σ', rfl, hinv⟩ := h.wakeup hr
    exact ⟨σ', chain, rfl, hinv⟩
  | quit t =>
    obtain ⟨σ', rfl, hinv⟩ := h.quit hr
    exact ⟨σ', chain, rfl, hinv⟩
  | wakeupQuit t =>
    simp only [LoopState.run] at hr
    split_ifs at hr with hq
    obtain rfl := Option.some.inj hr
    refine ⟨_, chain, rfl, h.setPhase (by simp [hq, Phase.pending]) rfl (fun _ => Or.inl rfl) ?_⟩
    intro _ hzero
    omega
  | enter =>
    obtain ⟨⟨hpc, hidle⟩, rfl⟩ := LoopState.onLoop_eq_some.mp hr
    refine ⟨_, chain, rfl, h.move hidle (by simp) ?_ fun _ => ?_⟩
    · rw [h.calling, hpc]
      rfl
    · exact h.woken (by simp [hpc, LoopPc.Resting])
  | test =>
    obtain ⟨⟨hpc, hidle⟩, rfl⟩ := LoopState.onLoop_eq_some.mp hr
    refine ⟨_, chain, rfl, h.move hidle ?_ ?_ fun _ => ?_⟩
    · intro next
      split_ifs <;> simp
    · rw [h.calling, hpc]
      split_ifs <;> rfl
    · exact h.woken (by simp [hpc, LoopPc.Resting])
  | pollReturns wakeup =>
    simp only [LoopState.run] at hr
    split_ifs at hr
    obtain ⟨⟨hpc, hidle⟩, rfl⟩ := LoopState.onLoop_eq_some.mp hr
    refine ⟨_, chain, rfl, h.work hidle (by simp) ?_ id⟩
    rw [hpc]
    rfl
  | handleRead =>
    obtain ⟨⟨hpc, hidle⟩, rfl⟩ := LoopState.onLoop_eq_some.mp hr
    refine ⟨_, chain, rfl, h.work hidle (by simp) ?_ id⟩
    rw [hpc]
    rfl
  | handled =>
    obtain ⟨⟨hpc, hidle⟩, rfl⟩ := LoopState.onLoop_eq_some.mp hr
    refine ⟨_, chain, rfl, h.work hidle (by simp) ?_ id⟩
    rw [hpc]
    rfl
  | begin =>
    obtain ⟨⟨hpc, hidle⟩, rfl⟩ := LoopState.onLoop_eq_some.mp hr
    refine ⟨_, chain, rfl, h.move hidle (by simp) rfl fun hrest => ?_⟩
    cases hrest
  | testEmpty =>
    obtain ⟨σ', rfl, hinv⟩ := h.testEmpty hr
    exact ⟨σ', chain, rfl, hinv⟩
  | load =>
    obtain ⟨σ', rfl, hinv⟩ := h.load hr
    exact ⟨σ', chain, rfl, hinv⟩
  | take =>
    obtain ⟨σ', rfl, hinv⟩ := h.take hr
    exact ⟨σ', chain.tail, rfl, hinv⟩
  | functorDone =>
    obtain ⟨⟨hpc, hidle⟩, rfl⟩ := LoopState.onLoop_eq_some.mp hr
    refine ⟨_, chain, rfl, h.work hidle (by simp) ?_ id⟩
    rw [hpc]
    rfl
  | leave =>
    obtain ⟨⟨hpc, hidle⟩, rfl⟩ := LoopState.onLoop_eq_some.mp hr
    refine ⟨_, chain, rfl, h.move hidle (by simp) rfl fun _ => ?_⟩
    exact h.woken (by simp [hpc, LoopPc.Resting])

theorem reach (h : System.Reach (loopMachine α) System.Free σ) : ∃ chain, LoopInv σ chain := by
  refine System.Reach.invariant (I := fun σ => ∃ chain, LoopInv σ chain) ?_ ?_ h
  · rintro σ ⟨address, rfl⟩
    exact ⟨[address], Enqueues.new address, by simp, by simp, by simp, rfl, by simp⟩
  · rintro σ a σ' ⟨chain, hinv⟩ - hstep
    obtain ⟨r, hr, hok⟩ := Option.bind_eq_some_iff.mp hstep
    obtain ⟨σ₁, chain', rfl, hinv'⟩ := hinv.run hr
    obtain rfl : σ₁ = σ' := by simpa using hok
    exact ⟨chain', hinv'⟩

end LoopInv

/-- No wakeup is lost: when the loop thread is about to block in `poll` with nothing to read from
the eventfd while a queued functor has not been run, another thread is inside `queueInLoop` and
has still to write the eventfd. Functors are run in the order of their exchanges. -/
theorem no_lost_wakeup {α : Type} {σ : LoopState α}
    (h : System.Reach (loopMachine α) System.Free σ) :
    σ.ran <+: σ.exchanged.map Prod.snd ∧
      (σ.pc = .poll → σ.counter = 0 → σ.ran.length < σ.exchanged.length →
        ∃ t, t ≠ loopThread ∧ (σ.phase t).Unwritten) := by
  obtain ⟨chain, hinv⟩ := LoopInv.reach h
  refine ⟨hinv.ran, fun hpc hzero hleft => ?_⟩
  obtain ⟨t, ht⟩ := hinv.woken (by simp [hpc, LoopPc.Resting]) hzero hleft
  refine ⟨t, ?_, ht⟩
  rintro rfl
  have huser := hinv.loopIdle fun hidle => by simp [hidle, Phase.Unwritten] at ht
  simp [hpc, LoopPc.runsUserCode] at huser

/-- A read absorbs the wakeup of a functor that was run already, a second functor is queued while
the loop is on its way back to `poll`, and its thread has still to write. -/
theorem no_lost_wakeup_before_write :
    ∃ σ : LoopState ℕ, System.Reach (loopMachine ℕ) System.Free σ ∧ σ.pc = .poll ∧
      σ.counter = 0 ∧ σ.ran = [7] ∧ σ.exchanged = [(1, 7), (2, 8)] ∧
      ∃ t, t ≠ loopThread ∧ (σ.phase t).Unwritten := by
  obtain ⟨σ, -, hreach, hp⟩ := System.exists_reach (M := loopMachine ℕ) (G := System.Free)
    [.enter, .test, .exchange 1 1 7, .store 1, .wakeup 1, .pollReturns true, .handleRead, .handled,
      .begin, .testEmpty, .load, .take, .functorDone, .load, .testEmpty, .exchange 2 2 8, .leave,
      .store 2, .test]
    (fun σ => σ.pc = .poll ∧ σ.counter = 0 ∧ σ.ran = [7] ∧ σ.exchanged = [(1, 7), (2, 8)])
    ⟨0, rfl⟩ (by decide)
  obtain ⟨hpc, hzero, hran, hexchanged⟩ := of_decide_eq_true hp
  refine ⟨σ, hreach, hpc, hzero, hran, hexchanged, (no_lost_wakeup hreach).2 hpc hzero ?_⟩
  rw [hran, hexchanged]
  decide

end Mutty.Net
