import Mutty.Lib.Transition

/-!
# Connecting and trying again

`start` puts `startInLoop` on the loop's own thread. A retry takes another way: `EventLoop::runAfter`
hands `startInLoop` to the timer, and when the delay has passed the timer gives it to its thread pool,
where a worker runs it. Each step has as arguments what the system calls return in it. `executions`
records every entry into `startInLoop` with what it checks; an assert that fails, or a call of
`abortNotInLoopThread`, sets `failed` and ends the run.
-/

namespace Mutty.Net

open Mutty.Lib

inductive RunThread
  | loop
  | poolWorker (i : ℕ)
  | other (i : ℕ)
  deriving DecidableEq, Repr

inductive Status
  | kDisconnected | kConnecting | kConnected
  deriving DecidableEq, Repr

/-- `savedErrno` after `::connect`. -/
inductive ConnectErrno
  | zero | EINPROGRESS | EINTR | EISCONN
  | EAGAIN | EADDRINUSE | EADDRNOTAVAIL | ECONNREFUSED | ENETUNREACH
  | EACCES | EPERM | EAFNOSUPPORT | EALREADY | EBADF | EFAULT | ENOTSOCK
  | other (code : ℕ)
  deriving DecidableEq, Repr

inductive ConnectorFunctor
  | startInLoop | resetChannel
  deriving DecidableEq, Repr

structure Execution where
  thread : RunThread
  status : Status
  channelEmpty : Bool
  deriving DecidableEq, Repr

/-- `registered`: the poller has the channel. `timers` is the number of retries that wait in the timer
or its thread pool. -/
structure Connector where
  status : Status := .kDisconnected
  connect : Bool := false
  channel : Bool := false
  registered : Bool := false
  retryDelayMs : ℕ := 500
  funcs : List ConnectorFunctor := []
  timers : ℕ := 0
  executions : List Execution := []
  failed : Bool := false
  deriving DecidableEq, Repr

/-- What the kernel reports for the channel, and what `getSocketError` and `isSelfConnect` return. -/
structure ConnectEvent where
  error : Bool
  out : Bool
  socketError : Bool
  selfConnect : Bool
  deriving DecidableEq, Repr

inductive ConnectorStep
  | start (thread : RunThread) (result : ConnectErrno)
  | runFunctor (result : ConnectErrno)
  | event (e : ConnectEvent)
  | fire (worker : ℕ) (result : ConnectErrno)
  deriving DecidableEq, Repr

namespace Connector

def retry (c : Connector) : Connector :=
  let c := { c with status := .kDisconnected }
  if c.connect then
    { c with timers := c.timers + 1, retryDelayMs := min (c.retryDelayMs * 2) 30000 }
  else c

def connecting (c : Connector) : Connector :=
  let c := { c with status := .kConnecting }
  if c.channel then { c with failed := true } else { c with channel := true, registered := true }

def connectTo (c : Connector) : ConnectErrno → Connector
  | .zero | .EINPROGRESS | .EINTR | .EISCONN => c.connecting
  | .EAGAIN | .EADDRINUSE | .EADDRNOTAVAIL | .ECONNREFUSED | .ENETUNREACH => c.retry
  | _ => c

def startInLoop (c : Connector) (thread : RunThread) (result : ConnectErrno) : Connector :=
  let c := { c with executions := c.executions ++ [Execution.mk thread c.status !c.channel] }
  if thread ≠ .loop then { c with failed := true }
  else if c.status ≠ .kDisconnected then { c with failed := true }
  else if c.connect then c.connectTo result
  else c

def removeAndResetChannel (c : Connector) : Connector :=
  { c with registered := false, funcs := c.funcs ++ [.resetChannel] }

def handleWrite (c : Connector) (e : ConnectEvent) : Connector :=
  match c.status with
  | .kConnecting =>
    let c := c.removeAndResetChannel
    if e.socketError then c.retry
    else if e.selfConnect then c.retry
    else { c with status := .kConnected }
  | .kDisconnected => c
  | .kConnected => { c with failed := true }

def handleError (c : Connector) : Connector :=
  match c.status with
  | .kConnecting => c.removeAndResetChannel.retry
  | _ => c

/-- `Channel::handleEventWithGuard` with the two callbacks that are set. -/
def handleEvent (c : Connector) (e : ConnectEvent) : Connector :=
  let c := if e.error then c.handleError else c
  if e.out then c.handleWrite e else c

/-- `start` is called once. `fire` is a pool worker that has taken a retry from the queue. -/
def step (c : Connector) (a : ConnectorStep) : Option Connector :=
  if c.failed then none
  else
    match a with
    | .start thread result =>
      if c.connect then none
      else
        let c := { c with connect := true }
        if thread = .loop then some (c.startInLoop .loop result)
        else some { c with funcs := c.funcs ++ [.startInLoop] }
    | .runFunctor result =>
      match c.funcs with
      | [] => none
      | .startInLoop :: rest => some (startInLoop { c with funcs := rest } .loop result)
      | .resetChannel :: rest => some { c with funcs := rest, channel := false }
    | .event e => if c.registered then some (c.handleEvent e) else none
    | .fire worker result =>
      if c.timers = 0 then none
      else some (startInLoop { c with timers := c.timers - 1 } (.poolWorker worker) result)

structure Orderly (c : Connector) : Prop where
  executions : ∀ x ∈ c.executions, x = ⟨.loop, .kDisconnected, true⟩
  failed : c.failed = false

end Connector

def connectorMachine : System Connector ConnectorStep where
  init c := c = {}
  step := Connector.step

def ConnectErrno.retries : ConnectErrno → Bool
  | .EAGAIN | .EADDRINUSE | .EADDRNOTAVAIL | .ECONNREFUSED | .ENETUNREACH => true
  | _ => false

def ConnectEvent.retries (e : ConnectEvent) : Bool := e.error || e.out && (e.socketError || e.selfConnect)

def ConnectorStep.noRetry : ConnectorStep → Bool
  | .start _ result => !result.retries
  | .runFunctor result => !result.retries
  | .event e => !e.retries
  | .fire _ _ => true

def ConnectorStep.notFired : ConnectorStep → Bool
  | .fire _ _ => false
  | _ => true

namespace Connector

/-- Until the first `startInLoop` has run, the connector is as it was constructed. -/
structure Ready (c : Connector) : Prop where
  status : c.status = .kDisconnected
  channel : c.channel = false
  registered : c.registered = false

structure Inv (c : Connector) : Prop extends Orderly c where
  fresh : c.connect = false → c.Ready ∧ c.funcs = []
  pending : .startInLoop ∈ c.funcs → c.Ready ∧ c.funcs = [.startInLoop]
  registered : c.registered = true → c.status = .kConnecting

variable {c c' : Connector}

structure Tried (c c' : Connector) : Prop where
  executions : c'.executions = c.executions
  failed : c'.failed = c.failed
  funcs : c'.funcs = c.funcs
  connect : c'.connect = c.connect
  registered : c'.registered = true → c'.status = .kConnecting

theorem Ready.connecting (h : c.Ready) : Tried c c.connecting := by
  unfold Connector.connecting
  rw [if_neg (by rw [h.channel]; decide)]
  exact ⟨rfl, rfl, rfl, rfl, fun _ => rfl⟩

theorem retry_tried (h : c.registered = false) : Tried c c.retry := by
  unfold retry
  dsimp only
  split_ifs
  · exact ⟨rfl, rfl, rfl, rfl, fun hr => absurd hr (by rw [h]; decide)⟩
  · exact ⟨rfl, rfl, rfl, rfl, fun hr => absurd hr (by rw [h]; decide)⟩

theorem Ready.connectTo (h : c.Ready) (result : ConnectErrno) : Tried c (c.connectTo result) := by
  have hstay : Tried c c := ⟨rfl, rfl, rfl, rfl, fun hr => absurd hr (by rw [h.registered]; decide)⟩
  cases result <;> first | exact h.connecting | exact retry_tried h.registered | exact hstay

def entered (c : Connector) (thread : RunThread) : Connector :=
  { c with executions := c.executions ++ [Execution.mk thread c.status !c.channel] }

theorem Ready.startInLoop_eq (h : c.Ready) (hc : c.connect = true) (result : ConnectErrno) :
    c.startInLoop .loop result = (c.entered .loop).connectTo result := by
  have hstatus : ¬ (c.entered .loop).status ≠ .kDisconnected := fun hne => hne h.status
  have hconnect : (c.entered .loop).connect = true := hc
  unfold Connector.startInLoop
  exact (if_neg (fun hne => hne rfl)).trans ((if_neg hstatus).trans (if_pos hconnect))

theorem Orderly.startInLoop (h : c.Orderly) (hr : c.Ready) (hc : c.connect = true)
    (hf : .startInLoop ∉ c.funcs) (result : ConnectErrno) : (c.startInLoop .loop result).Inv := by
  have hready : (c.entered .loop).Ready := ⟨hr.status, hr.channel, hr.registered⟩
  have htry := hready.connectTo result
  rw [hr.startInLoop_eq hc]
  constructor
  case toOrderly =>
    refine ⟨fun x hx => ?_, htry.failed.trans h.failed⟩
    rw [htry.executions] at hx
    rcases List.mem_append.mp hx with hx | hx
    · exact h.executions x hx
    · rw [List.mem_singleton.mp hx, hr.status, hr.channel]
      rfl
  case fresh =>
    intro hfalse
    have hconnect : c.connect = false := htry.connect.symm.trans hfalse
    exact absurd hc (by rw [hconnect]; decide)
  case pending =>
    intro hin
    rw [htry.funcs] at hin
    exact absurd hin hf
  case registered => exact htry.registered

structure Removed (c c' : Connector) : Prop where
  executions : c'.executions = c.executions
  failed : c'.failed = c.failed
  connect : c'.connect = c.connect
  funcs : c'.funcs = c.funcs ++ [.resetChannel]
  registered : c'.registered = false
  status : c'.status ≠ .kConnecting

theorem removed_retry (c : Connector) : Removed c c.removeAndResetChannel.retry := by
  unfold retry
  dsimp only
  split_ifs
  · exact ⟨rfl, rfl, rfl, rfl, rfl, nofun⟩
  · exact ⟨rfl, rfl, rfl, rfl, rfl, nofun⟩

theorem handleError_removed (h : c.status = .kConnecting) : Removed c c.handleError := by
  unfold handleError
  rw [h]
  exact removed_retry c

theorem handleWrite_removed (h : c.status = .kConnecting) (e : ConnectEvent) :
    Removed c (c.handleWrite e) := by
  unfold handleWrite
  rw [h]
  dsimp only
  split_ifs
  · exact removed_retry c
  · exact removed_retry c
  · exact ⟨rfl, rfl, rfl, rfl, rfl, nofun⟩

theorem handleError_status (h : c.status = .kConnecting) : c.handleError.status = .kDisconnected := by
  unfold handleError retry
  rw [h]
  dsimp only
  split_ifs <;> rfl

theorem handleEvent_cases (h : c.status = .kConnecting) (e : ConnectEvent) :
    c.handleEvent e = c ∨ Removed c (c.handleEvent e) := by
  unfold handleEvent
  cases e.error with
  | true =>
    refine .inr ?_
    have hskip : c.handleError.handleWrite e = c.handleError := by
      unfold handleWrite
      rw [handleError_status h]
    simp only [if_true, hskip, ite_self]
    exact handleError_removed h
  | false =>
    cases e.out with
    | true => exact .inr (handleWrite_removed h e)
    | false => exact .inl rfl

theorem Inv.removed (h : c.Inv) (hreg : c.registered = true) (hr : Removed c c') : c'.Inv := by
  have hpend : .startInLoop ∉ c.funcs := by
    intro hin
    have := (h.pending hin).1.registered
    rw [hreg] at this
    cases this
  refine ⟨⟨?_, hr.failed.trans h.failed⟩, ?_, ?_, ?_⟩
  · rw [hr.executions]
    exact h.executions
  · intro hfalse
    have := (h.fresh (hr.connect ▸ hfalse)).1.registered
    rw [hreg] at this
    cases this
  · intro hin
    rw [hr.funcs] at hin
    simp [hpend] at hin
  · intro hreg'
    rw [hr.registered] at hreg'
    cases hreg'

theorem Inv.start (h : c.Inv) {thread : RunThread} {result : ConnectErrno}
    (hs : c.step (.start thread result) = some c') : c'.Inv := by
  unfold Connector.step at hs
  rw [if_neg (by rw [h.failed]; decide)] at hs
  dsimp only at hs
  split_ifs at hs with hc hl
  · obtain rfl := Option.some.inj hs
    obtain ⟨hready, hnil⟩ := h.fresh (by simpa using hc)
    apply Orderly.startInLoop
    · exact ⟨h.executions, h.failed⟩
    · exact ⟨hready.status, hready.channel, hready.registered⟩
    · rfl
    · rw [hnil]
      exact List.not_mem_nil
  · obtain rfl := Option.some.inj hs
    obtain ⟨hready, hnil⟩ := h.fresh (by simpa using hc)
    refine ⟨⟨h.executions, h.failed⟩, nofun, fun _ => ⟨?_, ?_⟩, h.registered⟩
    · exact ⟨hready.status, hready.channel, hready.registered⟩
    · rw [hnil]
      rfl

theorem Inv.runFunctor (h : c.Inv) {result : ConnectErrno}
    (hs : c.step (.runFunctor result) = some c') : c'.Inv := by
  unfold Connector.step at hs
  rw [if_neg (by rw [h.failed]; decide)] at hs
  dsimp only at hs
  split at hs
  case h_1 => cases hs
  case h_2 rest hfuncs =>
    obtain rfl := Option.some.inj hs
    obtain ⟨hready, hone⟩ := h.pending (by rw [hfuncs]; exact List.mem_cons_self)
    have hconnect : c.connect = true := by
      by_contra hne
      have hnil := (h.fresh (by simpa using hne)).2
      rw [hfuncs] at hnil
      cases hnil
    apply Orderly.startInLoop
    · exact ⟨h.executions, h.failed⟩
    · exact ⟨hready.status, hready.channel, hready.registered⟩
    · exact hconnect
    · rw [hfuncs] at hone
      rw [(List.cons.inj hone).2]
      exact List.not_mem_nil
  case h_3 rest hfuncs =>
    obtain rfl := Option.some.inj hs
    refine ⟨⟨h.executions, h.failed⟩, ?_, ?_, h.registered⟩
    · intro hc
      have hnil := (h.fresh hc).2
      rw [hfuncs] at hnil
      cases hnil
    · intro hin
      have hone := (h.pending (by rw [hfuncs]; exact List.mem_cons_of_mem _ hin)).2
      rw [hfuncs] at hone
      cases hone

theorem Inv.event (h : c.Inv) {e : ConnectEvent} (hs : c.step (.event e) = some c') : c'.Inv := by
  unfold Connector.step at hs
  rw [if_neg (by rw [h.failed]; decide)] at hs
  dsimp only at hs
  split_ifs at hs with hreg
  obtain rfl := Option.some.inj hs
  rcases handleEvent_cases (h.registered hreg) e with hsame | hremoved
  · rw [hsame]
    exact h
  · exact h.removed hreg hremoved

theorem fire_failed {worker : ℕ} {result : ConnectErrno}
    (hs : c.step (.fire worker result) = some c') : ¬ c'.Orderly := by
  simp only [Connector.step] at hs
  split_ifs at hs
  obtain rfl := Option.some.inj hs
  intro h
  have hfailed := h.failed
  simp [Connector.startInLoop] at hfailed

theorem Inv.step (h : c.Inv) {a : ConnectorStep} (hg : a.notFired = true)
    (hs : c.step a = some c') : c'.Inv := by
  cases a with
  | start thread result => exact h.start hs
  | runFunctor result => exact h.runFunctor hs
  | event e => exact h.event hs
  | fire worker result => cases hg

theorem Inv.orderly_iff (h : c.Inv) {a : ConnectorStep} (hs : c.step a = some c') :
    c'.Orderly ↔ a.notFired = true := by
  constructor
  · intro ho
    cases a with
    | fire worker result => exact absurd ho (fire_failed hs)
    | start thread result => rfl
    | runFunctor result => rfl
    | event e => rfl
  · intro hg
    exact (h.step hg hs).toOrderly

theorem connecting_timers (c : Connector) : c.connecting.timers = c.timers := by
  simp only [Connector.connecting]
  split_ifs
  · rfl
  · rfl

theorem connectTo_timers {result : ConnectErrno} (h : (!result.retries) = true) (c : Connector) :
    (c.connectTo result).timers = c.timers := by
  cases result <;> first | exact connecting_timers c | rfl | cases h

theorem startInLoop_timers {result : ConnectErrno} (h : (!result.retries) = true) (c : Connector)
    (thread : RunThread) : (c.startInLoop thread result).timers = c.timers := by
  simp only [Connector.startInLoop]
  split_ifs
  · rfl
  · rfl
  · exact connectTo_timers h _
  · rfl

theorem handleWrite_timers {e : ConnectEvent} (h1 : e.socketError = false) (h2 : e.selfConnect = false)
    (c : Connector) : (c.handleWrite e).timers = c.timers := by
  unfold handleWrite
  rw [h1, h2]
  cases c.status <;> rfl

theorem handleEvent_timers {e : ConnectEvent} (h : (!e.retries) = true) (c : Connector) :
    (c.handleEvent e).timers = c.timers := by
  simp only [ConnectEvent.retries, Bool.not_or, Bool.and_eq_true, Bool.not_eq_true'] at h
  obtain ⟨herr, hout⟩ := h
  simp only [handleEvent, herr, Bool.false_eq_true, if_false]
  split_ifs with ho
  · simp only [ho, Bool.true_and, Bool.or_eq_false_iff] at hout
    exact handleWrite_timers hout.1 hout.2 c
  · rfl

theorem timers_step (h : c.timers = 0) {a : ConnectorStep} (hg : a.noRetry = true)
    (hs : c.step a = some c') : c'.timers = 0 := by
  cases a with
  | start thread result =>
    simp only [Connector.step] at hs
    split_ifs at hs
    · obtain rfl := Option.some.inj hs
      exact (startInLoop_timers hg _ _).trans h
    · obtain rfl := Option.some.inj hs
      exact h
  | runFunctor result =>
    simp only [Connector.step] at hs
    split_ifs at hs
    split at hs
    · cases hs
    · obtain rfl := Option.some.inj hs
      exact (startInLoop_timers hg _ _).trans h
    · obtain rfl := Option.some.inj hs
      exact h
  | event e =>
    simp only [Connector.step] at hs
    split_ifs at hs
    obtain rfl := Option.some.inj hs
    exact (handleEvent_timers hg c).trans h
  | fire worker result =>
    simp only [Connector.step, h, if_true] at hs
    split_ifs at hs

theorem notFired_of_step (h : c.timers = 0) {a : ConnectorStep} (hs : c.step a = some c') :
    a.notFired = true := by
  cases a with
  | fire worker result =>
    simp only [Connector.step, h, if_true] at hs
    split_ifs at hs
  | start thread result => rfl
  | runFunctor result => rfl
  | event e => rfl

theorem inv_init : ({} : Connector).Inv :=
  ⟨⟨nofun, rfl⟩, fun _ => ⟨⟨rfl, rfl, rfl⟩, rfl⟩, nofun, nofun⟩

end Connector

/-- The asserts hold along a run exactly when the timer's pool runs no retry in it, and there is none
for it to run as long as no result and no event asks for one. -/
theorem connector_orderly_iff (steps : List ConnectorStep) :
    (connectorMachine.Along (fun _ _ c => c.Orderly) {} steps ↔
      connectorMachine.Along (fun _ a _ => a.notFired = true) {} steps) ∧
    (connectorMachine.Along (fun _ a _ => a.noRetry = true) {} steps →
      connectorMachine.Along (fun _ _ c => c.Orderly) {} steps) := by
  have hiff := System.along_iff (M := connectorMachine) (G := fun _ a => a.notFired = true)
    (fun _ _ _ h hs => Connector.Inv.orderly_iff h hs) (fun _ _ _ h hg hs => h.step hg hs) steps
    Connector.inv_init
  refine ⟨hiff, fun hquiet => hiff.mpr ?_⟩
  refine hquiet.mono (I := fun c => c.timers = 0) (fun c a c' h hs hg => ?_) rfl
  exact ⟨Connector.notFired_of_step h hs, Connector.timers_step h hg hs⟩

theorem connector_retry_fails :
    ¬ connectorMachine.Along (fun _ _ c => c.Orderly) {}
      [.start .loop .ECONNREFUSED, .fire 0 .zero] := by
  intro h
  obtain ⟨-, h⟩ := h _ rfl
  obtain ⟨ho, -⟩ := h _ rfl
  cases ho.failed

end Mutty.Net
