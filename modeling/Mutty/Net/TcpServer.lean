import Mathlib.Data.List.Nodup
import Mutty.Net.Teardown

/-!
# The server and its event loops

The base loop accepts connections and keeps them in `connections_`; each connection lives on one IO
loop, which is the base loop when there is no thread pool. A loop runs its functors in the order in
which they were queued. A close is handled on the IO loop in three steps that may interleave with
the other threads: `handleClose` up to its callback, the message to the base loop that erases the
name, and `connectDestroyed`. The destructor walks over `connections_`, sends `connectDestroyed` to
every connection, then stops the loops and joins their threads. Per connection the model counts the
runs of `connectDestroyed` and the erasures of its name.
-/

namespace Mutty.Net

open Mutty.Lib

/-- The number that `nextConnId_`, an `int`, gave to a connection. It tells the connections apart as their
names do for the first `2 ^ 31 - 1` of them. -/
abbrev ConnId := ℕ

abbrev LoopId := ℕ

def baseLoop : LoopId := 0

inductive Task
  | connectEstablished (id : ConnId)
  | connectDestroyed (id : ConnId)
  | forceCloseInLoop (id : ConnId)
  | removeConnectionInLoop (id : ConnId)
  deriving DecidableEq, Repr

structure Served where
  loop : LoopId
  polled : Polled
  destroyedRuns : ℕ := 0
  erasures : ℕ := 0
  deriving DecidableEq, Repr

inductive ClosePc
  | idle
  /-- `handleClose` is about to call `removeConnection` -/
  | removing (id : ConnId) (d : Dispatch ℕ)
  /-- `removeConnection` is about to call `connectDestroyed` -/
  | destroying (id : ConnId) (d : Dispatch ℕ)
  deriving DecidableEq, Repr

inductive ServerPhase
  | alive
  | destroying (items : List ConnId) (d : Dispatch ℕ)
  | joining
  | gone
  deriving DecidableEq, Repr

structure ServerState where
  ioLoops : ℕ
  next : ℕ := 0
  conns : List Served := []
  /-- the keys of `connections_` -/
  connections : List ConnId := []
  phase : ServerPhase := .alive
  queue : LoopId → List Task := fun _ => []
  pc : LoopId → ClosePc := fun _ => .idle
  exited : LoopId → Bool := fun _ => false
  /-- an assert has failed, or the server was used after its destruction -/
  aborted : Bool := false

namespace ServerState

def abort (s : ServerState) : ServerState := { s with aborted := true }

def setConn (s : ServerState) (id : ConnId) (k : Served) : ServerState :=
  { s with conns := s.conns.set id k }

def onConn (s : ServerState) (id : ConnId) (f : Served → ServerState) : ServerState :=
  match s.conns[id]? with
  | some k => f k
  | none => s.abort

def settle (s : ServerState) (id : ConnId) (k : Served) (r : Checked Polled) : ServerState :=
  match r with
  | .ok polled => s.setConn id { k with polled }
  | .error _ => (s.setConn id k).abort

def queueInLoop (s : ServerState) (l : LoopId) (t : Task) : ServerState :=
  { s with queue := Function.update s.queue l (s.queue l ++ [t]) }

def setPc (s : ServerState) (l : LoopId) (pc : ClosePc) : ServerState :=
  { s with pc := Function.update s.pc l pc }

def connectEstablished (s : ServerState) (id : ConnId) : ServerState :=
  s.onConn id fun k => s.settle id k k.polled.connectEstablished

def connectDestroyed (s : ServerState) (id : ConnId) (d : Dispatch ℕ) : ServerState :=
  s.onConn id fun k =>
    s.settle id { k with destroyedRuns := k.destroyedRuns + 1 } (k.polled.connectDestroyed d)

/-- `threadPool_->getNextLoop()`, or the base loop without a pool. -/
def nextLoop (s : ServerState) : LoopId := if s.ioLoops > 0 then s.next + 1 else baseLoop

def newConnection (s : ServerState) : ServerState :=
  let id := s.conns.length
  let loop := s.nextLoop
  let conn : Served := { loop, polled := { connection := {}, self := id } }
  let s := { s with
    next := if s.next + 1 ≥ s.ioLoops then 0 else s.next + 1
    conns := s.conns ++ [conn]
    connections := s.connections ++ [id] }
  -- `ioLoop->runInLoop(connectEstablished)`
  if loop = baseLoop then s.connectEstablished id else s.queueInLoop loop (.connectEstablished id)

/-- `handleClose` up to its callback. -/
def startClose (s : ServerState) (id : ConnId) (k : Served) (d : Dispatch ℕ) : ServerState :=
  match k.polled.disconnect with
  | .ok polled => (s.setConn id { k with polled }).setPc k.loop (.removing id d)
  | .error _ => s.abort

/-- `removeConnectionInLoop`; the functor holds a plain pointer to the server. -/
def removeConnectionInLoop (s : ServerState) (id : ConnId) : ServerState :=
  s.onConn id fun k =>
    let n := s.connections.count id
    let s' := { s.setConn id { k with erasures := k.erasures + n } with
      connections := s.connections.filter (· ≠ id) }
    if s.phase = .alive ∧ n = 1 then s' else s'.abort

/-- `removeConnection` as far as the message to the base loop; it is a call through the plain
pointer as well. -/
def removeConnection (s : ServerState) (l : LoopId) (id : ConnId) : ServerState :=
  if s.phase = .gone then s.abort
  else if l = baseLoop then s.removeConnectionInLoop id
  else s.queueInLoop baseLoop (.removeConnectionInLoop id)

def forceClose (s : ServerState) (id : ConnId) (k : Served) : ServerState :=
  if k.polled.connection.state = .kConnected ∨ k.polled.connection.state = .kDisconnecting then
    (s.settle id k (k.polled.become { k.polled.connection with state := .kDisconnecting } false)).queueInLoop
      k.loop (.forceCloseInLoop id)
  else s

def runTask (s : ServerState) : Task → ServerState
  | .connectEstablished id => s.connectEstablished id
  | .connectDestroyed id => s.connectDestroyed id {}
  | .forceCloseInLoop id =>
    s.onConn id fun k =>
      if k.polled.connection.state = .kConnected ∨ k.polled.connection.state = .kDisconnecting then
        s.startClose id k {}
      else s
  | .removeConnectionInLoop id => s.removeConnectionInLoop id

def destroyNext (s : ServerState) : List ConnId → Dispatch ℕ → ServerState
  | [], _ => { s with phase := .joining }
  | id :: items, d =>
    let s := { s with phase := .destroying items d }
    -- `conn->getLoop()->runInLoop(connectDestroyed)`
    s.onConn id fun k =>
      if k.loop = baseLoop then s.connectDestroyed id d
      else s.queueInLoop k.loop (.connectDestroyed id)

/-- The thread of the loop is neither inside a handler nor, for the base loop, in the destructor. -/
def CanRun (s : ServerState) (l : LoopId) : Prop :=
  s.pc l = .idle ∧ s.exited l = false ∧ (l = baseLoop → s.phase = .alive ∨ s.phase = .gone)

instance (s : ServerState) (l : LoopId) : Decidable (s.CanRun l) :=
  inferInstanceAs (Decidable (_ ∧ _))

end ServerState

inductive ServerAction
  | newConnection
  | shutdown (id : ConnId) (inLoop : Bool)
  | forceClose (id : ConnId)
  /-- a read of zero bytes, while the loop handles the events of `active` -/
  | peerClose (id : ConnId) (active : List ℕ)
  | runFunctor (l : LoopId)
  | proceed (l : LoopId)
  | destroy (d : Dispatch ℕ)
  | destroyNext
  | exitLoop (l : LoopId)
  | join
  deriving DecidableEq, Repr

def ServerAction.run (s : ServerState) : ServerAction → Option ServerState
  | .newConnection =>
    if s.phase = .alive ∧ s.CanRun baseLoop then some s.newConnection else none
  | .shutdown id inLoop => s.conns[id]?.map fun k => s.settle id k (k.polled.shutdown inLoop)
  | .forceClose id => s.conns[id]?.map fun k => s.forceClose id k
  | .peerClose id active =>
    s.conns[id]?.bind fun k =>
      if s.CanRun k.loop ∧ k.polled.registration.interest ≠ none then
        some (s.startClose id k ⟨true, some k.polled.self, active⟩)
      else none
  | .runFunctor l =>
    match s.queue l with
    | [] => none
    | t :: rest =>
      if s.CanRun l then some ({ s with queue := Function.update s.queue l rest }.runTask t)
      else none
  | .proceed l =>
    match s.pc l with
    | .idle => none
    | .removing id d => some ((s.removeConnection l id).setPc l (.destroying id d))
    | .destroying id d => some ((s.connectDestroyed id d).setPc l .idle)
  | .destroy d =>
    if s.phase = .alive ∧ s.CanRun baseLoop then
      some { s with phase := .destroying s.connections d }
    else none
  | .destroyNext =>
    match s.phase with
    | .destroying items d => some (s.destroyNext items d)
    | _ => none
  | .exitLoop l =>
    if s.phase = .joining ∧ l ≠ baseLoop ∧ s.pc l = .idle then
      some { s with exited := Function.update s.exited l true }
    else none
  | .join =>
    if s.phase = .joining ∧ ∀ l < s.ioLoops, s.exited (l + 1) = true then
      some { s with phase := .gone }
    else none

def serverMachine : System ServerState ServerAction where
  init s := ∃ ioLoops, s = { ioLoops }
  step s a := if s.aborted then none else a.run s

end Mutty.Net
