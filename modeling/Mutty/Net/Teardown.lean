import Mutty.Net.Reactor

/-!
# A connection and its poller

`EPollPoller` looks a channel up under its file descriptor, and a descriptor belongs to one channel
for as long as the connection exists. A `Registration` is what the poller keeps under the
descriptor of one channel: the entry of `channels_`, the index of the channel and the interest
list of the kernel, and its operations are those of `EPollPoller` seen there. `Polled` is a connection
with its registration; each of its operations is the one of `TcpConnection`, followed by the update of
the poller that the channel asks for.
-/

namespace Mutty.Net

open Mutty.Lib

structure Registration where
  index : ChannelIndex := .kNew
  entry : Option ℕ := none
  interest : Option (BitVec 32) := none
  deriving DecidableEq, Repr

namespace Registration

/-- `EPOLL_CTL_ADD`, which fails for a descriptor that is watched already. -/
def add (r : Registration) (events : BitVec 32) : Registration :=
  { r with interest := some (r.interest.getD events) }

/-- `EPOLL_CTL_MOD`, which fails for a descriptor that is not watched. -/
def modify (r : Registration) (events : BitVec 32) : Registration :=
  { r with interest := r.interest.map fun _ => events }

def delete (r : Registration) : Registration := { r with interest := none }

/-- `EPollPoller::updateChannel`; `self` is the address of the channel. -/
def updateChannel (r : Registration) (self : ℕ) (ch : Channel) : Checked Registration :=
  match r.index with
  | .kNew => do
    require (r.entry = none)
    return { r with entry := some self, index := .kAdded }.add ch.events
  | .kDeleted => do
    require (r.entry = some self)
    return { r with index := .kAdded }.add ch.events
  | .kAdded => do
    require (r.entry = some self)
    if ch.isNoneEvent then return { r.delete with index := .kDeleted }
    else return r.modify ch.events

def removeChannel (r : Registration) (self : ℕ) (ch : Channel) : Checked Registration := do
  require (r.entry = some self)
  require ch.isNoneEvent
  require (r.index = .kAdded ∨ r.index = .kDeleted)
  let r := { r with entry := none }
  let r := if r.index = .kAdded then r.delete else r
  return { r with index := .kNew }

end Registration

namespace EPollPoller

variable {fd : ℕ → ℤ} {s s' : EPollPoller ℕ} {c d : ℕ}

/-- What the poller keeps under the descriptor of the channel at `c`. -/
def registration (fd : ℕ → ℤ) (s : EPollPoller ℕ) (c : ℕ) : Registration where
  index := s.index c
  entry := s.channels (fd c)
  interest := (s.interest (fd c)).map fun e => e.events

theorem registration_update (op : EpollOp) : (update fd s op c).registration fd c =
    match op with
    | .EPOLL_CTL_ADD => (s.registration fd c).add (s.channel c).events
    | .EPOLL_CTL_MOD => (s.registration fd c).modify (s.channel c).events
    | .EPOLL_CTL_DEL => (s.registration fd c).delete := by
  cases op <;> cases he : s.interest (fd c) <;>
    simp [update, epollCtl, registration, Registration.add, Registration.modify, Registration.delete, he]

theorem registration_setIndex (idx : ChannelIndex) :
    (s.setIndex c idx).registration fd c = { s.registration fd c with index := idx } := by
  simp [registration, setIndex]

theorem registration_setEntry (entry : Option ℕ) :
    { s with channels := Function.update s.channels (fd c) entry }.registration fd c =
      { s.registration fd c with entry } := by
  simp [registration]

theorem setIndex_channel (idx : ChannelIndex) : (s.setIndex c idx).channel = s.channel := rfl

/-- A call for the channel does to its registration what `Registration` says, asserts included. -/
theorem registration_updateChannel : (s.updateChannel fd c).map (registration fd · c) =
    (s.registration fd c).updateChannel c (s.channel c) := by
  have hindex : (s.registration fd c).index = s.index c := rfl
  have hentry : (s.registration fd c).entry = s.channels (fd c) := rfl
  unfold updateChannel Registration.updateChannel require
  rw [hindex, hentry]
  cases s.index c with
  | kNew =>
    by_cases h : s.channels (fd c) = none
    · simp [h, registration_update, registration_setIndex, registration_setEntry, setIndex_channel, bind,
        Except.bind, pure, Except.pure, Except.map]
    · simp [h, bind, Except.bind, Except.map]
  | kDeleted =>
    by_cases h : s.channels (fd c) = some c
    · simp [h, hentry, registration_update, registration_setIndex, setIndex_channel, bind, Except.bind, pure,
        Except.pure, Except.map]
    · simp [h, bind, Except.bind, Except.map]
  | kAdded =>
    by_cases h : s.channels (fd c) = some c
    · by_cases hnone : (s.channel c).isNoneEvent = true
      · simp [h, hnone, registration_update, registration_setIndex, bind, Except.bind, pure, Except.pure,
          Except.map]
      · simp [h, hnone, registration_update, bind, Except.bind, pure, Except.pure, Except.map]
    · simp [h, bind, Except.bind, Except.map]

theorem registration_removeChannel : (s.removeChannel fd c).map (registration fd · c) =
    (s.registration fd c).removeChannel c (s.channel c) := by
  have hindex : (s.registration fd c).index = s.index c := rfl
  have hentry : (s.registration fd c).entry = s.channels (fd c) := rfl
  unfold removeChannel Registration.removeChannel require
  rw [hindex, hentry]
  by_cases h : s.channels (fd c) = some c
  · by_cases hnone : (s.channel c).isNoneEvent = true
    · cases hidx : s.index c <;>
        simp [h, hnone, registration_update, registration_setIndex, registration_setEntry, bind, Except.bind,
          pure, Except.pure, Except.map, Registration.delete]
    · simp [h, hnone, bind, Except.bind, Except.map]
  · simp [h, bind, Except.bind, Except.map]

theorem registration_call_other {a : ChannelCall} (hm : Mirrors fd s) (hfd : Function.Injective fd)
    (hne : d ≠ c) (h : s.call fd c a = .ok s') : s'.registration fd d = s.registration fd d := by
  have hfdne : fd d ≠ fd c := fun heq => hne (hfd heq)
  obtain ⟨ch, idx, rfl⟩ := hm.call_eq hfd a h
  simp [registration, rewritten, hne, hfdne]

end EPollPoller

structure Polled where
  connection : TcpConnection
  self : ℕ
  registration : Registration := {}
  deriving DecidableEq, Repr

namespace Polled

/-- The connection has become `c`; `updated` says that `Channel::update` was called. -/
def become (p : Polled) (c : TcpConnection) (updated : Bool) : Checked Polled :=
  if updated then do
    let registration ← p.registration.updateChannel p.self c.channel
    return { p with connection := c, registration }
  else return { p with connection := c }

/-- `enableWriting` was called: both places that do so ask for `!isWriting()` first. -/
def startsWriting (c c' : TcpConnection) : Bool := !c.channel.isWriting && c'.channel.isWriting

def connectEstablished (p : Polled) : Checked Polled := do
  let c ← p.connection.connectEstablished
  p.become c true

def send (p : Polled) (message : Bytes) (inLoop : Bool) (r : WriteResult) : Checked Polled := do
  let c ← p.connection.send message inLoop r
  p.become c (startsWriting p.connection c)

def shutdown (p : Polled) (inLoop : Bool) : Checked Polled :=
  p.become (p.connection.shutdown inLoop) false

def forceClose (p : Polled) : Checked Polled := p.become p.connection.forceClose false

/-- `handleWrite`; `disableWriting` is called on a channel with write interest. -/
def handleWrite (p : Polled) (r : WriteResult) : Checked Polled := do
  let c ← p.connection.handleWrite r
  p.become c (startsWriting c p.connection)

/-- `connectDestroyed`, with `disableAll` when the connection is up, then `Channel::remove`. -/
def connectDestroyed (p : Polled) (d : Dispatch ℕ) : Checked Polled := do
  let c ← p.connection.connectDestroyed
  let p ← p.become c (p.connection.state = .kConnected)
  require (d.AllowsRemoval p.self)
  let registration ← p.registration.removeChannel p.self p.connection.channel
  return { p with registration }

/-- `handleClose` up to the close callback. -/
def disconnect (p : Polled) : Checked Polled := do
  let c ← p.connection.handleClose
  p.become c true

/-- `handleClose`; the close callback is `TcpServer::removeConnection`, which destroys the connection
on the spot. -/
def handleClose (p : Polled) (d : Dispatch ℕ) : Checked Polled := do
  let p ← p.disconnect
  p.connectDestroyed d

/-- `handleRead` for the value that `readFd` returned. The message callback acts on the connection
through its operations only. -/
def handleRead (p : Polled) (n : ℤ) (d : Dispatch ℕ) : Checked Polled :=
  if n > 0 then return p
  else if n = 0 then p.handleClose d
  else return p

def forceCloseInLoop (p : Polled) (d : Dispatch ℕ) : Checked Polled :=
  if p.connection.state = .kConnected ∨ p.connection.state = .kDisconnecting then p.handleClose d
  else return p

def runFunctor (p : Polled) (r : WriteResult) (d : Dispatch ℕ) : Checked Polled :=
  match p.connection.functors with
  | .forceCloseInLoop :: rest =>
    { p with connection := { p.connection with functors := rest } }.forceCloseInLoop d
  | _ => do
    let c ← p.connection.runFunctor r
    p.become c (startsWriting p.connection c)

end Polled

/-! ## Runs -/

inductive PolledAction
  | send (message : Bytes) (inLoop : Bool) (r : WriteResult)
  | shutdown (inLoop : Bool)
  | forceClose
  | handleRead (n : ℤ) (d : Dispatch ℕ)
  | handleWrite (r : WriteResult)
  | forceCloseInLoop (d : Dispatch ℕ)
  | runFunctor (r : WriteResult) (d : Dispatch ℕ)
  deriving DecidableEq, Repr

def PolledAction.run (p : Polled) : PolledAction → Checked Polled
  | .send message inLoop r => p.send message inLoop r
  | .shutdown inLoop => p.shutdown inLoop
  | .forceClose => p.forceClose
  | .handleRead n d => p.handleRead n d
  | .handleWrite r => p.handleWrite r
  | .forceCloseInLoop d => p.forceCloseInLoop d
  | .runFunctor r d => p.runFunctor r d

/-- A connection from `connectEstablished` on. -/
def polledMachine : System Polled PolledAction where
  init p := ∃ mark complete high self,
    Polled.connectEstablished ⟨⟨.kConnecting, {}, [], mark, complete, high, [], []⟩, self, {}⟩ = .ok p
  step p a := (a.run p).toOption

/-! ## Reading goes on while the connection is up -/

def Channel.Reading (ch : Channel) : Prop := ch.events.getLsbD 0 = true

theorem Channel.reading_enableReading (ch : Channel) : ch.enableReading.Reading := by
  simp [Reading, enableReading, kReadEvent]

theorem Channel.Reading.enableWriting {ch : Channel} (h : ch.Reading) :
    ch.enableWriting.Reading := by
  simpa [Reading, Channel.enableWriting, kWriteEvent] using h

theorem Channel.Reading.disableWriting {ch : Channel} (h : ch.Reading) :
    ch.disableWriting.Reading := by
  simpa [Reading, Channel.disableWriting, kWriteEvent] using h

theorem Channel.Reading.not_isNoneEvent {ch : Channel} (h : ch.Reading) :
    ch.isNoneEvent = false := by
  rw [isNoneEvent, decide_eq_false_iff_not]
  intro hnone
  rw [Reading, hnone] at h
  simp [kNoneEvent] at h

/-- What an operation on a connection that is up leaves: the state, up to a beginning shutdown,
and the interest in reading. -/
def KeepsUp (c c' : TcpConnection) : Prop :=
  (c'.state = c.state ∨ c.state = .kConnected ∧ c'.state = .kDisconnecting) ∧
    (c.channel.Reading → c'.channel.Reading)

namespace TcpConnection

theorem keepsUp_of_eq {c c' : TcpConnection} (hs : c'.state = c.state)
    (hc : c'.channel = c.channel) : KeepsUp c c' :=
  ⟨Or.inl hs, by rw [hc]; exact id⟩

theorem shutdownInLoop_channel (c : TcpConnection) : c.shutdownInLoop.channel = c.channel := by
  unfold shutdownInLoop
  split_ifs <;> rfl

theorem tryWrite_keeps (c : TcpConnection) (data : Bytes) (r : WriteResult) :
    (c.tryWrite data r).connection.state = c.state ∧
      (c.tryWrite data r).connection.channel = c.channel := by
  unfold tryWrite
  cases r with
  | wrote n => split_ifs <;> simp
  | failed errno => split_ifs <;> simp

theorem bufferOutput_keepsUp (c : TcpConnection) (bytes : Bytes) :
    KeepsUp c (c.bufferOutput bytes) := by
  unfold bufferOutput
  dsimp only
  split_ifs with hw
  · exact ⟨Or.inl (by simp), fun h => by simpa using h⟩
  · exact ⟨Or.inl (by simp), fun h => by simpa using h.enableWriting⟩

theorem sendInLoop_keepsUp {c c' : TcpConnection} {data : Bytes} {r : WriteResult}
    (h : c.sendInLoop data r = .ok c') : KeepsUp c c' := by
  unfold sendInLoop at h
  by_cases hs : (c.record (.sendInLoop data)).state = .kDisconnected
  · rw [if_pos hs] at h
    rw [← Except.ok.inj h]
    exact keepsUp_of_eq rfl rfl
  · rw [if_neg hs] at h
    simp only [bind_eq_ok, require_eq_ok] at h
    obtain ⟨-, -, h⟩ := h
    obtain ⟨hstate, hchannel⟩ := tryWrite_keeps (c.record (.sendInLoop data)) data r
    generalize (c.record (.sendInLoop data)).tryWrite data r = a at h hstate hchannel
    by_cases hmore : ¬ a.faultError ∧ a.remaining > 0
    · rw [if_pos hmore] at h
      obtain ⟨hs', hr'⟩ :=
        bufferOutput_keepsUp a.connection ((data.drop a.nwrote).take a.remaining)
      rw [hstate] at hs'
      rw [hchannel] at hr'
      rw [← Except.ok.inj h]
      exact ⟨hs', hr'⟩
    · rw [if_neg hmore] at h
      rw [← Except.ok.inj h]
      exact keepsUp_of_eq hstate hchannel

theorem send_keepsUp {c c' : TcpConnection} {message : Bytes} {inLoop : Bool} {r : WriteResult}
    (h : c.send message inLoop r = .ok c') : KeepsUp c c' := by
  unfold send at h
  split_ifs at h with hs hl
  · exact sendInLoop_keepsUp h
  · rw [← Except.ok.inj h]
    exact keepsUp_of_eq rfl rfl
  · rw [← Except.ok.inj h]
    exact keepsUp_of_eq rfl rfl

theorem shutdown_keepsUp (c : TcpConnection) (inLoop : Bool) : KeepsUp c (c.shutdown inLoop) := by
  unfold shutdown
  split_ifs with hs hl
  · refine ⟨Or.inr ⟨hs, by simp⟩, ?_⟩
    rw [shutdownInLoop_channel]
    exact id
  · exact ⟨Or.inr ⟨hs, rfl⟩, id⟩
  · exact keepsUp_of_eq rfl rfl

theorem forceClose_keepsUp (c : TcpConnection) : KeepsUp c c.forceClose := by
  unfold forceClose
  split_ifs with hs
  · refine ⟨?_, id⟩
    rcases hs with hs | hs
    · exact Or.inr ⟨hs, rfl⟩
    · exact Or.inl hs.symm
  · exact keepsUp_of_eq rfl rfl

theorem handleWrite_keepsUp {c c' : TcpConnection} {r : WriteResult}
    (h : c.handleWrite r = .ok c') : KeepsUp c c' := by
  refine ⟨Or.inl (handleWrite_state h), ?_⟩
  rcases handleWrite_cases h with rfl | ⟨n, -, rfl⟩
  · exact id
  · intro hr
    split_ifs
    · unfold outputDrained
      dsimp only
      split_ifs
      · rw [shutdownInLoop_channel, queueInLoopIf_channel]
        exact Channel.Reading.disableWriting hr
      · rw [queueInLoopIf_channel]
        exact Channel.Reading.disableWriting hr
    · exact hr

theorem runFunctor_keepsUp {c c' : TcpConnection} {r : WriteResult}
    (hf : ∀ rest, c.functors ≠ .forceCloseInLoop :: rest) (h : c.runFunctor r = .ok c') :
    KeepsUp c c' := by
  unfold runFunctor at h
  cases hc : c.functors with
  | nil =>
    simp only [hc] at h
    rw [← Except.ok.inj h]
    exact keepsUp_of_eq rfl rfl
  | cons f rest =>
    simp only [hc] at h
    cases f with
    | writeComplete =>
      rw [← Except.ok.inj h]
      exact keepsUp_of_eq rfl rfl
    | highWaterMark size =>
      rw [← Except.ok.inj h]
      exact keepsUp_of_eq rfl rfl
    | sendInLoop message =>
      have hsend : { c with functors := rest }.sendInLoop message r = .ok c' := h
      have hk := sendInLoop_keepsUp hsend
      exact hk
    | shutdownInLoop =>
      rw [← Except.ok.inj h]
      exact keepsUp_of_eq (by simp) (shutdownInLoop_channel _)
    | forceCloseInLoop => exact absurd hc (hf rest)

end TcpConnection

/-! ## Teardown -/

/-- A connection that is up or half-closed reads, and the poller has its channel. -/
structure Live (p : Polled) : Prop where
  state : p.connection.state = .kConnected ∨ p.connection.state = .kDisconnecting
  reading : p.connection.channel.Reading
  index : p.registration.index = .kAdded
  entry : p.registration.entry = some p.self

def LiveUntilClosed (p : Polled) : Prop := p.connection.state = .kDisconnected ∨ Live p

namespace Polled

theorem become_connection {p p' : Polled} {c : TcpConnection} {updated : Bool}
    (h : p.become c updated = .ok p') : p'.connection = c ∧ p'.self = p.self := by
  unfold become at h
  split_ifs at h
  · simp only [bind_eq_ok] at h
    obtain ⟨r, -, h⟩ := h
    rw [← Except.ok.inj h]
    exact ⟨rfl, rfl⟩
  · rw [← Except.ok.inj h]
    exact ⟨rfl, rfl⟩

theorem connectDestroyed_disconnected {p p' : Polled} {d : Dispatch ℕ}
    (hs : p.connection.state = .kDisconnected) (h : p.connectDestroyed d = .ok p') :
    p'.connection.state = .kDisconnected := by
  simp only [connectDestroyed, bind_eq_ok, TcpConnection.connectDestroyed, require_eq_ok, hs,
    reduceCtorEq, if_false] at h
  obtain ⟨c, ⟨-, -, hc⟩, q, hq, -, -, r, -, h⟩ := h
  rw [← Except.ok.inj h]
  dsimp only
  rw [(become_connection hq).1, ← Except.ok.inj hc, hs]

theorem handleClose_disconnected {p p' : Polled} {d : Dispatch ℕ} (h : p.handleClose d = .ok p') :
    p'.connection.state = .kDisconnected := by
  simp only [handleClose, disconnect, bind_eq_ok, TcpConnection.handleClose, require_eq_ok] at h
  obtain ⟨q, ⟨c, ⟨-, -, hc⟩, hq⟩, h⟩ := h
  refine connectDestroyed_disconnected ?_ h
  rw [(become_connection hq).1, ← Except.ok.inj hc]

end Polled

theorem Live.become {p p' : Polled} {c : TcpConnection} {updated : Bool} (hl : Live p)
    (hk : KeepsUp p.connection c) (h : p.become c updated = .ok p') : Live p' := by
  have hstate : c.state = .kConnected ∨ c.state = .kDisconnecting := by
    rcases hk.1 with hs | ⟨-, hs⟩
    · rw [hs]
      exact hl.state
    · exact Or.inr hs
  have hreading := hk.2 hl.reading
  unfold Polled.become at h
  split_ifs at h with hu
  · simp only [bind_eq_ok, Registration.updateChannel, hl.index, require_eq_ok,
      hreading.not_isNoneEvent] at h
    obtain ⟨r, ⟨-, -, hr⟩, h⟩ := h
    rw [← Except.ok.inj h, ← Except.ok.inj hr]
    exact ⟨hstate, hreading, hl.index, hl.entry⟩
  · rw [← Except.ok.inj h]
    exact ⟨hstate, hreading, hl.index, hl.entry⟩

theorem LiveUntilClosed.become {p p' : Polled} {c : TcpConnection} {updated : Bool}
    (hl : LiveUntilClosed p) (hk : KeepsUp p.connection c) (h : p.become c updated = .ok p') :
    LiveUntilClosed p' := by
  rcases hl with hs | hl
  · left
    rw [(Polled.become_connection h).1]
    rcases hk.1 with hc | ⟨hc, -⟩
    · rw [hc, hs]
    · rw [hs] at hc
      cases hc
  · exact Or.inr (hl.become hk h)

theorem LiveUntilClosed.forceCloseInLoop {p p' : Polled} {d : Dispatch ℕ} (hl : LiveUntilClosed p)
    (h : p.forceCloseInLoop d = .ok p') : LiveUntilClosed p' := by
  unfold Polled.forceCloseInLoop at h
  split_ifs at h
  · exact Or.inl (Polled.handleClose_disconnected h)
  · rw [← Except.ok.inj h]
    exact hl

theorem LiveUntilClosed.step {p p' : Polled} {a : PolledAction} (hl : LiveUntilClosed p)
    (h : a.run p = .ok p') : LiveUntilClosed p' := by
  cases a with
  | send message inLoop r =>
    simp only [PolledAction.run, Polled.send, bind_eq_ok] at h
    obtain ⟨c, hc, h⟩ := h
    exact hl.become (TcpConnection.send_keepsUp hc) h
  | shutdown inLoop =>
    have hb : p.become (p.connection.shutdown inLoop) false = .ok p' := h
    exact hl.become (TcpConnection.shutdown_keepsUp _ _) hb
  | forceClose =>
    have hb : p.become p.connection.forceClose false = .ok p' := h
    exact hl.become (TcpConnection.forceClose_keepsUp _) hb
  | handleRead n d =>
    simp only [PolledAction.run, Polled.handleRead] at h
    split_ifs at h
    · rw [← Except.ok.inj h]
      exact hl
    · exact Or.inl (Polled.handleClose_disconnected h)
    · rw [← Except.ok.inj h]
      exact hl
  | handleWrite r =>
    simp only [PolledAction.run, Polled.handleWrite, bind_eq_ok] at h
    obtain ⟨c, hc, h⟩ := h
    exact hl.become (TcpConnection.handleWrite_keepsUp hc) h
  | forceCloseInLoop d => exact hl.forceCloseInLoop h
  | runFunctor r d =>
    simp only [PolledAction.run, Polled.runFunctor] at h
    split at h
    · refine LiveUntilClosed.forceCloseInLoop ?_ h
      exact hl.imp id fun hl => ⟨hl.state, hl.reading, hl.index, hl.entry⟩
    · rename_i hf
      simp only [bind_eq_ok] at h
      obtain ⟨c, hc, h⟩ := h
      exact hl.become (TcpConnection.runFunctor_keepsUp hf hc) h

theorem liveUntilClosed_of_reach {p : Polled} (h : polledMachine.Reach System.Free p) :
    LiveUntilClosed p := by
  refine h.invariant (I := LiveUntilClosed) ?_ ?_
  · rintro p ⟨mark, complete, high, self, hp⟩
    simp only [Polled.connectEstablished, TcpConnection.connectEstablished, bind_eq_ok,
      require_eq_ok] at hp
    obtain ⟨c, ⟨-, -, hc⟩, hp⟩ := hp
    rw [← Except.ok.inj hc] at hp
    simp only [Polled.become, if_true, Registration.updateChannel, bind_eq_ok, require_eq_ok] at hp
    obtain ⟨r, ⟨-, -, hr⟩, hp⟩ := hp
    rw [← Except.ok.inj hp, ← Except.ok.inj hr]
    exact Or.inr ⟨Or.inl rfl, Channel.reading_enableReading _, rfl, rfl⟩
  · intro p a p' hl _ hstep
    exact hl.step (toOption_eq_some.mp hstep)

/-- The call of `connectDestroyed` goes through, and leaves the connection disconnected and its
channel without events and unknown to the poller. -/
def TearsDown (p : Polled) (d : Dispatch ℕ) : Prop :=
  ∃ p', p.connectDestroyed d = .ok p' ∧ p'.connection.state = .kDisconnected ∧
    p'.connection.channel.isNoneEvent = true ∧ p'.registration = {}

theorem Live.tearsDown {p : Polled} (hl : Live p) (hs : p.connection.state = .kConnected)
    {d : Dispatch ℕ} (hd : d.AllowsRemoval p.self) : TearsDown p d := by
  let c : TcpConnection :=
    { p.connection with state := .kDisconnected, channel := p.connection.channel.disableAll }
  have hnone : c.channel.isNoneEvent = true := rfl
  have hconnection : p.connection.connectDestroyed = .ok c := by
    simp only [TcpConnection.connectDestroyed, if_pos hs]
    rfl
  have hupdate : p.registration.updateChannel p.self c.channel =
      .ok ⟨.kDeleted, some p.self, none⟩ := by
    simp [Registration.updateChannel, hl.index, hl.entry, require, hnone, Registration.delete, bind,
      Except.bind, pure, Except.pure]
  have hbecome : p.become c (decide (p.connection.state = .kConnected)) =
      .ok ⟨c, p.self, ⟨.kDeleted, some p.self, none⟩⟩ := by
    rw [decide_eq_true hs, Polled.become, if_pos rfl, hupdate]
    rfl
  have hremove : Registration.removeChannel ⟨.kDeleted, some p.self, none⟩ p.self c.channel =
      .ok {} := by
    simp [Registration.removeChannel, require, hnone, bind, Except.bind, pure, Except.pure]
  refine ⟨⟨c, p.self, {}⟩, ?_, rfl, hnone, rfl⟩
  simp only [Polled.connectDestroyed, hconnection, hbecome, hremove, require, if_pos hd, bind,
    Except.bind, pure, Except.pure]

/-- A half-closed connection keeps its events, so `Channel::remove` refuses it. -/
theorem Live.connectDestroyed_disconnecting {p : Polled} (hl : Live p)
    (hs : p.connection.state = .kDisconnecting) (d : Dispatch ℕ) :
    p.connectDestroyed d = .error .assertion := by
  have hconnection : p.connection.connectDestroyed = .error .assertion := by
    simp [TcpConnection.connectDestroyed, hs, require, hl.reading.not_isNoneEvent, bind,
      Except.bind]
  simp [Polled.connectDestroyed, hconnection, bind, Except.bind]

/-- In every run, for as long as the connection was not torn down, the server's `connectDestroyed`
tears it down exactly when it is still connected and its channel does not wait for its turn in
the events being handled. -/
theorem tearsDown_iff {p : Polled} (h : polledMachine.Reach System.Free p)
    (hup : p.connection.state ≠ .kDisconnected) (d : Dispatch ℕ) :
    TearsDown p d ↔ p.connection.state = .kConnected ∧ d.AllowsRemoval p.self := by
  have hl := (liveUntilClosed_of_reach h).resolve_left hup
  constructor
  · rintro ⟨p', hp', -⟩
    rcases hl.state with hs | hs
    · refine ⟨hs, ?_⟩
      simp only [Polled.connectDestroyed, bind_eq_ok, require_eq_ok] at hp'
      obtain ⟨c, -, q, hq, -, hd, -⟩ := hp'
      rwa [(Polled.become_connection hq).2] at hd
    · rw [hl.connectDestroyed_disconnecting hs d] at hp'
      cases hp'
  · rintro ⟨hs, hd⟩
    exact hl.tearsDown hs hd

theorem tearsDown_connected :
    ∃ p, polledMachine.Reach System.Free p ∧ TearsDown p {} := by
  obtain ⟨p, hp, hs, hself⟩ : ∃ p, polledMachine.init p ∧ p.connection.state = .kConnected ∧
      p.self = 7 := ⟨_, ⟨1, false, false, 7, rfl⟩, rfl, rfl⟩
  have hreach : polledMachine.Reach System.Free p := .init hp
  refine ⟨p, hreach, (tearsDown_iff hreach (by simp [hs]) {}).mpr ⟨hs, ?_⟩⟩
  intro h
  cases h

/-- A connection that was shut down and waits for the peer, destroyed with the server. -/
theorem halfClosed_not_tearsDown :
    ¬ ∀ p, polledMachine.Reach System.Free p → p.connection.state ≠ .kDisconnected →
      TearsDown p {} := by
  intro h
  obtain ⟨p, -, hreach, hp⟩ := System.exists_reach (M := polledMachine) (G := System.Free)
    [.shutdown true] (fun p => p.connection.state = .kDisconnecting ∧
      p.connectDestroyed {} = .error .assertion)
    (s := ⟨⟨.kConnected, ⟨3⟩, [], 0, false, false, [], []⟩, 7, ⟨.kAdded, some 7, some 3⟩⟩)
    ⟨0, false, false, 7, by decide⟩ (by decide)
  obtain ⟨hstate, hfault⟩ := of_decide_eq_true hp
  obtain ⟨p', hp', -⟩ := h p hreach (by simp [hstate])
  rw [hfault] at hp'
  cases hp'

end Mutty.Net
