import Mathlib.Data.List.Infix
import Mutty.Lib.Checked
import Mutty.Lib.Transition

/-!
# The sending side of a TCP connection

`sendInLoop` writes to the socket at once when nothing is buffered, and buffers the rest under
write interest; `handleWrite` drains the buffer and makes up for a shutdown that had to wait. The
output buffer is a byte queue. What `::write` returns is an argument of each operation. The model
keeps a history of the data passed to `sendInLoop`, of the bytes the socket took and of the calls
of `shutdownWrite`, in order.
-/

namespace Mutty.Net

open Mutty.Lib

abbrev Bytes := List UInt8

structure Channel where
  events : BitVec 32 := 0
  deriving DecidableEq, Repr

namespace Channel

def kNoneEvent : BitVec 32 := 0
def kReadEvent : BitVec 32 := 3
def kWriteEvent : BitVec 32 := 4

def isNoneEvent (ch : Channel) : Bool := ch.events = kNoneEvent
def disableAll (_ : Channel) : Channel := ⟨kNoneEvent⟩
def enableReading (ch : Channel) : Channel := ⟨ch.events ||| kReadEvent⟩
def enableWriting (ch : Channel) : Channel := ⟨ch.events ||| kWriteEvent⟩
def disableWriting (ch : Channel) : Channel := ⟨ch.events &&& ~~~ kWriteEvent⟩
def isWriting (ch : Channel) : Bool := ch.events &&& kWriteEvent ≠ 0

theorem isWriting_eq (ch : Channel) : ch.isWriting = ch.events.getLsbD 2 := by
  have hbit : ∀ b : Bool, ch.events.getLsbD 2 = b →
      ch.events &&& kWriteEvent = if b then kWriteEvent else 0 := by
    intro b hb
    ext i hi
    by_cases h2 : i = 2
    · subst h2
      cases b <;> simpa [kWriteEvent, BitVec.getLsbD_eq_getElem (show 2 < 32 by decide)] using hb
    · have h4 : kWriteEvent[i] = false := by
        revert i
        decide
      cases b <;> simp [h4]
  cases hb : ch.events.getLsbD 2 <;> simp only [isWriting, hbit _ hb] <;> decide

@[simp] theorem isWriting_enableWriting (ch : Channel) : ch.enableWriting.isWriting = true := by
  rw [isWriting_eq, enableWriting, BitVec.getLsbD_or]
  simp [kWriteEvent]

@[simp] theorem isWriting_disableWriting (ch : Channel) : ch.disableWriting.isWriting = false := by
  rw [isWriting_eq, disableWriting, BitVec.getLsbD_and]
  simp [kWriteEvent]

@[simp] theorem isWriting_enableReading (ch : Channel) :
    ch.enableReading.isWriting = ch.isWriting := by
  rw [isWriting_eq, isWriting_eq, enableReading, BitVec.getLsbD_or]
  simp [kReadEvent]

end Channel

inductive StateE
  | kDisconnected | kConnecting | kConnected | kDisconnecting
  deriving DecidableEq, Repr

inductive Errno
  | EWOULDBLOCK | EPIPE | ECONNRESET
  | other (code : ℕ)
  deriving DecidableEq, Repr

/-- The result of `::write`: the number of bytes taken, or `-1` and `errno`. -/
inductive WriteResult
  | wrote (n : ℕ)
  | failed (errno : Errno)
  deriving DecidableEq, Repr

/-- What the connection hands to the event loop with `queueInLoop`. -/
inductive Functor
  | writeComplete
  | highWaterMark (size : ℕ)
  | sendInLoop (message : Bytes)
  | shutdownInLoop
  | forceCloseInLoop
  deriving DecidableEq, Repr

inductive SocketEvent
  | sendInLoop (data : Bytes)
  | wrote (bytes : Bytes)
  | shutdownWrite
  deriving DecidableEq, Repr

structure TcpConnection where
  state : StateE := .kConnecting
  channel : Channel := {}
  outputBuffer : Bytes := []
  highWaterMark : ℕ := 64 * 1024 * 1024
  /-- Whether the two callbacks are set. -/
  writeCompleteCallback : Bool := false
  highWaterMarkCallback : Bool := false
  functors : List Functor := []
  history : List SocketEvent := []
  deriving DecidableEq, Repr

namespace TcpConnection

def record (c : TcpConnection) (e : SocketEvent) : TcpConnection :=
  { c with history := c.history ++ [e] }

def queueInLoop (c : TcpConnection) (f : Functor) : TcpConnection :=
  { c with functors := c.functors ++ [f] }

/-- A callback is queued where it is set and its condition holds. -/
def queueInLoopIf (c : TcpConnection) (p : Bool) (f : Functor) : TcpConnection :=
  if p then c.queueInLoop f else c

/-- What `sendInLoop` knows after its attempt to write: `nwrote`, `remaining`, `faultError`. -/
structure Attempt where
  connection : TcpConnection
  nwrote : ℕ
  remaining : ℕ
  faultError : Bool

/-- The attempt to write directly. `::write` takes at most `len` bytes, so the subtraction of the
unsigned `remaining` does not wrap. -/
def tryWrite (c : TcpConnection) (data : Bytes) (r : WriteResult) : Attempt :=
  if ¬ c.channel.isWriting ∧ c.outputBuffer.length = 0 then
    match r with
    | .wrote n =>
      let c := c.record (.wrote (data.take n))
      let remaining := data.length - n
      ⟨c.queueInLoopIf (remaining = 0 && c.writeCompleteCallback) .writeComplete, n, remaining,
        false⟩
    | .failed errno =>
      ⟨c, 0, data.length, errno ≠ .EWOULDBLOCK ∧ (errno = .EPIPE ∨ errno = .ECONNRESET)⟩
  else ⟨c, 0, data.length, false⟩

/-- `outputBuffer_.writeBytes` after the high-water mark was checked, then write interest. -/
def bufferOutput (c : TcpConnection) (bytes : Bytes) : TcpConnection :=
  let oldLen := c.outputBuffer.length
  let c := c.queueInLoopIf (oldLen + bytes.length ≥ c.highWaterMark && oldLen < c.highWaterMark &&
    c.highWaterMarkCallback) (.highWaterMark (oldLen + bytes.length))
  let c := { c with outputBuffer := c.outputBuffer ++ bytes }
  if ¬ c.channel.isWriting then { c with channel := c.channel.enableWriting } else c

def sendInLoop (c : TcpConnection) (data : Bytes) (r : WriteResult) : Checked TcpConnection :=
  let c := c.record (.sendInLoop data)
  if c.state = .kDisconnected then return c
  else do
    let a := c.tryWrite data r
    require (a.remaining ≤ data.length)
    if ¬ a.faultError ∧ a.remaining > 0 then
      return a.connection.bufferOutput ((data.drop a.nwrote).take a.remaining)
    else return a.connection

def shutdownInLoop (c : TcpConnection) : TcpConnection :=
  if ¬ c.channel.isWriting then c.record .shutdownWrite else c

/-- `send`; `inLoop` says whether the caller is the loop thread. -/
def send (c : TcpConnection) (message : Bytes) (inLoop : Bool) (r : WriteResult) :
    Checked TcpConnection :=
  if c.state = .kConnected then
    if inLoop then c.sendInLoop message r else return c.queueInLoop (.sendInLoop message)
  else return c

def shutdown (c : TcpConnection) (inLoop : Bool) : TcpConnection :=
  if c.state = .kConnected then
    let c := { c with state := .kDisconnecting }
    if inLoop then c.shutdownInLoop else c.queueInLoop .shutdownInLoop
  else c

def retrieve (c : TcpConnection) (n : ℕ) : TcpConnection :=
  { c with
    history := c.history ++ [.wrote (c.outputBuffer.take n)]
    outputBuffer := c.outputBuffer.drop n }

/-- The part of `handleWrite` for an output buffer that has become empty. -/
def outputDrained (c : TcpConnection) : TcpConnection :=
  let c := { c with channel := c.channel.disableWriting }
  let c := c.queueInLoopIf c.writeCompleteCallback .writeComplete
  if c.state = .kDisconnecting then c.shutdownInLoop else c

def handleWrite (c : TcpConnection) (r : WriteResult) : Checked TcpConnection :=
  if c.channel.isWriting then
    match r with
    | .wrote n =>
      if n > 0 then do
        require (n ≤ c.outputBuffer.length)
        let c := c.retrieve n
        return if c.outputBuffer.length = 0 then c.outputDrained else c
      else return c
    | .failed _ => return c
  else return c

def connectEstablished (c : TcpConnection) : Checked TcpConnection := do
  require (c.state = .kConnecting)
  return { c with state := .kConnected, channel := c.channel.enableReading }

def handleClose (c : TcpConnection) : Checked TcpConnection := do
  require (c.state = .kConnected ∨ c.state = .kDisconnecting)
  return { c with state := .kDisconnected, channel := c.channel.disableAll }

def forceClose (c : TcpConnection) : TcpConnection :=
  if c.state = .kConnected ∨ c.state = .kDisconnecting then
    { c with state := .kDisconnecting }.queueInLoop .forceCloseInLoop
  else c

def forceCloseInLoop (c : TcpConnection) : Checked TcpConnection :=
  if c.state = .kConnected ∨ c.state = .kDisconnecting then c.handleClose else return c

/-- `connectDestroyed`; `channel_->remove()` asserts that the channel has no interest left. -/
def connectDestroyed (c : TcpConnection) : Checked TcpConnection := do
  let c := if c.state = .kConnected then
    { c with state := .kDisconnected, channel := c.channel.disableAll } else c
  require (c.channel.isNoneEvent)
  return c

/-- The loop runs the functor that was queued first. The two user callbacks act on the connection
through its operations only. -/
def runFunctor (c : TcpConnection) (r : WriteResult) : Checked TcpConnection :=
  match c.functors with
  | [] => return c
  | f :: rest =>
    let c := { c with functors := rest }
    match f with
    | .writeComplete => return c
    | .highWaterMark _ => return c
    | .sendInLoop message => c.sendInLoop message r
    | .shutdownInLoop => return c.shutdownInLoop
    | .forceCloseInLoop => c.forceCloseInLoop

end TcpConnection

/-! ## Runs -/

/-- What happens on the loop thread, and what other threads ask for. -/
inductive ConnectionAction
  | connectEstablished
  | send (message : Bytes) (inLoop : Bool) (r : WriteResult)
  | sendInLoop (data : Bytes) (r : WriteResult)
  | shutdown (inLoop : Bool)
  | handleWrite (r : WriteResult)
  | runFunctor (r : WriteResult)
  | forceClose
  | handleClose
  | connectDestroyed
  deriving DecidableEq, Repr

def ConnectionAction.run (c : TcpConnection) : ConnectionAction → Checked TcpConnection
  | .connectEstablished => c.connectEstablished
  | .send message inLoop r => c.send message inLoop r
  | .sendInLoop data r => c.sendInLoop data r
  | .shutdown inLoop => return c.shutdown inLoop
  | .handleWrite r => c.handleWrite r
  | .runFunctor r => c.runFunctor r
  | .forceClose => return c.forceClose
  | .handleClose => c.handleClose
  | .connectDestroyed => c.connectDestroyed

/-- A new connection, with any callbacks and high-water mark. -/
def connectionMachine : System TcpConnection ConnectionAction where
  init c := ∃ mark complete high, c = ⟨.kConnecting, {}, [], mark, complete, high, [], []⟩
  step c a := (a.run c).toOption

/-- `::write` of `len` bytes takes at most `len`, or fails. -/
def WriteResult.Fits (len : ℕ) : WriteResult → Prop
  | .wrote n => n ≤ len
  | .failed _ => True

/-- `::write` of `len` bytes takes at most `len`, or fails without the peer being gone. -/
def WriteResult.Possible (len : ℕ) : WriteResult → Prop
  | .wrote n => n ≤ len
  | .failed errno => errno ≠ .EPIPE ∧ errno ≠ .ECONNRESET

instance (len : ℕ) (r : WriteResult) : Decidable (r.Possible len) :=
  match r with
  | .wrote n => inferInstanceAs (Decidable (n ≤ len))
  | .failed errno => inferInstanceAs (Decidable (errno ≠ .EPIPE ∧ errno ≠ .ECONNRESET))

/-- The number of bytes an action passes to `::write`, if it gets there. -/
def ConnectionAction.write (c : TcpConnection) : ConnectionAction → Option (ℕ × WriteResult)
  | .send message _ r => some (message.length, r)
  | .sendInLoop data r => some (data.length, r)
  | .handleWrite r => some (c.outputBuffer.length, r)
  | .runFunctor r =>
    match c.functors with
    | .sendInLoop message :: _ => some (message.length, r)
    | _ => none
  | _ => none

def PossibleWrites (c : TcpConnection) (a : ConnectionAction) : Prop :=
  ∀ w ∈ a.write c, w.2.Possible w.1

instance (c : TcpConnection) (a : ConnectionAction) : Decidable (PossibleWrites c a) :=
  inferInstanceAs (Decidable (∀ w ∈ a.write c, w.2.Possible w.1))

/-! ## The stream -/

def sent (h : List SocketEvent) : Bytes :=
  h.flatMap fun e =>
    match e with
    | .sendInLoop data => data
    | _ => []

def accepted (h : List SocketEvent) : Bytes :=
  h.flatMap fun e =>
    match e with
    | .wrote bytes => bytes
    | _ => []

/-- Stream integrity: nothing is lost, repeated or reordered between `sendInLoop` and the socket,
write interest is there for exactly the buffered bytes, and the write side was only ever shut down
with everything delivered. -/
structure Intact (c : TcpConnection) : Prop where
  stream : accepted c.history ++ c.outputBuffer = sent c.history
  writing : c.channel.isWriting = true ↔ c.outputBuffer ≠ []
  shutdowns : ∀ before, before ++ [.shutdownWrite] <+: c.history → accepted before = sent before

@[simp] theorem sent_append (h k : List SocketEvent) : sent (h ++ k) = sent h ++ sent k := by
  simp [sent]

@[simp] theorem accepted_append (h k : List SocketEvent) :
    accepted (h ++ k) = accepted h ++ accepted k := by
  simp [accepted]

@[simp] theorem sent_sendInLoop (data : Bytes) : sent [.sendInLoop data] = data := by simp [sent]
@[simp] theorem sent_wrote (bytes : Bytes) : sent [.wrote bytes] = [] := rfl
@[simp] theorem sent_shutdownWrite : sent [.shutdownWrite] = [] := rfl
@[simp] theorem accepted_sendInLoop (data : Bytes) : accepted [.sendInLoop data] = [] := rfl
@[simp] theorem accepted_wrote (bytes : Bytes) : accepted [.wrote bytes] = bytes := by
  simp [accepted]
@[simp] theorem accepted_shutdownWrite : accepted [.shutdownWrite] = [] := rfl

def ShutdownsDrained (h : List SocketEvent) : Prop :=
  ∀ before, before ++ [.shutdownWrite] <+: h → accepted before = sent before

theorem ShutdownsDrained.record {h : List SocketEvent} (hd : ShutdownsDrained h)
    {e : SocketEvent} (he : e ≠ .shutdownWrite) : ShutdownsDrained (h ++ [e]) := by
  intro before hb
  rcases List.prefix_concat_iff.mp hb with heq | hb
  · obtain ⟨-, hlast⟩ := List.append_inj' heq rfl
    exact absurd (by simpa using hlast.symm) he
  · exact hd before hb

theorem ShutdownsDrained.shutdown {h : List SocketEvent} (hd : ShutdownsDrained h)
    (hall : accepted h = sent h) : ShutdownsDrained (h ++ [.shutdownWrite]) := by
  intro before hb
  rcases List.prefix_concat_iff.mp hb with heq | hb
  · obtain ⟨rfl, -⟩ := List.append_inj' heq rfl
    exact hall
  · exact hd before hb

namespace TcpConnection

variable (c : TcpConnection) (p : Bool) (f : Functor) (e : SocketEvent)

@[simp] theorem record_state : (c.record e).state = c.state := rfl
@[simp] theorem record_channel : (c.record e).channel = c.channel := rfl
@[simp] theorem record_outputBuffer : (c.record e).outputBuffer = c.outputBuffer := rfl
@[simp] theorem record_history : (c.record e).history = c.history ++ [e] := rfl

@[simp] theorem queueInLoopIf_state : (c.queueInLoopIf p f).state = c.state := by
  cases p <;> rfl

@[simp] theorem queueInLoopIf_channel : (c.queueInLoopIf p f).channel = c.channel := by
  cases p <;> rfl

@[simp] theorem queueInLoopIf_outputBuffer :
    (c.queueInLoopIf p f).outputBuffer = c.outputBuffer := by
  cases p <;> rfl

@[simp] theorem queueInLoopIf_history : (c.queueInLoopIf p f).history = c.history := by
  cases p <;> rfl

@[simp] theorem shutdownInLoop_state : c.shutdownInLoop.state = c.state := by
  unfold shutdownInLoop
  split_ifs <;> rfl

@[simp] theorem retrieve_state (n : ℕ) : (c.retrieve n).state = c.state := rfl

@[simp] theorem outputDrained_state : c.outputDrained.state = c.state := by
  unfold outputDrained
  dsimp only
  split_ifs <;> simp

theorem handleWrite_failed (c : TcpConnection) (errno : Errno) : c.handleWrite (.failed errno) = .ok c := by
  unfold handleWrite
  split_ifs <;> rfl

theorem handleWrite_cases {c c' : TcpConnection} {r : WriteResult}
    (h : c.handleWrite r = .ok c') :
    c' = c ∨ ∃ n, c.channel.isWriting = true ∧ c' =
      if (c.retrieve n).outputBuffer.length = 0 then (c.retrieve n).outputDrained
      else c.retrieve n := by
  unfold handleWrite at h
  by_cases hw : c.channel.isWriting = true
  · rw [if_pos hw] at h
    cases r with
    | failed errno => exact Or.inl (Except.ok.inj h).symm
    | wrote n =>
      dsimp only at h
      by_cases hn : n > 0
      · rw [if_pos hn] at h
        simp only [bind_eq_ok, require_eq_ok] at h
        obtain ⟨-, -, h⟩ := h
        exact Or.inr ⟨n, hw, (Except.ok.inj h).symm⟩
      · rw [if_neg hn] at h
        exact Or.inl (Except.ok.inj h).symm
  · rw [if_neg hw] at h
    exact Or.inl (Except.ok.inj h).symm

theorem handleWrite_state {c c' : TcpConnection} {r : WriteResult}
    (h : c.handleWrite r = .ok c') : c'.state = c.state := by
  rcases handleWrite_cases h with rfl | ⟨n, -, rfl⟩
  · rfl
  · split_ifs <;> simp

end TcpConnection

open TcpConnection

variable {c c' : TcpConnection}

theorem Intact.congr (h : Intact c) (hh : c'.history = c.history)
    (ho : c'.outputBuffer = c.outputBuffer) (hw : c'.channel.isWriting = c.channel.isWriting) :
    Intact c' := by
  refine ⟨?_, ?_, ?_⟩
  · rw [hh, ho]
    exact h.stream
  · rw [hw, ho]
    exact h.writing
  · rw [hh]
    exact h.shutdowns

theorem Intact.shutdownInLoop (h : Intact c) : Intact c.shutdownInLoop := by
  unfold TcpConnection.shutdownInLoop
  by_cases hw : c.channel.isWriting = true
  · rw [if_neg (not_not.mpr hw)]
    exact h
  · rw [if_pos hw]
    have hempty : c.outputBuffer = [] := by
      by_contra hne
      exact hw (h.writing.mpr hne)
    have hall : accepted c.history = sent c.history := by simpa [hempty] using h.stream
    refine ⟨?_, h.writing, ShutdownsDrained.shutdown h.shutdowns hall⟩
    simpa [record] using h.stream

theorem bufferOutput_fields (c : TcpConnection) (bytes : Bytes) :
    (c.bufferOutput bytes).history = c.history ∧
      (c.bufferOutput bytes).outputBuffer = c.outputBuffer ++ bytes ∧
      (c.bufferOutput bytes).channel.isWriting = true := by
  unfold bufferOutput
  dsimp only
  split_ifs <;> simp_all

/-- An attempt to write: the socket takes a prefix of the data, and takes anything only when the
buffer is empty. -/
structure Attempted (c : TcpConnection) (data : Bytes) (a : Attempt) : Prop where
  nwrote : a.nwrote ≤ data.length
  remaining : a.remaining = data.length - a.nwrote
  noFault : a.faultError = false
  direct : a.nwrote ≠ 0 → c.outputBuffer = []
  buffer : a.connection.outputBuffer = c.outputBuffer
  channel : a.connection.channel = c.channel
  accepted : accepted a.connection.history = accepted c.history ++ data.take a.nwrote
  sent : sent a.connection.history = sent c.history
  drained : ShutdownsDrained c.history → ShutdownsDrained a.connection.history

theorem tryWrite_attempted {data : Bytes} {r : WriteResult} (hr : r.Possible data.length) :
    Attempted c data (c.tryWrite data r) := by
  by_cases hdirect : ¬ c.channel.isWriting ∧ c.outputBuffer.length = 0
  · have hempty : c.outputBuffer = [] := List.eq_nil_of_length_eq_zero hdirect.2
    cases r with
    | wrote n =>
      simp only [tryWrite, if_pos hdirect]
      refine ⟨hr, rfl, rfl, fun _ => hempty, ?_, ?_, ?_, ?_, fun hd => ?_⟩
      · simp
      · simp
      · simp
      · simp
      · simpa using hd.record (by simp)
    | failed errno =>
      have hbenign : ¬ (errno ≠ .EWOULDBLOCK ∧ (errno = .EPIPE ∨ errno = .ECONNRESET)) := by
        rintro ⟨-, he | he⟩
        · exact hr.1 he
        · exact hr.2 he
      simp only [tryWrite, if_pos hdirect]
      exact ⟨Nat.zero_le _, rfl, decide_eq_false hbenign, fun h => absurd rfl h, rfl, rfl,
        by simp, rfl, id⟩
  · simp only [tryWrite, if_neg hdirect]
    exact ⟨Nat.zero_le _, rfl, rfl, fun h => absurd rfl h, rfl, rfl, by simp, rfl, id⟩

/-- What was taken, then what is buffered, then the rest: the data behind what was there. -/
theorem Attempted.stream {data : Bytes} {a : Attempt} (h : Attempted c data a) :
    data.take a.nwrote ++ (c.outputBuffer ++ data.drop a.nwrote) = c.outputBuffer ++ data := by
  by_cases hn : a.nwrote = 0
  · simp [hn]
  · simp [h.direct hn]

theorem Intact.sendInLoop {data : Bytes} {r : WriteResult} (hi : Intact c)
    (hr : r.Possible data.length) (hs : c.state ≠ .kDisconnected)
    (h : c.sendInLoop data r = .ok c') : Intact c' := by
  have hs' : (c.record (.sendInLoop data)).state ≠ .kDisconnected := hs
  unfold TcpConnection.sendInLoop at h
  rw [if_neg hs'] at h
  simp only [bind_eq_ok, require_eq_ok] at h
  obtain ⟨-, -, h⟩ := h
  have ha := tryWrite_attempted (c := c.record (.sendInLoop data)) hr
  generalize (c.record (.sendInLoop data)).tryWrite data r = a at h ha
  have hdrained : ShutdownsDrained a.connection.history :=
    ha.drained (ShutdownsDrained.record hi.shutdowns (by simp))
  have hsent : sent a.connection.history = sent c.history ++ data := by
    rw [ha.sent]
    simp [record]
  have haccepted : accepted a.connection.history = accepted c.history ++ data.take a.nwrote := by
    rw [ha.accepted]
    simp [record]
  have hbuffer : a.connection.outputBuffer = c.outputBuffer := ha.buffer
  have hchannel : a.connection.channel = c.channel := ha.channel
  have hstream : data.take a.nwrote ++ (c.outputBuffer ++ data.drop a.nwrote) =
      c.outputBuffer ++ data := ha.stream
  have hrest := ha.remaining
  by_cases hmore : a.remaining > 0
  · rw [if_pos ⟨by simp [ha.noFault], hmore⟩] at h
    have hall : (data.drop a.nwrote).take a.remaining = data.drop a.nwrote := by
      rw [hrest]
      exact List.take_of_length_le (by simp)
    have hc' : a.connection.bufferOutput (data.drop a.nwrote) = c' := by
      rw [← hall]
      exact Except.ok.inj h
    obtain ⟨hh, ho, hw⟩ := bufferOutput_fields a.connection (data.drop a.nwrote)
    rw [hc'] at hh ho hw
    have hne : data.drop a.nwrote ≠ [] := by
      rw [Ne, List.drop_eq_nil_iff]
      omega
    refine ⟨?_, ?_, ?_⟩
    · rw [hh, ho, hsent, haccepted, hbuffer, List.append_assoc, hstream, ← List.append_assoc,
        hi.stream]
    · simp [hw, ho, hne]
    · rw [hh]
      exact hdrained
  · rw [if_neg (by simp [hmore])] at h
    obtain rfl : a.connection = c' := Except.ok.inj h
    have hdrop : data.drop a.nwrote = [] := by
      rw [List.drop_eq_nil_iff]
      omega
    refine ⟨?_, ?_, hdrained⟩
    · rw [hdrop, List.append_nil] at hstream
      rw [hsent, haccepted, hbuffer, List.append_assoc, hstream, ← List.append_assoc, hi.stream]
    · rw [hchannel, hbuffer]
      exact hi.writing

theorem Intact.queueInLoopIf (hi : Intact c) (p : Bool) (f : Functor) :
    Intact (c.queueInLoopIf p f) :=
  hi.congr (by simp) (by simp) (by simp)

/-- A buffer that has become empty: interest is given up, then the shutdown is made up for. -/
theorem Intact.outputDrained (hs : accepted c.history ++ c.outputBuffer = sent c.history)
    (hempty : c.outputBuffer = []) (hd : ShutdownsDrained c.history) : Intact c.outputDrained := by
  have hbase : Intact { c with channel := c.channel.disableWriting } :=
    ⟨hs, by simp [hempty], hd⟩
  have hqueued := hbase.queueInLoopIf c.writeCompleteCallback .writeComplete
  unfold TcpConnection.outputDrained
  dsimp only
  split_ifs
  · exact hqueued.shutdownInLoop
  · exact hqueued

theorem Intact.handleWrite {r : WriteResult} (hi : Intact c) (h : c.handleWrite r = .ok c') :
    Intact c' := by
  rcases handleWrite_cases h with rfl | ⟨n, hw, rfl⟩
  · exact hi
  · have hdrained : ShutdownsDrained (c.retrieve n).history :=
      ShutdownsDrained.record hi.shutdowns (by simp)
    have hstream : accepted (c.retrieve n).history ++ (c.retrieve n).outputBuffer =
        sent (c.retrieve n).history := by
      simpa [retrieve] using hi.stream
    split_ifs with hempty
    · exact Intact.outputDrained hstream (List.eq_nil_of_length_eq_zero hempty) hdrained
    · have hne : (c.retrieve n).outputBuffer ≠ [] := fun hnil => hempty (by simp [hnil])
      exact ⟨hstream, iff_of_true hw hne, hdrained⟩

def Up (c : TcpConnection) : Prop := c.state ≠ .kDisconnected → Intact c

theorem Up.shutdown (hu : Up c) (inLoop : Bool) : Up (c.shutdown inLoop) := by
  intro hs
  unfold TcpConnection.shutdown at hs ⊢
  split_ifs at hs ⊢ with hc hl
  · have hi : Intact { c with state := .kDisconnecting } :=
      Intact.congr (hu (by simp [hc])) rfl rfl rfl
    exact hi.shutdownInLoop
  · exact Intact.congr (hu (by simp [hc])) rfl rfl rfl
  · exact hu hs

theorem Up.sendInLoop {data : Bytes} {r : WriteResult} (hu : Up c)
    (hr : r.Possible data.length) (h : c.sendInLoop data r = .ok c') : Up c' := by
  intro hs'
  by_cases hs : c.state = .kDisconnected
  · -- the data is given up
    unfold TcpConnection.sendInLoop at h
    rw [if_pos (show (c.record (.sendInLoop data)).state = .kDisconnected from hs)] at h
    rw [← Except.ok.inj h] at hs'
    exact absurd hs hs'
  · exact (hu hs).sendInLoop hr hs h

theorem Up.handleClose (h : c.handleClose = .ok c') : Up c' := by
  simp only [TcpConnection.handleClose, bind_eq_ok, require_eq_ok] at h
  obtain ⟨-, -, h⟩ := h
  rw [← Except.ok.inj h]
  exact fun hs => absurd rfl hs

theorem Up.forceCloseInLoop (hu : Up c) (h : c.forceCloseInLoop = .ok c') : Up c' := by
  unfold TcpConnection.forceCloseInLoop at h
  split_ifs at h with hs
  · exact Up.handleClose h
  · rw [← Except.ok.inj h]
    exact hu

theorem Up.handleWrite {r : WriteResult} (hu : Up c) (h : c.handleWrite r = .ok c') : Up c' := by
  intro hs
  rw [handleWrite_state h] at hs
  exact (hu hs).handleWrite h

theorem Up.runFunctor {r : WriteResult} (hu : Up c)
    (hr : PossibleWrites c (.runFunctor r)) (h : c.runFunctor r = .ok c') : Up c' := by
  unfold TcpConnection.runFunctor at h
  cases hf : c.functors with
  | nil =>
    simp only [hf] at h
    rw [← Except.ok.inj h]
    exact hu
  | cons f rest =>
    have hrest : Up { c with functors := rest } := fun hs => Intact.congr (hu hs) rfl rfl rfl
    simp only [hf] at h
    cases f with
    | writeComplete =>
      rw [← Except.ok.inj h]
      exact hrest
    | highWaterMark size =>
      rw [← Except.ok.inj h]
      exact hrest
    | sendInLoop message =>
      exact hrest.sendInLoop (hr (message.length, r) (by simp [ConnectionAction.write, hf])) h
    | shutdownInLoop =>
      rw [← Except.ok.inj h]
      intro hs
      rw [shutdownInLoop_state] at hs
      exact (hrest hs).shutdownInLoop
    | forceCloseInLoop => exact hrest.forceCloseInLoop h

theorem Up.send {message : Bytes} {inLoop : Bool} {r : WriteResult} (hu : Up c)
    (hr : r.Possible message.length) (h : c.send message inLoop r = .ok c') : Up c' := by
  unfold TcpConnection.send at h
  split_ifs at h with hs hl
  · exact hu.sendInLoop hr h
  · rw [← Except.ok.inj h]
    exact fun hs => Intact.congr (hu hs) rfl rfl rfl
  · rw [← Except.ok.inj h]
    exact hu

theorem Up.connectEstablished (hu : Up c) (h : c.connectEstablished = .ok c') : Up c' := by
  simp only [TcpConnection.connectEstablished, bind_eq_ok, require_eq_ok] at h
  obtain ⟨-, hs, h⟩ := h
  rw [← Except.ok.inj h]
  exact fun _ => Intact.congr (hu (by simp [hs])) rfl rfl (by simp)

theorem Up.forceClose (hu : Up c) : Up c.forceClose := by
  unfold TcpConnection.forceClose
  split_ifs with hs
  · intro _
    refine Intact.congr (hu ?_) rfl rfl rfl
    rcases hs with hs | hs <;> simp [hs]
  · exact hu

theorem Up.connectDestroyed (hu : Up c) (h : c.connectDestroyed = .ok c') : Up c' := by
  simp only [TcpConnection.connectDestroyed, bind_eq_ok, require_eq_ok] at h
  obtain ⟨-, -, h⟩ := h
  rw [← Except.ok.inj h]
  split_ifs with hs
  · exact fun hd => absurd rfl hd
  · exact hu

theorem Up.step {a : ConnectionAction} (hu : Up c) (hg : PossibleWrites c a)
    (h : a.run c = .ok c') : Up c' := by
  cases a with
  | connectEstablished => exact hu.connectEstablished h
  | send message inLoop r => exact hu.send (hg _ rfl) h
  | sendInLoop data r => exact hu.sendInLoop (hg _ rfl) h
  | shutdown inLoop =>
    rw [← Except.ok.inj h]
    exact hu.shutdown inLoop
  | handleWrite r => exact hu.handleWrite h
  | runFunctor r => exact hu.runFunctor hg h
  | forceClose =>
    rw [← Except.ok.inj h]
    exact hu.forceClose
  | handleClose => exact Up.handleClose h
  | connectDestroyed => exact hu.connectDestroyed h

/-- In every run the stream is intact in every state in which the connection is up or shutting
down. -/
theorem stream_intact (h : System.Reach connectionMachine PossibleWrites c)
    (hs : c.state = .kConnected ∨ c.state = .kDisconnecting) : Intact c := by
  have hu : Up c := by
    refine System.Reach.invariant (I := Up) ?_ ?_ h
    · rintro d ⟨mark, complete, high, rfl⟩ -
      refine ⟨rfl, by simp [Channel.isWriting], ?_⟩
      intro before hb
      simp at hb
    · intro d a d' hd hg hstep
      exact hd.step hg (toOption_eq_some.mp hstep)
  refine hu ?_
  rcases hs with hs | hs <;> simp [hs]

/-- A partial write, a shutdown that has to wait, and the event that drains the buffer. -/
theorem stream_intact_after_shutdown :
    ∃ c, System.Reach connectionMachine PossibleWrites c ∧
      c.history = [.sendInLoop [1, 2, 3], .wrote [1], .wrote [2, 3], .shutdownWrite] ∧
      c.state = .kDisconnecting ∧ Intact c := by
  obtain ⟨c, -, hreach, hp⟩ := System.exists_reach (M := connectionMachine) (G := PossibleWrites)
    [.connectEstablished, .sendInLoop [1, 2, 3] (.wrote 1), .shutdown true, .handleWrite (.wrote 2)]
    (fun c => c.history = [.sendInLoop [1, 2, 3], .wrote [1], .wrote [2, 3], .shutdownWrite] ∧
      c.state = .kDisconnecting)
    (s := {}) ⟨_, _, _, rfl⟩ (by decide)
  obtain ⟨hhistory, hstate⟩ := of_decide_eq_true hp
  exact ⟨c, hreach, hhistory, hstate, stream_intact hreach (Or.inr hstate)⟩

theorem tryWrite_remaining_le (c : TcpConnection) (data : Bytes) (r : WriteResult) :
    (c.tryWrite data r).remaining ≤ data.length := by
  unfold TcpConnection.tryWrite
  split_ifs
  · cases r with
    | wrote n => exact Nat.sub_le _ _
    | failed errno => exact le_rfl
  · exact le_rfl

/-- Sending and handling a write event trip no assert, neither the one on `remaining` nor the one of
`retrieve`, whether `::write` fails or takes a part. -/
theorem sending_ok (c : TcpConnection) (data : Bytes) (r : WriteResult) :
    (r.Fits data.length → ∃ c', c.sendInLoop data r = .ok c') ∧
      (r.Fits c.outputBuffer.length → ∃ c', c.handleWrite r = .ok c') := by
  constructor
  · intro _
    unfold TcpConnection.sendInLoop
    dsimp only
    rw [require, if_pos (tryWrite_remaining_le _ data r)]
    split_ifs <;> exact ⟨_, rfl⟩
  · intro hr
    unfold TcpConnection.handleWrite
    cases r with
    | failed errno => split_ifs <;> exact ⟨_, rfl⟩
    | wrote n =>
      have hle : n ≤ c.outputBuffer.length := hr
      dsimp only
      rw [require, if_pos hle]
      split_ifs <;> exact ⟨_, rfl⟩

end Mutty.Net
