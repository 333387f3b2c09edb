import Mutty.Net.Reactor
import Mutty.Net.ServerTeardown

/-!
# The turn of one connection

`handleEventWithGuard` looks at the events the kernel has reported and calls up to three callbacks of
the connection one after the other, whatever the first of them has done. A hangup without data
closes the connection; a read that follows and finds the end of the stream closes it again, which
`handleClose` asserts against.
-/

namespace Mutty.Net

open Mutty.Lib

/-- What the message callback may do with the connection, on the loop's thread. -/
inductive UserCall
  | send (message : Bytes)
  | shutdown
  | forceClose
  deriving DecidableEq, Repr

/-- `(revents_ & POLLHUP) && !(revents_ & POLLIN)` -/
def Hangup (revents : BitVec 32) : Prop := revents &&& POLLHUP ≠ 0 ∧ ¬ revents &&& POLLIN ≠ 0

/-- `revents_ & (POLLIN | POLLPRI | POLLRDHUP)` -/
def Readable (revents : BitVec 32) : Prop := revents &&& (POLLIN ||| POLLPRI ||| POLLRDHUP) ≠ 0

instance (revents : BitVec 32) : Decidable (Hangup revents) := inferInstanceAs (Decidable (_ ∧ _))

instance (revents : BitVec 32) : Decidable (Readable revents) := inferInstanceAs (Decidable (_ ≠ _))

namespace Polled

def userCall (write : Bytes → WriteResult) (p : Polled) : UserCall → Checked Polled
  | .send message => p.send message true (write message)
  | .shutdown => p.shutdown true
  | .forceClose => p.forceClose

def when (p : Polled) (b : Prop) [Decidable b] (callback : Polled → Checked Polled) :
    Checked Polled :=
  if b then callback p else return p

/-- `handleRead` for the value that `readFd` returned, with the message callback. -/
def readCallback (p : Polled) (n : ℤ) (calls : List UserCall) (write : Bytes → WriteResult)
    (d : Dispatch ℕ) : Checked Polled :=
  if n > 0 then calls.foldlM (userCall write) p else p.handleRead n d

/-- The error callback reads the error of the socket and changes nothing. -/
def handleEventWithGuard (p : Polled) (revents : BitVec 32) (n : ℤ) (calls : List UserCall)
    (write : Bytes → WriteResult) (d : Dispatch ℕ) : Checked Polled := do
  let p ← p.when (Hangup revents) fun p => p.handleClose d
  let p ← p.when (Readable revents) fun p => p.readCallback n calls write d
  p.when (revents &&& POLLOUT ≠ 0) fun p => p.handleWrite (write p.connection.outputBuffer)

structure Closed (p : Polled) : Prop where
  state : p.connection.state = .kDisconnected
  quiet : p.connection.channel.isWriting = false
  registration : p.registration = {}

variable {p p' : Polled} {write : Bytes → WriteResult} {d : Dispatch ℕ}

theorem become_of_live {c : TcpConnection} (hl : Live p) (hk : KeepsUp p.connection c)
    (updated : Bool) : ∃ p', p.become c updated = .ok p' ∧ Live p' ∧ p'.self = p.self := by
  have hok : ∃ p', p.become c updated = .ok p' := by
    unfold become
    cases updated with
    | false => exact ⟨_, rfl⟩
    | true =>
      have hnone := (hk.2 hl.reading).not_isNoneEvent
      simp [Registration.updateChannel, hl.index, hl.entry, require, hnone, bind, Except.bind, pure,
        Except.pure]
  obtain ⟨p', hp'⟩ := hok
  exact ⟨p', hp', hl.become hk hp', (become_connection hp').2⟩

theorem userCall_of_live (hl : Live p) (hw : ∀ data, (write data).Fits data.length)
    (x : UserCall) : ∃ p', p.userCall write x = .ok p' ∧ Live p' ∧ p'.self = p.self := by
  cases x with
  | send message =>
    obtain ⟨c, hc⟩ : ∃ c, p.connection.send message true (write message) = .ok c := by
      unfold TcpConnection.send
      by_cases hs : p.connection.state = .kConnected
      · rw [if_pos hs, if_pos rfl]
        exact (sending_ok p.connection message _).1 (hw message)
      · rw [if_neg hs]
        exact ⟨_, rfl⟩
    obtain ⟨p', hp', hl'⟩ := become_of_live hl (TcpConnection.send_keepsUp hc)
      (startsWriting p.connection c)
    refine ⟨p', ?_, hl'⟩
    simpa [userCall, send, hc, bind, Except.bind] using hp'
  | shutdown => exact become_of_live hl (TcpConnection.shutdown_keepsUp _ true) false
  | forceClose => exact become_of_live hl (TcpConnection.forceClose_keepsUp _) false

theorem userCalls_of_live (hw : ∀ data, (write data).Fits data.length) (calls : List UserCall)
    (hl : Live p) : ∃ p', calls.foldlM (userCall write) p = .ok p' ∧ Live p' := by
  induction calls generalizing p with
  | nil => exact ⟨p, rfl, hl⟩
  | cons x calls ih =>
    obtain ⟨q, hq, hlq, -⟩ := userCall_of_live hl hw x
    obtain ⟨p', hp', hl'⟩ := ih hlq
    refine ⟨p', ?_, hl'⟩
    simpa [List.foldlM_cons, hq, bind, Except.bind] using hp'

theorem handleWrite_of_live (hl : Live p) {r : WriteResult}
    (hr : r.Fits p.connection.outputBuffer.length) :
    ∃ p', p.handleWrite r = .ok p' ∧ Live p' := by
  obtain ⟨c, hc⟩ := (sending_ok p.connection [] r).2 hr
  obtain ⟨p', hp', hl', -⟩ := become_of_live hl (TcpConnection.handleWrite_keepsUp hc)
    (startsWriting c p.connection)
  refine ⟨p', ?_, hl'⟩
  simpa [handleWrite, hc, bind, Except.bind] using hp'

theorem handleClose_of_live (hl : Live p) (hd : d.AllowsRemoval p.self) :
    ∃ p', p.handleClose d = .ok p' ∧ Closed p' := by
  obtain ⟨q, hq, hdisconnected, hself⟩ := hl.disconnect
  obtain ⟨p', hp', hstate, hregistration⟩ := hdisconnected.connectDestroyed (hself ▸ hd)
  have hconnection : p'.connection = q.connection := by
    simp only [connectDestroyed, TcpConnection.connectDestroyed, hdisconnected.state, reduceCtorEq,
      if_false, bind_eq_ok, require_eq_ok] at hp'
    obtain ⟨c, ⟨-, -, hc⟩, u, hu, -, -, r, -, hp'⟩ := hp'
    rw [← Except.ok.inj hp', ← Except.ok.inj hc] at *
    exact (become_connection hu).1
  have hquiet : q.connection.channel.isWriting = false := by
    have hnone : q.connection.channel.events = Channel.kNoneEvent :=
      of_decide_eq_true hdisconnected.events
    simp [Channel.isWriting, hnone, Channel.kNoneEvent]
  refine ⟨p', ?_, hstate, hconnection ▸ hquiet, hregistration⟩
  simp only [handleClose, hq, bind, Except.bind, hp']

/-- On a closed connection the user's calls and a write event do nothing. -/
theorem Closed.userCall (h : Closed p) (x : UserCall) : p.userCall write x = .ok p := by
  have hconnected : p.connection.state ≠ .kConnected := by simp [h.state]
  have hup : ¬ (p.connection.state = .kConnected ∨ p.connection.state = .kDisconnecting) := by
    simp [h.state]
  cases x with
  | send message =>
    simp [Polled.userCall, send, TcpConnection.send, hconnected, become, startsWriting, bind,
      Except.bind, pure, Except.pure]
  | shutdown =>
    simp [Polled.userCall, shutdown, TcpConnection.shutdown, hconnected, become, pure, Except.pure]
  | forceClose =>
    simp [Polled.userCall, forceClose, TcpConnection.forceClose, hup, become, pure, Except.pure]

theorem Closed.userCalls (h : Closed p) (calls : List UserCall) :
    calls.foldlM (Polled.userCall write) p = .ok p := by
  induction calls with
  | nil => rfl
  | cons x calls ih =>
    rw [List.foldlM_cons, h.userCall]
    exact ih

theorem Closed.handleWrite (h : Closed p) (r : WriteResult) : p.handleWrite r = .ok p := by
  simp [Polled.handleWrite, TcpConnection.handleWrite, h.quiet, become, startsWriting, bind,
    Except.bind, pure, Except.pure]

theorem Closed.handleClose (h : Closed p) (d : Dispatch ℕ) :
    p.handleClose d = .error .assertion := by
  simp [Polled.handleClose, disconnect, TcpConnection.handleClose, h.state, require, bind,
    Except.bind]

theorem writeTurn_of_live (hl : Live p) (hw : ∀ data, (write data).Fits data.length)
    (b : Prop) [Decidable b] :
    ∃ p', p.when b (fun p => p.handleWrite (write p.connection.outputBuffer)) = .ok p' ∧ Live p' := by
  unfold when
  split_ifs
  · exact handleWrite_of_live hl (hw _)
  · exact ⟨p, rfl, hl⟩

theorem Closed.writeTurn (h : Closed p) (b : Prop) [Decidable b] :
    p.when b (fun p => p.handleWrite (write p.connection.outputBuffer)) = .ok p := by
  unfold when
  split_ifs
  · exact h.handleWrite _
  · rfl

/-- After the hangup: the read that finds the end of the stream fails, every other one does
nothing. -/
theorem Closed.readTurn (h : Closed p) (b : Prop) [Decidable b] (n : ℤ) (calls : List UserCall) :
    p.when b (fun p => p.readCallback n calls write d) =
      if b ∧ n = 0 then .error .assertion else .ok p := by
  unfold when readCallback handleRead
  by_cases hb : b
  · rw [if_pos hb]
    beta_reduce
    by_cases hpos : n > 0
    · rw [if_pos hpos, h.userCalls, if_neg fun hz => by omega]
    · by_cases hz : n = 0
      · rw [if_neg hpos, if_neg hpos, if_pos hz, if_pos ⟨hb, hz⟩, h.handleClose]
      · rw [if_neg hpos, if_neg hpos, if_neg hz, if_neg fun hc => hz hc.2]
        rfl
  · rw [if_neg hb, if_neg fun hc => hb hc.1]
    rfl

theorem readTurn_of_live (hl : Live p) (hw : ∀ data, (write data).Fits data.length)
    (hd : d.AllowsRemoval p.self) (b : Prop) [Decidable b] (n : ℤ) (calls : List UserCall) :
    ∃ p', p.when b (fun p => p.readCallback n calls write d) = .ok p' ∧
      if b ∧ n = 0 then Closed p' else Live p' := by
  unfold when readCallback handleRead
  by_cases hb : b
  · rw [if_pos hb]
    beta_reduce
    by_cases hpos : n > 0
    · have hend : ¬ (b ∧ n = 0) := fun hend => by omega
      simp only [if_pos hpos, if_neg hend]
      exact userCalls_of_live hw calls hl
    · by_cases hz : n = 0
      · have hend : b ∧ n = 0 := ⟨hb, hz⟩
        simp only [if_neg hpos, if_pos hz, if_pos hend]
        exact handleClose_of_live hl hd
      · have hend : ¬ (b ∧ n = 0) := fun hend => hz hend.2
        simp only [if_neg hpos, if_neg hz, if_neg hend]
        exact ⟨p, rfl, hl⟩
  · have hend : ¬ (b ∧ n = 0) := fun hend => hb hend.1
    simp only [if_neg hb, if_neg hend]
    exact ⟨p, rfl, hl⟩

theorem turn_after_hangup (hl : Live p) (hd : d.AllowsRemoval p.self) {revents : BitVec 32}
    (hhup : Hangup revents) (n : ℤ) (calls : List UserCall) :
    ∃ q, Closed q ∧ p.handleEventWithGuard revents n calls write d =
      if Readable revents ∧ n = 0 then .error .assertion else .ok q := by
  obtain ⟨q, hq, hclosed⟩ := handleClose_of_live hl hd
  have hfirst : p.when (Hangup revents) (fun p => p.handleClose d) = .ok q := by
    rw [when, if_pos hhup, hq]
  refine ⟨q, hclosed, ?_⟩
  rw [handleEventWithGuard, hfirst]
  simp only [bind, Except.bind, hclosed.readTurn]
  split_ifs
  · rfl
  · exact hclosed.writeTurn _

theorem turn_without_hangup (hl : Live p) (hw : ∀ data, (write data).Fits data.length)
    (hd : d.AllowsRemoval p.self) {revents : BitVec 32} (hhup : ¬ Hangup revents) (n : ℤ)
    (calls : List UserCall) : ∃ p', p.handleEventWithGuard revents n calls write d = .ok p' ∧
      if Readable revents ∧ n = 0 then Closed p' else Live p' := by
  obtain ⟨q, hq, hread⟩ := readTurn_of_live hl hw hd (Readable revents) n calls
  have hturn : p.handleEventWithGuard revents n calls write d =
      q.when (revents &&& POLLOUT ≠ 0) (fun p => p.handleWrite (write p.connection.outputBuffer)) := by
    have hfirst : p.when (Hangup revents) (fun p => p.handleClose d) = .ok p := by
      rw [when, if_neg hhup]
      rfl
    rw [handleEventWithGuard, hfirst]
    simp only [bind, Except.bind, hq]
  rw [hturn]
  by_cases hend : Readable revents ∧ n = 0
  · rw [if_pos hend] at hread
    exact ⟨q, hread.writeTurn _, by rwa [if_pos hend]⟩
  · rw [if_neg hend] at hread
    simp only [if_neg hend]
    exact writeTurn_of_live hread hw _

end Polled

end Mutty.Net
