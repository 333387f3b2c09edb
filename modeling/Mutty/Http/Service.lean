import Mutty.Http.Response
import Mutty.Net.TcpConnection

/-!
# The HTTP server on one connection

`onMessage` parses what the socket delivered and answers on the same connection, so the answers go
through `send` and `shutdown` of the connection: `HttpConnection` puts the two together, and a run
interleaves reads, write events, the close and the peer's reset in any order. The callback of the user
is arbitrary; its `n`-th answer on a connection may depend on everything but the connection. `Answered`
says what a connection has done about a list of answers, one lemma for each operation of the connection.
-/

namespace Mutty.Http

open Mutty.Lib
open Mutty.Net (TcpConnection WriteResult SocketEvent Intact sent accepted)

/-- `httpCallback_`, called for the `n`-th time on a connection. -/
abbrev HttpCallback := ℕ → HttpRequest → HttpResponse → HttpResponse

def defaultHttpCallback : HttpCallback := fun _ _ resp =>
  ((resp.setStatusCode .k404NotFound).setStatusMessage
    (ascii ['N', 'o', 't', ' ', 'F', 'o', 'u', 'n', 'd'])).setCloseConnection true

def badRequestReason : Bytes := ascii ['B', 'a', 'd', ' ', 'R', 'e', 'q', 'u', 'e', 's', 't']

def badRequestText : Bytes :=
  httpVersion ++ ascii ['4', '0', '0', ' '] ++ badRequestReason ++ crlf ++ crlf

inductive Answer
  | badRequest
  | response (r : HttpResponse)
  deriving DecidableEq, Repr

namespace Answer

def wire : Answer → Bytes
  | .badRequest => badRequestText
  | .response r => r.wire

/-- Whether `shutdown` is called after the answer. -/
def closes : Answer → Bool
  | .badRequest => true
  | .response r => r.closeConnection

def reply : Answer → Reply
  | .badRequest => ⟨400, badRequestReason, [], []⟩
  | .response r => r.reply

def Plain : Answer → Prop
  | .badRequest => True
  | .response r => r.Plain

end Answer

/-- `onRequest`: the answer to a request, as the callback completes it. -/
def onRequest (callback : HttpCallback) (n : ℕ) (req : HttpRequest) : HttpResponse :=
  let connection := req.getHeader connectionName
  let close := connection = closeToken ∨ (req.version = .kHttp10 ∧ connection ≠ keepAliveToken)
  callback n req { closeConnection := close }

def answer (callback : HttpCallback) (n : ℕ) : Call → Answer
  | .badRequest => .badRequest
  | .onRequest req => .response (onRequest callback n req)

def answers (callback : HttpCallback) (calls : List Call) : List Answer :=
  calls.mapIdx (answer callback)

structure HttpConnection where
  tcp : TcpConnection := {}
  context : Option HttpContext := none
  inputBuffer : Bytes := []
  calls : List Call := []
  received : List Bytes := []
  /-- Whether the peer has reset the connection. -/
  peerGone : Bool := false
  deriving DecidableEq, Repr

namespace HttpConnection

/-- `send` and, for an answer that closes, `shutdown`, both on the loop's thread. -/
def respond (c : TcpConnection) (a : Answer) (write : Bytes → WriteResult) :
    Checked TcpConnection := do
  let c ← c.send a.wire true (write a.wire)
  return if a.closes then c.shutdown true else c

def call (callback : HttpCallback) (s : HttpConnection) (x : Call) (write : Bytes → WriteResult) :
    Checked HttpConnection := do
  let tcp ← respond s.tcp (answer callback s.calls.length x) write
  return { s with tcp, calls := s.calls ++ [x] }

/-- `connectEstablished` and the connection callback it calls. -/
def onConnection (s : HttpConnection) : Checked HttpConnection := do
  let tcp ← s.tcp.connectEstablished
  return { s with tcp, context := if tcp.state = .kConnected then some {} else s.context }

/-- The 400 response and the shutdown, where parsing failed. -/
def badRequestUnless (callback : HttpCallback) (s : HttpConnection) (ok : Bool)
    (write : Bytes → WriteResult) : Checked HttpConnection :=
  if ok then return s else s.call callback .badRequest write

/-- `any_cast` asserts that there is a context. -/
def onMessage (callback : HttpCallback) (s : HttpConnection) (write : Bytes → WriteResult) :
    Checked HttpConnection :=
  match s.context with
  | none => .error .assertion
  | some context => do
    let (ok, p) ← Parsing.parseRequest ⟨context, s.inputBuffer⟩
    let s := { s with context := some p.context, inputBuffer := p.buffer }
    let s ← s.badRequestUnless callback ok write
    if p.context.gotAll then
      let s ← s.call callback (.onRequest p.context.request) write
      return { s with context := some {} }
    else return s

def handleRead (callback : HttpCallback) (s : HttpConnection) (fragment : Bytes)
    (write : Bytes → WriteResult) : Checked HttpConnection :=
  onMessage callback { s with
    inputBuffer := s.inputBuffer ++ fragment
    received := s.received ++ [fragment] } write

end HttpConnection

/-! ## Runs -/

/-- `write` is how the socket behaves during the event. -/
inductive ServiceAction
  | connectEstablished
  | handleRead (fragment : Bytes) (write : Bytes → WriteResult)
  | handleWrite (write : Bytes → WriteResult)
  | handleClose
  | connectDestroyed
  | peerReset

def ServiceAction.run (callback : HttpCallback) (s : HttpConnection) :
    ServiceAction → Checked HttpConnection
  | .connectEstablished => s.onConnection
  | .handleRead fragment write => s.handleRead callback fragment write
  | .handleWrite write => do
    let tcp ← s.tcp.handleWrite (write s.tcp.outputBuffer)
    return { s with tcp }
  | .handleClose => do
    let tcp ← s.tcp.handleClose
    return { s with tcp }
  | .connectDestroyed => do
    let tcp ← s.tcp.connectDestroyed
    return { s with tcp }
  | .peerReset => return { s with peerGone := true }

def serviceMachine (callback : HttpCallback) : System HttpConnection ServiceAction where
  init s := s = {}
  step s a := (a.run callback s).toOption

/-- The socket takes a part of what it is given, or fails without the peer being gone; once the peer is
gone every write fails. -/
def SocketWrites (peerGone : Bool) (write : Bytes → WriteResult) : Prop :=
  ∀ data, if peerGone then ∃ errno, write data = .failed errno else (write data).Possible data.length

def Writes (s : HttpConnection) : ServiceAction → Prop
  | .handleRead _ write => SocketWrites s.peerGone write
  | .handleWrite write => SocketWrites s.peerGone write
  | _ => True

def untilClose {α : Type} (closes : α → Bool) : List α → List α
  | [] => []
  | x :: xs => if closes x then [x] else x :: untilClose closes xs

theorem mem_of_mem_untilClose {α : Type} {closes : α → Bool} {xs : List α} {x : α}
    (h : x ∈ untilClose closes xs) : x ∈ xs := by
  induction xs with
  | nil => exact h
  | cons y xs ih =>
    rw [untilClose] at h
    split_ifs at h
    · exact List.mem_cons.mpr (Or.inl (List.mem_singleton.mp h))
    · rcases List.mem_cons.mp h with rfl | h
      · exact List.mem_cons_self
      · exact List.mem_cons_of_mem _ (ih h)

theorem untilClose_dropLast {α : Type} {closes : α → Bool} {xs : List α} :
    ∀ x ∈ (untilClose closes xs).dropLast, closes x = false := by
  induction xs with
  | nil => simp [untilClose]
  | cons x xs ih =>
    by_cases hx : closes x = true
    · simp [untilClose, hx]
    · rw [untilClose, if_neg hx]
      cases hrest : untilClose closes xs with
      | nil => simp
      | cons y ys =>
        rw [hrest] at ih
        simpa [hx] using ih

/-! ## What a connection does with an answer -/

structure Answered (xs : List Answer) (c : TcpConnection) : Prop where
  up : c.state = .kConnected ∨ c.state = .kDisconnecting
  intact : Intact c
  text : sent c.history = (untilClose Answer.closes xs).flatMap Answer.wire
  connected : c.state = .kConnected ↔ ∀ a ∈ xs, a.closes = false
  shutdowns : c.history.count .shutdownWrite =
    if c.state = .kDisconnecting ∧ c.outputBuffer = [] then 1 else 0

theorem untilClose_keep {α : Type} {closes : α → Bool} {xs : List α}
    (h : ∀ x ∈ xs, closes x = false) (ys : List α) :
    untilClose closes (xs ++ ys) = xs ++ untilClose closes ys := by
  induction xs with
  | nil => rfl
  | cons x xs ih =>
    rw [List.cons_append, untilClose, if_neg (by simp [h x (by simp)]),
      ih fun z hz => h z (by simp [hz])]
    rfl

theorem untilClose_closed {α : Type} {closes : α → Bool} {xs : List α}
    (h : ∃ x ∈ xs, closes x = true) (ys : List α) :
    untilClose closes (xs ++ ys) = untilClose closes xs := by
  induction xs with
  | nil => simp at h
  | cons x xs ih =>
    by_cases hx : closes x = true
    · simp [untilClose, hx]
    · obtain ⟨z, hz, hclose⟩ := h
      rcases List.mem_cons.mp hz with rfl | hz
      · exact absurd hclose hx
      · simp [untilClose, hx, ih ⟨z, hz, hclose⟩]

/-- Behind a closing answer nothing more is written. -/
theorem untilClose_prefix {α : Type} (closes : α → Bool) (xs ys : List α) :
    untilClose closes xs <+: untilClose closes (xs ++ ys) := by
  by_cases h : ∃ x ∈ xs, closes x = true
  · rw [untilClose_closed h]
  · have hkeep : ∀ x ∈ xs, closes x = false := by
      intro x hx
      by_contra hc
      exact h ⟨x, hx, by simpa using hc⟩
    have hall : untilClose closes xs = xs := by
      simpa [untilClose] using untilClose_keep hkeep []
    rw [hall, untilClose_keep hkeep]
    exact List.prefix_append _ _

section

variable {c c' : TcpConnection}

theorem sendInLoop_history {data : Bytes} {r : WriteResult} (hs : c.state ≠ .kDisconnected)
    (h : c.sendInLoop data r = .ok c') :
    c'.state = c.state ∧ ∃ taken : List Bytes, (∀ errno, r = .failed errno → taken = []) ∧
      c'.history = c.history ++ .sendInLoop data :: taken.map .wrote := by
  have hs' : (c.record (.sendInLoop data)).state ≠ .kDisconnected := hs
  unfold TcpConnection.sendInLoop at h
  rw [if_neg hs'] at h
  simp only [bind_eq_ok, require_eq_ok] at h
  obtain ⟨-, -, h⟩ := h
  have htry : ((c.record (.sendInLoop data)).tryWrite data r).connection.state = c.state ∧
      ∃ taken : List Bytes, (∀ errno, r = .failed errno → taken = []) ∧
        ((c.record (.sendInLoop data)).tryWrite data r).connection.history =
          c.history ++ .sendInLoop data :: taken.map .wrote := by
    unfold TcpConnection.tryWrite
    split_ifs with hdirect
    · cases r with
      | wrote n => exact ⟨by simp, [data.take n], by simp, by simp⟩
      | failed errno => exact ⟨rfl, [], fun _ _ => rfl, by simp⟩
    · exact ⟨rfl, [], fun _ _ => rfl, by simp⟩
  obtain ⟨hstate, taken, hfailed, hhistory⟩ := htry
  split_ifs at h
  · rw [← Except.ok.inj h]
    refine ⟨?_, taken, hfailed, ?_⟩
    · rw [← hstate]
      unfold TcpConnection.bufferOutput
      dsimp only
      split_ifs <;> simp
    · rw [(Net.bufferOutput_fields _ _).1, hhistory]
  · rw [← Except.ok.inj h]
    exact ⟨hstate, taken, hfailed, hhistory⟩

theorem sent_taken (taken : List Bytes) : sent (taken.map .wrote) = [] := by
  simp [sent, List.flatMap_map]

theorem count_taken (taken : List Bytes) :
    (taken.map SocketEvent.wrote).count .shutdownWrite = 0 := by
  rw [List.count_eq_zero]
  simp

theorem shutdownInLoop_fields (c : TcpConnection) :
    c.shutdownInLoop.outputBuffer = c.outputBuffer ∧ c.shutdownInLoop.history =
      if c.channel.isWriting then c.history else c.history ++ [.shutdownWrite] := by
  unfold TcpConnection.shutdownInLoop
  by_cases hw : c.channel.isWriting = true <;> simp [hw]

theorem outputDrained_fields (c : TcpConnection) :
    c.outputDrained.outputBuffer = c.outputBuffer ∧ c.outputDrained.history =
      if c.state = .kDisconnecting then c.history ++ [.shutdownWrite] else c.history := by
  unfold TcpConnection.outputDrained
  dsimp only
  by_cases hs : c.state = .kDisconnecting
  · rw [if_pos (by simpa using hs), if_pos hs]
    obtain ⟨hbuffer, hhistory⟩ := shutdownInLoop_fields
      ({ c with channel := c.channel.disableWriting }.queueInLoopIf
        c.writeCompleteCallback .writeComplete)
    rw [hbuffer, hhistory]
    simp
  · rw [if_neg (by simpa using hs), if_neg hs]
    simp

/-- Only a connection that is up and has not been told to close sends an answer. -/
theorem respond_idle {a : Answer} {write : Bytes → WriteResult} (hs : c.state ≠ .kConnected)
    (hr : HttpConnection.respond c a write = .ok c') : c' = c := by
  simp only [HttpConnection.respond, bind_eq_ok] at hr
  obtain ⟨c₁, hsend, hr⟩ := hr
  rw [TcpConnection.send, if_neg hs] at hsend
  obtain rfl := Except.ok.inj hsend
  have hsame : (if a.closes then c.shutdown true else c) = c := by
    rw [TcpConnection.shutdown, if_neg hs, ite_self]
  rw [hsame] at hr
  exact (Except.ok.inj hr).symm

theorem respond_failed {a : Answer} {write : Bytes → WriteResult} (hw : SocketWrites true write)
    (hs : c.state = .kConnected) (hr : HttpConnection.respond c a write = .ok c') :
    accepted c'.history = accepted c.history ∧
      (c'.state = .kConnected ∨ c'.state = .kDisconnecting) := by
  simp only [HttpConnection.respond, bind_eq_ok] at hr
  obtain ⟨c₁, hsend, hr⟩ := hr
  rw [TcpConnection.send, if_pos hs, if_pos rfl] at hsend
  obtain ⟨errno, herrno⟩ : ∃ errno, write a.wire = .failed errno := hw a.wire
  obtain ⟨hstate, taken, hfailed, hhistory⟩ := sendInLoop_history (by simp [hs]) hsend
  obtain rfl := hfailed errno herrno
  have hsame : accepted c₁.history = accepted c.history := by simp [hhistory]
  have hs₁ : c₁.state = .kConnected := hstate.trans hs
  rw [← hsame, ← Except.ok.inj hr]
  by_cases hclose : a.closes = true
  · rw [if_pos hclose, TcpConnection.shutdown, if_pos hs₁, if_pos rfl]
    refine ⟨?_, Or.inr (by simp)⟩
    rw [(shutdownInLoop_fields _).2]
    split_ifs <;> simp
  · rw [if_neg hclose]
    exact ⟨rfl, Or.inl hs₁⟩

namespace Answered

variable {xs : List Answer}

theorem fresh (h : c'.history = []) (hs : c'.state = .kConnected) (hi : Intact c') :
    Answered [] c' := by
  refine ⟨Or.inl hs, hi, ?_, ?_, ?_⟩
  · rw [h]
    rfl
  · simp [hs]
  · simp [h, hs]

theorem ignore (h : Answered xs c) (hs : c.state = .kDisconnecting) (a : Answer) :
    Answered (xs ++ [a]) c := by
  have hclosed : ∃ x ∈ xs, x.closes = true := by
    by_contra hno
    have hall : ∀ x ∈ xs, x.closes = false := by
      intro x hx
      by_contra hc
      exact hno ⟨x, hx, by simpa using hc⟩
    rw [h.connected.mpr hall] at hs
    cases hs
  refine ⟨h.up, h.intact, ?_, ?_, h.shutdowns⟩
  · rw [untilClose_closed hclosed]
    exact h.text
  · obtain ⟨x, hx, hclose⟩ := hclosed
    refine iff_of_false (by simp [hs]) ?_
    intro hall
    have hfalse := hall x (by simp [hx])
    rw [hclose] at hfalse
    cases hfalse

theorem send {a : Answer} {r : WriteResult} (h : Answered xs c) (hs : c.state = .kConnected)
    (hr : r.Possible a.wire.length) (hsend : c.sendInLoop a.wire r = .ok c') :
    Intact c' ∧ c'.state = .kConnected ∧ c'.history.count .shutdownWrite = 0 ∧
      sent c'.history = (untilClose Answer.closes (xs ++ [a])).flatMap Answer.wire := by
  have hup : c.state ≠ .kDisconnected := by simp [hs]
  obtain ⟨hstate, taken, -, hhistory⟩ := sendInLoop_history hup hsend
  refine ⟨h.intact.sendInLoop hr hup hsend, hstate.trans hs, ?_, ?_⟩
  · rw [hhistory, List.count_append, h.shutdowns]
    simp [hs, count_taken]
  · have hlast : untilClose Answer.closes [a] = [a] := by simp [untilClose]
    rw [hhistory, List.append_cons, Net.sent_append, Net.sent_append, sent_taken, h.text,
      untilClose_keep (h.connected.mp hs), hlast, ← List.append_nil xs,
      untilClose_keep (h.connected.mp hs)]
    simp [untilClose]

theorem respond {a : Answer} {write : Bytes → WriteResult} (h : Answered xs c)
    (hw : SocketWrites false write)
    (hr : HttpConnection.respond c a write = .ok c') : Answered (xs ++ [a]) c' := by
  rcases h.up with hs | hs
  · simp only [HttpConnection.respond, bind_eq_ok] at hr
    obtain ⟨c₁, hsend, hr⟩ := hr
    rw [TcpConnection.send, if_pos hs, if_pos rfl] at hsend
    have hr₁ : (write a.wire).Possible a.wire.length := hw a.wire
    obtain ⟨hi, hs₁, hcount, htext⟩ := h.send hs hr₁ hsend
    have hbefore := h.connected.mp hs
    by_cases hclose : a.closes = true
    · rw [if_pos hclose, TcpConnection.shutdown, if_pos hs₁, if_pos rfl] at hr
      rw [← Except.ok.inj hr]
      have hi₁ : Intact { c₁ with state := .kDisconnecting } := hi.congr rfl rfl rfl
      obtain ⟨hbuffer, hhistory⟩ := shutdownInLoop_fields { c₁ with state := .kDisconnecting }
      refine ⟨Or.inr (by simp), hi₁.shutdownInLoop, ?_, ?_, ?_⟩
      · rw [hhistory, ← htext]
        split_ifs <;> simp
      · refine iff_of_false (by simp) ?_
        intro hall
        have hfalse := hall a (by simp)
        rw [hclose] at hfalse
        cases hfalse
      · rw [hhistory, hbuffer]
        by_cases hwriting : c₁.channel.isWriting = true
        · have hne := hi.writing.mp hwriting
          simp [hwriting, hcount, hne]
        · have hempty : c₁.outputBuffer = [] := by
            by_contra hne
            exact hwriting (hi.writing.mpr hne)
          simp [hwriting, hcount, hempty]
    · rw [if_neg hclose] at hr
      obtain rfl := Except.ok.inj hr
      refine ⟨Or.inl hs₁, hi, htext, ?_, ?_⟩
      · refine iff_of_true hs₁ ?_
        intro x hx
        rcases List.mem_append.mp hx with hx | hx
        · exact hbefore x hx
        · obtain rfl := List.mem_singleton.mp hx
          simpa using hclose
      · simp [hcount, hs₁]
  · rw [respond_idle (by simp [hs]) hr]
    exact h.ignore hs a

theorem handleWrite {r : WriteResult} (h : Answered xs c) (hr : c.handleWrite r = .ok c') :
    Answered xs c' := by
  have hi := h.intact.handleWrite hr
  rcases TcpConnection.handleWrite_cases hr with rfl | ⟨n, hwriting, rfl⟩
  · exact h
  · have hne := h.intact.writing.mp hwriting
    have hcount : c.history.count .shutdownWrite = 0 := by simp [h.shutdowns, hne]
    have htext : sent (c.retrieve n).history =
        (untilClose Answer.closes xs).flatMap Answer.wire := by
      rw [← h.text]
      simp [TcpConnection.retrieve]
    have hretrieved : (c.retrieve n).history.count .shutdownWrite = 0 := by
      simp [TcpConnection.retrieve, hcount]
    split_ifs at hi ⊢ with hempty
    · obtain ⟨hbuffer, hhistory⟩ := outputDrained_fields (c.retrieve n)
      refine ⟨by simpa using h.up, hi, ?_, by simpa using h.connected, ?_⟩
      · rw [hhistory, ← htext]
        split_ifs <;> simp
      · have hnil := List.eq_nil_of_length_eq_zero hempty
        rw [hhistory, hbuffer, hnil, TcpConnection.outputDrained_state]
        by_cases hs : (c.retrieve n).state = .kDisconnecting
        · rw [if_pos hs, if_pos ⟨hs, rfl⟩]
          simp [hretrieved]
        · rw [if_neg hs, if_neg fun h => hs h.1]
          exact hretrieved
    · have hmore : (c.retrieve n).outputBuffer ≠ [] := fun hnil => hempty (by simp [hnil])
      exact ⟨h.up, hi, htext, h.connected, by simp [hretrieved, hmore]⟩

end Answered

end

/-! ## The server over a run -/

theorem answers_concat (callback : HttpCallback) (calls : List Call) (x : Call) :
    answers callback (calls ++ [x]) = answers callback calls ++ [answer callback calls.length x] := by
  simp [answers, List.mapIdx_concat]

section

variable {callback : HttpCallback} {s s' : HttpConnection} {write : Bytes → WriteResult}

namespace HttpConnection

theorem call_eq_ok {x : Call} (h : s.call callback x write = .ok s') :
    ∃ tcp, respond s.tcp (answer callback s.calls.length x) write = .ok tcp ∧
      s' = { s with tcp, calls := s.calls ++ [x] } := by
  simp only [call, bind_eq_ok] at h
  obtain ⟨tcp, htcp, h⟩ := h
  exact ⟨tcp, htcp, (Except.ok.inj h).symm⟩

/-- The parser sees what it would see without the answers, and whatever the calls keep of the
connection and the calls made so far, the message keeps. -/
theorem onMessage_eq_ok {P : List Call → TcpConnection → Prop}
    (hcall : ∀ calls x tcp tcp', P calls tcp →
      respond tcp (answer callback calls.length x) write = .ok tcp' → P (calls ++ [x]) tcp')
    (h : s.onMessage callback write = .ok s') (hp : P s.calls s.tcp) :
    P s'.calls s'.tcp ∧ s'.received = s.received ∧ s'.peerGone = s.peerGone ∧
      ∃ context context', s.context = some context ∧ s'.context = some context' ∧
        Connection.onMessage ⟨context, s.inputBuffer, s.calls⟩ =
          .ok ⟨context', s'.inputBuffer, s'.calls⟩ := by
  have hstep : ∀ {t t' : HttpConnection} {x : Call}, t.call callback x write = .ok t' →
      P t.calls t.tcp → P t'.calls t'.tcp ∧ t'.received = t.received ∧ t'.peerGone = t.peerGone ∧
        t'.context = t.context ∧ t'.inputBuffer = t.inputBuffer ∧ t'.calls = t.calls ++ [x] := by
    intro t t' x ht hpt
    obtain ⟨tcp, htcp, rfl⟩ := call_eq_ok ht
    exact ⟨hcall _ _ _ _ hpt htcp, rfl, rfl, rfl, rfl, rfl⟩
  unfold onMessage at h
  cases hcontext : s.context with
  | none =>
    rw [hcontext] at h
    cases h
  | some context =>
    simp only [hcontext, bind_eq_ok, Prod.exists] at h
    obtain ⟨ok, p, hparse, t, ht, h⟩ := h
    -- what the 400 response has changed, if it was sent
    have hbad : P t.calls t.tcp ∧ t.received = s.received ∧ t.peerGone = s.peerGone ∧
        t.context = some p.context ∧ t.inputBuffer = p.buffer ∧ t.calls = if ok then s.calls else s.calls ++ [.badRequest] := by
      cases ok with
      | true =>
        obtain rfl := Except.ok.inj ht
        exact ⟨hp, rfl, rfl, rfl, rfl, rfl⟩
      | false => exact hstep ht hp
    obtain ⟨hpt, hreceived, hgone, hcontext', hbuffer, hcalls⟩ := hbad
    have hmessage : ∀ context' calls', (if p.context.gotAll then
          (⟨{}, p.buffer, t.calls ++ [.onRequest p.context.request]⟩ : Connection)
          else ⟨p.context, p.buffer, t.calls⟩) = ⟨context', p.buffer, calls'⟩ →
        Connection.onMessage ⟨context, s.inputBuffer, s.calls⟩ =
          .ok ⟨context', p.buffer, calls'⟩ := by
      intro context' calls' heq
      simp only [Connection.onMessage, Connection.parsing, hparse, bind, Except.bind, pure,
        Except.pure, ← heq, hcalls]
      split_ifs <;> rfl
    by_cases hgot : p.context.gotAll = true
    · rw [if_pos hgot] at h
      simp only [bind_eq_ok] at h
      obtain ⟨u, hu, h⟩ := h
      obtain ⟨hpu, hureceived, hugone, -, hubuffer, hucalls⟩ := hstep hu hpt
      rw [← Except.ok.inj h]
      refine ⟨hpu, hureceived.trans hreceived, hugone.trans hgone, context, {}, rfl, rfl, ?_⟩
      rw [hubuffer.trans hbuffer]
      apply hmessage
      rw [if_pos hgot, hucalls]
    · rw [if_neg hgot] at h
      rw [← Except.ok.inj h]
      refine ⟨hpt, hreceived, hgone, context, p.context, rfl, hcontext', ?_⟩
      rw [hbuffer]
      apply hmessage
      rw [if_neg hgot]

end HttpConnection

theorem isWriting_disableAll (ch : Net.Channel) : ch.disableAll.isWriting = false := by
  unfold Net.Channel.disableAll
  decide

structure Serving (callback : HttpCallback) (s : HttpConnection) : Prop where
  fresh : s.tcp.state = .kConnecting → s = { peerGone := s.peerGone }
  parsed : s.tcp.state ≠ .kConnecting → ∃ context, s.context = some context ∧
    Connection.deliver {} s.received = .ok ⟨context, s.inputBuffer, s.calls⟩
  answered : s.peerGone = false → s.tcp.state = .kConnected ∨ s.tcp.state = .kDisconnecting →
    Answered (answers callback s.calls) s.tcp
  quiet : s.tcp.state = .kDisconnected → s.tcp.channel.isWriting = false
  taken : accepted s.tcp.history <+:
    (untilClose Answer.closes (answers callback s.calls)).flatMap Answer.wire

theorem Answered.taken {xs : List Answer} {c : TcpConnection} (h : Answered xs c) :
    accepted c.history <+: (untilClose Answer.closes xs).flatMap Answer.wire :=
  ⟨c.outputBuffer, h.intact.stream.trans h.text⟩

theorem deliver_concat {c c' c'' : Connection} {fragments : List Bytes} {f : Bytes}
    (h : c.deliver fragments = .ok c') (hf : c'.handleRead f = .ok c'') :
    c.deliver (fragments ++ [f]) = .ok c'' := by
  induction fragments generalizing c with
  | nil =>
    obtain rfl := Except.ok.inj h
    exact Connection.deliver_cons hf []
  | cons g fragments ih =>
    simp only [Connection.deliver, bind_eq_ok] at h
    obtain ⟨d, hd, h⟩ := h
    rw [List.cons_append, Connection.deliver_cons hd]
    exact ih h

namespace Serving

theorem onConnection (hs : Serving callback s) (h : s.onConnection = .ok s') :
    Serving callback s' := by
  simp only [HttpConnection.onConnection, TcpConnection.connectEstablished, bind_eq_ok,
    require_eq_ok] at h
  obtain ⟨tcp, ⟨-, hconnecting, htcp⟩, h⟩ := h
  have hfresh := hs.fresh hconnecting
  generalize s.peerGone = gone at hfresh
  subst hfresh
  obtain rfl := Except.ok.inj htcp
  rw [← Except.ok.inj h]
  have hi : Intact { state := .kConnected, channel := ({} : Net.Channel).enableReading } := by
    refine ⟨rfl, by rw [Net.Channel.isWriting_enableReading]; decide, ?_⟩
    intro before hb
    simp at hb
  refine ⟨by simp, ?_, fun _ _ => Answered.fresh rfl rfl hi, by simp, List.nil_prefix⟩
  intro _
  exact ⟨{}, rfl, rfl⟩

theorem handleRead_answered {f : Bytes} (hs : Serving callback s) (hthere : s.peerGone = false)
    (hup : s.tcp.state = .kConnected ∨ s.tcp.state = .kDisconnecting)
    (hw : SocketWrites false write) (h : s.handleRead callback f write = .ok s') :
    Serving callback s' := by
  have hconnecting : s.tcp.state ≠ .kConnecting := by
    rcases hup with hu | hu <;> simp [hu]
  obtain ⟨context, hcontext, hdeliver⟩ := hs.parsed hconnecting
  obtain ⟨hanswered, hreceived, -, d, d', hd, hd', hmessage⟩ := HttpConnection.onMessage_eq_ok
    (P := fun calls tcp => Answered (answers callback calls) tcp)
    (fun calls x tcp tcp' hp hr => by
      rw [answers_concat]
      exact hp.respond hw hr) h (hs.answered hthere hup)
  obtain rfl : context = d := Option.some.inj (hcontext.symm.trans hd)
  have hstate : s'.tcp.state ≠ .kConnecting := by
    rcases hanswered.up with hu | hu <;> simp [hu]
  refine ⟨fun hc => absurd hc hstate, fun _ => ⟨d', hd', ?_⟩, fun _ _ => hanswered, ?_,
    hanswered.taken⟩
  · rw [hreceived]
    exact deliver_concat hdeliver hmessage
  · intro hc
    rcases hanswered.up with hu | hu <;> simp [hc] at hu

/-- A connection that is down sends nothing, and of what is sent to a peer that is gone nothing is
taken. -/
theorem handleRead_untaken {f : Bytes} (hs : Serving callback s) (hconnecting : s.tcp.state ≠ .kConnecting)
    (hidle : s.peerGone = true ∧ SocketWrites true write ∨
      ¬ (s.tcp.state = .kConnected ∨ s.tcp.state = .kDisconnecting))
    (h : s.handleRead callback f write = .ok s') : Serving callback s' := by
  obtain ⟨context, hcontext, hdeliver⟩ := hs.parsed hconnecting
  obtain ⟨⟨⟨more, hmore⟩, haccepted, htcp⟩, hreceived, hgone, d, d', hd, hd', hmessage⟩ :=
    HttpConnection.onMessage_eq_ok
      (P := fun calls tcp => s.calls <+: calls ∧ accepted tcp.history = accepted s.tcp.history ∧
        (tcp = s.tcp ∨ (s.peerGone = true ∧ SocketWrites true write) ∧
          (tcp.state = .kConnected ∨ tcp.state = .kDisconnecting)))
      (fun calls x tcp tcp' hp hr => by
        obtain ⟨hbegin, haccepted, htcp⟩ := hp
        refine ⟨hbegin.trans (List.prefix_append _ _), ?_⟩
        by_cases hc : tcp.state = .kConnected
        · have hlost : s.peerGone = true ∧ SocketWrites true write := by
            rcases htcp with rfl | ⟨hlost, -⟩
            · exact hidle.resolve_right fun hdown => hdown (Or.inl hc)
            · exact hlost
          obtain ⟨hsame, hup⟩ := respond_failed hlost.2 hc hr
          exact ⟨hsame.trans haccepted, Or.inr ⟨hlost, hup⟩⟩
        · obtain rfl := respond_idle hc hr
          exact ⟨haccepted, htcp⟩)
      h ⟨List.prefix_refl _, rfl, Or.inl rfl⟩
  obtain rfl : context = d := Option.some.inj (hcontext.symm.trans hd)
  refine ⟨?_, fun _ => ⟨d', hd', ?_⟩, ?_, ?_, ?_⟩
  · intro hc
    rcases htcp with htcp | ⟨-, hu | hu⟩
    · exact absurd (htcp ▸ hc) hconnecting
    · simp [hc] at hu
    · simp [hc] at hu
  · rw [hreceived]
    exact deliver_concat hdeliver hmessage
  · intro hthere hup
    have hnotlost : ¬ (s.peerGone = true ∧ SocketWrites true write) := by
      rintro ⟨hlost, -⟩
      rw [hgone, hlost] at hthere
      cases hthere
    rcases htcp with htcp | ⟨hlost, -⟩
    · exact absurd (htcp ▸ hup) (hidle.resolve_left hnotlost)
    · exact absurd hlost hnotlost
  · intro hc
    rcases htcp with htcp | ⟨-, hu | hu⟩
    · rw [htcp] at hc ⊢
      exact hs.quiet hc
    · simp [hc] at hu
    · simp [hc] at hu
  · rw [haccepted]
    have hanswers : answers callback s.calls <+: answers callback s'.calls := by
      rw [← hmore, answers, answers, List.mapIdx_append]
      exact List.prefix_append _ _
    obtain ⟨later, hlater⟩ := hanswers
    rw [← hlater]
    obtain ⟨rest, hrest⟩ := untilClose_prefix Answer.closes (answers callback s.calls) later
    rw [← hrest, List.flatMap_append]
    exact hs.taken.trans (List.prefix_append _ _)

theorem handleRead {f : Bytes} (hs : Serving callback s) (hw : SocketWrites s.peerGone write)
    (h : s.handleRead callback f write = .ok s') : Serving callback s' := by
  by_cases hconnecting : s.tcp.state = .kConnecting
  · -- no context before the connection is established
    rw [hs.fresh hconnecting] at h
    cases h
  · by_cases hup : s.tcp.state = .kConnected ∨ s.tcp.state = .kDisconnecting
    · cases hgone : s.peerGone with
      | false => exact hs.handleRead_answered hgone hup (hgone ▸ hw) h
      | true => exact hs.handleRead_untaken hconnecting (Or.inl ⟨hgone, hgone ▸ hw⟩) h
    · exact hs.handleRead_untaken hconnecting (Or.inr hup) h

theorem tcp {tcp : TcpConnection} (hs : Serving callback s)
    (hconnecting : s.tcp.state = .kConnecting → tcp = s.tcp)
    (hstate : s.tcp.state ≠ .kConnecting → tcp.state ≠ .kConnecting)
    (hanswered : s.peerGone = false → tcp.state = .kConnected ∨ tcp.state = .kDisconnecting →
      s.tcp.state ≠ .kConnecting → Answered (answers callback s.calls) tcp)
    (hquiet : tcp.state = .kDisconnected → tcp.channel.isWriting = false)
    (htaken : accepted tcp.history = accepted s.tcp.history ∨
      Answered (answers callback s.calls) tcp) : Serving callback { s with tcp } := by
  by_cases hc : s.tcp.state = .kConnecting
  · obtain rfl := hconnecting hc
    exact hs
  · refine ⟨fun h => absurd h (hstate hc), fun _ => hs.parsed hc,
      fun hthere hu => hanswered hthere hu hc, hquiet, ?_⟩
    rcases htaken with htaken | htaken
    · rw [htaken]
      exact hs.taken
    · exact htaken.taken

theorem handleWrite {c : TcpConnection} {r : WriteResult} (hs : Serving callback s)
    (hgone : s.peerGone = true → ∃ errno, r = .failed errno)
    (h : s.tcp.handleWrite r = .ok c) : Serving callback { s with tcp := c } := by
  rcases TcpConnection.handleWrite_cases h with rfl | ⟨n, hwriting, -⟩
  · exact hs
  · by_cases hlost : s.peerGone = true
    · obtain ⟨errno, rfl⟩ := hgone hlost
      obtain rfl := Except.ok.inj ((s.tcp.handleWrite_failed errno).symm.trans h)
      exact hs
    · have hthere : s.peerGone = false := by simpa using hlost
      have hstate := TcpConnection.handleWrite_state h
      by_cases hup : s.tcp.state = .kConnected ∨ s.tcp.state = .kDisconnecting
      · have ha := (hs.answered hthere hup).handleWrite h
        refine hs.tcp ?_ (fun hne => by rwa [hstate]) (fun _ _ _ => ha) ?_ (Or.inr ha)
        · intro hc
          rcases hup with hu | hu <;> simp [hc] at hu
        · intro hc
          rcases ha.up with hu | hu <;> simp [hc] at hu
      · -- neither before the connection is established nor after it is closed
        have hidle : s.tcp.channel.isWriting = false := by
          cases hstate' : s.tcp.state with
          | kConnecting =>
            have htcp : s.tcp = {} := congrArg HttpConnection.tcp (hs.fresh hstate')
            rw [htcp]
            decide
          | kDisconnected => exact hs.quiet hstate'
          | kConnected => exact absurd (Or.inl hstate') hup
          | kDisconnecting => exact absurd (Or.inr hstate') hup
        rw [hidle] at hwriting
        cases hwriting

theorem handleClose {c : TcpConnection} (hs : Serving callback s)
    (h : s.tcp.handleClose = .ok c) : Serving callback { s with tcp := c } := by
  simp only [TcpConnection.handleClose, bind_eq_ok, require_eq_ok] at h
  obtain ⟨-, hup, h⟩ := h
  rw [← Except.ok.inj h]
  refine hs.tcp ?_ (by simp) (by simp) (fun _ => isWriting_disableAll s.tcp.channel) (Or.inl rfl)
  intro hc
  rcases hup with hu | hu <;> simp [hc] at hu

theorem connectDestroyed {c : TcpConnection} (hs : Serving callback s)
    (h : s.tcp.connectDestroyed = .ok c) : Serving callback { s with tcp := c } := by
  simp only [TcpConnection.connectDestroyed, bind_eq_ok, require_eq_ok] at h
  obtain ⟨-, -, h⟩ := h
  rw [← Except.ok.inj h]
  by_cases hc : s.tcp.state = .kConnected
  · rw [if_pos hc]
    exact hs.tcp (by simp [hc]) (by simp) (by simp) (fun _ => isWriting_disableAll s.tcp.channel) (Or.inl rfl)
  · rw [if_neg hc]
    exact hs

theorem step {a : ServiceAction} (hs : Serving callback s) (hw : Writes s a)
    (h : a.run callback s = .ok s') : Serving callback s' := by
  cases a with
  | connectEstablished => exact hs.onConnection h
  | handleRead fragment write => exact hs.handleRead hw h
  | handleWrite write =>
    simp only [ServiceAction.run, bind_eq_ok] at h
    obtain ⟨tcp, htcp, h⟩ := h
    rw [← Except.ok.inj h]
    refine hs.handleWrite (fun hgone => ?_) htcp
    have hlost : SocketWrites true write := hgone ▸ hw
    exact hlost s.tcp.outputBuffer
  | handleClose =>
    simp only [ServiceAction.run, bind_eq_ok] at h
    obtain ⟨tcp, htcp, h⟩ := h
    rw [← Except.ok.inj h]
    exact hs.handleClose htcp
  | connectDestroyed =>
    simp only [ServiceAction.run, bind_eq_ok] at h
    obtain ⟨tcp, htcp, h⟩ := h
    rw [← Except.ok.inj h]
    exact hs.connectDestroyed htcp
  | peerReset =>
    rw [← Except.ok.inj h]
    refine ⟨fun hc => ?_, hs.parsed, ?_, hs.quiet, hs.taken⟩
    · rw [hs.fresh hc]
    · intro hthere
      cases hthere

theorem reach (h : System.Reach (serviceMachine callback) Writes s) : Serving callback s := by
  refine System.Reach.invariant (I := Serving callback) ?_ ?_ h
  · rintro t rfl
    exact ⟨fun _ => rfl, by simp, by simp, by simp, List.nil_prefix⟩
  · intro t a t' ht hw hstep
    exact ht.step hw (toOption_eq_some.mp hstep)

end Serving

def takesTen (data : Bytes) : WriteResult := .wrote (min 10 data.length)

def takesAll (data : Bytes) : WriteResult := .wrote data.length

theorem takesTen_possible : SocketWrites false takesTen := fun data => Nat.min_le_right 10 data.length

theorem takesAll_possible : SocketWrites false takesAll := fun data => Nat.le_refl data.length

/-- The request of the root page: the answer is taken in two parts, and the connection closed. -/
theorem reach_root : ∃ s, System.Reach (serviceMachine defaultHttpCallback) Writes s ∧
    s.peerGone = false ∧ s.tcp.state = .kDisconnecting ∧ s.tcp.outputBuffer = [] ∧
    s.calls.length = 1 ∧ s.calls = [.onRequest rootRequest.request] := by
  have hrun : (((serviceMachine defaultHttpCallback).step {} .connectEstablished).bind fun s =>
      if s.peerGone = false then
        ((serviceMachine defaultHttpCallback).step s (.handleRead rootRequest.text takesTen)).bind fun s =>
          if s.peerGone = false then (serviceMachine defaultHttpCallback).step s (.handleWrite takesAll)
          else none
      else none).any (fun s =>
        s.peerGone = false ∧ s.tcp.state = .kDisconnecting ∧ s.tcp.outputBuffer = [] ∧
        s.calls.length = 1 ∧ s.calls = [.onRequest rootRequest.request]) = true := by decide
  obtain ⟨s, hs, hp⟩ := (Option.any_eq_true _ _).mp hrun
  obtain ⟨u, hu, hs⟩ := Option.bind_eq_some_iff.mp hs
  split_ifs at hs with hthere
  obtain ⟨t, ht, hs⟩ := Option.bind_eq_some_iff.mp hs
  split_ifs at hs with hthere'
  have hestablished : System.Reach (serviceMachine defaultHttpCallback) Writes u :=
    .step (a := .connectEstablished) (.init rfl) trivial hu
  have hten : Writes u (.handleRead rootRequest.text takesTen) := by
    rw [Writes, hthere]
    exact takesTen_possible
  have hall : Writes t (.handleWrite takesAll) := by
    rw [Writes, hthere']
    exact takesAll_possible
  exact ⟨s, .step (.step hestablished hten ht) hall hs, of_decide_eq_true hp⟩

theorem Answer.framed {a : Answer} (h : a.Plain) (hclose : a.closes = false) :
    Framed a.wire a.reply := by
  cases a with
  | badRequest => cases hclose
  | response r => exact HttpResponse.Plain.framed h hclose

theorem Answer.closing {a : Answer} (h : a.Plain) (hclose : a.closes = true) :
    Closing a.wire a.reply := by
  cases a with
  | badRequest =>
    have hline : ∀ l ∈ [httpVersion ++ ascii ['4', '0', '0', ' '] ++ badRequestReason],
        l ≠ [] ∧ ∀ b ∈ l, b ≠ cr := by decide +kernel
    have hblock := headerBlock_lines hline []
    have hwire : badRequestText = [httpVersion ++ ascii ['4', '0', '0', ' '] ++
        badRequestReason].flatMap (fun l => l ++ crlf) ++ crlf ++ [] := by decide
    rw [← hwire] at hblock
    exact closing_of_headerBlock hblock rfl
  | response r => exact HttpResponse.Plain.closing h hclose

end

end Mutty.Http
