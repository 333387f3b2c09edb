import Mutty.Http.Context

/-!
# Incremental parsing

`feed` appends fragments one at a time and calls `parseRequest` after each, until a call returns
`false` or the request is complete; later fragments are only appended. A line that was found stays
the line when more bytes follow, whether it was accepted, rejected or ended the request, so the
outcome is the one of a single call on all bytes.
-/

namespace Mutty.Http

open Mutty.Lib

namespace HttpContext

theorem processRequestLine_ok {req : HttpRequest} (h : req.method = .kInvalid) (line : Bytes) :
    ∃ r, processRequestLine req line = .ok r := by
  have hset : req.setMethod (line.take (find sp line)) =
      .ok (HttpRequest.methodOf (line.take (find sp line)) ≠ .kInvalid,
        { req with method := HttpRequest.methodOf (line.take (find sp line)) }) := by
    simp [HttpRequest.setMethod, require, h, bind, Except.bind, pure, Except.pure]
  simp only [processRequestLine, hset, bind, Except.bind, pure, Except.pure]
  split_ifs <;> exact ⟨_, rfl⟩

end HttpContext

namespace Parsing

open HttpContext

/-- No method has been set while the request line is awaited. -/
def Fresh (p : Parsing) : Prop :=
  p.context.state = .kExpectRequestLine → p.context.request.method = .kInvalid

theorem parseBody_ok {p : Parsing} (hp : p.Active) (hf : p.Fresh) : ∃ r, p.parseBody = .ok r := by
  rcases parseBody_cases hp with ⟨-, hb⟩ | ⟨i, -, ⟨hs, ⟨e, he, -⟩ | ⟨r, -, hb⟩⟩ |
    ⟨-, ⟨-, hb⟩ | ⟨-, hb⟩⟩⟩
  · exact ⟨_, hb⟩
  · obtain ⟨r, hr⟩ := processRequestLine_ok (hf hs) (p.buffer.take i)
    rw [hr] at he
    cases he
  · exact ⟨_, hb⟩
  · exact ⟨_, hb⟩
  · exact ⟨_, hb⟩

theorem parseBody_inl_fresh {p q : Parsing} (hp : p.Active) (h : p.parseBody = .ok (.inl q)) :
    q.Fresh := by
  intro hs
  rcases parseBody_cases hp with ⟨-, hb⟩ | ⟨i, -, ⟨-, ⟨e, -, hb⟩ | ⟨⟨ok, request⟩, -, hb⟩⟩ |
    ⟨-, ⟨-, hb⟩ | ⟨-, hb⟩⟩⟩
  · simp [hb] at h
  · simp [hb] at h
  · cases ok with
    | false => simp [hb, afterRequestLine] at h
    | true =>
      simp only [hb, afterRequestLine, Except.ok.injEq, Sum.inl.injEq] at h
      subst h
      cases hs
  · simp only [hb, Except.ok.injEq, Sum.inl.injEq] at h
    subst h
    cases hs
  · simp [hb] at h

theorem parseRequest_ok {p : Parsing} (hp : p.Active) (hf : p.Fresh) :
    ∃ r, p.parseRequest = .ok r := by
  induction hn : p.buffer.length using Nat.strongRecOn generalizing p with
  | ind n ih =>
    obtain ⟨r, hb⟩ := parseBody_ok hp hf
    cases r with
    | inl q =>
      obtain ⟨hq, hlt⟩ := parseBody_inl hp hb
      rw [parseRequest_next hp hb]
      exact ih q.buffer.length (by omega) hq (parseBody_inl_fresh hp hb) rfl
    | inr r => exact ⟨r, parseRequest_done hb⟩

/-- A call with this outcome is the last one. -/
def Stopped (r : Bool × Parsing) : Prop := r.1 = false ∨ r.2.context.state = .kGotAll

/-- The line that made an iteration leave the loop for good does so whatever follows it. -/
theorem parseBody_stop {p q : Parsing} {ok : Bool} (hp : p.Active)
    (h : p.parseBody = .ok (.inr (ok, q))) (hstop : Stopped (ok, q)) (x : Bytes) :
    (p.append x).parseBody = .ok (.inr (ok, q.append x)) := by
  rcases parseBody_cases hp with ⟨-, hb⟩ | ⟨i, hc, ⟨hs, ⟨e, -, hb⟩ | ⟨⟨done, request⟩, hline, hb⟩⟩ |
    ⟨hs, ⟨-, hb⟩ | ⟨hcolon, hb⟩⟩⟩
  · -- no line was found: the call returns `true` in an active state
    simp only [hb, Except.ok.injEq, Sum.inr.injEq, Prod.mk.injEq] at h
    obtain ⟨rfl, rfl⟩ := h
    rcases hstop with hstop | hstop
    · cases hstop
    · rcases hp with hs | hs <;> simp [hs] at hstop
  · simp [hb] at h
  · obtain ⟨htake, -⟩ := take_append_of_crlf hc x
    rw [← htake] at hline
    have hx := parseBody_requestLine (p := p.append x) hs (findCRLF_append hc x) hline
    cases done with
    | true => simp [hb, afterRequestLine] at h
    | false =>
      simp only [hb, afterRequestLine, Except.ok.injEq, Sum.inr.injEq, Prod.mk.injEq] at h
      obtain ⟨rfl, rfl⟩ := h
      exact hx
  · simp [hb] at h
  · obtain ⟨htake, hdrop⟩ := take_append_of_crlf hc x
    simp only [hb, Except.ok.injEq, Sum.inr.injEq, Prod.mk.injEq] at h
    obtain ⟨rfl, rfl⟩ := h
    have hcolon' : (p.append x).NoColon i := by
      simpa only [NoColon, append_buffer, htake] using hcolon
    rw [parseBody_end (p := p.append x) hs (findCRLF_append hc x) hcolon']
    simp only [afterEnd, append, hdrop]

theorem parseRequest_stop {p q : Parsing} {ok : Bool} (hp : p.Active)
    (h : p.parseRequest = .ok (ok, q)) (hstop : Stopped (ok, q)) (x : Bytes) :
    (p.append x).parseRequest = .ok (ok, q.append x) := by
  refine parseRequest_induction hp h (fun p p' hp hb ih => ?_) fun p hp hb => ?_
  · have hx : (p.append x).Active := hp
    rw [parseRequest_next hx (parseBody_append hp hb x)]
    exact ih
  · exact parseRequest_done (parseBody_stop hp hb hstop x)

/-- Fragments appended one at a time, with a call of `parseRequest` after each until a call has
returned `false` or `gotAll()` holds. The flag is what the last call returned. -/
def feed : Bool → Parsing → List Bytes → Checked (Bool × Parsing)
  | ok, p, [] => .ok (ok, p)
  | ok, p, f :: fs =>
    if ok ∧ ¬ p.context.gotAll then do
      let (ok, p) ← (p.append f).parseRequest
      feed ok p fs
    else feed ok (p.append f) fs

theorem feed_stopped (fs : List Bytes) {ok : Bool} {p : Parsing} (h : Stopped (ok, p)) :
    feed ok p fs = .ok (ok, p.append fs.flatten) := by
  induction fs generalizing p with
  | nil => simp [feed]
  | cons f fs ih =>
    have hne : ¬ (ok ∧ ¬ p.context.gotAll) := by
      rcases h with rfl | h
      · simp
      · simp [gotAll, show p.context.state = .kGotAll from h]
    rw [feed, if_neg hne, ih (p := p.append f) h, append_append, List.flatten_cons]

/-- Once the bytes `s` have left the parser waiting in `p`, the fragments still to come bring it
to where one call on all bytes does. -/
theorem feed_waiting (fs : List Bytes) {s : Bytes} {p : Parsing}
    (h : parseRequest ⟨{}, s⟩ = .ok (true, p)) (hp : p.context.state ≠ .kGotAll) :
    feed true p fs = parseRequest ⟨{}, s ++ fs.flatten⟩ := by
  induction fs generalizing s p with
  | nil => simp [feed, h]
  | cons f fs ih =>
    have hactive : Active ⟨{}, s⟩ := Or.inl rfl
    have hnext : (p.append f).parseRequest = parseRequest ⟨{}, s ++ f⟩ :=
      (parseRequest_resume hactive h hp f).1.symm
    obtain ⟨⟨ok, q⟩, hq⟩ := parseRequest_ok (p := ⟨{}, s ++ f⟩) (Or.inl rfl) fun _ => rfl
    rw [feed, if_pos ⟨rfl, by simpa [gotAll] using hp⟩, hnext, hq]
    change feed ok q fs = _
    rw [List.flatten_cons, ← List.append_assoc]
    by_cases hstop : Stopped (ok, q)
    · rw [feed_stopped fs hstop]
      exact (parseRequest_stop (p := ⟨{}, s ++ f⟩) (Or.inl rfl) hq hstop fs.flatten).symm
    · simp only [Stopped, not_or, Bool.not_eq_false] at hstop
      obtain ⟨rfl, hstate⟩ := hstop
      exact ih hq hstate

/-- Incremental parsing is one-shot parsing, and neither trips an assert: return value, state,
request and unread bytes agree. -/
theorem feed_eq_parseRequest (fragments : List Bytes) :
    ∃ r, feed true ⟨{}, []⟩ fragments = .ok r ∧
      parseRequest ⟨{}, fragments.flatten⟩ = .ok r := by
  have hempty : parseRequest ⟨{}, []⟩ = .ok (true, ⟨{}, []⟩) :=
    parseRequest_done (parseBody_none (Or.inl rfl) rfl)
  obtain ⟨r, hr⟩ := parseRequest_ok (p := ⟨{}, fragments.flatten⟩) (Or.inl rfl) fun _ => rfl
  refine ⟨r, ?_, hr⟩
  rw [feed_waiting fragments hempty (by decide), List.nil_append, hr]

end Parsing
end Mutty.Http
