import Mutty.Http.Request
import Mutty.Lib.Loop

/-!
# The incremental request parser

A `Parsing` is a context together with the unread bytes of the input buffer, `peek()` to
`beginWrite()`. `parseBody` is one iteration of the loop in `parseRequest`. In the states
`kExpectBody` and `kGotAll` an iteration does nothing and asks for another one, so the loop is
entered to an end only from the first two states, where each further iteration consumes a line.
-/

namespace Mutty.Http

open Mutty.Lib

def cr : UInt8 := 13
def lf : UInt8 := 10
def sp : UInt8 := 32
def colonByte : UInt8 := 58
def questionByte : UInt8 := 63

/-- `std::find` on a range: the position of the first `b`, or the length of the range. -/
def find (b : UInt8) (s : Bytes) : ℕ := s.findIdx (· == b)

/-- `std::search` for CR LF from `peek()`. -/
def findCRLF : Bytes → Option ℕ
  | [] => none
  | [_] => none
  | a :: b :: rest =>
    if a = cr ∧ b = lf then some 0 else (findCRLF (b :: rest)).map (· + 1)

/-- `retrieveUntil(peek() + n)`, with its asserts and the one of `retrieve`. -/
def retrieveUntil (buffer : Bytes) (n : ℕ) : Checked Bytes := do
  require (n ≤ buffer.length)
  return buffer.drop n

inductive HttpRequestParseState
  | kExpectRequestLine | kExpectHeaders | kExpectBody | kGotAll
  deriving DecidableEq, Repr

structure HttpContext where
  state : HttpRequestParseState := .kExpectRequestLine
  request : HttpRequest := {}
  deriving DecidableEq, Repr

namespace HttpContext

def gotAll (c : HttpContext) : Bool := c.state = .kGotAll

/-- `setPath` and, when the target holds a question mark, `setQuery`. -/
def setTarget (req : HttpRequest) (target : Bytes) : HttpRequest :=
  let question := find questionByte target
  if question ≠ target.length then
    { req with path := target.take question, query := target.drop question }
  else { req with path := target }

def http1 : Bytes := ascii ['H', 'T', 'T', 'P', '/', '1', '.']

/-- The tail of the request line: `succeed` and the request with its version. -/
def setVersion (req : HttpRequest) (tail : Bytes) : Bool × HttpRequest :=
  if tail.length = 8 ∧ tail.take 7 = http1 then
    if tail.drop 7 = ascii ['1'] then (true, { req with version := .kHttp11 })
    else if tail.drop 7 = ascii ['0'] then (true, { req with version := .kHttp10 })
    else (false, req)
  else (false, req)

def processRequestLine (req : HttpRequest) (line : Bytes) : Checked (Bool × HttpRequest) := do
  let space := find sp line
  if space = line.length then
    return (false, req)
  else
    let (known, req) ← req.setMethod (line.take space)
    if known then
      let rest := line.drop (space + 1)
      let space := find sp rest
      if space = rest.length then
        return (false, req)
      else
        return setVersion (setTarget req (rest.take space)) (rest.drop (space + 1))
    else
      return (false, req)

end HttpContext

structure Parsing where
  context : HttpContext
  buffer : Bytes
  deriving DecidableEq, Repr

namespace Parsing

open HttpContext

def parseBody (p : Parsing) : Checked (Parsing ⊕ (Bool × Parsing)) :=
  match p.context.state with
  | .kExpectRequestLine =>
    match findCRLF p.buffer with
    | some crlf => do
      let (ok, request) ← processRequestLine p.context.request (p.buffer.take crlf)
      if ok then
        let rest ← retrieveUntil p.buffer (crlf + 2)
        return .inl ⟨⟨.kExpectHeaders, request⟩, rest⟩
      else
        return .inr (false, ⟨{ p.context with request }, p.buffer⟩)
    | none => return .inr (true, p)
  | .kExpectHeaders =>
    match findCRLF p.buffer with
    | some crlf =>
      let line := p.buffer.take crlf
      let colon := find colonByte line
      if colon ≠ line.length then do
        let request := p.context.request.addHeader line colon
        let rest ← retrieveUntil p.buffer (crlf + 2)
        return .inl ⟨{ p.context with request }, rest⟩
      else do
        let rest ← retrieveUntil p.buffer (crlf + 2)
        return .inr (true, ⟨{ p.context with state := .kGotAll }, rest⟩)
    | none => return .inr (true, p)
  | .kExpectBody => return .inl p
  | .kGotAll => return .inl p

/-- The loop of `parseRequest`; every further iteration from an active state consumes bytes, so
the budget is one more than the number of unread bytes. -/
def parseRequest (p : Parsing) : Checked (Bool × Parsing) :=
  Loop.run parseBody (p.buffer.length + 1) p

/-- The states in which an iteration of the loop looks for a line. -/
def Active (p : Parsing) : Prop :=
  p.context.state = .kExpectRequestLine ∨ p.context.state = .kExpectHeaders

def append (p : Parsing) (x : Bytes) : Parsing := { p with buffer := p.buffer ++ x }

@[simp] theorem append_context (p : Parsing) (x : Bytes) : (p.append x).context = p.context := rfl

@[simp] theorem append_buffer (p : Parsing) (x : Bytes) :
    (p.append x).buffer = p.buffer ++ x := rfl

@[simp] theorem append_nil (p : Parsing) : p.append [] = p := by simp [append]

theorem append_append (p : Parsing) (x y : Bytes) : (p.append x).append y = p.append (x ++ y) := by
  simp [append]

end Parsing

/-! ## Lines -/

theorem findCRLF_eq_some {s : Bytes} {i : ℕ} :
    findCRLF s = some i ↔ (s[i]? = some cr ∧ s[i + 1]? = some lf) ∧
      ∀ j < i, ¬ (s[j]? = some cr ∧ s[j + 1]? = some lf) := by
  induction s using findCRLF.induct generalizing i with
  | case1 => simp [findCRLF]
  | case2 a => cases i <;> simp [findCRLF]
  | case3 a b rest h =>
    rw [findCRLF, if_pos h]
    constructor
    · rintro ⟨⟩
      simp [h.1, h.2]
    · rintro ⟨-, hi⟩
      cases i with
      | zero => rfl
      | succ i => exact absurd (by simp [h.1, h.2]) (hi 0 (by omega))
  | case4 a b rest h ih =>
    rw [findCRLF, if_neg h]
    cases i with
    | zero => simp [h]
    | succ i =>
      simp only [Option.map_eq_some_iff, Nat.add_right_cancel_iff, exists_eq_right, ih,
        List.getElem?_cons_succ]
      refine and_congr_right fun _ => ⟨fun hj j hlt => ?_, fun hj j hlt => ?_⟩
      · cases j with
        | zero => simpa using h
        | succ j => simpa using hj j (by omega)
      · simpa using hj (j + 1) (by omega)

theorem findCRLF_bound {s : Bytes} {i : ℕ} (h : findCRLF s = some i) : i + 2 ≤ s.length := by
  have hlf := (findCRLF_eq_some.mp h).1.2
  have := (List.getElem?_eq_some_iff.mp hlf).1
  omega

theorem retrieveUntil_crlf {s : Bytes} {i : ℕ} (h : findCRLF s = some i) :
    retrieveUntil s (i + 2) = .ok (s.drop (i + 2)) := by
  have hb := findCRLF_bound h
  simp [retrieveUntil, require, hb, bind, Except.bind, pure, Except.pure]

theorem findCRLF_append {s : Bytes} {i : ℕ} (h : findCRLF s = some i) (x : Bytes) :
    findCRLF (s ++ x) = some i := by
  have hb := findCRLF_bound h
  rw [findCRLF_eq_some] at h ⊢
  have hget : ∀ k, k < s.length → (s ++ x)[k]? = s[k]? := fun k hk =>
    List.getElem?_append_left hk
  rw [hget i (by omega), hget (i + 1) (by omega)]
  refine ⟨h.1, fun j hj => ?_⟩
  rw [hget j (by omega), hget (j + 1) (by omega)]
  exact h.2 j hj

theorem take_append_of_crlf {s : Bytes} {i : ℕ} (h : findCRLF s = some i) (x : Bytes) :
    (s ++ x).take i = s.take i ∧ (s ++ x).drop (i + 2) = s.drop (i + 2) ++ x := by
  have hb := findCRLF_bound h
  exact ⟨List.take_append_of_le_length (by omega), List.drop_append_of_le_length (by omega)⟩

theorem findCRLF_line {l : Bytes} (hl : ∀ b ∈ l, b ≠ cr) (x : Bytes) :
    findCRLF (l ++ cr :: lf :: x) = some l.length := by
  rw [findCRLF_eq_some]
  refine ⟨by simp, fun j hj hcr => ?_⟩
  have hget : (l ++ cr :: lf :: x)[j]? = some l[j] := by
    rw [List.getElem?_append_left hj, List.getElem?_eq_getElem hj]
  rw [hget] at hcr
  exact hl _ (List.getElem_mem hj) (by simpa using hcr.1)

theorem findCRLF_short {l s x y : Bytes} (hl : ∀ b ∈ l, b ≠ cr)
    (hs : s ++ y = l ++ cr :: lf :: x) (hlen : s.length < l.length + 2) : findCRLF s = none := by
  rw [Option.eq_none_iff_forall_ne_some]
  intro i hi
  have hb := findCRLF_bound hi
  have hfull := findCRLF_append hi y
  rw [hs, findCRLF_line hl] at hfull
  have : l.length = i := by simpa using hfull
  omega

namespace Parsing

open HttpContext

theorem parseBody_none {p : Parsing} (hp : p.Active) (hc : findCRLF p.buffer = none) :
    p.parseBody = .ok (.inr (true, p)) := by
  rcases hp with hs | hs <;> simp [parseBody, hs, hc, pure, Except.pure]

/-- What the loop does once the line up to `i` was processed as a request line. -/
def afterRequestLine (p : Parsing) (i : ℕ) : Bool × HttpRequest → Parsing ⊕ (Bool × Parsing)
  | (true, request) => .inl ⟨⟨.kExpectHeaders, request⟩, p.buffer.drop (i + 2)⟩
  | (false, request) => .inr (false, ⟨⟨.kExpectRequestLine, request⟩, p.buffer⟩)

def afterHeader (p : Parsing) (i : ℕ) : Parsing :=
  let line := p.buffer.take i
  ⟨⟨.kExpectHeaders, p.context.request.addHeader line (find colonByte line)⟩,
    p.buffer.drop (i + 2)⟩

def afterEnd (p : Parsing) (i : ℕ) : Parsing :=
  ⟨⟨.kGotAll, p.context.request⟩, p.buffer.drop (i + 2)⟩

def NoColon (p : Parsing) (i : ℕ) : Prop :=
  find colonByte (p.buffer.take i) = (p.buffer.take i).length

theorem parseBody_requestLine {p : Parsing} {i : ℕ} {r : Bool × HttpRequest}
    (hs : p.context.state = .kExpectRequestLine) (hc : findCRLF p.buffer = some i)
    (hline : processRequestLine p.context.request (p.buffer.take i) = .ok r) :
    p.parseBody = .ok (p.afterRequestLine i r) := by
  obtain ⟨ok, request⟩ := r
  cases ok <;>
    simp [parseBody, hs, hc, hline, retrieveUntil_crlf hc, afterRequestLine, bind, Except.bind,
      pure, Except.pure]

theorem parseBody_header {p : Parsing} {i : ℕ} (hs : p.context.state = .kExpectHeaders)
    (hc : findCRLF p.buffer = some i) (hcolon : ¬ p.NoColon i) :
    p.parseBody = .ok (.inl (p.afterHeader i)) := by
  simp only [parseBody, hs, hc, retrieveUntil_crlf hc, afterHeader]
  exact if_pos hcolon

theorem parseBody_end {p : Parsing} {i : ℕ} (hs : p.context.state = .kExpectHeaders)
    (hc : findCRLF p.buffer = some i) (hcolon : p.NoColon i) :
    p.parseBody = .ok (.inr (true, p.afterEnd i)) := by
  simp only [parseBody, hs, hc, retrieveUntil_crlf hc, afterEnd]
  exact if_neg (not_not.mpr hcolon)

theorem parseBody_cases {p : Parsing} (hp : p.Active) :
    (findCRLF p.buffer = none ∧ p.parseBody = .ok (.inr (true, p))) ∨
    ∃ i, findCRLF p.buffer = some i ∧
      ((p.context.state = .kExpectRequestLine ∧
          ((∃ e, processRequestLine p.context.request (p.buffer.take i) = .error e ∧
              p.parseBody = .error e) ∨
            ∃ r, processRequestLine p.context.request (p.buffer.take i) = .ok r ∧
              p.parseBody = .ok (p.afterRequestLine i r))) ∨
        (p.context.state = .kExpectHeaders ∧
          ((¬ p.NoColon i ∧ p.parseBody = .ok (.inl (p.afterHeader i))) ∨
            (p.NoColon i ∧ p.parseBody = .ok (.inr (true, p.afterEnd i)))))) := by
  cases hc : findCRLF p.buffer with
  | none => exact Or.inl ⟨rfl, parseBody_none hp hc⟩
  | some i =>
    refine Or.inr ⟨i, rfl, ?_⟩
    rcases hp with hs | hs
    · refine Or.inl ⟨hs, ?_⟩
      cases hline : processRequestLine p.context.request (p.buffer.take i) with
      | error e =>
        exact Or.inl ⟨e, rfl, by simp [parseBody, hs, hc, hline, bind, Except.bind]⟩
      | ok r => exact Or.inr ⟨r, rfl, parseBody_requestLine hs hc hline⟩
    · refine Or.inr ⟨hs, ?_⟩
      by_cases hcolon : p.NoColon i
      · exact Or.inr ⟨hcolon, parseBody_end hs hc hcolon⟩
      · exact Or.inl ⟨hcolon, parseBody_header hs hc hcolon⟩

/-- An iteration that goes on from an active state consumes a line. -/
theorem parseBody_inl {p q : Parsing} (hp : p.Active) (h : p.parseBody = .ok (.inl q)) :
    q.Active ∧ q.buffer.length < p.buffer.length := by
  rcases parseBody_cases hp with ⟨-, hb⟩ | ⟨i, hc, ⟨-, ⟨e, -, hb⟩ | ⟨⟨ok, request⟩, -, hb⟩⟩ |
    ⟨-, ⟨-, hb⟩ | ⟨-, hb⟩⟩⟩
  · simp [hb] at h
  · simp [hb] at h
  · have hlen := findCRLF_bound hc
    cases ok with
    | false => simp [hb, afterRequestLine] at h
    | true =>
      simp only [hb, afterRequestLine, Except.ok.injEq, Sum.inl.injEq] at h
      subst h
      exact ⟨Or.inr rfl, by simp only [List.length_drop]; omega⟩
  · have hlen := findCRLF_bound hc
    simp only [hb, Except.ok.injEq, Sum.inl.injEq] at h
    subst h
    exact ⟨Or.inr rfl, by simp only [afterHeader, List.length_drop]; omega⟩
  · simp [hb] at h

theorem parseBody_append {p q : Parsing} (hp : p.Active) (h : p.parseBody = .ok (.inl q))
    (x : Bytes) : (p.append x).parseBody = .ok (.inl (q.append x)) := by
  rcases parseBody_cases hp with ⟨-, hb⟩ | ⟨i, hc, ⟨hs, ⟨e, -, hb⟩ | ⟨⟨ok, request⟩, hline, hb⟩⟩ |
    ⟨hs, ⟨hcolon, hb⟩ | ⟨-, hb⟩⟩⟩
  · simp [hb] at h
  · simp [hb] at h
  · obtain ⟨htake, hdrop⟩ := take_append_of_crlf hc x
    rw [← htake] at hline
    have hx := parseBody_requestLine (p := p.append x) hs (findCRLF_append hc x) hline
    cases ok with
    | false => simp [hb, afterRequestLine] at h
    | true =>
      simp only [hb, afterRequestLine, Except.ok.injEq, Sum.inl.injEq] at h
      subst h
      simpa [append, afterRequestLine, hdrop] using hx
  · obtain ⟨htake, hdrop⟩ := take_append_of_crlf hc x
    simp only [hb, Except.ok.injEq, Sum.inl.injEq] at h
    subst h
    have hcolon' : ¬ (p.append x).NoColon i := by
      simpa only [NoColon, append_buffer, htake] using hcolon
    rw [parseBody_header (p := p.append x) hs (findCRLF_append hc x) hcolon']
    simp only [afterHeader, append, htake, hdrop]
  · simp [hb] at h

/-- An iteration that leaves the loop with `true` before the end of the request has found no
line and changed nothing. -/
theorem parseBody_inr {p q : Parsing} (hp : p.Active) (h : p.parseBody = .ok (.inr (true, q)))
    (hq : q.context.state ≠ .kGotAll) : q = p := by
  rcases parseBody_cases hp with ⟨-, hb⟩ | ⟨i, hc, ⟨-, ⟨e, -, hb⟩ | ⟨⟨ok, request⟩, -, hb⟩⟩ |
    ⟨-, ⟨-, hb⟩ | ⟨-, hb⟩⟩⟩
  · simpa [hb, eq_comm] using h
  · simp [hb] at h
  · cases ok <;> simp [hb, afterRequestLine] at h
  · simp [hb] at h
  · simp only [hb, Except.ok.injEq, Sum.inr.injEq, Prod.mk.injEq, true_and] at h
    subst h
    exact absurd rfl hq

theorem parseRequest_next {p q : Parsing} (hp : p.Active) (h : p.parseBody = .ok (.inl q)) :
    p.parseRequest = q.parseRequest := by
  have hq := parseBody_inl hp h
  unfold parseRequest
  rw [Loop.run_next h]
  exact Loop.run_measure (P := Active) (μ := fun r => r.buffer.length)
    (fun s s' hs hb => parseBody_inl hs hb) _ _ q hq.1 hq.2 (by simp)

theorem parseRequest_done {p : Parsing} {r : Bool × Parsing} (h : p.parseBody = .ok (.inr r)) :
    p.parseRequest = .ok r := by
  unfold parseRequest
  exact Loop.run_done h _

theorem parseRequest_fault {p : Parsing} {e : Fault} (h : p.parseBody = .error e) :
    p.parseRequest = .error e := by
  unfold parseRequest
  exact Loop.run_fault h _

/-- Induction on the iterations of a call that has returned: one more before the others, and the
one that leaves the loop. -/
@[elab_as_elim]
theorem parseRequest_induction {r : Bool × Parsing} {motive : Parsing → Prop} {p : Parsing}
    (hp : p.Active) (h : p.parseRequest = .ok r)
    (next : ∀ p q, p.Active → p.parseBody = .ok (.inl q) → motive q → motive p)
    (done : ∀ p, p.Active → p.parseBody = .ok (.inr r) → motive p) : motive p := by
  induction hn : p.buffer.length using Nat.strongRecOn generalizing p with
  | ind n ih =>
    cases hb : p.parseBody with
    | error e => simp [parseRequest_fault hb] at h
    | ok x =>
      cases x with
      | inl q =>
        obtain ⟨hq, hlt⟩ := parseBody_inl hp hb
        rw [parseRequest_next hp hb] at h
        exact next p q hp hb (ih q.buffer.length (by omega) hq h rfl)
      | inr r' =>
        rw [parseRequest_done hb, Except.ok.injEq] at h
        subst h
        exact done p hp hb

/-- Parsing may stop for lack of a line and resume when more bytes have arrived: the outcome is
that of a single parse of all bytes. -/
theorem parseRequest_resume {p q : Parsing} (hp : p.Active)
    (h : p.parseRequest = .ok (true, q)) (hq : q.context.state ≠ .kGotAll) (x : Bytes) :
    (p.append x).parseRequest = (q.append x).parseRequest ∧ q.Active := by
  refine parseRequest_induction hp h (fun p p' hp hb ih => ?_) fun p hp hb => ?_
  · have hx : (p.append x).Active := hp
    rw [parseRequest_next hx (parseBody_append hp hb x)]
    exact ih
  · obtain rfl := parseBody_inr hp hb hq
    exact ⟨rfl, hp⟩

end Parsing
end Mutty.Http
