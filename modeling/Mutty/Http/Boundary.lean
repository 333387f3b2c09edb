import Mutty.Http.Safety
import Mutty.Lib.Transition

/-!
# Where a request ends, and where a parse does

The parser ends a request at the first header line without a colon, which is the empty line only
if every line before it has one. `headerBlock` cuts a header block at its first empty line, and
`ColonsInHeaders` says of the fragments of a stream that the lines before it all have a colon.
The loop of `parseRequest` comes to an end in the two states that look for a line, and in no
other.
-/

namespace Mutty.Http

open Mutty.Lib

/-! ## Header blocks -/

/-- The lines before the first empty line, and what follows the empty line once it is there. -/
def headerBlock (s : Bytes) : List Bytes × Option Bytes :=
  match h : findCRLF s with
  | none => ([], none)
  | some 0 => ([], some (s.drop 2))
  | some (i + 1) =>
    let block := headerBlock (s.drop (i + 3))
    (s.take (i + 1) :: block.1, block.2)
termination_by s.length
decreasing_by
  have hb := findCRLF_bound h
  simp only [List.length_drop]
  omega

def Colons (s : Bytes) : Prop := ∀ l ∈ (headerBlock s).1, colonByte ∈ l

instance (s : Bytes) : Decidable (Colons s) := inferInstanceAs (Decidable (∀ l ∈ _, _))

theorem headerBlock_none {s : Bytes} (h : findCRLF s = none) : headerBlock s = ([], none) := by
  rw [headerBlock]
  split <;> simp_all

theorem headerBlock_empty {s : Bytes} (h : findCRLF s = some 0) :
    headerBlock s = ([], some (s.drop 2)) := by
  rw [headerBlock]
  split <;> simp_all

theorem headerBlock_line {s : Bytes} {i : ℕ} (h : findCRLF s = some (i + 1)) :
    headerBlock s = (s.take (i + 1) :: (headerBlock (s.drop (i + 3))).1,
      (headerBlock (s.drop (i + 3))).2) := by
  rw [headerBlock]
  split <;> simp_all

/-- The fragments, read one by one after the bytes `d`, never bring a line without a colon
between an accepted request line and the first empty line. -/
def ColonsInHeaders : Bytes → List Bytes → Prop
  | _, [] => True
  | d, f :: fs =>
    match findCRLF (d ++ f) with
    | none => ColonsInHeaders (d ++ f) fs
    | some i =>
      if WellFormedLine ((d ++ f).take i) then
        Colons ((d ++ f).drop (i + 2)) ∧
          match (headerBlock ((d ++ f).drop (i + 2))).2 with
          | none => ColonsInHeaders (d ++ f) fs
          | some rest => ColonsInHeaders rest fs
      else True

theorem buffer_of_crlf_zero {s : Bytes} (h : findCRLF s = some 0) : s = cr :: lf :: s.drop 2 := by
  obtain ⟨⟨hcr, hlf⟩, -⟩ := findCRLF_eq_some.mp h
  cases s with
  | nil => cases hcr
  | cons a s =>
    cases s with
    | nil => cases hlf
    | cons b s => simp_all

/-! ## The end of a request -/

namespace Parsing

open HttpContext

/-- An iteration that moves the context from the header lines to the end of the request. -/
def EndsRequest (p q : Parsing) : Prop :=
  p.context.state = .kExpectHeaders ∧ q.context.state = .kGotAll ∧
    (p.parseBody = .ok (.inl q) ∨ ∃ ok, p.parseBody = .ok (.inr (ok, q)))

/-- Every iteration of a call of `parseRequest` that ends the request consumes an empty line. -/
def EndsEmpty (p : Parsing) : Prop :=
  ∀ q r, Loop.Visits parseBody p q → EndsRequest q r → q.buffer = cr :: lf :: r.buffer

theorem not_endsRequest_of_next {p q r : Parsing} (hp : p.Active)
    (h : p.parseBody = .ok (.inl q)) : ¬ EndsRequest p r := by
  rintro ⟨-, hgot, hbody | ⟨ok, hbody⟩⟩
  · rw [hbody] at h
    obtain rfl := Sum.inl.inj (Except.ok.inj h)
    rcases (parseBody_inl hp hbody).1 with hs | hs <;> simp [hs] at hgot
  · rw [hbody] at h
    cases h

theorem endsEmpty_next {p q : Parsing} (hp : p.Active) (h : p.parseBody = .ok (.inl q)) :
    p.EndsEmpty ↔ q.EndsEmpty := by
  constructor
  · intro hends u r hu
    exact hends u r ((Loop.visits_next h).mpr (Or.inr hu))
  · intro hends u r hu hr
    rcases (Loop.visits_next h).mp hu with rfl | hu
    · exact absurd hr (not_endsRequest_of_next hp h)
    · exact hends u r hu hr

theorem endsEmpty_of_requestLine {p : Parsing} (hs : p.context.state = .kExpectRequestLine)
    (hlast : ∀ q, p.parseBody ≠ .ok (.inl q)) : p.EndsEmpty := by
  intro q r hv hr
  obtain rfl := (Loop.visits_last hlast).mp hv
  exact absurd hr.1 (by simp [hs])

theorem endsEmpty_none {p : Parsing} (hp : p.Active) (hc : findCRLF p.buffer = none) :
    p.EndsEmpty := by
  have hbody := parseBody_none hp hc
  intro q r hv hr
  obtain rfl := (Loop.visits_last (by simp [hbody])).mp hv
  obtain ⟨hs, hgot, hr | ⟨ok, hr⟩⟩ := hr
  · simp [hbody] at hr
  · simp only [hbody, Except.ok.injEq, Sum.inr.injEq, Prod.mk.injEq] at hr
    simp [← hr.2, hs] at hgot

theorem endsEmpty_last {p : Parsing} {i : ℕ} (hs : p.context.state = .kExpectHeaders)
    (hc : findCRLF p.buffer = some i) (hcolon : p.NoColon i) :
    p.EndsEmpty ↔ i = 0 := by
  have hbody := parseBody_end hs hc hcolon
  have hbound := findCRLF_bound hc
  constructor
  · intro hends
    have heq := hends p (p.afterEnd i) .here ⟨hs, rfl, Or.inr ⟨true, hbody⟩⟩
    have hlen := congrArg List.length heq
    simp only [afterEnd, List.length_cons, List.length_drop] at hlen
    omega
  · rintro rfl q r hv hr
    obtain rfl := (Loop.visits_last (by simp [hbody])).mp hv
    obtain ⟨-, -, hr | ⟨ok, hr⟩⟩ := hr
    · simp [hbody] at hr
    · simp only [hbody, Except.ok.injEq, Sum.inr.injEq, Prod.mk.injEq] at hr
      rw [← hr.2]
      exact buffer_of_crlf_zero hc

/-- On header lines: the request ends at an empty line exactly when every line before it has a
colon. -/
theorem endsEmpty_headers (req : HttpRequest) (s : Bytes) :
    EndsEmpty ⟨⟨.kExpectHeaders, req⟩, s⟩ ↔ Colons s := by
  induction s using headerBlock.induct generalizing req with
  | case1 s hc =>
    simp only [Colons, headerBlock_none hc, List.not_mem_nil, false_imp_iff, implies_true, iff_true]
    exact endsEmpty_none (Or.inr rfl) hc
  | case2 s hc =>
    simp only [Colons, headerBlock_empty hc, List.not_mem_nil, false_imp_iff, implies_true,
      iff_true]
    exact (endsEmpty_last rfl hc (by simp [NoColon, find])).mpr rfl
  | case3 s i hc ih =>
    have hlines : Colons s ↔ colonByte ∈ s.take (i + 1) ∧ Colons (s.drop (i + 3)) := by
      simp only [Colons, headerBlock_line hc, List.forall_mem_cons]
    rw [hlines]
    by_cases hcolon : colonByte ∈ s.take (i + 1)
    · have hbody := parseBody_header (p := ⟨⟨.kExpectHeaders, req⟩, s⟩) rfl hc
        (fun h => find_eq_length_iff.mp h hcolon)
      rw [endsEmpty_next (Or.inr rfl) hbody, and_iff_right hcolon]
      exact ih _
    · have hlast := endsEmpty_last (p := ⟨⟨.kExpectHeaders, req⟩, s⟩) rfl hc
        (find_eq_length_iff.mpr hcolon)
      simp [hlast, hcolon]

theorem parseRequest_headers (req : HttpRequest) (s : Bytes) (h : Colons s) :
    (∀ rest, (headerBlock s).2 = some rest → ∃ req',
      parseRequest ⟨⟨.kExpectHeaders, req⟩, s⟩ = .ok (true, ⟨⟨.kGotAll, req'⟩, rest⟩)) ∧
    ((headerBlock s).2 = none → ∃ q,
      parseRequest ⟨⟨.kExpectHeaders, req⟩, s⟩ = .ok (true, q) ∧
        q.context.state ≠ .kGotAll) := by
  induction s using headerBlock.induct generalizing req with
  | case1 s hc =>
    simp only [headerBlock_none hc, reduceCtorEq, false_imp_iff, implies_true, true_and]
    intro _
    exact RequestText.parseRequest_short (Or.inr rfl) hc
  | case2 s hc =>
    simp only [headerBlock_empty hc, Option.some.injEq, reduceCtorEq, false_imp_iff, and_true]
    rintro rest rfl
    exact ⟨req, parseRequest_done (parseBody_end rfl hc (by simp [NoColon, find]))⟩
  | case3 s i hc ih =>
    simp only [Colons, headerBlock_line hc, List.forall_mem_cons] at h
    have hbody := parseBody_header (p := ⟨⟨.kExpectHeaders, req⟩, s⟩) rfl hc
      (fun hnone => find_eq_length_iff.mp hnone h.1)
    rw [parseRequest_next (Or.inr rfl) hbody, headerBlock_line hc]
    exact ih _ h.2

/-- A parse that waits for more bytes and one that resumes with them end the same requests. -/
theorem endsEmpty_resume {p q : Parsing} (hp : p.Active) (h : p.parseRequest = .ok (true, q))
    (hq : q.context.state ≠ .kGotAll) (x : Bytes) :
    (p.append x).EndsEmpty ↔ (q.append x).EndsEmpty := by
  refine parseRequest_induction hp h (fun p p' hp hb ih => ?_) fun p hp hb => ?_
  · have hx : (p.append x).Active := hp
    rw [endsEmpty_next hx (parseBody_append hp hb x)]
    exact ih
  · rw [parseBody_inr hp hb hq]

theorem Rejecting.endsEmpty {hasMethod : Bool} {p : Parsing} (h : p.Rejecting hasMethod) :
    p.EndsEmpty := by
  obtain ⟨hs, hm, i, hc, hwf, hhas⟩ := h
  refine endsEmpty_of_requestLine hs ?_
  intro q hq
  by_cases hmethod : p.context.request.method = .kInvalid
  · obtain ⟨req, hline, -⟩ := processRequestLine_fresh hmethod (p.buffer.take i)
    rw [parseBody_requestLine hs hc hline, decide_eq_false hwf] at hq
    cases hq
  · have hline := processRequestLine_again hmethod (hhas.mpr (hm.mp hmethod))
    simp [parseBody, hs, hc, hline, bind, Except.bind] at hq

end Parsing

namespace Connection

open Parsing

/-- At every read, the parse of what has arrived ends no request but at an empty line. -/
def ReadsEndEmpty : Connection → List Bytes → Prop
  | _, [] => True
  | c, f :: fs =>
    (c.parsing.append f).EndsEmpty ∧ ∀ c', c.handleRead f = .ok c' → ReadsEndEmpty c' fs

theorem readsEndEmpty_rejecting (fs : List Bytes) {hasMethod : Bool} {c : Connection}
    (h : c.parsing.Rejecting hasMethod) : c.ReadsEndEmpty fs := by
  induction fs generalizing c with
  | nil => trivial
  | cons f fs ih =>
    refine ⟨(h.append f).endsEmpty, ?_⟩
    intro c' hread
    cases hasMethod with
    | true =>
      rw [handleRead_fault (h.append f).parseRequest_true] at hread
      cases hread
    | false =>
      obtain ⟨q, hq, hrej⟩ := (h.append f).parseRequest_false
      obtain ⟨calls, hok⟩ := handleRead_ok hq
      have hgot : q.context.gotAll = false := by simp [HttpContext.gotAll, hrej.1]
      rw [hread, hgot] at hok
      obtain rfl := Except.ok.inj hok
      exact ih hrej

/-- The connection is where a fresh one is that has been given the bytes `d`, also in the
requests it ends. -/
def Awaits (c : Connection) (d : Bytes) : Prop :=
  c.Holds d ∧ ∀ x, (c.parsing.append x).EndsEmpty ↔ EndsEmpty ⟨{}, d ++ x⟩

theorem awaits_fresh (d : Bytes) (calls : List Call) : Awaits ⟨{}, d, calls⟩ d :=
  ⟨holds_fresh d calls, fun _ => Iff.rfl⟩

theorem awaits_of_waiting {d f : Bytes} {q : Parsing} (calls : List Call)
    (hq : parseRequest ⟨{}, d ++ f⟩ = .ok (true, q)) (hstate : q.context.state ≠ .kGotAll) :
    Awaits ⟨q.context, q.buffer, calls⟩ (d ++ f) := by
  have hactive : Active ⟨{}, d ++ f⟩ := Or.inl rfl
  refine ⟨⟨(parseRequest_resume hactive hq hstate []).2, ?_⟩, ?_⟩
  · intro x
    exact (parseRequest_resume hactive hq hstate x).1.symm
  · intro x
    exact (endsEmpty_resume hactive hq hstate x).symm

theorem readsEndEmpty_cons {c c' : Connection} {d f : Bytes} (hc : c.Awaits d)
    (hread : c.handleRead f = .ok c') (fs : List Bytes) :
    c.ReadsEndEmpty (f :: fs) ↔ EndsEmpty ⟨{}, d ++ f⟩ ∧ c'.ReadsEndEmpty fs := by
  simp only [ReadsEndEmpty, hc.2 f, hread, Except.ok.injEq, forall_eq']

theorem handleRead_waiting {c : Connection} {d f : Bytes} {q : Parsing} (hc : c.Awaits d)
    (hq : parseRequest ⟨{}, d ++ f⟩ = .ok (true, q)) (hstate : q.context.state ≠ .kGotAll) :
    ∃ c', c.handleRead f = .ok c' ∧ c'.Awaits (d ++ f) := by
  obtain ⟨calls, hread⟩ := handleRead_ok ((hc.1.2 f).trans hq)
  have hgot : q.context.gotAll = false := by simpa [HttpContext.gotAll] using hstate
  rw [hgot] at hread
  exact ⟨_, hread, awaits_of_waiting calls hq hstate⟩

/-- From a connection that waits with the bytes `d`, requests end at empty lines alone exactly when
the lines before these have colons. -/
theorem readsEndEmpty_iff (fs : List Bytes) {c : Connection} {d : Bytes} (hc : c.Awaits d) :
    c.ReadsEndEmpty fs ↔ ColonsInHeaders d fs := by
  induction fs generalizing c d with
  | nil => exact Iff.rfl
  | cons f fs ih =>
    have hfresh : Active ⟨{}, d ++ f⟩ := Or.inl rfl
    cases hline : findCRLF (d ++ f) with
    | none =>
      have hparse := parseRequest_done (parseBody_none hfresh hline)
      obtain ⟨c', hread, hc'⟩ := handleRead_waiting hc hparse (by simp)
      simp only [ColonsInHeaders, hline]
      rw [readsEndEmpty_cons hc hread, and_iff_right (endsEmpty_none hfresh hline), ih hc']
    | some i =>
      simp only [ColonsInHeaders, hline]
      by_cases hwf : WellFormedLine ((d ++ f).take i)
      · obtain ⟨req, hreq, -⟩ :=
          HttpContext.processRequestLine_fresh (show ({} : HttpRequest).method = .kInvalid from rfl)
            ((d ++ f).take i)
        rw [decide_eq_true hwf] at hreq
        have hbody := parseBody_requestLine (p := ⟨{}, d ++ f⟩) rfl hline hreq
        have hends : EndsEmpty ⟨{}, d ++ f⟩ ↔ Colons ((d ++ f).drop (i + 2)) := by
          rw [endsEmpty_next hfresh hbody]
          exact endsEmpty_headers req _
        have hnext := parseRequest_next hfresh hbody
        rw [if_pos hwf]
        by_cases hcolons : Colons ((d ++ f).drop (i + 2))
        · obtain ⟨hsome, hnone⟩ := parseRequest_headers req _ hcolons
          cases hblock : (headerBlock ((d ++ f).drop (i + 2))).2 with
          | none =>
            obtain ⟨q, hq, hstate⟩ := hnone hblock
            obtain ⟨c', hread, hc'⟩ := handleRead_waiting hc (hnext.trans hq) hstate
            rw [readsEndEmpty_cons hc hread, hends, ih hc']
          | some rest =>
            obtain ⟨req', hq⟩ := hsome rest hblock
            obtain ⟨calls, hread⟩ := handleRead_ok ((hc.1.2 f).trans (hnext.trans hq))
            rw [readsEndEmpty_cons hc hread, hends]
            exact and_congr_right fun _ => ih (awaits_fresh rest calls)
        · refine iff_of_false ?_ fun h => hcolons h.1
          intro h
          exact hcolons (hends.mp ((hc.2 f).mp h.1))
      · -- a rejected line: no later read gets past it
        have hscan := parseRequest_scan (d ++ f)
        simp only [scan, hline, if_neg hwf] at hscan
        obtain ⟨q, hq, hrej⟩ := hscan
        obtain ⟨calls, hread⟩ := handleRead_ok ((hc.1.2 f).trans hq)
        have hgot : q.context.gotAll = false := by simp [HttpContext.gotAll, hrej.1]
        have hnext : EndsEmpty ⟨{}, d ++ f⟩ := by
          obtain ⟨req, hreq, -⟩ :=
            HttpContext.processRequestLine_fresh (show ({} : HttpRequest).method = .kInvalid from rfl)
            ((d ++ f).take i)
          rw [decide_eq_false hwf] at hreq
          have hbody := parseBody_requestLine (p := ⟨{}, d ++ f⟩) rfl hline hreq
          refine endsEmpty_of_requestLine rfl ?_
          intro q' hq'
          rw [hbody] at hq'
          cases hq'
        rw [hgot] at hread
        rw [if_neg hwf, readsEndEmpty_cons hc hread]
        exact iff_of_true ⟨hnext, readsEndEmpty_rejecting fs hrej⟩ trivial

end Connection

/-- On a connection every request ends at an empty line exactly when every line between an accepted
request line and the first empty line after it holds a colon. -/
theorem requests_end_empty_iff (fragments : List Bytes) :
    Connection.ReadsEndEmpty {} fragments ↔ ColonsInHeaders [] fragments :=
  Connection.readsEndEmpty_iff fragments (Connection.awaits_fresh [] [])

/-- `GET / HTTP/1.1` with the line `Host x`, which ends the request, and with `A: b` after it. -/
theorem request_ends_at_host :
    ¬ ∀ fragments : List Bytes, Connection.ReadsEndEmpty {} fragments := by
  intro h
  let line := ascii ['G', 'E', 'T', ' ', '/', ' ', 'H', 'T', 'T', 'P', '/', '1', '.', '1', '\r', '\n']
  let host := ascii ['H', 'o', 's', 't', ' ', 'x', '\r', '\n']
  let left := ascii ['A', ':', ' ', 'b', '\r', '\n', '\r', '\n']
  let request : HttpRequest := { method := .kGet, version := .kHttp11, path := ascii ['/'] }
  have hends := (h [line ++ host ++ left]).1 ⟨⟨.kExpectHeaders, request⟩, host ++ left⟩
    ⟨⟨.kGotAll, request⟩, left⟩ (.next (by decide) .here) ⟨rfl, rfl, Or.inr ⟨true, by decide⟩⟩
  revert hends
  decide

/-! ## Termination -/

namespace HttpContext

theorem processRequestLine_error {req : HttpRequest} {line : Bytes} {e : Fault}
    (h : processRequestLine req line = .error e) : e = .assertion := by
  by_cases hm : req.method = .kInvalid
  · obtain ⟨req', hok, -⟩ := processRequestLine_fresh hm line
    rw [hok] at h
    cases h
  · have hset : req.setMethod (line.take (find sp line)) = .error .assertion := by
      simp [HttpRequest.setMethod, require, hm, bind, Except.bind]
    simp only [processRequestLine, hset, bind, Except.bind, pure, Except.pure] at h
    split_ifs at h
    exact (Except.error.inj h).symm

end HttpContext

namespace Parsing

theorem parseBody_ne_budget {p : Parsing} (hp : p.Active) : p.parseBody ≠ .error .budget := by
  intro h
  rcases parseBody_cases hp with ⟨-, hb⟩ | ⟨i, -, ⟨-, ⟨e, he, hb⟩ | ⟨r, -, hb⟩⟩ |
    ⟨-, ⟨-, hb⟩ | ⟨-, hb⟩⟩⟩
  · simp [hb] at h
  · rw [hb, HttpContext.processRequestLine_error he] at h
    cases h
  · simp [hb] at h
  · simp [hb] at h
  · simp [hb] at h

/-- From an active state the loop ends, and `parseRequest` is what it ends with. -/
theorem ends_parseRequest {p : Parsing} (hp : p.Active) :
    Loop.Ends parseBody p p.parseRequest :=
  Loop.ends_run (P := Active) (μ := fun q => q.buffer.length)
    (fun _ hs => parseBody_ne_budget hs) (fun _ _ hs hb => parseBody_inl hs hb) _ hp
    (Nat.lt_succ_self _)

/-- In the other two states it goes round for ever. -/
theorem not_ends_of_not_active {p : Parsing} (hp : ¬ p.Active) (x : Checked (Bool × Parsing)) :
    ¬ Loop.Ends parseBody p x := by
  refine Loop.not_ends_of_closed (P := fun q => ¬ q.Active) ?_ hp
  intro q hq
  refine ⟨q, ?_, hq⟩
  simp only [Active, not_or] at hq
  cases hs : q.context.state <;> simp_all [parseBody, pure, Except.pure]

theorem parseRequest_settles {p q : Parsing} {ok : Bool} (hp : p.Active)
    (h : p.parseRequest = .ok (ok, q)) : q.Active ∨ q.context.state = .kGotAll := by
  refine Loop.run_invariant (I := Active)
    (Q := fun r => r.2.Active ∨ r.2.context.state = .kGotAll) ?_ ?_ hp h
  · exact fun s s' hs hb => (parseBody_inl hs hb).1
  · intro s r hs hb
    rcases parseBody_cases hs with ⟨-, hb'⟩ | ⟨i, -, ⟨-, ⟨e, -, hb'⟩ | ⟨⟨done, req⟩, -, hb'⟩⟩ |
      ⟨-, ⟨-, hb'⟩ | ⟨-, hb'⟩⟩⟩
    · rw [hb'] at hb
      obtain rfl := Sum.inr.inj (Except.ok.inj hb)
      exact Or.inl hs
    · simp [hb'] at hb
    · rw [hb'] at hb
      cases done with
      | true => simp [afterRequestLine] at hb
      | false =>
        obtain rfl := Sum.inr.inj (Except.ok.inj hb)
        exact Or.inl (Or.inl rfl)
    · simp [hb'] at hb
    · rw [hb'] at hb
      obtain rfl := Sum.inr.inj (Except.ok.inj hb)
      exact Or.inr rfl

end Parsing

inductive ContextCall
  | append (x : Bytes)
  | reset
  | parseRequest

/-- Calls on a context. A call of `parseRequest` that does not return has no state after it. -/
def contextMachine : System Parsing ContextCall where
  init p := p.context = {}
  step p call :=
    match call with
    | .append x => some (p.append x)
    | .reset => some ⟨{}, p.buffer⟩
    | .parseRequest => p.parseRequest.toOption.map Prod.snd

theorem contextMachine_settles {p : Parsing} (h : contextMachine.Reach System.Free p) :
    p.Active ∨ p.context.state = .kGotAll := by
  refine h.invariant (I := fun p => p.Active ∨ p.context.state = .kGotAll) ?_ ?_
  · intro p hp
    exact Or.inl (Or.inl (by rw [show p.context = {} from hp]))
  · intro p call q hp _ hstep
    cases call with
    | append x =>
      obtain rfl := Option.some.inj hstep
      exact hp
    | reset =>
      obtain rfl := Option.some.inj hstep
      exact Or.inl (Or.inl rfl)
    | parseRequest =>
      obtain ⟨⟨ok, q'⟩, hparse, rfl⟩ := Option.map_eq_some_iff.mp hstep
      have hparse' : p.parseRequest = .ok (ok, q') := toOption_eq_some.mp hparse
      by_cases hactive : p.Active
      · exact Parsing.parseRequest_settles hactive hparse'
      · exact absurd ⟨_, hparse', by simp⟩ (Parsing.not_ends_of_not_active hactive (.ok (ok, q')))

/-- In every state that calls on a context reach, and on every buffer, a call of `parseRequest`
ends exactly when the context does not hold a complete request already. -/
theorem parseRequest_ends_iff {p : Parsing} (h : contextMachine.Reach System.Free p)
    (buffer : Bytes) :
    (∃ x, Loop.Ends Parsing.parseBody ⟨p.context, buffer⟩ x) ↔ p.context.gotAll = false := by
  have hgot : p.context.gotAll = false ↔ p.context.state ≠ .kGotAll := by
    simp [HttpContext.gotAll]
  rw [hgot]
  constructor
  · rintro ⟨x, hx⟩ hstate
    refine Parsing.not_ends_of_not_active ?_ x hx
    simp [Parsing.Active, hstate]
  · intro hstate
    have hactive : Parsing.Active ⟨p.context, buffer⟩ :=
      (contextMachine_settles h).resolve_right hstate
    exact ⟨_, Parsing.ends_parseRequest hactive⟩

theorem parseRequest_ends_fresh :
    ∃ x, Loop.Ends Parsing.parseBody ⟨{}, ascii ['\r', '\n']⟩ x :=
  (parseRequest_ends_iff (p := ⟨{}, []⟩) (.init rfl) _).mpr rfl

/-- The text of a request, parsed once; the second call never returns. -/
theorem parseRequest_runs_forever :
    ¬ ∀ p, contextMachine.Reach System.Free p →
      ∀ buffer, ∃ x, Loop.Ends Parsing.parseBody ⟨p.context, buffer⟩ x := by
  intro h
  let text := ascii ['G', 'E', 'T', ' ', '/', ' ', 'H', 'T', 'T', 'P', '/', '1', '.', '1', '\r', '\n',
    '\r', '\n']
  let request : HttpRequest := { method := .kGet, version := .kHttp11, path := ascii ['/'] }
  have hreach : contextMachine.Reach System.Free ⟨⟨.kGotAll, request⟩, []⟩ := by
    have hinit : contextMachine.Reach System.Free ⟨{}, text⟩ := .init rfl
    refine .step (a := .parseRequest) hinit trivial ?_
    have hparse : Parsing.parseRequest ⟨{}, text⟩ = .ok (true, ⟨⟨.kGotAll, request⟩, []⟩) := by
      decide
    simp [contextMachine, hparse, Except.toOption]
  obtain ⟨x, hx⟩ := h _ hreach []
  exact Parsing.not_ends_of_not_active (by simp [Parsing.Active]) x hx

end Mutty.Http
