import Mutty.Http.Incremental
import Mutty.Http.Server

/-!
# Which streams trip the parser's assert

A rejected request line stays in the input buffer, and the connection goes on reading after the
400 response. `setMethod` has already stored the method when the line has one, so the next read
enters it a second time. `scan` reads off the bytes alone what the next parse meets: no complete
request yet, a request of some size, or a rejected line, with or without a method.
-/

namespace Mutty.Http

open Mutty.Lib

/-- The line begins with one of the five methods and a space. -/
def HasMethod (line : Bytes) : Prop :=
  find sp line ≠ line.length ∧ HttpRequest.methodOf (line.take (find sp line)) ≠ .kInvalid

instance (line : Bytes) : Decidable (HasMethod line) := inferInstanceAs (Decidable (_ ∧ _))

/-- What follows the method: a target, a space and one of the two versions. -/
def HasTail (rest : Bytes) : Prop :=
  find sp rest ≠ rest.length ∧
    (rest.drop (find sp rest + 1) = versionString .kHttp11 ∨
      rest.drop (find sp rest + 1) = versionString .kHttp10)

instance (rest : Bytes) : Decidable (HasTail rest) := inferInstanceAs (Decidable (_ ∧ _))

def WellFormedLine (line : Bytes) : Prop :=
  HasMethod line ∧ HasTail (line.drop (find sp line + 1))

instance (line : Bytes) : Decidable (WellFormedLine line) := inferInstanceAs (Decidable (_ ∧ _))

inductive Verdict
  | waiting
  | complete (size : ℕ)
  | rejected (hasMethod : Bool)
  deriving DecidableEq, Repr

/-- Header lines up to the first line without a colon; `n` bytes of the request stand before. -/
def scanHeaders (s : Bytes) (n : ℕ) : Verdict :=
  match h : findCRLF s with
  | none => .waiting
  | some i =>
    if colonByte ∈ s.take i then scanHeaders (s.drop (i + 2)) (n + i + 2)
    else .complete (n + i + 2)
termination_by s.length
decreasing_by
  have hb := findCRLF_bound h
  simp only [List.length_drop]
  omega

def scan (s : Bytes) : Verdict :=
  match findCRLF s with
  | none => .waiting
  | some i =>
    if WellFormedLine (s.take i) then scanHeaders (s.drop (i + 2)) (i + 2)
    else .rejected (HasMethod (s.take i))

/-- No fragment arrives after the read that made the parser reject a line with a method. The bytes
`d` are those received since the last request that was handed over. -/
def NoReadAfterMethod : Bytes → List Bytes → Prop
  | _, [] => True
  | d, f :: fs =>
    match scan (d ++ f) with
    | .waiting => NoReadAfterMethod (d ++ f) fs
    | .complete size => NoReadAfterMethod ((d ++ f).drop size) fs
    | .rejected false => True
    | .rejected true => fs = []

/-! ## The request line -/

theorem setVersion_eq (req : HttpRequest) (tail : Bytes) :
    ((HttpContext.setVersion req tail).1 = true ↔
        tail = versionString .kHttp11 ∨ tail = versionString .kHttp10) ∧
      (HttpContext.setVersion req tail).2.method = req.method := by
  have hcat : ∀ c : Char, tail = HttpContext.http1 ++ ascii [c] ↔
      (tail.length = 8 ∧ tail.take 7 = HttpContext.http1) ∧ tail.drop 7 = ascii [c] := by
    intro c
    constructor
    · rintro rfl
      exact ⟨⟨rfl, rfl⟩, rfl⟩
    · rintro ⟨⟨-, htake⟩, hdrop⟩
      rw [← List.take_append_drop 7 tail, htake, hdrop]
  unfold HttpContext.setVersion versionString
  rw [hcat, hcat]
  split_ifs with h h1 h0 <;> simp_all

theorem setTarget_method (req : HttpRequest) (target : Bytes) :
    (HttpContext.setTarget req target).method = req.method := by
  unfold HttpContext.setTarget
  dsimp only
  split_ifs <;> rfl

namespace HttpContext

/-- On a request without a method, `processRequestLine` accepts the well-formed lines, and stores
the method of every line that has one. -/
theorem processRequestLine_fresh {req : HttpRequest} (h : req.method = .kInvalid)
    (line : Bytes) :
    ∃ req', processRequestLine req line = .ok (decide (WellFormedLine line), req') ∧
      (req'.method ≠ .kInvalid ↔ HasMethod line) := by
  set word := line.take (find sp line) with hword
  have hset : req.setMethod word =
      .ok (HttpRequest.methodOf word ≠ .kInvalid,
        { req with method := HttpRequest.methodOf word }) := by
    simp [HttpRequest.setMethod, require, h, bind, Except.bind, pure, Except.pure]
  simp only [processRequestLine, ← hword, hset, bind, Except.bind, pure, Except.pure]
  by_cases hspace : find sp line = line.length
  · rw [if_pos hspace]
    refine ⟨req, ?_, by simp [h, HasMethod, hspace]⟩
    simp [WellFormedLine, HasMethod, hspace]
  · rw [if_neg hspace]
    by_cases hmethod : HttpRequest.methodOf word = .kInvalid
    · rw [if_neg (by simpa using hmethod)]
      refine ⟨_, congrArg Except.ok (Prod.ext ?_ rfl), by simp [HasMethod, hmethod, ← hword]⟩
      simp [WellFormedLine, HasMethod, hmethod, ← hword]
    · rw [if_pos (by simpa using hmethod)]
      have hhas : HasMethod line := ⟨hspace, hmethod⟩
      set rest := line.drop (find sp line + 1) with hrest
      by_cases htail : find sp rest = rest.length
      · rw [if_pos htail]
        refine ⟨_, congrArg Except.ok (Prod.ext ?_ rfl), by simpa [hmethod] using hhas⟩
        simp [WellFormedLine, HasTail, ← hrest, htail]
      · rw [if_neg htail]
        obtain ⟨hok, hm⟩ := setVersion_eq
          (setTarget { req with method := HttpRequest.methodOf word } (rest.take (find sp rest)))
          (rest.drop (find sp rest + 1))
        refine ⟨_, congrArg Except.ok (Prod.ext ?_ rfl), ?_⟩
        · rw [Bool.eq_iff_iff, hok]
          simp [WellFormedLine, hhas, HasTail, ← hrest, htail]
        · rw [hm, setTarget_method]
          simpa [hmethod] using hhas

theorem processRequestLine_again {req : HttpRequest} (h : req.method ≠ .kInvalid) {line : Bytes}
    (hline : HasMethod line) : processRequestLine req line = .error .assertion := by
  have hset : req.setMethod (line.take (find sp line)) = .error .assertion := by
    simp [HttpRequest.setMethod, require, h, bind, Except.bind]
  simp only [processRequestLine, hset, bind, Except.bind]
  exact if_neg hline.1

end HttpContext

theorem find_eq_length_iff {b : UInt8} {s : Bytes} : find b s = s.length ↔ b ∉ s := by
  rw [find, List.findIdx_eq_length]
  constructor
  · intro h hb
    simpa using h b hb
  · rintro h c hc
    simp only [beq_eq_false_iff_ne, ne_eq]
    rintro rfl
    exact h hc

/-! ## What a parse does, from the bytes alone -/

namespace Parsing

open HttpContext

theorem parseRequest_scanHeaders (req : HttpRequest) (s : Bytes) (n : ℕ) :
    (scanHeaders s n = .waiting ∧
      ∃ q, parseRequest ⟨⟨.kExpectHeaders, req⟩, s⟩ = .ok (true, q) ∧
        q.context.state ≠ .kGotAll) ∨
    ∃ m req', scanHeaders s n = .complete (n + m) ∧
      parseRequest ⟨⟨.kExpectHeaders, req⟩, s⟩ = .ok (true, ⟨⟨.kGotAll, req'⟩, s.drop m⟩) := by
  induction s, n using scanHeaders.induct generalizing req with
  | case1 s n hc =>
    refine Or.inl ⟨?_, RequestText.parseRequest_short (Or.inr rfl) hc⟩
    rw [scanHeaders]
    split
    · rfl
    · rename_i hsome
      rw [hc] at hsome
      cases hsome
  | case2 s n i hc hcolon ih =>
    have hbody := parseBody_header (p := ⟨⟨.kExpectHeaders, req⟩, s⟩) rfl hc
      (fun h => find_eq_length_iff.mp h hcolon)
    rw [parseRequest_next (Or.inr rfl) hbody]
    have hscan : scanHeaders s n = scanHeaders (s.drop (i + 2)) (n + i + 2) := by
      rw [scanHeaders]
      split
      · rename_i hnone
        rw [hc] at hnone
        cases hnone
      · rename_i j hj
        obtain rfl : i = j := by simpa [hc] using hj
        exact if_pos hcolon
    rw [hscan]
    rcases ih (req.addHeader (s.take i) (find colonByte (s.take i))) with ⟨hw, q, hq⟩ |
      ⟨m, req', hm, hq⟩
    · exact Or.inl ⟨hw, q, hq⟩
    · refine Or.inr ⟨i + 2 + m, req', by rw [hm]; congr 1; omega, ?_⟩
      rw [List.drop_drop] at hq
      exact hq
  | case3 s n i hc hcolon =>
    have hbody := parseBody_end (p := ⟨⟨.kExpectHeaders, req⟩, s⟩) rfl hc
      (find_eq_length_iff.mpr hcolon)
    refine Or.inr ⟨i + 2, req, ?_, parseRequest_done hbody⟩
    rw [scanHeaders]
    split
    · rename_i hnone
      rw [hc] at hnone
      cases hnone
    · rename_i j hj
      obtain rfl : i = j := by simpa [hc] using hj
      exact if_neg hcolon

/-- A parser that waits for a request line in front of a rejected one. -/
def Rejecting (hasMethod : Bool) (p : Parsing) : Prop :=
  p.context.state = .kExpectRequestLine ∧
    (p.context.request.method ≠ .kInvalid ↔ hasMethod = true) ∧
    ∃ i, findCRLF p.buffer = some i ∧ ¬ WellFormedLine (p.buffer.take i) ∧
      (HasMethod (p.buffer.take i) ↔ hasMethod = true)

/-- The outcome of a parse from a fresh context, as `scan` foretells it. -/
theorem parseRequest_scan (s : Bytes) :
    match scan s with
    | .waiting => ∃ q, parseRequest ⟨{}, s⟩ = .ok (true, q) ∧ q.context.state ≠ .kGotAll
    | .complete size =>
      ∃ req, parseRequest ⟨{}, s⟩ = .ok (true, ⟨⟨.kGotAll, req⟩, s.drop size⟩)
    | .rejected hasMethod =>
      ∃ q, parseRequest ⟨{}, s⟩ = .ok (false, q) ∧ q.Rejecting hasMethod := by
  cases hc : findCRLF s with
  | none =>
    simp only [scan, hc]
    exact RequestText.parseRequest_short (Or.inl rfl) hc
  | some i =>
    have hfresh : ({} : HttpRequest).method = .kInvalid := rfl
    obtain ⟨req, hline, hmethod⟩ := processRequestLine_fresh hfresh (s.take i)
    have hbody := parseBody_requestLine (p := ⟨{}, s⟩) rfl hc hline
    by_cases hwf : WellFormedLine (s.take i)
    · rw [decide_eq_true hwf] at hbody
      have hnext := parseRequest_next (p := ⟨{}, s⟩) (Or.inl rfl) hbody
      simp only [scan, hc, if_pos hwf, hnext]
      rcases parseRequest_scanHeaders req (s.drop (i + 2)) (i + 2) with ⟨hw, q, hq⟩ |
        ⟨m, req', hm, hq⟩
      · simp only [hw]
        exact ⟨q, hq⟩
      · simp only [hm]
        rw [List.drop_drop] at hq
        exact ⟨req', hq⟩
    · rw [decide_eq_false hwf] at hbody
      simp only [scan, hc, if_neg hwf]
      refine ⟨_, parseRequest_done hbody, rfl, ?_, i, hc, hwf, ?_⟩
      · simpa using hmethod
      · simp

theorem Rejecting.append {hasMethod : Bool} {p : Parsing} (h : p.Rejecting hasMethod)
    (x : Bytes) : (p.append x).Rejecting hasMethod := by
  obtain ⟨hs, hm, i, hc, hline⟩ := h
  refine ⟨hs, hm, i, findCRLF_append hc x, ?_⟩
  rw [append_buffer, (take_append_of_crlf hc x).1]
  exact hline

theorem Rejecting.parseRequest_false {p : Parsing} (h : p.Rejecting false) :
    ∃ q, p.parseRequest = .ok (false, q) ∧ q.Rejecting false := by
  obtain ⟨hs, hm, i, hc, hwf, hhas⟩ := h
  have hinvalid : p.context.request.method = .kInvalid := by simpa using hm
  obtain ⟨req, hline, hmethod⟩ := processRequestLine_fresh hinvalid (p.buffer.take i)
  rw [decide_eq_false hwf] at hline
  refine ⟨_, parseRequest_done (parseBody_requestLine hs hc hline), rfl, ?_, i, hc, hwf, hhas⟩
  rw [hmethod]
  exact hhas

theorem Rejecting.parseRequest_true {p : Parsing} (h : p.Rejecting true) :
    p.parseRequest = .error .assertion := by
  obtain ⟨hs, hm, i, hc, -, hhas⟩ := h
  have hline := processRequestLine_again (hm.mpr rfl) (hhas.mpr rfl)
  refine parseRequest_fault ?_
  simp [parseBody, hs, hc, hline, bind, Except.bind]

end Parsing

/-! ## Connections -/

namespace Connection

open Parsing

theorem handleRead_ok {c : Connection} {f : Bytes} {ok : Bool} {q : Parsing}
    (h : (c.parsing.append f).parseRequest = .ok (ok, q)) :
    ∃ calls, c.handleRead f =
      .ok ⟨if q.context.gotAll then {} else q.context, q.buffer, calls⟩ := by
  have hp : parseRequest ⟨c.context, c.inputBuffer ++ f⟩ = .ok (ok, q) := h
  simp only [handleRead, onMessage, parsing, hp, bind, Except.bind, pure, Except.pure]
  split_ifs <;> exact ⟨_, rfl⟩

theorem handleRead_fault {c : Connection} {f : Bytes} {e : Fault}
    (h : (c.parsing.append f).parseRequest = .error e) : c.handleRead f = .error e := by
  have hp : parseRequest ⟨c.context, c.inputBuffer ++ f⟩ = .error e := h
  simp [handleRead, onMessage, parsing, hp, bind, Except.bind]

theorem deliver_cons {c c' : Connection} {f : Bytes} (h : c.handleRead f = .ok c')
    (fs : List Bytes) : c.deliver (f :: fs) = c'.deliver fs := by
  simp [deliver, h, bind, Except.bind]

theorem deliver_rejecting (fs : List Bytes) {c : Connection}
    (h : c.parsing.Rejecting false) : ∃ c', c.deliver fs = .ok c' := by
  induction fs generalizing c with
  | nil => exact ⟨c, rfl⟩
  | cons f fs ih =>
    obtain ⟨q, hq, hrej⟩ := (h.append f).parseRequest_false
    obtain ⟨calls, hread⟩ := handleRead_ok hq
    have hgot : q.context.gotAll = false := by simp [HttpContext.gotAll, hrej.1]
    rw [deliver_cons hread]
    refine ih ?_
    rw [hgot]
    exact hrej

/-- From a connection that has received `d` since the last request, the fragments are read without
a fault or trip the assert, as `NoReadAfterMethod` says. -/
theorem deliver_holds (fs : List Bytes) {c : Connection} {d : Bytes} (hc : c.Holds d) :
    (NoReadAfterMethod d fs ∧ ∃ c', c.deliver fs = .ok c') ∨
      (¬ NoReadAfterMethod d fs ∧ c.deliver fs = .error .assertion) := by
  induction fs generalizing c d with
  | nil => exact Or.inl ⟨trivial, c, rfl⟩
  | cons f fs ih =>
    have hparse := hc.2 f
    have hscan := parseRequest_scan (d ++ f)
    simp only [NoReadAfterMethod]
    cases hv : scan (d ++ f) with
    | waiting =>
      simp only [hv] at hscan ⊢
      obtain ⟨q, hq, hstate⟩ := hscan
      obtain ⟨calls, hread⟩ := handleRead_ok (hparse.trans hq)
      have hgot : q.context.gotAll = false := by simpa [HttpContext.gotAll] using hstate
      rw [deliver_cons hread]
      refine ih ?_
      rw [hgot]
      have hactive : Active ⟨{}, d ++ f⟩ := Or.inl rfl
      refine ⟨(parseRequest_resume hactive hq hstate []).2, fun x => ?_⟩
      exact (parseRequest_resume hactive hq hstate x).1.symm
    | complete size =>
      simp only [hv] at hscan ⊢
      obtain ⟨req, hq⟩ := hscan
      obtain ⟨calls, hread⟩ := handleRead_ok (hparse.trans hq)
      rw [deliver_cons hread]
      exact ih (holds_fresh _ calls)
    | rejected hasMethod =>
      simp only [hv] at hscan ⊢
      obtain ⟨q, hq, hrej⟩ := hscan
      obtain ⟨calls, hread⟩ := handleRead_ok (hparse.trans hq)
      have hgot : q.context.gotAll = false := by simp [HttpContext.gotAll, hrej.1]
      have hnext : (Connection.mk (if q.context.gotAll then {} else q.context) q.buffer
          calls).parsing.Rejecting hasMethod := by
        rw [hgot]
        exact hrej
      rw [deliver_cons hread]
      cases hasMethod with
      | false => exact Or.inl ⟨trivial, deliver_rejecting fs hnext⟩
      | true =>
        cases fs with
        | nil => exact Or.inl ⟨rfl, _, rfl⟩
        | cons g gs =>
          refine Or.inr ⟨by simp, ?_⟩
          have hfault := handleRead_fault (hnext.append g).parseRequest_true
          simp [deliver, hfault, bind, Except.bind]

end Connection

/-- A connection trips no assert on exactly the streams on which nothing arrives any more once a
line with a method was rejected; on all other streams it does. -/
theorem no_assertion_iff (fragments : List Bytes) :
    Connection.deliver {} fragments ≠ .error .assertion ↔ NoReadAfterMethod [] fragments := by
  rcases Connection.deliver_holds fragments (Connection.holds_fresh [] []) with
    ⟨hsafe, c', hc'⟩ | ⟨hnot, hfault⟩
  · simp [hsafe, hc']
  · simp [hnot, hfault]

/-- `GET /` without a version, and one more byte after the 400 response. -/
theorem assertion_after_bad_request :
    ¬ ∀ fragments : List Bytes, (∀ f ∈ fragments, f ≠ []) →
      Connection.deliver {} fragments ≠ .error .assertion := by
  intro h
  refine h [ascii ['G', 'E', 'T', ' ', '/', '\r', '\n'], ascii ['x']] (by decide) ?_
  decide

end Mutty.Http
