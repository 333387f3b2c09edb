import Mutty.Http.Context

/-!
# One connection of the HTTP server

A connection carries the parser context and the unread bytes of its input buffer, and here also
the calls `onMessage` has made so far. `handleRead` appends what the socket delivered and calls
`onMessage`, which parses once and hands over at most one request. `served` counts the requests
handed over from the sizes of the fragments and of the requests alone, and `deliver_stream`
shows that the server hands over exactly that many requests of a well-formed stream.
-/

namespace Mutty.Http

open Mutty.Lib

inductive Call
  | badRequest
  | onRequest (request : HttpRequest)
  deriving DecidableEq, Repr

structure Connection where
  context : HttpContext := {}
  inputBuffer : Bytes := []
  calls : List Call := []
  deriving DecidableEq, Repr

namespace Connection

def parsing (c : Connection) : Parsing := ⟨c.context, c.inputBuffer⟩

/-- `HttpServer::onMessage`; `badRequest` is the 400 response followed by `shutdown`. -/
def onMessage (c : Connection) : Checked Connection := do
  let (ok, p) ← c.parsing.parseRequest
  let calls := if ok then c.calls else c.calls ++ [.badRequest]
  if p.context.gotAll then
    return ⟨{}, p.buffer, calls ++ [.onRequest p.context.request]⟩
  else
    return ⟨p.context, p.buffer, calls⟩

def handleRead (c : Connection) (fragment : Bytes) : Checked Connection :=
  onMessage { c with inputBuffer := c.inputBuffer ++ fragment }

def deliver : Connection → List Bytes → Checked Connection
  | c, [] => .ok c
  | c, fragment :: rest => do
    let c ← c.handleRead fragment
    c.deliver rest

def requests (c : Connection) : List HttpRequest :=
  c.calls.filterMap fun call =>
    match call with
    | .onRequest request => some request
    | .badRequest => none

end Connection

/-! ## Well-formed requests -/

def methodString : Method → Bytes
  | .kGet => ascii ['G', 'E', 'T']
  | .kPost => ascii ['P', 'O', 'S', 'T']
  | .kHead => ascii ['H', 'E', 'A', 'D']
  | .kPut => ascii ['P', 'U', 'T']
  | .kDelete => ascii ['D', 'E', 'L', 'E', 'T', 'E']
  | .kInvalid => ascii ['U', 'N', 'K', 'N', 'O', 'W', 'N']

def versionString : Version → Bytes
  | .kHttp11 => HttpContext.http1 ++ ascii ['1']
  | .kHttp10 => HttpContext.http1 ++ ascii ['0']
  | .kUnknown => []

/-- A request as a peer writes it: request line, header lines, empty line. -/
structure RequestText where
  method : Method
  target : Bytes
  version : Version
  fields : List (Bytes × Bytes)
  method_known : method ≠ .kInvalid
  version_known : version ≠ .kUnknown
  target_plain : ∀ b ∈ target, b ≠ sp ∧ b ≠ cr ∧ b ≠ lf
  fields_plain : ∀ h ∈ fields,
    (∀ b ∈ h.1, b ≠ colonByte ∧ b ≠ cr ∧ b ≠ lf) ∧ ∀ b ∈ h.2, b ≠ cr ∧ b ≠ lf

namespace RequestText

def requestLine (r : RequestText) : Bytes :=
  methodString r.method ++ sp :: (r.target ++ sp :: versionString r.version)

def fieldLine (h : Bytes × Bytes) : Bytes := h.1 ++ colonByte :: h.2

def fieldText (h : Bytes × Bytes) : Bytes := fieldLine h ++ [cr, lf]

def headerText (fields : List (Bytes × Bytes)) : Bytes := fields.flatMap fieldText ++ [cr, lf]

def text (r : RequestText) : Bytes := r.requestLine ++ cr :: lf :: headerText r.fields

def lineRequest (r : RequestText) : HttpRequest :=
  { HttpContext.setTarget { method := r.method } r.target with version := r.version }

def addFields (request : HttpRequest) (fields : List (Bytes × Bytes)) : HttpRequest :=
  fields.foldl (fun q h => q.addHeader (fieldLine h) h.1.length) request

def request (r : RequestText) : HttpRequest := addFields r.lineRequest r.fields

end RequestText

def stream (rs : List RequestText) : Bytes := rs.flatMap RequestText.text

theorem find_append {b : UInt8} {s : Bytes} (h : ∀ c ∈ s, c ≠ b) (x : Bytes) :
    find b (s ++ b :: x) = s.length := by
  induction s with
  | nil => simp [find, List.findIdx_cons]
  | cons a s ih =>
    have ha : (a == b) = false := by simpa using h a (by simp)
    have hs := ih fun c hc => h c (by simp [hc])
    simp only [find] at hs
    simp [find, List.findIdx_cons, ha, hs]

theorem find_absent {b : UInt8} {s : Bytes} (h : ∀ c ∈ s, c ≠ b) : find b s = s.length := by
  simpa [find, List.findIdx_eq_length] using h

theorem methodString_plain (m : Method) : ∀ b ∈ methodString m, b ≠ sp ∧ b ≠ cr := by
  cases m <;> simp [methodString, ascii, sp, cr] <;> decide

theorem methodOf_methodString (m : Method) : HttpRequest.methodOf (methodString m) = m := by
  cases m <;> decide

theorem versionString_plain (v : Version) : ∀ b ∈ versionString v, b ≠ cr := by
  cases v <;> simp [versionString, HttpContext.http1, ascii, cr] <;> decide

theorem setVersion_versionString (req : HttpRequest) {v : Version} (hv : v ≠ .kUnknown) :
    HttpContext.setVersion req (versionString v) = (true, { req with version := v }) := by
  cases v with
  | kUnknown => exact absurd rfl hv
  | kHttp10 => rfl
  | kHttp11 => rfl

theorem processRequestLine_words {k : Method} (hk : k ≠ .kInvalid) {t : Bytes}
    (ht : ∀ b ∈ t, b ≠ sp) (tail : Bytes) :
    HttpContext.processRequestLine {} (methodString k ++ sp :: (t ++ sp :: tail)) =
      .ok (HttpContext.setVersion (HttpContext.setTarget { method := k } t) tail) := by
  have hm : ∀ b ∈ methodString k, b ≠ sp := fun b hb => (methodString_plain _ b hb).1
  set line := methodString k ++ sp :: (t ++ sp :: tail) with hline
  have hfirst : find sp line = (methodString k).length := find_append hm _
  have hsecond := find_append ht tail
  have htake : line.take (methodString k).length = methodString k := by
    simp [hline]
  have hdrop : line.drop ((methodString k).length + 1) = t ++ sp :: tail := by
    rw [hline, List.drop_length_add_append]
    rfl
  have htail : (t ++ sp :: tail).drop (t.length + 1) = tail := by
    rw [List.drop_length_add_append]
    rfl
  have hlen : (methodString k).length ≠ line.length := by
    simp [hline]
  have hmethod : HttpRequest.setMethod {} (methodString k) = .ok (true, { method := k }) := by
    simp [HttpRequest.setMethod, require, methodOf_methodString, hk, bind, Except.bind, pure,
      Except.pure]
  simp only [HttpContext.processRequestLine, hfirst, if_neg hlen, htake, hmethod, hdrop, hsecond,
    bind, Except.bind, pure, Except.pure, if_true]
  rw [if_neg (by simp), htail, List.take_left]

namespace RequestText

open HttpContext Parsing

theorem requestLine_plain (r : RequestText) : ∀ b ∈ r.requestLine, b ≠ cr := by
  intro b hb
  simp only [requestLine, List.mem_append, List.mem_cons] at hb
  rcases hb with hb | rfl | hb | rfl | hb
  · exact (methodString_plain _ b hb).2
  · decide
  · exact (r.target_plain b hb).2.1
  · decide
  · exact versionString_plain _ b hb

theorem fieldLine_plain {h : Bytes × Bytes}
    (hh : (∀ b ∈ h.1, b ≠ colonByte ∧ b ≠ cr ∧ b ≠ lf) ∧ ∀ b ∈ h.2, b ≠ cr ∧ b ≠ lf) :
    ∀ b ∈ fieldLine h, b ≠ cr := by
  intro b hb
  simp only [fieldLine, List.mem_append, List.mem_cons] at hb
  rcases hb with hb | rfl | hb
  · exact (hh.1 b hb).2.1
  · decide
  · exact (hh.2 b hb).1

theorem processRequestLine_requestLine (r : RequestText) :
    processRequestLine {} r.requestLine = .ok (true, r.lineRequest) := by
  have ht : ∀ b ∈ r.target, b ≠ sp := fun b hb => (r.target_plain b hb).1
  have hv := setVersion_versionString (setTarget { method := r.method } r.target) r.version_known
  rw [requestLine, processRequestLine_words r.method_known ht, hv]
  rfl

theorem find_fieldLine {h : Bytes × Bytes} (hh : ∀ b ∈ h.1, b ≠ colonByte ∧ b ≠ cr ∧ b ≠ lf) :
    find colonByte (fieldLine h) = h.1.length :=
  find_append (fun b hb => (hh b hb).1) _

/-- From the state after some lines, the header lines and the empty line of a request are
consumed and nothing after them. -/
theorem parseRequest_headerText (request : HttpRequest) (fields : List (Bytes × Bytes))
    (hf : ∀ h ∈ fields,
      (∀ b ∈ h.1, b ≠ colonByte ∧ b ≠ cr ∧ b ≠ lf) ∧ ∀ b ∈ h.2, b ≠ cr ∧ b ≠ lf)
    (rest : Bytes) :
    parseRequest ⟨⟨.kExpectHeaders, request⟩, headerText fields ++ rest⟩ =
      .ok (true, ⟨⟨.kGotAll, addFields request fields⟩, rest⟩) := by
  induction fields generalizing request with
  | nil =>
    have hc : findCRLF (headerText [] ++ rest) = some 0 := findCRLF_line (l := []) (by simp) rest
    rw [parseRequest_done (parseBody_end rfl hc (by simp [NoColon, find]))]
    simp [afterEnd, headerText, addFields]
  | cons h fields ih =>
    have hh := hf h (by simp)
    have heq : headerText (h :: fields) ++ rest =
        fieldLine h ++ cr :: lf :: (headerText fields ++ rest) := by
      simp [headerText, fieldText]
    have hc := findCRLF_line (fieldLine_plain hh) (headerText fields ++ rest)
    rw [heq, parseRequest_next (Or.inr rfl) (parseBody_header rfl hc ?_)]
    · simp only [afterHeader, List.take_left, find_fieldLine hh.1, List.drop_length_add_append]
      exact ih (request.addHeader (fieldLine h) h.1.length) fun g hg => hf g (by simp [hg])
    · simp only [NoColon, List.take_left, find_fieldLine hh.1]
      simp [fieldLine]

theorem parseRequest_text (r : RequestText) (rest : Bytes) :
    parseRequest ⟨{}, r.text ++ rest⟩ = .ok (true, ⟨⟨.kGotAll, r.request⟩, rest⟩) := by
  have hc := findCRLF_line r.requestLine_plain (headerText r.fields ++ rest)
  have heq : r.text ++ rest = r.requestLine ++ cr :: lf :: (headerText r.fields ++ rest) := by
    simp [text]
  have hbody : parseBody ⟨{}, r.requestLine ++ cr :: lf :: (headerText r.fields ++ rest)⟩ =
      .ok (.inl ⟨⟨.kExpectHeaders, r.lineRequest⟩, headerText r.fields ++ rest⟩) := by
    have hline := r.processRequestLine_requestLine
    rw [parseBody_requestLine (r := (true, r.lineRequest)) rfl hc (by rwa [List.take_left])]
    simp only [afterRequestLine, List.drop_length_add_append]
    rfl
  rw [heq, parseRequest_next (Or.inl rfl) hbody]
  exact parseRequest_headerText r.lineRequest r.fields r.fields_plain rest

theorem prefix_line {l s x y : Bytes} (h : s ++ y = l ++ cr :: lf :: x) :
    s.length < l.length + 2 ∨ ∃ s', s = l ++ cr :: lf :: s' ∧ s' ++ y = x := by
  by_cases hlen : s.length < l.length + 2
  · exact Or.inl hlen
  · have h' : s ++ y = (l ++ [cr, lf]) ++ x := by simpa using h
    rcases List.append_eq_append_iff.mp h' with ⟨a, hl, hy⟩ | ⟨a, hs, hx⟩
    · have ha : a = [] := by
        have hlens := congrArg List.length hl
        simp only [List.length_append, List.length_cons, List.length_nil] at hlens
        exact List.eq_nil_of_length_eq_zero (by omega)
      subst ha
      refine Or.inr ⟨[], ?_, by simpa using hy⟩
      simpa using hl.symm
    · exact Or.inr ⟨a, by simpa using hs, hx.symm⟩

theorem parseRequest_short {p : Parsing} (hp : p.Active) (hc : findCRLF p.buffer = none) :
    ∃ q, p.parseRequest = .ok (true, q) ∧ q.context.state ≠ .kGotAll := by
  refine ⟨p, parseRequest_done (parseBody_none hp hc), ?_⟩
  rcases hp with hs | hs <;> simp [hs]

theorem parseRequest_headerText_prefix (request : HttpRequest) (fields : List (Bytes × Bytes))
    (hf : ∀ h ∈ fields,
      (∀ b ∈ h.1, b ≠ colonByte ∧ b ≠ cr ∧ b ≠ lf) ∧ ∀ b ∈ h.2, b ≠ cr ∧ b ≠ lf)
    {s y : Bytes} (hs : s ++ y = headerText fields) (hy : y ≠ []) :
    ∃ q, parseRequest ⟨⟨.kExpectHeaders, request⟩, s⟩ = .ok (true, q) ∧
      q.context.state ≠ .kGotAll := by
  induction fields generalizing request s with
  | nil =>
    have hlen : s.length < 2 := by
      have hlens := congrArg List.length hs
      have hpos := List.length_pos_iff.mpr hy
      simp only [headerText, List.flatMap_nil, List.nil_append, List.length_append,
        List.length_cons, List.length_nil] at hlens
      omega
    have hc := findCRLF_short (l := []) (x := []) (by simp) (by simpa [headerText] using hs) hlen
    exact parseRequest_short (Or.inr rfl) hc
  | cons h fields ih =>
    have hh := hf h (by simp)
    have heq : s ++ y = fieldLine h ++ cr :: lf :: headerText fields := by
      rw [hs]
      simp [headerText, fieldText]
    rcases prefix_line heq with hlen | ⟨s', rfl, hs'⟩
    · exact parseRequest_short (Or.inr rfl) (findCRLF_short (fieldLine_plain hh) heq hlen)
    · have hc := findCRLF_line (fieldLine_plain hh) s'
      rw [parseRequest_next (Or.inr rfl) (parseBody_header rfl hc ?_)]
      · simp only [afterHeader, List.take_left, List.drop_length_add_append]
        exact ih _ (fun g hg => hf g (by simp [hg])) hs'
      · simp only [NoColon, List.take_left, find_fieldLine hh.1]
        simp [fieldLine]

theorem parseRequest_prefix (r : RequestText) {s y : Bytes} (hs : s ++ y = r.text)
    (hy : y ≠ []) :
    ∃ q, parseRequest ⟨{}, s⟩ = .ok (true, q) ∧ q.context.state ≠ .kGotAll := by
  rcases prefix_line hs with hlen | ⟨s', rfl, hs'⟩
  · exact parseRequest_short (Or.inl rfl) (findCRLF_short r.requestLine_plain hs hlen)
  · have hc := findCRLF_line r.requestLine_plain s'
    have hline := r.processRequestLine_requestLine
    rw [parseRequest_next (Or.inl rfl) (parseBody_requestLine (r := (true, r.lineRequest)) rfl hc
      (by rwa [List.take_left]))]
    simp only [List.drop_length_add_append]
    exact parseRequest_headerText_prefix r.lineRequest r.fields r.fields_plain hs' hy

end RequestText

/-! ## Delivering a stream -/

/-- Requests handed over, from the number of bytes pending, the sizes of the fragments still to
come and the sizes of the requests still to be handed over. -/
def served : ℕ → List ℕ → List ℕ → ℕ
  | _, [], _ => 0
  | _, _, [] => 0
  | pending, f :: fs, n :: ns =>
    if n ≤ pending + f then served (pending + f - n) fs ns + 1
    else served (pending + f) fs (n :: ns)

namespace Connection

open Parsing

/-- The connection is where a fresh one is that has been given the bytes `d`. -/
def Holds (c : Connection) (d : Bytes) : Prop :=
  c.parsing.Active ∧
    ∀ x, (c.parsing.append x).parseRequest = parseRequest ⟨{}, d ++ x⟩

theorem holds_fresh (d : Bytes) (calls : List Call) : Holds ⟨{}, d, calls⟩ d :=
  ⟨Or.inl rfl, fun _ => rfl⟩

theorem handleRead_text {c : Connection} {d f rest : Bytes} {r : RequestText} (hc : c.Holds d)
    (hd : d ++ f = r.text ++ rest) :
    c.handleRead f = .ok ⟨{}, rest, c.calls ++ [.onRequest r.request]⟩ := by
  have hp : parseRequest ⟨c.context, c.inputBuffer ++ f⟩ =
      .ok (true, ⟨⟨.kGotAll, r.request⟩, rest⟩) := by
    have hx := hc.2 f
    rw [hd, r.parseRequest_text] at hx
    exact hx
  simp [handleRead, onMessage, parsing, hp, HttpContext.gotAll, bind, Except.bind, pure,
    Except.pure]

theorem handleRead_prefix {c : Connection} {d f y : Bytes} {r : RequestText} (hc : c.Holds d)
    (hd : d ++ f ++ y = r.text) (hy : y ≠ []) :
    ∃ c', c.handleRead f = .ok c' ∧ c'.Holds (d ++ f) ∧ c'.calls = c.calls := by
  obtain ⟨q, hq, hstate⟩ := r.parseRequest_prefix hd hy
  have hp : parseRequest ⟨c.context, c.inputBuffer ++ f⟩ = .ok (true, q) := by
    have hx := hc.2 f
    rw [hq] at hx
    exact hx
  refine ⟨⟨q.context, q.buffer, c.calls⟩, ?_, ?_, rfl⟩
  · simp [handleRead, onMessage, parsing, hp, HttpContext.gotAll, hstate, bind, Except.bind,
      pure, Except.pure]
  · have hactive : Active ⟨{}, d ++ f⟩ := Or.inl rfl
    refine ⟨(parseRequest_resume hactive hq hstate []).2, fun x => ?_⟩
    exact (parseRequest_resume hactive hq hstate x).1.symm

/-- On a stream of requests, whatever was cut where, the requests handed over are the first
`served` ones, in order, and nothing else is called. -/
theorem deliver_stream (fragments : List Bytes) (hne : ∀ f ∈ fragments, f ≠ [])
    (c : Connection) (d : Bytes) (rs : List RequestText) (hc : c.Holds d)
    (hd : d ++ fragments.flatten = stream rs) :
    ∃ c', c.deliver fragments = .ok c' ∧
      c'.calls = c.calls ++ (rs.take (served d.length (fragments.map List.length)
        (rs.map fun r => r.text.length))).map fun r => .onRequest r.request := by
  induction fragments generalizing c d rs with
  | nil => exact ⟨c, rfl, by simp [served]⟩
  | cons f fs ih =>
    have hfs : ∀ g ∈ fs, g ≠ [] := fun g hg => hne g (by simp [hg])
    cases rs with
    | nil =>
      have hf : f = [] := by simp_all [stream]
      exact absurd hf (hne f (by simp))
    | cons r rs =>
      have hd' : (d ++ f) ++ fs.flatten = r.text ++ stream rs := by
        simpa [stream] using hd
      by_cases hlen : r.text.length ≤ d.length + f.length
      · -- the fragment completes the request
        obtain ⟨rest, hrest, hrest'⟩ : ∃ rest, d ++ f = r.text ++ rest ∧
            stream rs = rest ++ fs.flatten := by
          rcases List.append_eq_append_iff.mp hd' with ⟨a, ha, hb⟩ | ⟨a, ha, hb⟩
          · have hnil : a = [] := by
              have hlens := congrArg List.length ha
              simp only [List.length_append] at hlens
              exact List.eq_nil_of_length_eq_zero (by omega)
            subst hnil
            exact ⟨[], by simpa using ha.symm, by simpa using hb.symm⟩
          · exact ⟨a, ha, hb⟩
        have hread := handleRead_text hc hrest
        obtain ⟨c', hc', hcalls⟩ := ih hfs ⟨{}, rest, c.calls ++ [.onRequest r.request]⟩ rest rs
          (holds_fresh rest _) hrest'.symm
        have hsize : d.length + f.length - r.text.length = rest.length := by
          have hlens := congrArg List.length hrest
          simp only [List.length_append] at hlens
          omega
        refine ⟨c', by simp [deliver, hread, hc', bind, Except.bind], ?_⟩
        simp [hcalls, served, hlen, hsize]
      · -- the request is still incomplete
        obtain ⟨y, hy, hy'⟩ : ∃ y, d ++ f ++ y = r.text ∧ y ≠ [] := by
          rcases List.append_eq_append_iff.mp hd' with ⟨a, ha, hb⟩ | ⟨a, ha, hb⟩
          · refine ⟨a, ha.symm, ?_⟩
            rintro rfl
            have hlens := congrArg List.length ha
            simp only [List.length_append, List.append_nil] at hlens
            omega
          · have hlens := congrArg List.length ha
            simp only [List.length_append] at hlens
            omega
        obtain ⟨c₁, hread, hholds, hsame⟩ := handleRead_prefix hc hy hy'
        obtain ⟨c', hc', hcalls⟩ := ih hfs c₁ (d ++ f) (r :: rs) hholds (by simpa using hd)
        refine ⟨c', by simp [deliver, hread, hc', bind, Except.bind], ?_⟩
        rw [hcalls, hsame]
        simp [served, hlen]

end Connection

/-! ## Fragmentation -/

def IsCut (fragments : List Bytes) (s : Bytes) : Prop :=
  (∀ f ∈ fragments, f ≠ []) ∧ fragments.flatten = s

def requestsOf (fragments : List Bytes) : Checked (List HttpRequest) :=
  (Connection.deliver {} fragments).map Connection.requests

theorem requestsOf_stream {rs : List RequestText} {fragments : List Bytes}
    (h : IsCut fragments (stream rs)) :
    requestsOf fragments = .ok ((rs.take (served 0 (fragments.map List.length)
      (rs.map fun r => r.text.length))).map RequestText.request) := by
  obtain ⟨c', hc', hcalls⟩ := Connection.deliver_stream fragments h.1 {} [] rs
    (Connection.holds_fresh [] []) (by simpa using h.2)
  simp only [requestsOf, hc', Except.map]
  rw [Connection.requests, hcalls, List.nil_append, List.filterMap_map]
  exact congrArg Except.ok (congrFun List.filterMap_eq_map _)

theorem text_ne_nil (r : RequestText) : r.text ≠ [] := by
  simp [RequestText.text]

theorem served_self (ns : List ℕ) : served 0 ns ns = ns.length := by
  induction ns with
  | nil => rfl
  | cons n ns ih => simp [served, ih]

theorem served_one (fs : List ℕ) (hpos : ∀ f ∈ fs, 0 < f) (hne : fs ≠ []) (d n : ℕ)
    (hsum : d + fs.sum = n) : served d fs [n] = 1 := by
  induction fs generalizing d with
  | nil => exact absurd rfl hne
  | cons f fs ih =>
    have hf := hpos f (by simp)
    simp only [List.sum_cons] at hsum
    by_cases hfs : fs = []
    · subst hfs
      have hle : n ≤ d + f := by simp only [List.sum_nil] at hsum; omega
      simp [served, hle]
    · have hlt : ¬ n ≤ d + f := by
        obtain ⟨g, gs, rfl⟩ := List.exists_cons_of_ne_nil hfs
        have hg := hpos g (by simp)
        simp only [List.sum_cons] at hsum
        omega
      rw [served, if_neg hlt]
      exact ih (fun g hg => hpos g (by simp [hg])) hfs (d + f) (by omega)

theorem isCut_texts (rs : List RequestText) : IsCut (rs.map RequestText.text) (stream rs) :=
  ⟨by simp [text_ne_nil], by simp [stream, List.flatMap]⟩

theorem isCut_whole {s : Bytes} (hs : s ≠ []) : IsCut [s] s :=
  ⟨by simpa using hs, by simp⟩

theorem cut_lengths {fragments : List Bytes} {s : Bytes} (h : IsCut fragments s) :
    (∀ n ∈ fragments.map List.length, 0 < n) ∧ (fragments.map List.length).sum = s.length := by
  constructor
  · intro n hn
    obtain ⟨f, hf, rfl⟩ := List.mem_map.mp hn
    exact List.length_pos_iff.mpr (h.1 f hf)
  · rw [← h.2, List.length_flatten]

/-- The server is independent of the fragmentation exactly on the streams of at most one
request: `onMessage` hands over one request for each read, however many have arrived. A request ends
with its empty line, since the parser never enters `kExpectBody`. -/
theorem requests_independent_of_cut_iff (rs : List RequestText) :
    (∀ c₁ c₂, IsCut c₁ (stream rs) → IsCut c₂ (stream rs) → requestsOf c₁ = requestsOf c₂) ↔
      rs.length ≤ 1 := by
  constructor
  · intro h
    by_contra hlen
    have hne : stream rs ≠ [] := by
      cases rs with
      | nil => simp at hlen
      | cons r rs => simp [stream, text_ne_nil]
    have heq := h _ _ (isCut_whole hne) (isCut_texts rs)
    rw [requestsOf_stream (isCut_whole hne), requestsOf_stream (isCut_texts rs)] at heq
    have hall : served 0 ((rs.map RequestText.text).map List.length)
        (rs.map fun r => r.text.length) = rs.length := by
      simpa [Function.comp_def] using served_self (rs.map fun r => r.text.length)
    have hone : served 0 ([stream rs].map List.length) (rs.map fun r => r.text.length) ≤ 1 := by
      cases rs with
      | nil => simp [served]
      | cons r rs => simp [served, stream]
    have hsize := congrArg (fun x => (Except.toOption x).map List.length) heq
    simp only [Except.toOption, Option.map_some, List.length_map, List.length_take, hall,
      Option.some.injEq] at hsize
    omega
  · intro hlen c₁ c₂ h₁ h₂
    have hone : ∀ c, IsCut c (stream rs) → requestsOf c = .ok (rs.map RequestText.request) := by
      intro c hc
      rw [requestsOf_stream hc]
      cases rs with
      | nil => simp
      | cons r rest =>
        obtain rfl : rest = [] := by simpa using hlen
        obtain ⟨hpos, hsum⟩ := cut_lengths hc
        have hfs : c.map List.length ≠ [] := by
          intro hnil
          rw [hnil] at hsum
          have := List.length_pos_iff.mpr (text_ne_nil r)
          simp only [List.sum_nil, stream, List.flatMap_cons, List.flatMap_nil,
            List.append_nil] at hsum
          omega
        rw [List.map_singleton, served_one _ hpos hfs 0 r.text.length (by simpa [stream] using hsum)]
        rfl
    rw [hone c₁ h₁, hone c₂ h₂]

def rootRequest : RequestText where
  method := .kGet
  target := ascii ['/']
  version := .kHttp11
  fields := []
  method_known := by decide
  version_known := by decide
  target_plain := by
    simp only [ascii, List.map_cons, List.map_nil, List.mem_singleton, forall_eq]
    decide
  fields_plain := by simp

/-- Two pipelined requests in one read: the second one is not handed over. -/
theorem pipelined_requests_depend_on_cut :
    ¬ ∀ c₁ c₂, IsCut c₁ (stream [rootRequest, rootRequest]) →
      IsCut c₂ (stream [rootRequest, rootRequest]) → requestsOf c₁ = requestsOf c₂ := by
  intro h
  have heq := h [rootRequest.text ++ rootRequest.text] [rootRequest.text, rootRequest.text]
    ⟨by decide, by decide⟩ ⟨by decide, by decide⟩
  have hone : requestsOf [rootRequest.text ++ rootRequest.text] =
      .ok [rootRequest.request] := by decide
  have htwo : requestsOf [rootRequest.text, rootRequest.text] =
      .ok [rootRequest.request, rootRequest.request] := by decide
  rw [hone, htwo] at heq
  simp at heq

end Mutty.Http
