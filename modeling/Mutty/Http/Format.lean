import Mutty.Http.Safety

/-!
# The format of a request

`RequestLine` is the grammar of the first line, and `processRequestLine` accepts exactly its
lines. `Printed` is a request with its path and query apart and its header values trimmed, and
`print` writes it down; parsing what was printed gives the request back, with the last of several
values of a field in the header map.
-/

namespace Mutty.Http

open Mutty.Lib

/-! ## The header map -/

namespace Headers

theorem lookup_assign (field value g : Bytes) (m : Headers) :
    (m.assign field value).lookup g = if g = field then some value else m.lookup g := by
  induction m with
  | nil =>
    by_cases hg : g = field
    · subst hg
      simp [assign]
    · have hne : (g == field) = false := by simpa using hg
      simp [assign, List.lookup_cons, hne, hg]
  | cons entry m ih =>
    obtain ⟨f, v⟩ := entry
    by_cases hg : g = field
    · subst hg
      simp only [assign, if_true]
      split_ifs with hf hlt
      · simp [hf]
      · simp
      · have hne : (g == f) = false := by simpa using hf
        simp [List.lookup_cons, hne, ih]
    · have hne : (g == field) = false := by simpa using hg
      simp only [if_neg hg] at ih ⊢
      simp only [assign]
      split_ifs with hf hlt
      · subst hf
        simp [List.lookup_cons, hne]
      · simp [List.lookup_cons, hne]
      · simp only [List.lookup_cons, ih]

theorem mem_assign {field value : Bytes} {m : Headers} {entry : Bytes × Bytes}
    (h : entry ∈ m.assign field value) : entry.1 = field ∨ entry ∈ m := by
  induction m with
  | nil =>
    simp only [assign, List.mem_singleton] at h
    exact Or.inl (by rw [h])
  | cons e m ih =>
    obtain ⟨f, v⟩ := e
    simp only [assign] at h
    split_ifs at h with hf hlt
    · rcases List.mem_cons.mp h with rfl | h
      · exact Or.inl hf.symm
      · exact Or.inr (List.mem_cons_of_mem _ h)
    · rcases List.mem_cons.mp h with rfl | h
      · exact Or.inl rfl
      · exact Or.inr h
    · rcases List.mem_cons.mp h with rfl | h
      · exact Or.inr List.mem_cons_self
      · exact (ih h).imp_right (List.mem_cons_of_mem _)

/-- The order in which `std::map` keeps its keys. -/
def Sorted (m : Headers) : Prop := m.Pairwise fun a b => a.1 < b.1

theorem Sorted.assign {m : Headers} (h : Sorted m) (field value : Bytes) :
    Sorted (m.assign field value) := by
  induction m with
  | nil => exact List.pairwise_singleton _ _
  | cons e m ih =>
    obtain ⟨f, v⟩ := e
    obtain ⟨hfirst, hrest⟩ := List.pairwise_cons.mp h
    simp only [Headers.assign]
    split_ifs with hf hlt
    · exact List.pairwise_cons.mpr ⟨hfirst, hrest⟩
    · refine List.pairwise_cons.mpr ⟨?_, h⟩
      intro b hb
      rcases List.mem_cons.mp hb with rfl | hb
      · exact hlt
      · exact List.lt_trans hlt (hfirst b hb)
    · refine List.pairwise_cons.mpr ⟨?_, ih hrest⟩
      intro b hb
      rcases mem_assign hb with hb | hb
      · rw [hb]
        exact Std.lt_of_le_of_ne (List.not_lt.mp hlt) fun heq => hf heq.symm
      · exact hfirst b hb

def assignAll (m : Headers) (entries : List (Bytes × Bytes)) : Headers :=
  entries.foldl (fun m e => m.assign e.1 e.2) m

theorem Sorted.assignAll {m : Headers} (h : Sorted m) (entries : List (Bytes × Bytes)) :
    Sorted (m.assignAll entries) := by
  induction entries generalizing m with
  | nil => exact h
  | cons e entries ih => exact ih (h.assign e.1 e.2)

theorem lookup_assignAll (g : Bytes) (m : Headers) (entries : List (Bytes × Bytes)) :
    (m.assignAll entries).lookup g = (entries.reverse.lookup g).or (m.lookup g) := by
  induction entries generalizing m with
  | nil => simp [assignAll]
  | cons e entries ih =>
    have hstep : m.assignAll (e :: entries) = (m.assign e.1 e.2).assignAll entries := rfl
    rw [hstep, ih, lookup_assign, List.reverse_cons, List.lookup_append, Option.or_assoc]
    congr 1
    obtain ⟨f, v⟩ := e
    by_cases hg : g = f
    · subst hg
      simp
    · have hne : (g == f) = false := by simpa using hg
      simp [List.lookup_cons, hne, hg]

end Headers

/-! ## The request line -/

def methodNames : List Bytes :=
  [.kGet, .kPost, .kHead, .kPut, .kDelete].map methodString

/-- `line` is a method, the target `t` and a version, with one space between them. -/
def RequestLine (line t : Bytes) : Prop :=
  ∃ m ∈ methodNames, ∃ d ∈ ascii ['0', '1'],
    sp ∉ t ∧ line = m ++ sp :: (t ++ sp :: (HttpContext.http1 ++ [d]))

theorem exists_method_of_name {m : Bytes} (hm : m ∈ methodNames) :
    ∃ k, k ≠ Method.kInvalid ∧ m = methodString k := by
  obtain ⟨k, hk, rfl⟩ := List.mem_map.mp hm
  refine ⟨k, ?_, rfl⟩
  rintro rfl
  simp at hk

theorem methodString_of_known {m : Bytes} (h : HttpRequest.methodOf m ≠ .kInvalid) :
    m ∈ methodNames := by
  unfold HttpRequest.methodOf at h
  split_ifs at h with h1 h2 h3 h4 h5
  · subst h1
    decide
  · subst h2
    decide
  · subst h3
    decide
  · subst h4
    decide
  · subst h5
    decide
  · exact absurd rfl h

theorem exists_version_of_digit {d : UInt8} (hd : d ∈ ascii ['0', '1']) :
    ∃ v, v ≠ Version.kUnknown ∧ HttpContext.http1 ++ [d] = versionString v := by
  simp only [ascii, List.map_cons, List.map_nil, List.mem_cons, List.not_mem_nil, or_false] at hd
  rcases hd with rfl | rfl
  · exact ⟨.kHttp10, by decide, rfl⟩
  · exact ⟨.kHttp11, by decide, rfl⟩

theorem getElem_find {b : UInt8} {s : Bytes} (h : find b s < s.length) : s[find b s] = b := by
  unfold find at h ⊢
  simpa using List.findIdx_getElem (w := h)

theorem find_lt_of_ne {b : UInt8} {s : Bytes} (h : find b s ≠ s.length) :
    find b s < s.length :=
  Nat.lt_of_le_of_ne List.findIdx_le_length h

theorem eq_append_of_find {b : UInt8} {s : Bytes} (h : find b s ≠ s.length) :
    b ∉ s.take (find b s) ∧ s = s.take (find b s) ++ b :: s.drop (find b s + 1) := by
  have hlt := find_lt_of_ne h
  constructor
  · intro hb
    obtain ⟨i, hi, hget⟩ := List.mem_take_iff_getElem.mp hb
    have hfalse := List.not_of_lt_findIdx (Nat.lt_of_lt_of_le hi (Nat.min_le_left _ _))
    rw [hget] at hfalse
    simp at hfalse
  · conv_lhs =>
      rw [← List.take_append_drop (find b s) s, List.drop_eq_getElem_cons hlt, getElem_find hlt]

theorem setTarget_splits {req : HttpRequest} (hquery : req.query = []) (t : Bytes) :
    (HttpContext.setTarget req t).path ++ (HttpContext.setTarget req t).query = t ∧
      questionByte ∉ (HttpContext.setTarget req t).path ∧
      ((HttpContext.setTarget req t).query = [] ∨
        (HttpContext.setTarget req t).query.head? = some questionByte ∧
          (HttpContext.setTarget req t).path.length = find questionByte t) := by
  unfold HttpContext.setTarget
  dsimp only
  split_ifs with h
  · obtain ⟨hpath, hcut⟩ := eq_append_of_find h
    have hlt := find_lt_of_ne h
    refine ⟨List.take_append_drop _ _, hpath, Or.inr ⟨?_, ?_⟩⟩
    · dsimp only
      rw [List.drop_eq_getElem_cons hlt, getElem_find hlt]
      rfl
    · simp only [List.length_take]
      omega
  · refine ⟨by simp [hquery], ?_, Or.inl hquery⟩
    exact find_eq_length_iff.mp (not_not.mp h)

theorem requestLine_of_wellFormed {line : Bytes} (h : WellFormedLine line) :
    ∃ t, RequestLine line t := by
  obtain ⟨⟨hspace, hmethod⟩, hsecond, hversion⟩ := h
  obtain ⟨-, hline⟩ := eq_append_of_find hspace
  obtain ⟨ht, hrest⟩ := eq_append_of_find hsecond
  set rest := line.drop (find sp line + 1) with hrestdef
  have hm := methodString_of_known hmethod
  refine ⟨rest.take (find sp rest), _, hm, ?_⟩
  rcases hversion with hversion | hversion
  · refine ⟨_, List.mem_cons_of_mem _ List.mem_cons_self, ht, ?_⟩
    rw [hversion] at hrest
    conv_lhs => rw [hline, hrest]
    rfl
  · refine ⟨_, List.mem_cons_self, ht, ?_⟩
    rw [hversion] at hrest
    conv_lhs => rw [hline, hrest]
    rfl

theorem processRequestLine_of_requestLine {line t : Bytes} (h : RequestLine line t) :
    ∃ k req, HttpContext.processRequestLine {} line = .ok (true, req) ∧
      req.path = (HttpContext.setTarget { method := k } t).path ∧
      req.query = (HttpContext.setTarget { method := k } t).query := by
  obtain ⟨m, hm, d, hd, ht, rfl⟩ := h
  obtain ⟨k, hk, rfl⟩ := exists_method_of_name hm
  obtain ⟨v, hv, hversion⟩ := exists_version_of_digit hd
  have hplain : ∀ b ∈ t, b ≠ sp := fun b hb heq => ht (heq ▸ hb)
  refine ⟨k, { HttpContext.setTarget { method := k } t with version := v }, ?_, rfl, rfl⟩
  rw [processRequestLine_words hk hplain, hversion, setVersion_versionString _ hv]

/-- On a fresh request the line is accepted exactly when it is a line of the grammar, and then path
and query are its target, cut before the first question mark. -/
theorem processRequestLine_accepts_iff (line : Bytes) :
    ∃ ok req, HttpContext.processRequestLine {} line = .ok (ok, req) ∧
      (ok = true ↔ ∃ t, RequestLine line t) ∧
      ∀ t, RequestLine line t → req.path ++ req.query = t ∧ questionByte ∉ req.path ∧
        (req.query = [] ∨
          req.query.head? = some questionByte ∧ req.path.length = find questionByte t) := by
  obtain ⟨req, hline, -⟩ := HttpContext.processRequestLine_fresh
    (show ({} : HttpRequest).method = .kInvalid from rfl) line
  refine ⟨_, req, hline, ?_, ?_⟩
  · rw [decide_eq_true_eq]
    constructor
    · exact requestLine_of_wellFormed
    · rintro ⟨t, ht⟩
      obtain ⟨k, req', haccept, -⟩ := processRequestLine_of_requestLine ht
      rw [hline, Except.ok.injEq, Prod.mk.injEq, decide_eq_true_eq] at haccept
      exact haccept.1
  · intro t ht
    obtain ⟨k, req', haccept, hpath, hquery⟩ := processRequestLine_of_requestLine ht
    rw [hline, Except.ok.injEq, Prod.mk.injEq] at haccept
    obtain ⟨-, rfl⟩ := haccept
    rw [hpath, hquery]
    exact setTarget_splits rfl t

/-! ## Printing a request -/

/-- A request to be printed. The path stops before the first question mark of the target, and a
query starts there; header values carry no whitespace at either end. -/
structure Printed where
  method : Method
  path : Bytes
  query : Bytes
  version : Version
  headers : List (Bytes × Bytes)
  method_known : method ≠ .kInvalid
  version_known : version ≠ .kUnknown
  path_plain : ∀ b ∈ path, b ≠ sp ∧ b ≠ questionByte ∧ b ≠ cr ∧ b ≠ lf
  query_start : query = [] ∨ query.head? = some questionByte
  query_plain : ∀ b ∈ query, b ≠ sp ∧ b ≠ cr ∧ b ≠ lf
  field_plain : ∀ h ∈ headers, ∀ b ∈ h.1, b ≠ colonByte ∧ b ≠ cr ∧ b ≠ lf
  value_plain : ∀ h ∈ headers, ∀ b ∈ h.2, b ≠ cr ∧ b ≠ lf
  value_trimmed : ∀ h ∈ headers,
    (∀ b ∈ h.2.head?, HttpRequest.isspace b = false) ∧
      ∀ b ∈ h.2.getLast?, HttpRequest.isspace b = false

namespace Printed

open HttpContext

def printHeader (h : Bytes × Bytes) : Bytes := h.1 ++ [colonByte, sp] ++ h.2 ++ [cr, lf]

def print (p : Printed) : Bytes :=
  methodString p.method ++ [sp] ++ p.path ++ p.query ++ [sp] ++ versionString p.version ++
    [cr, lf] ++ p.headers.flatMap printHeader ++ [cr, lf]

/-- The same request with its target in one piece and the space kept in front of each value. -/
def requestText (p : Printed) : RequestText where
  method := p.method
  target := p.path ++ p.query
  version := p.version
  fields := p.headers.map fun h => (h.1, sp :: h.2)
  method_known := p.method_known
  version_known := p.version_known
  target_plain := by
    intro b hb
    rcases List.mem_append.mp hb with hb | hb
    · exact ⟨(p.path_plain b hb).1, (p.path_plain b hb).2.2⟩
    · exact p.query_plain b hb
  fields_plain := by
    intro h hh
    obtain ⟨g, hg, rfl⟩ := List.mem_map.mp hh
    refine ⟨p.field_plain g hg, ?_⟩
    intro b hb
    rcases List.mem_cons.mp hb with rfl | hb
    · decide
    · exact p.value_plain g hg b hb

theorem text_requestText (p : Printed) : p.requestText.text = p.print := by
  have hheaders : (p.headers.map fun h => (h.1, sp :: h.2)).flatMap RequestText.fieldText =
      p.headers.flatMap printHeader := by
    rw [List.flatMap_map]
    congr 1
    funext h
    simp [RequestText.fieldText, RequestText.fieldLine, printHeader]
  simp [RequestText.text, RequestText.requestLine, RequestText.headerText, requestText, print,
    hheaders]

theorem setTarget_target (p : Printed) (req : HttpRequest) (hquery : req.query = []) :
    setTarget req (p.path ++ p.query) = { req with path := p.path, query := p.query } := by
  have hpath : ∀ b ∈ p.path, b ≠ questionByte := fun b hb => (p.path_plain b hb).2.1
  unfold setTarget
  rcases p.query_start with hq | hq
  · rw [hq, List.append_nil, find_absent hpath]
    cases req
    subst hquery
    simp
  · obtain ⟨rest, hrest⟩ := List.head?_eq_some_iff.mp hq
    rw [hrest, find_append hpath]
    simp

theorem trim_value {v : Bytes} (hfirst : ∀ b ∈ v.head?, HttpRequest.isspace b = false)
    (hlast : ∀ b ∈ v.getLast?, HttpRequest.isspace b = false) :
    ((sp :: v).dropWhile HttpRequest.isspace).rdropWhile HttpRequest.isspace = v := by
  have hsp : HttpRequest.isspace sp = true := by decide
  have hdrop : v.dropWhile HttpRequest.isspace = v := by
    cases v with
    | nil => rfl
    | cons b v => simp [List.dropWhile, hfirst b rfl]
  rw [List.dropWhile_cons_of_pos hsp, hdrop, List.rdropWhile_eq_self_iff]
  intro hne
  simp [hlast (v.getLast hne) (List.getLast?_eq_getLast_of_ne_nil hne)]

theorem addHeader_field (req : HttpRequest) {h : Bytes × Bytes}
    (hfirst : ∀ b ∈ h.2.head?, HttpRequest.isspace b = false)
    (hlast : ∀ b ∈ h.2.getLast?, HttpRequest.isspace b = false) :
    req.addHeader (RequestText.fieldLine (h.1, sp :: h.2)) h.1.length =
      { req with headers := req.headers.assign h.1 h.2 } := by
  have htake : (RequestText.fieldLine (h.1, sp :: h.2)).take h.1.length = h.1 := by
    simp [RequestText.fieldLine]
  have hdrop : (RequestText.fieldLine (h.1, sp :: h.2)).drop (h.1.length + 1) = sp :: h.2 := by
    rw [RequestText.fieldLine, List.drop_length_add_append]
    rfl
  simp only [HttpRequest.addHeader, htake, hdrop, trim_value hfirst hlast]

theorem addFields_headers (headers : List (Bytes × Bytes))
    (htrim : ∀ h ∈ headers, (∀ b ∈ h.2.head?, HttpRequest.isspace b = false) ∧
      ∀ b ∈ h.2.getLast?, HttpRequest.isspace b = false) (req : HttpRequest) :
    RequestText.addFields req (headers.map fun h => (h.1, sp :: h.2)) =
      { req with headers := req.headers.assignAll headers } := by
  induction headers generalizing req with
  | nil => rfl
  | cons h headers ih =>
    obtain ⟨hfirst, hlast⟩ := htrim h List.mem_cons_self
    have hstep : RequestText.addFields req ((h :: headers).map fun h => (h.1, sp :: h.2)) =
        RequestText.addFields (req.addHeader (RequestText.fieldLine (h.1, sp :: h.2)) h.1.length)
          (headers.map fun h => (h.1, sp :: h.2)) := rfl
    rw [hstep, addHeader_field req hfirst hlast, ih fun g hg => htrim g (List.mem_cons_of_mem _ hg)]
    rfl

def request (p : Printed) : HttpRequest :=
  { method := p.method, version := p.version, path := p.path, query := p.query,
    headers := Headers.assignAll [] p.headers }

theorem request_requestText (p : Printed) : p.requestText.request = p.request := by
  have htarget := p.setTarget_target { method := p.method } rfl
  have hfields := addFields_headers p.headers p.value_trimmed p.requestText.lineRequest
  have hline : p.requestText.lineRequest =
      { method := p.method, version := p.version, path := p.path, query := p.query } := by
    simp only [RequestText.lineRequest, requestText, htarget]
  rw [RequestText.request]
  refine hfields.trans ?_
  rw [hline]
  rfl

end Printed

/-- Parsing undoes printing: method, version, path and query come back, each field has one entry
in the header map, with the value printed last, and the bytes after the request stay unread. -/
theorem parseRequest_print (p : Printed) (trailing : Bytes) :
    ∃ context : HttpContext,
      Parsing.parseRequest ⟨{}, p.print ++ trailing⟩ = .ok (true, ⟨context, trailing⟩) ∧
      context.gotAll = true ∧
      context.request.method = p.method ∧ context.request.version = p.version ∧
      context.request.path = p.path ∧ context.request.query = p.query ∧
      context.request.headers.Sorted ∧
      ∀ field, context.request.headers.lookup field = p.headers.reverse.lookup field := by
  have hparse := p.requestText.parseRequest_text trailing
  rw [p.text_requestText, p.request_requestText] at hparse
  refine ⟨_, hparse, rfl, rfl, rfl, rfl, rfl, ?_, ?_⟩
  · exact Headers.Sorted.assignAll List.Pairwise.nil p.headers
  · intro field
    have hlookup := Headers.lookup_assignAll field [] p.headers
    rw [List.lookup_nil, Option.or_none] at hlookup
    exact hlookup

/-- `GET /?q` with the field `A` twice. -/
def Printed.repeated : Printed where
  method := .kGet
  path := [47]
  query := [questionByte, 113]
  version := .kHttp11
  headers := [([65], [49]), ([65], [50])]
  method_known := by simp
  version_known := by simp
  path_plain := by simp [sp, questionByte, cr, lf]
  query_start := by simp
  query_plain := by simp [sp, questionByte, cr, lf]
  field_plain := by simp [colonByte, cr, lf]
  value_plain := by simp [cr, lf]
  value_trimmed := by simp [HttpRequest.isspace]

example : (Parsing.parseRequest ⟨{}, Printed.repeated.print ++ [71]⟩).toOption.map
      (fun r => (r.1, r.2.context.request.headers, r.2.buffer)) =
    some (true, [([65], [50])], [71]) := by decide

end Mutty.Http
