import Mutty.Http.Boundary
import Mutty.Http.Format
import Mutty.Lib.Decimal

/-!
# Responses and how a peer cuts them apart

`appendToBuffer` writes a response. A keep-alive response carries its body's length, a closing one
ends with the connection. `readReply` is what a peer does with the bytes: the header block up to its
empty line, then as many bytes as `Content-Length` says, or all that is left. `readReplies` cuts a
stream; it finds a keep-alive response as soon as its last byte has arrived, never an early or a
misplaced one, and of a closing response what has arrived of the body.
-/

namespace Mutty.Http

open Mutty.Lib

inductive HttpStatusCode
  | kUnknown | k200Ok | k301MovedPermanently | k400BadRequest | k404NotFound
  deriving DecidableEq, Repr

def HttpStatusCode.value : HttpStatusCode → ℕ
  | .kUnknown => 0
  | .k200Ok => 200
  | .k301MovedPermanently => 301
  | .k400BadRequest => 400
  | .k404NotFound => 404

structure HttpResponse where
  headers : Headers := []
  statusCode : HttpStatusCode := .kUnknown
  statusMessage : Bytes := []
  closeConnection : Bool
  body : Bytes := []
  deriving DecidableEq, Repr

def crlf : Bytes := [cr, lf]

def httpVersion : Bytes := ascii ['H', 'T', 'T', 'P', '/', '1', '.', '1', ' ']

def contentLengthName : Bytes :=
  ascii ['C', 'o', 'n', 't', 'e', 'n', 't', '-', 'L', 'e', 'n', 'g', 't', 'h']

def contentTypeName : Bytes := ascii ['C', 'o', 'n', 't', 'e', 'n', 't', '-', 'T', 'y', 'p', 'e']

def connectionName : Bytes := ascii ['C', 'o', 'n', 'n', 'e', 'c', 't', 'i', 'o', 'n']

def closeToken : Bytes := ascii ['c', 'l', 'o', 's', 'e']

def keepAliveToken : Bytes := ascii ['K', 'e', 'e', 'p', '-', 'A', 'l', 'i', 'v', 'e']

def colonSpace : Bytes := [colonByte, sp]

namespace HttpResponse

def setStatusCode (r : HttpResponse) (code : HttpStatusCode) : HttpResponse :=
  { r with statusCode := code }

def setStatusMessage (r : HttpResponse) (message : Bytes) : HttpResponse :=
  { r with statusMessage := message }

def setCloseConnection (r : HttpResponse) (on : Bool) : HttpResponse :=
  { r with closeConnection := on }

def addHeader (r : HttpResponse) (key value : Bytes) : HttpResponse :=
  { r with headers := r.headers.assign key value }

def setContentType (r : HttpResponse) (contentType : Bytes) : HttpResponse :=
  r.addHeader contentTypeName contentType

def setBody (r : HttpResponse) (body : Bytes) : HttpResponse := { r with body }

def appendToBuffer (r : HttpResponse) (output : Bytes) : Bytes :=
  let buf := snprintf 32 (httpVersion ++ decimal r.statusCode.value ++ [sp])
  let output := output ++ buf ++ r.statusMessage ++ crlf
  let output :=
    if r.closeConnection then output ++ (connectionName ++ colonSpace ++ closeToken ++ crlf)
    else
      let buf := snprintf 32 (contentLengthName ++ colonSpace ++ decimal r.body.length ++ crlf)
      output ++ buf ++ (connectionName ++ colonSpace ++ keepAliveToken ++ crlf)
  let output := r.headers.foldl
    (fun output header => output ++ header.1 ++ colonSpace ++ header.2 ++ crlf) output
  output ++ crlf ++ r.body

end HttpResponse

/-! ## The reader -/

/-- A header line: the name before the colon, the value after it without white space around. -/
def readField (line : Bytes) : Bytes × Bytes :=
  let colon := find colonByte line
  (line.take colon,
    ((line.drop (colon + 1)).dropWhile HttpRequest.isspace).rdropWhile HttpRequest.isspace)

structure Reply where
  code : ℕ
  reason : Bytes
  fields : List (Bytes × Bytes)
  body : Bytes
  deriving DecidableEq, Repr

def readStatus (line : Bytes) : ℕ × Bytes :=
  let rest := line.drop httpVersion.length
  (readDecimal (rest.take (find sp rest)), rest.drop (find sp rest + 1))

/-- The first reply of a stream and what follows it. -/
def readReply (s : Bytes) : Option (Reply × Bytes) :=
  match headerBlock s with
  | (statusLine :: lines, some rest) =>
    let status := readStatus statusLine
    let fields := lines.map readField
    match fields.lookup contentLengthName with
    | some value =>
      let n := readDecimal value
      if n ≤ rest.length then some (⟨status.1, status.2, fields, rest.take n⟩, rest.drop n)
      else none
    | none => some (⟨status.1, status.2, fields, rest⟩, [])
  | _ => none

theorem headerBlock_rest_lt {s rest : Bytes} (h : (headerBlock s).2 = some rest) :
    rest.length < s.length := by
  induction s using headerBlock.induct with
  | case1 s hc => simp [headerBlock_none hc] at h
  | case2 s hc =>
    rw [headerBlock_empty hc, Option.some.injEq] at h
    have hb := findCRLF_bound hc
    rw [← h, List.length_drop]
    omega
  | case3 s i hc ih =>
    rw [headerBlock_line hc] at h
    have hlt := ih h
    rw [List.length_drop] at hlt
    omega

theorem readReply_lt {s rest : Bytes} {reply : Reply} (h : readReply s = some (reply, rest)) :
    rest.length < s.length := by
  unfold readReply at h
  split at h
  · rename_i statusLine lines body hb
    have hlt : body.length < s.length := headerBlock_rest_lt (by rw [hb])
    dsimp only at h
    split at h
    · split_ifs at h
      simp only [Option.some.injEq, Prod.mk.injEq] at h
      rw [← h.2, List.length_drop]
      omega
    · simp only [Option.some.injEq, Prod.mk.injEq] at h
      rw [← h.2, List.length_nil]
      omega
  · cases h

/-- All replies that have arrived in full, and the bytes after them. -/
def readReplies (s : Bytes) : List Reply × Bytes :=
  match _h : readReply s with
  | none => ([], s)
  | some (reply, rest) =>
    let more := readReplies rest
    (reply :: more.1, more.2)
termination_by s.length
decreasing_by exact readReply_lt ‹readReply s = some (reply, rest)›

theorem readReply_nil : readReply [] = none := by
  simp only [readReply, headerBlock_none (s := []) rfl]

theorem readReplies_none {s : Bytes} (h : readReply s = none) : readReplies s = ([], s) := by
  rw [readReplies]
  split <;> simp_all

theorem readReplies_some {s rest : Bytes} {reply : Reply} (h : readReply s = some (reply, rest)) :
    readReplies s = (reply :: (readReplies rest).1, (readReplies rest).2) := by
  rw [readReplies]
  split <;> simp_all

theorem headerBlock_append {s rest : Bytes} (h : (headerBlock s).2 = some rest) (y : Bytes) :
    headerBlock (s ++ y) = ((headerBlock s).1, some (rest ++ y)) := by
  induction s using headerBlock.induct with
  | case1 s hc => simp [headerBlock_none hc] at h
  | case2 s hc =>
    rw [headerBlock_empty hc, Option.some.injEq] at h
    rw [headerBlock_empty hc, headerBlock_empty (findCRLF_append hc y)]
    rw [(take_append_of_crlf hc y).2, ← h]
  | case3 s i hc ih =>
    rw [headerBlock_line hc] at h ⊢
    obtain ⟨htake, hdrop⟩ := take_append_of_crlf hc y
    rw [headerBlock_line (findCRLF_append hc y), htake]
    rw [show i + 3 = i + 1 + 2 from rfl, hdrop, ih h]

theorem headerBlock_lines {lines : List Bytes} (hl : ∀ l ∈ lines, l ≠ [] ∧ ∀ b ∈ l, b ≠ cr)
    (rest : Bytes) :
    headerBlock (lines.flatMap (fun l => l ++ crlf) ++ crlf ++ rest) = (lines, some rest) := by
  induction lines with
  | nil =>
    have hc : findCRLF (crlf ++ rest) = some 0 := findCRLF_line (l := []) (by simp) rest
    rw [List.flatMap_nil, List.nil_append, headerBlock_empty hc]
    rfl
  | cons l lines ih =>
    obtain ⟨hne, hcr⟩ := hl l (by simp)
    have heq : (l :: lines).flatMap (fun l => l ++ crlf) ++ crlf ++ rest =
        l ++ cr :: lf :: (lines.flatMap (fun l => l ++ crlf) ++ crlf ++ rest) := by
      simp [crlf]
    obtain ⟨i, hi⟩ := Nat.exists_eq_succ_of_ne_zero (mt List.length_eq_zero_iff.mp hne)
    have hc := findCRLF_line hcr (lines.flatMap (fun l => l ++ crlf) ++ crlf ++ rest)
    rw [heq, headerBlock_line (hc.trans (congrArg some hi))]
    have htake : (l ++ cr :: lf :: (lines.flatMap (fun l => l ++ crlf) ++ crlf ++ rest)).take
        (i + 1) = l := by
      rw [← Nat.succ_eq_add_one, ← hi, List.take_left]
    have hdrop : (l ++ cr :: lf :: (lines.flatMap (fun l => l ++ crlf) ++ crlf ++ rest)).drop
        (i + 3) = lines.flatMap (fun l => l ++ crlf) ++ crlf ++ rest := by
      rw [show i + 3 = l.length + 2 by omega, List.drop_length_add_append]
      rfl
    rw [htake, hdrop, ih fun k hk => hl k (by simp [hk])]

/-! ## Numbers -/

theorem decimal_ends {n : ℕ} : (∀ b ∈ (decimal n).head?, HttpRequest.isspace b = false) ∧
    ∀ b ∈ (decimal n).getLast?, HttpRequest.isspace b = false := by
  have hdigit : ∀ b ∈ decimal n, HttpRequest.isspace b = false := by
    intro b hb
    have hrange := mem_decimal hb
    have h32 : b ≠ 32 := decimal_ne hb (by decide)
    have h13 : ¬ b ≤ 13 := by
      rw [UInt8.le_iff_toNat_le]
      have : (13 : UInt8).toNat = 13 := rfl
      omega
    simp [HttpRequest.isspace, h32, h13]
  constructor
  · intro b hb
    exact hdigit b (List.mem_of_mem_head? hb)
  · intro b hb
    exact hdigit b (List.mem_of_mem_getLast? hb)

/-! ## One response -/

theorem readField_printed {name value : Bytes} (hname : ∀ b ∈ name, b ≠ colonByte)
    (htrim : (∀ b ∈ value.head?, HttpRequest.isspace b = false) ∧
      ∀ b ∈ value.getLast?, HttpRequest.isspace b = false) :
    readField (name ++ colonSpace ++ value) = (name, value) := by
  have heq : name ++ colonSpace ++ value = name ++ colonByte :: (sp :: value) := by
    simp [colonSpace]
  have hdrop : (name ++ colonByte :: (sp :: value)).drop (name.length + 1) = sp :: value := by
    rw [List.drop_length_add_append]
    rfl
  rw [readField, heq, find_append hname]
  simp only [List.take_left, hdrop, Printed.trim_value htrim.1 htrim.2]

theorem readStatus_printed {n : ℕ} {message : Bytes} :
    readStatus (httpVersion ++ decimal n ++ sp :: message) = (n, message) := by
  have hdrop : (httpVersion ++ decimal n ++ sp :: message).drop httpVersion.length =
      decimal n ++ sp :: message := by
    rw [List.append_assoc, List.drop_left]
  have hfind : find sp (decimal n ++ sp :: message) = (decimal n).length :=
    find_append (fun b hb => decimal_ne hb (by decide)) message
  have hrest : (decimal n ++ sp :: message).drop ((decimal n).length + 1) = message := by
    rw [List.drop_length_add_append]
    rfl
  simp only [readStatus, hdrop, hfind, List.take_left, readDecimal_decimal, hrest]

namespace HttpResponse

/-- A response whose texts stay within their lines, which the 32 bytes of `buf` hold, and a closing one
that names no length of its own. -/
structure Plain (r : HttpResponse) : Prop where
  message : ∀ b ∈ r.statusMessage, b ≠ cr
  names : ∀ h ∈ r.headers, ∀ b ∈ h.1, b ≠ colonByte ∧ b ≠ cr
  values : ∀ h ∈ r.headers, ∀ b ∈ h.2, b ≠ cr
  trimmed : ∀ h ∈ r.headers, (∀ b ∈ h.2.head?, HttpRequest.isspace b = false) ∧
    ∀ b ∈ h.2.getLast?, HttpRequest.isspace b = false
  length : r.body.length < 10 ^ 13
  unnamed : r.closeConnection = true → ∀ h ∈ r.headers, h.1 ≠ contentLengthName

def statusLine (r : HttpResponse) : Bytes :=
  httpVersion ++ decimal r.statusCode.value ++ sp :: r.statusMessage

def fields (r : HttpResponse) : List (Bytes × Bytes) :=
  if r.closeConnection then (connectionName, closeToken) :: r.headers
  else (contentLengthName, decimal r.body.length) :: (connectionName, keepAliveToken) :: r.headers

def lines (r : HttpResponse) : List Bytes :=
  r.statusLine :: r.fields.map fun h => h.1 ++ colonSpace ++ h.2

/-- What the response says to a peer. -/
def reply (r : HttpResponse) : Reply :=
  ⟨r.statusCode.value, r.statusMessage, r.fields, r.body⟩

def wire (r : HttpResponse) : Bytes := r.appendToBuffer []

variable {r : HttpResponse}

theorem snprintf_status (code : HttpStatusCode) :
    snprintf 32 (httpVersion ++ decimal code.value ++ [sp]) =
      httpVersion ++ decimal code.value ++ [sp] := by
  cases code <;> decide

theorem snprintf_length {n : ℕ} (hn : n < 10 ^ 13) :
    snprintf 32 (contentLengthName ++ colonSpace ++ decimal n ++ crlf) =
      contentLengthName ++ colonSpace ++ decimal n ++ crlf := by
  have hlen := length_decimal_le (n := n) (k := 13) (by omega) hn
  apply List.take_of_length_le
  simp only [List.length_append]
  have hname : contentLengthName.length = 14 := rfl
  have hcolon : colonSpace.length = 2 := rfl
  have hcrlf : crlf.length = 2 := rfl
  omega

theorem foldl_headers (headers : Headers) (output : Bytes) :
    headers.foldl (fun output header => output ++ header.1 ++ colonSpace ++ header.2 ++ crlf) output =
      output ++ (headers.map fun h => h.1 ++ colonSpace ++ h.2).flatMap (fun l => l ++ crlf) := by
  induction headers generalizing output with
  | nil => simp
  | cons h headers ih =>
    rw [List.foldl_cons, ih]
    simp

theorem appendToBuffer_eq (hlen : r.body.length < 10 ^ 13) (output : Bytes) :
    r.appendToBuffer output =
      output ++ (r.lines.flatMap (fun l => l ++ crlf) ++ crlf ++ r.body) := by
  simp only [appendToBuffer, snprintf_status, snprintf_length hlen, foldl_headers, lines, fields,
    statusLine]
  by_cases hclose : r.closeConnection = true
  · simp [hclose]
  · simp [hclose]

theorem wire_eq (hlen : r.body.length < 10 ^ 13) :
    r.wire = r.lines.flatMap (fun l => l ++ crlf) ++ crlf ++ r.body := by
  rw [wire, appendToBuffer_eq hlen, List.nil_append]

theorem Plain.field (h : r.Plain) {f : Bytes × Bytes} (hf : f ∈ r.fields) :
    (∀ b ∈ f.1, b ≠ colonByte ∧ b ≠ cr) ∧ (∀ b ∈ f.2, b ≠ cr) ∧
      (∀ b ∈ f.2.head?, HttpRequest.isspace b = false) ∧
      ∀ b ∈ f.2.getLast?, HttpRequest.isspace b = false := by
  have hheader : ∀ f ∈ r.headers, (∀ b ∈ f.1, b ≠ colonByte ∧ b ≠ cr) ∧ (∀ b ∈ f.2, b ≠ cr) ∧
      (∀ b ∈ f.2.head?, HttpRequest.isspace b = false) ∧
      ∀ b ∈ f.2.getLast?, HttpRequest.isspace b = false :=
    fun f hf => ⟨h.names f hf, h.values f hf, h.trimmed f hf⟩
  unfold fields at hf
  split_ifs at hf with hclose
  · rcases List.mem_cons.mp hf with rfl | hf
    · decide +kernel
    · exact hheader f hf
  · rcases List.mem_cons.mp hf with rfl | hf
    · have hname : ∀ b ∈ contentLengthName, b ≠ colonByte ∧ b ≠ cr := by decide +kernel
      exact ⟨hname, fun b hb => decimal_ne hb (by decide), decimal_ends⟩
    · rcases List.mem_cons.mp hf with rfl | hf
      · decide +kernel
      · exact hheader f hf

theorem Plain.lines_plain (h : r.Plain) : ∀ l ∈ r.lines, l ≠ [] ∧ ∀ b ∈ l, b ≠ cr := by
  intro l hl
  rcases List.mem_cons.mp hl with rfl | hl
  · refine ⟨by simp [statusLine], ?_⟩
    intro b hb
    simp only [statusLine, List.mem_append, List.mem_cons] at hb
    rcases hb with (hb | hb) | rfl | hb
    · revert b
      decide +kernel
    · exact decimal_ne hb (by decide)
    · decide
    · exact h.message b hb
  · obtain ⟨f, hf, rfl⟩ := List.mem_map.mp hl
    obtain ⟨hname, hvalue, -⟩ := h.field hf
    refine ⟨by simp [colonSpace], ?_⟩
    intro b hb
    simp only [colonSpace, List.mem_append, List.mem_cons, List.not_mem_nil, or_false] at hb
    rcases hb with (hb | rfl | rfl) | hb
    · exact (hname b hb).2
    · decide
    · decide
    · exact hvalue b hb

theorem Plain.readField_lines (h : r.Plain) :
    (r.fields.map fun f => f.1 ++ colonSpace ++ f.2).map readField = r.fields := by
  rw [List.map_map]
  conv_rhs => rw [← List.map_id r.fields]
  apply List.map_congr_left
  intro f hf
  obtain ⟨hname, -, htrim⟩ := h.field hf
  exact readField_printed (fun b hb => (hname b hb).1) htrim

theorem Plain.headerBlock_wire (h : r.Plain) (rest : Bytes) :
    headerBlock (r.wire ++ rest) = (r.lines, some (r.body ++ rest)) := by
  rw [wire_eq h.length, List.append_assoc]
  exact headerBlock_lines h.lines_plain (r.body ++ rest)

theorem lookup_keepAlive (hclose : r.closeConnection = false) :
    r.fields.lookup contentLengthName = some (decimal r.body.length) := by
  simp [fields, hclose]

theorem Plain.lookup_close (h : r.Plain) (hclose : r.closeConnection = true) :
    r.fields.lookup contentLengthName = none := by
  rw [List.lookup_eq_none_iff]
  intro f hf
  rw [fields, if_pos hclose] at hf
  rcases List.mem_cons.mp hf with rfl | hf
  · decide
  · exact bne_iff_ne.mpr fun heq => h.unnamed hclose f hf heq.symm

theorem Plain.readReply_keepAlive (h : r.Plain) (hclose : r.closeConnection = false)
    (rest : Bytes) : readReply (r.wire ++ rest) = some (r.reply, rest) := by
  simp only [readReply, h.headerBlock_wire, lines, h.readField_lines, lookup_keepAlive hclose,
    readDecimal_decimal, statusLine, readStatus_printed]
  rw [if_pos (by simp), List.take_left, List.drop_left]
  rfl

end HttpResponse

/-! ## Streams of responses -/

/-- `text` is read as `reply` whatever follows it, and not before all of it has arrived. -/
structure Framed (text : Bytes) (reply : Reply) : Prop where
  reads : ∀ rest, readReply (text ++ rest) = some (reply, rest)
  waits : ∀ s y, s ++ y = text → y ≠ [] → readReply s = none

/-- `text` is read to the end of the connection: once the header block is there, the reply's body is
what has arrived of it. -/
structure Closing (text : Bytes) (reply : Reply) : Prop where
  reads : readReply text = some (reply, [])
  part : ∀ s, s <+: text →
    readReply s = none ∨ ∃ body, body <+: reply.body ∧ readReply s = some ({ reply with body }, [])

theorem closing_of_headerBlock {text statusLine body : Bytes} {lines : List Bytes}
    (h : headerBlock text = (statusLine :: lines, some body))
    (hno : (lines.map readField).lookup contentLengthName = none) :
    Closing text ⟨(readStatus statusLine).1, (readStatus statusLine).2, lines.map readField, body⟩ := by
  constructor
  · simp only [readReply, h, hno]
  · rintro s ⟨y, rfl⟩
    cases hs : (headerBlock s).2 with
    | none =>
      left
      unfold readReply
      split
      · rename_i hb
        rw [hb] at hs
        cases hs
      · rfl
    | some part =>
      have hblock := headerBlock_append hs y
      rw [h] at hblock
      obtain ⟨hlines, hbody⟩ := Prod.mk.inj hblock
      have hpart : headerBlock s = (statusLine :: lines, some part) := by rw [hlines, ← hs]
      refine Or.inr ⟨part, ⟨y, (Option.some.inj hbody).symm⟩, ?_⟩
      simp only [readReply, hpart, hno]

section

variable {α : Type} (text : α → Bytes) (reply : α → Reply) (closes : α → Bool)

/-- What a peer that has received `s` of a stream of texts has read: the first `k` replies and less
than one text more, of which it reads nothing, or, where that text closes, a part of the body. -/
structure ReadInPart (xs : List α) (s : Bytes) (k : ℕ) (rest : Bytes) : Prop where
  le : k ≤ xs.length
  parts : s = (xs.take k).flatMap text ++ rest
  next : ∀ x ∈ (xs.drop k).head?, rest.length < (text x).length
  reads : readReplies s = ((xs.take k).map reply, rest) ∨
    ∃ x ∈ (xs.drop k).head?, closes x = true ∧ ∃ body, body <+: (reply x).body ∧
      readReplies s = ((xs.take k).map reply ++ [{ reply x with body }], [])

variable {text reply closes} {xs : List α}

theorem readInPart_zero {x : α} {s : Bytes} (hlen : s.length < (text x).length)
    (hread : readReply s = none ∨ closes x = true ∧ ∃ body, body <+: (reply x).body ∧
      readReply s = some ({ reply x with body }, [])) :
    ReadInPart text reply closes (x :: xs) s 0 s := by
  refine ⟨Nat.zero_le _, by simp, by simpa using hlen, ?_⟩
  rcases hread with hread | ⟨hclose, body, hbody, hread⟩
  · exact Or.inl (by simp [readReplies_none hread])
  · refine Or.inr ⟨x, rfl, hclose, body, hbody, ?_⟩
    rw [readReplies_some hread, readReplies_none readReply_nil]
    simp

theorem ReadInPart.cons {x : α} {s rest : Bytes} {k : ℕ} (h : ReadInPart text reply closes xs s k rest)
    (hx : Framed (text x) (reply x)) :
    ReadInPart text reply closes (x :: xs) (text x ++ s) (k + 1) rest := by
  refine ⟨by simpa using h.le, ?_, by simpa using h.next, ?_⟩
  · conv_lhs => rw [h.parts]
    simp
  · rw [readReplies_some (hx.reads s)]
    rcases h.reads with hreads | ⟨z, hz, hclose, body, hbody, hreads⟩
    · exact Or.inl (by simp [hreads])
    · exact Or.inr ⟨z, by simpa using hz, hclose, body, hbody, by simp [hreads]⟩

theorem forall_dropLast_cons {P : α → Prop} {x : α} (h : ∀ z ∈ (x :: xs).dropLast, P z) :
    (xs ≠ [] → P x) ∧ ∀ z ∈ xs.dropLast, P z := by
  cases xs with
  | nil => exact ⟨fun hne => absurd rfl hne, by simp⟩
  | cons y ys => simpa using h

theorem eq_nil_of_closes {x : α} (h : xs ≠ [] → closes x = false) (hc : closes x = true) : xs = [] := by
  by_contra hne
  rw [h hne] at hc
  cases hc

theorem readInPart_of_beginning (hkeep : ∀ x ∈ xs, closes x = false → Framed (text x) (reply x))
    (hclose : ∀ x ∈ xs, closes x = true → Closing (text x) (reply x))
    (hlast : ∀ x ∈ xs.dropLast, closes x = false) {s : Bytes} (hs : s <+: xs.flatMap text) :
    ∃ k rest, ReadInPart text reply closes xs s k rest := by
  induction xs generalizing s with
  | nil =>
    obtain rfl : s = [] := by simpa using hs
    exact ⟨0, [], Nat.le_refl _, rfl, by simp, Or.inl (by simp [readReplies_none readReply_nil])⟩
  | cons x xs ih =>
    obtain ⟨hfirst, hrest⟩ := forall_dropLast_cons hlast
    rw [List.flatMap_cons] at hs
    by_cases hlen : s.length < (text x).length
    · -- the first text is still incomplete
      obtain ⟨y, hy⟩ := List.prefix_of_prefix_length_le hs (List.prefix_append _ _) hlen.le
      refine ⟨0, s, readInPart_zero hlen ?_⟩
      cases hc : closes x with
      | false =>
        refine Or.inl ((hkeep x (by simp) hc).waits s y hy ?_)
        rintro rfl
        rw [← hy, List.append_nil] at hlen
        exact lt_irrefl _ hlen
      | true =>
        rcases (hclose x (by simp) hc).part s ⟨y, hy⟩ with hnone | hpart
        · exact Or.inl hnone
        · exact Or.inr ⟨rfl, hpart⟩
    · obtain ⟨s', rfl⟩ := List.prefix_of_prefix_length_le (List.prefix_append (text x) _) hs (not_lt.mp hlen)
      have hs' : s' <+: xs.flatMap text := (List.prefix_append_right_inj _).mp hs
      cases hc : closes x with
      | false =>
        obtain ⟨k, rest, hpart⟩ :=
          ih (fun z hz => hkeep z (by simp [hz])) (fun z hz => hclose z (by simp [hz])) hrest hs'
        exact ⟨k + 1, rest, hpart.cons (hkeep x (by simp) hc)⟩
      | true =>
        obtain rfl := eq_nil_of_closes hfirst hc
        obtain rfl : s' = [] := by simpa using hs'
        have hread := (hclose x (by simp) hc).reads
        refine ⟨1, [], Nat.le_refl _, by simp, by simp, Or.inl ?_⟩
        rw [List.append_nil, readReplies_some hread, readReplies_none readReply_nil]
        rfl

theorem readReplies_stream (hkeep : ∀ x ∈ xs, closes x = false → Framed (text x) (reply x))
    (hclose : ∀ x ∈ xs, closes x = true → Closing (text x) (reply x))
    (hlast : ∀ x ∈ xs.dropLast, closes x = false) :
    readReplies (xs.flatMap text) = (xs.map reply, []) := by
  induction xs with
  | nil => exact readReplies_none readReply_nil
  | cons x xs ih =>
    obtain ⟨hfirst, hrest⟩ := forall_dropLast_cons hlast
    cases hc : closes x with
    | false =>
      have hmore := ih (fun z hz => hkeep z (by simp [hz])) (fun z hz => hclose z (by simp [hz])) hrest
      rw [List.flatMap_cons, readReplies_some ((hkeep x (by simp) hc).reads _), hmore]
      rfl
    | true =>
      obtain rfl := eq_nil_of_closes hfirst hc
      rw [List.flatMap_singleton, readReplies_some (hclose x (by simp) hc).reads,
        readReplies_none readReply_nil]
      rfl

end

namespace HttpResponse

variable {r : HttpResponse}

theorem Plain.framed (h : r.Plain) (hclose : r.closeConnection = false) :
    Framed r.wire r.reply := by
  refine ⟨h.readReply_keepAlive hclose, ?_⟩
  intro s y hs hy
  have hpos := List.length_pos_iff.mpr hy
  unfold readReply
  split
  · rename_i statusLine lines rest hb
    have hblock := headerBlock_append (s := s) (by rw [hb]) y
    have hwire := h.headerBlock_wire []
    rw [List.append_nil, List.append_nil] at hwire
    rw [hs, hb, hwire] at hblock
    obtain ⟨hlines, hbody⟩ := Prod.mk.inj hblock
    obtain ⟨-, rfl⟩ := List.cons.inj hlines
    have hlen := congrArg List.length (Option.some.inj hbody)
    rw [List.length_append] at hlen
    simp only [h.readField_lines, lookup_keepAlive hclose, readDecimal_decimal]
    rw [if_neg (by omega)]
  · rfl

theorem Plain.closing (h : r.Plain) (hclose : r.closeConnection = true) : Closing r.wire r.reply := by
  have hblock := h.headerBlock_wire []
  rw [List.append_nil, List.append_nil] at hblock
  have hclosing := closing_of_headerBlock hblock (by rw [h.readField_lines, h.lookup_close hclose])
  rw [h.readField_lines, statusLine, readStatus_printed] at hclosing
  exact hclosing

end HttpResponse

/-- What `appendToBuffer` writes of the responses, one after the other. -/
def written (rs : List HttpResponse) : Bytes := rs.foldl (fun output r => r.appendToBuffer output) []

theorem written_eq {rs : List HttpResponse} (h : ∀ r ∈ rs, r.Plain) :
    written rs = rs.flatMap HttpResponse.wire := by
  suffices hall : ∀ output, rs.foldl (fun output r => r.appendToBuffer output) output =
      output ++ rs.flatMap HttpResponse.wire from hall []
  induction rs with
  | nil => simp
  | cons r rs ih =>
    intro output
    have hlen := (h r (by simp)).length
    rw [List.foldl_cons, ih (fun z hz => h z (by simp [hz])), HttpResponse.appendToBuffer_eq hlen,
      ← HttpResponse.wire_eq hlen]
    simp

def greeting : HttpResponse :=
  ((({ closeConnection := false } : HttpResponse).setStatusCode .k200Ok).setContentType
    (ascii ['t', 'e', 'x', 't'])).setBody (ascii ['h', 'e', 'l', 'l', 'o'])

def notFound : HttpResponse :=
  ((({ closeConnection := false } : HttpResponse).setStatusCode .k404NotFound).setCloseConnection
    true).setBody (ascii ['n', 'o', 'n', 'e'])

theorem greeting_plain : greeting.Plain := by
  constructor <;> decide +kernel

theorem notFound_plain : notFound.Plain := by
  constructor <;> decide +kernel

end Mutty.Http
