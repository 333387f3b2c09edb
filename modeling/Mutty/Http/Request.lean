import Mathlib.Algebra.Order.Ring.Nat
import Mathlib.Data.List.DropRight
import Mutty.Lib.Checked

/-!
# Requests and their fields

`HttpRequest` holds what the parser fills in line by line. Strings are byte lists. The header map
is kept as `std::map` keeps it, one entry for each field in the order of the fields, so that two
maps with the same content are equal. `setMethod` asserts that no method was set before.
-/

namespace Mutty.Http

open Mutty.Lib

abbrev Bytes := List UInt8

def ascii (cs : List Char) : Bytes := cs.map fun c => c.toUInt8

inductive Method
  | kInvalid | kGet | kPost | kHead | kPut | kDelete
  deriving DecidableEq, Repr

inductive Version
  | kUnknown | kHttp10 | kHttp11
  deriving DecidableEq, Repr

abbrev Headers := List (Bytes × Bytes)

/-- `headers_[field] = value` -/
def Headers.assign (field value : Bytes) : Headers → Headers
  | [] => [(field, value)]
  | (f, v) :: rest =>
    if field = f then (f, value) :: rest
    else if field < f then (field, value) :: (f, v) :: rest
    else (f, v) :: Headers.assign field value rest

structure HttpRequest where
  method : Method := .kInvalid
  version : Version := .kUnknown
  path : Bytes := []
  query : Bytes := []
  headers : Headers := []
  deriving DecidableEq, Repr

namespace HttpRequest

def methodOf (m : Bytes) : Method :=
  if m = ascii ['G', 'E', 'T'] then .kGet
  else if m = ascii ['P', 'O', 'S', 'T'] then .kPost
  else if m = ascii ['H', 'E', 'A', 'D'] then .kHead
  else if m = ascii ['P', 'U', 'T'] then .kPut
  else if m = ascii ['D', 'E', 'L', 'E', 'T', 'E'] then .kDelete
  else .kInvalid

def setMethod (req : HttpRequest) (m : Bytes) : Checked (Bool × HttpRequest) := do
  require (req.method = .kInvalid)
  return (methodOf m ≠ .kInvalid, { req with method := methodOf m })

/-- `isspace` of the C locale. -/
def isspace (b : UInt8) : Bool := b = 32 || (9 ≤ b && b ≤ 13)

/-- `addHeader(start, colon, end)` for the line from `start` to `end`: the field is what stands
before the colon, the value is what follows it, trimmed on both sides. -/
def addHeader (req : HttpRequest) (line : Bytes) (colon : ℕ) : HttpRequest :=
  let field := line.take colon
  let value := ((line.drop (colon + 1)).dropWhile isspace).rdropWhile isspace
  { req with headers := req.headers.assign field value }

def getHeader (req : HttpRequest) (field : Bytes) : Bytes := (req.headers.lookup field).getD []

end HttpRequest
end Mutty.Http
