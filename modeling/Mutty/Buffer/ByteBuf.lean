import Mutty.Lib.Loop
import Mutty.Lib.Transition
import Mutty.Buffer.PoolArena

/-!
# Reading and writing buffers

The rest of `PooledByteBuf`: the indices, growing on demand, and the bytes. Bytes are written behind
`m_memory + m_offset` and read behind `m_tmpBuf`. `Buffer` adds reading from a descriptor. The machine
at the end runs any of these operations on any buffers, beside those of the pool, and keeps for every
buffer what has been written to it and taken from it.
-/

namespace Mutty.Buffer

open Mutty.Lib Prog

def IsInt (x : ℤ) : Prop := -2 ^ 31 ≤ x ∧ x < 2 ^ 31

instance (x : ℤ) : Decidable (IsInt x) := inferInstanceAs (Decidable (_ ∧ _))

/-- The result of an operation on `int`s, unless it leaves their range. -/
def int32 (x : ℤ) : Checked ℤ := if IsInt x then .ok x else .error .range

def sizeT (x : ℤ) : ℤ := if x < 0 then x + 2 ^ 64 else x

/-! ### Growing -/

namespace PooledByteBufAllocator

def calculateThreshold : ℤ := 4194304

/-- The loop at the end of `calculateNewCapacity`. -/
def doubleCapacity (minNewCapacity : ℤ) (newCapacity : ℤ) : Checked (ℤ ⊕ ℤ) :=
  if newCapacity < minNewCapacity then do
    let newCapacity ← int32 (newCapacity * 2)
    return .inl newCapacity
  else .ok (.inr newCapacity)

def calculateNewCapacity (minNewCapacity maxCapacity : ℤ) : Checked ℤ := do
  require (minNewCapacity ≥ 0)
  if minNewCapacity > maxCapacity then .error .thrown
  else if minNewCapacity = calculateThreshold then return calculateThreshold
  else if minNewCapacity > calculateThreshold then do
    let newCapacity ← int32 (minNewCapacity / calculateThreshold * calculateThreshold)
    let limit ← int32 (maxCapacity - calculateThreshold)
    if newCapacity > limit then return maxCapacity
    else int32 (newCapacity + calculateThreshold)
  else do
    let newCapacity ← Loop.run (doubleCapacity minNewCapacity) 32 64
    return min newCapacity maxCapacity

def validate (initialCapacity maxCapacity : ℤ) : Checked Unit := do
  require (initialCapacity ≥ 0)
  if initialCapacity > maxCapacity then .error .thrown else return ()

/-- There is no buffer for 0 bytes at most. -/
def buffer (k : Config) (a : ArenaId) (t : ThreadId) (initialCapacity maxCapacity : ℤ) :
    PoolM (Option BufId) :=
  if initialCapacity = 0 ∧ maxCapacity = 0 then return none
  else do
    check (validate initialCapacity maxCapacity)
    let b ← PoolArena.allocate k a t initialCapacity maxCapacity
    return some b

end PooledByteBufAllocator

/-! ### Bytes -/

/-- `std::copy` of the bytes to `p`. -/
def store (p : Pointer) (bytes : List UInt8) : PoolM Unit := do
  let x ← getChunk p.1
  if x.InMemory p.2 bytes.length then
    setChunk p.1 { x with
      memory := fun i => if p.2 ≤ i ∧ i < p.2 + bytes.length then bytes.getD (i - p.2).toNat 0
        else x.memory i }
  else fail .range

def load (p : Pointer) (length : ℕ) : PoolM (List UInt8) := do
  let x ← getChunk p.1
  if x.InMemory p.2 length then return (List.range length).map fun i => x.memory (p.2 + i)
  else fail .range

def deref {α : Type} : Option α → PoolM α
  | some a => pure a
  | none => fail .null

/-! ### PooledByteBuf -/

namespace PooledByteBuf

def readableBytes (buf : PooledByteBuf) : ℤ := buf.writerIndex - buf.readerIndex

def writableBytes (buf : PooledByteBuf) : ℤ := buf.length - buf.writerIndex

def peek (buf : PooledByteBuf) : Option Pointer :=
  buf.tmpBuf.map fun p => (p.1, p.2 + buf.readerIndex)

/-- The two assertions of `ensureWritable`. -/
def targetCapacity (buf : PooledByteBuf) (minWritableBytes : ℤ) : Checked ℤ := do
  require (minWritableBytes ≥ 0)
  let targetCapacity := SizeClasses.wrap32 (buf.writerIndex + minWritableBytes)
  require (targetCapacity ≥ 0 ∧ targetCapacity ≤ buf.maxCapacity)
  return targetCapacity

/-- The capacity that `ensureWritable` asks for when the target is above the present one. -/
def newCapacity (buf : PooledByteBuf) (minWritableBytes targetCapacity : ℤ) : Checked ℤ :=
  if buf.writableBytes ≥ minWritableBytes then .ok (buf.writerIndex + buf.writableBytes)
  else PooledByteBufAllocator.calculateNewCapacity targetCapacity buf.maxCapacity

def retrieveAll (b : BufId) : PoolM Unit := do
  let buf ← getBuf b
  setBuf b { buf with readerIndex := 0, writerIndex := 0 }

def retrieve (b : BufId) (len : ℕ) : PoolM Unit := do
  let buf ← getBuf b
  assert ((len : ℤ) ≤ sizeT buf.readableBytes)
  if (len : ℤ) < sizeT buf.readableBytes then
    setBuf b { buf with readerIndex := buf.readerIndex + len }
  else retrieveAll b

def retrieveAsString (b : BufId) (len : ℕ) : PoolM (List UInt8) := do
  let buf ← getBuf b
  assert ((len : ℤ) ≤ sizeT buf.readableBytes)
  let p ← deref buf.peek
  let result ← load p len
  retrieve b len
  return result

def retrieveAllAsString (b : BufId) : PoolM (List UInt8) := do
  let buf ← getBuf b
  retrieveAsString b (sizeT buf.readableBytes).toNat

def setBytes (b : BufId) (index : ℤ) (src : List UInt8) : PoolM Unit := do
  let buf ← getBuf b
  assert (SizeClasses.wrap32 (index + src.length) ≤ buf.length)
  let memory ← deref buf.memory
  store (memory, buf.offset + index) src

/-- `_internalBuffer`, behind both `internalBuffer` and `duplicateInternalBuffer`. -/
def internalBuffer (b : BufId) (index length : ℤ) : PoolM Unit := do
  let buf ← getBuf b
  assert (SizeClasses.wrap32 (index + length) ≤ buf.length)
  let memory ← deref buf.memory
  setBuf b { buf with tmpBuf := some (memory, buf.offset + index) }

def duplicateInternalBuffer (b : BufId) (index length : ℤ) : PoolM Unit :=
  internalBuffer b index length

section

variable (k : Config)

def ensureWritable (t : ThreadId) (b : BufId) (minWritableBytes : ℤ) : PoolM Unit := do
  let buf ← getBuf b
  let targetCapacity ← check (buf.targetCapacity minWritableBytes)
  when (targetCapacity > buf.length) do
    let newCapacity ← check (buf.newCapacity minWritableBytes targetCapacity)
    capacity k t b newCapacity

def writeBytes (t : ThreadId) (b : BufId) (src : List UInt8) : PoolM Unit := do
  ensureWritable k t b src.length
  let buf ← getBuf b
  setBytes b buf.writerIndex src
  setBuf b { buf with writerIndex := buf.writerIndex + src.length }

end

end PooledByteBuf

/-! ### Buffer -/

def beginWrite (buf : PooledByteBuf) : Option Pointer :=
  buf.tmpBuf.map fun p => (p.1, p.2 + buf.writerIndex)

/-- The number of bytes between `peek()` and the pointer. -/
def lengthUntil (buf : PooledByteBuf) (stop : Pointer) : ℕ :=
  match buf.peek with
  | some first => (stop.2 - first.2).toNat
  | none => 0

def retrieveUntil (b : BufId) (stop : Pointer) : PoolM Unit := do
  let buf ← getBuf b
  let first ← deref buf.peek
  let last ← deref (beginWrite buf)
  assert (first.1 = stop.1 ∧ first.2 ≤ stop.2)
  assert (stop.1 = last.1 ∧ stop.2 ≤ last.2)
  PooledByteBuf.retrieve b (stop.2 - first.2).toNat

def extraSize : ℕ := 65536

/-- What `readv` reads of the bytes that have arrived, or an error. `extrabuf` is left out when the rest
of the block is as long. -/
def readv (writableBytes : ℤ) (arrived : Option (List UInt8)) : Option (List UInt8) :=
  -- as a `size_t` a negative length is more than `readv` takes
  if writableBytes < 0 then none
  else
    let writable := writableBytes.toNat
    arrived.map (List.take (if writable < extraSize then writable + extraSize else writable))

/-- The rest of the block gets the first bytes that `readv` reads, and `extrabuf` the others. -/
def receive (k : Config) (t : ThreadId) (b : BufId) (writable : ℕ) (received : List UInt8) :
    PoolM Unit := do
  let buf ← getBuf b
  let p ← deref (beginWrite buf)
  store p (received.take writable)
  if received.length ≤ writable then
    setBuf b { buf with writerIndex := buf.writerIndex + received.length }
  else do
    setBuf b { buf with writerIndex := buf.length }
    PooledByteBuf.writeBytes k t b (received.drop writable)

def readFd (k : Config) (t : ThreadId) (b : BufId) (arrived : Option (List UInt8)) : PoolM ℤ := do
  let buf ← getBuf b
  match readv buf.writableBytes arrived with
  | none => return -1
  | some received => do
    receive k t b buf.writableBytes.toNat received
    return received.length

/-! ### The machine -/

/-- What has been done to the bytes of a buffer. -/
inductive Event
  | allocated
  | wrote (bytes : List UInt8)
  | retrieved (len : ℕ)
  | cleared
  deriving DecidableEq, Repr

inductive BufferAction
  | pool (a : PoolAction)
  | ensureWritable (t : ThreadId) (b : BufId) (minWritableBytes : ℤ)
  | writeBytes (t : ThreadId) (b : BufId) (src : List UInt8)
  | setBytes (b : BufId) (index : ℤ) (src : List UInt8)
  | retrieve (b : BufId) (len : ℕ)
  | retrieveAll (b : BufId)
  | retrieveAsString (b : BufId) (len : ℕ)
  | retrieveAllAsString (b : BufId)
  | retrieveUntil (b : BufId) (stop : Pointer)
  | internalBuffer (b : BufId) (index length : ℤ)
  | duplicateInternalBuffer (b : BufId) (index length : ℤ)
  | readFd (t : ThreadId) (b : BufId) (arrived : Option (List UInt8))
  deriving DecidableEq, Repr

/-- Runs the action, and says which buffer's bytes it is to change and how: what it is asked to take, and
what `readv` reads. -/
def BufferAction.run (k : Config) : BufferAction → PoolM (Option (BufId × Event))
  | .pool (.allocate a t initialCapacity maxCapacity) => do
    let b ← PooledByteBufAllocator.buffer k a t initialCapacity maxCapacity
    return b.map fun b => (b, .allocated)
  | .pool a => do
    a.run k
    return none
  | .ensureWritable t b minWritableBytes => do
    PooledByteBuf.ensureWritable k t b minWritableBytes
    return none
  | .writeBytes t b src => do
    PooledByteBuf.writeBytes k t b src
    return some (b, .wrote src)
  | .setBytes b index src => do
    PooledByteBuf.setBytes b index src
    return none
  | .retrieve b len => do
    PooledByteBuf.retrieve b len
    return some (b, .retrieved len)
  | .retrieveAll b => do
    PooledByteBuf.retrieveAll b
    return some (b, .cleared)
  | .retrieveAsString b len => do
    let _ ← PooledByteBuf.retrieveAsString b len
    return some (b, .retrieved len)
  | .retrieveAllAsString b => do
    let _ ← PooledByteBuf.retrieveAllAsString b
    return some (b, .cleared)
  | .retrieveUntil b stop => do
    let buf ← getBuf b
    Buffer.retrieveUntil b stop
    return some (b, .retrieved (lengthUntil buf stop))
  | .internalBuffer b index length => do
    PooledByteBuf.internalBuffer b index length
    return none
  | .duplicateInternalBuffer b index length => do
    PooledByteBuf.duplicateInternalBuffer b index length
    return none
  | .readFd t b arrived => do
    let buf ← getBuf b
    let _ ← Buffer.readFd k t b arrived
    return some (b, .wrote ((readv buf.writableBytes arrived).getD []))

/-- The values of type `int` that are passed. -/
def BufferAction.ints : BufferAction → List ℤ
  | .pool (.allocate _ _ initialCapacity maxCapacity) => [initialCapacity, maxCapacity]
  | .pool (.capacity _ _ newCapacity) => [newCapacity]
  | .ensureWritable _ _ minWritableBytes => [minWritableBytes]
  | .writeBytes _ _ src => [src.length]
  | .setBytes _ index src => [index, src.length]
  | .internalBuffer _ index length => [index, length]
  | .duplicateInternalBuffer _ index length => [index, length]
  | _ => []

/-- The pool, and what has been done to each buffer since it was allocated. -/
structure BufferState where
  pool : Pool
  history : BufId → List Event

def BufferState.record (history : BufId → List Event) : Option (BufId × Event) → BufId → List Event
  | none => history
  | some (b, .allocated) => Function.update history b []
  | some (b, e) => Function.update history b (history b ++ [e])

def bufferMachine (k : Config) : System BufferState BufferAction where
  init s := (poolMachine k).init s.pool ∧ s.history = fun _ => []
  step s a :=
    if ∀ x ∈ a.ints, IsInt x then
      (a.run k s.pool).toOption.map fun (r : Option (BufId × Event) × Pool) =>
        { pool := r.2, history := BufferState.record s.history r.1 }
    else none

end Mutty.Buffer
