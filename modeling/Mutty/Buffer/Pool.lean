import Mutty.Lib.Prog
import Mutty.Buffer.PoolChunk
import Mutty.Buffer.PoolSubpage

/-!
# Pool memory

The objects that the arenas of one `PooledByteBufAllocator` share with its threads, and the code
that works on chunks: subpages in the ring of their size class, runs of a chunk, and the six usage
lists of an arena. A pointer is an index; chunks and subpages are looked up in a store, where a
deleted one is missing, and their intrusive links are kept beside them. Operations are not
interleaved, so no lock is modelled.
-/

namespace Mutty.Buffer

open Mutty.Lib Prog

abbrev ArenaId := ℕ
abbrev SubpageId := ℕ
abbrev ThreadId := ℕ
abbrev BufId := ℕ

abbrev Pointer := ChunkId × ℤ

inductive SizeClassType
  | small
  | normal
  deriving DecidableEq, Repr

/-! ### Usage lists -/

inductive ListKind
  | qInit
  | q000
  | q025
  | q050
  | q075
  | q100
  deriving DecidableEq, Repr

namespace ListKind

def minUsage : ListKind → ℤ
  | qInit => -8192
  | q000 => 1
  | q025 => 25
  | q050 => 50
  | q075 => 75
  | q100 => 100

def maxUsage : ListKind → ℤ
  | qInit => 25
  | q000 => 50
  | q025 => 75
  | q050 => 100
  | q075 => 100
  | q100 => 8192

def nextList : ListKind → Option ListKind
  | qInit => some q000
  | q000 => some q025
  | q025 => some q050
  | q050 => some q075
  | q075 => some q100
  | q100 => none

def prevList : ListKind → Option ListKind
  | qInit => some qInit
  | q000 => none
  | q025 => some q000
  | q050 => some q025
  | q075 => some q050
  | q100 => some q075

def calculateMaxCapacity (l : ListKind) (chunkSize : ℤ) : ℤ :=
  let minUsage := max 0 l.minUsage
  if minUsage = 100 then 0 else chunkSize * (100 - minUsage) / 100

/-- `static_cast<int>(chunkSize * (100.0 - usage + 0.99999999) / 100L)` without rounding -/
def exactThreshold (chunkSize usage : ℤ) : ℤ :=
  if usage = 100 then 0
  else Int.tdiv (chunkSize * (10 ^ 10 - usage * 10 ^ 8 + 99999999)) (10 ^ 10)

end ListKind

/-- What all arenas and thread caches of the allocator have in common. The two thresholds of a
usage list are computed in floating point; they are parameters here. -/
structure Config where
  sizes : SizeClasses
  freeMinThreshold : ListKind → ℤ
  freeMaxThreshold : ListKind → ℤ
  smallCacheSize : ℤ
  normalCacheSize : ℤ
  maxCachedBufferCapacity : ℤ
  freeSweepAllocationThreshold : ℤ

/-! ### Objects -/

structure PoolChunk where
  arena : ArenaId
  unpooled : Bool
  chunkSize : ℤ
  runs : Runs
  subpages : List (Option SubpageId)
  cachedBuffers : List Pointer
  memory : ℤ → UInt8
  memorySize : ℤ

structure ChunkLinks where
  prev : Option ChunkId
  next : Option ChunkId
  parent : Option ListKind
  deriving DecidableEq, Repr

/-- The heads of the size classes, which are `PoolSubpage` objects too, and the subpages. -/
inductive Node
  | head (arena : ArenaId) (sizeIdx : ℕ)
  | subpage (s : SubpageId)
  deriving DecidableEq, Repr

structure RingLinks where
  prev : Option Node
  next : Option Node
  deriving DecidableEq, Repr

structure Entry where
  chunk : ChunkId
  buffer : Option Pointer
  handle : Int64
  normCapacity : ℤ
  deriving DecidableEq

structure MemoryRegionCache where
  size : ℤ
  allocations : ℤ
  queue : List Entry
  deriving DecidableEq

structure PoolThreadCache where
  smallSubPageCaches : List MemoryRegionCache
  normalCaches : List MemoryRegionCache
  allocations : ℤ
  freeSweepAllocationThreshold : ℤ

structure Thread where
  cache : PoolThreadCache
  stack : List BufId

structure PooledByteBuf where
  maxCapacity : ℤ
  chunk : Option ChunkId
  handle : Int64
  memory : Option ChunkId
  offset : ℤ
  length : ℤ
  maxLength : ℤ
  cache : Option ThreadId
  tmpBuf : Option Pointer
  readerIndex : ℤ
  writerIndex : ℤ
  deriving DecidableEq

structure Pool where
  chunk : ChunkId → Option PoolChunk
  chunkCount : ℕ
  chunkLinks : ChunkId → ChunkLinks
  listHead : ArenaId → ListKind → Option ChunkId
  subpage : SubpageId → Option PoolSubpage
  subpageCount : ℕ
  ring : Node → RingLinks
  threads : List Thread
  bufs : List PooledByteBuf

abbrev PoolM := Prog Pool

def getChunk (c : ChunkId) : PoolM PoolChunk := do
  match ← look fun σ => σ.chunk c with
  | some x => pure x
  | none => fail .null

def setChunk (c : ChunkId) (x : PoolChunk) : PoolM Unit :=
  update fun σ => { σ with chunk := Function.update σ.chunk c (some x) }

def getSubpage (s : SubpageId) : PoolM PoolSubpage := do
  match ← look fun σ => σ.subpage s with
  | some p => pure p
  | none => fail .null

def setSubpage (s : SubpageId) (p : PoolSubpage) : PoolM Unit :=
  update fun σ => { σ with subpage := Function.update σ.subpage s (some p) }

def getBuf (b : BufId) : PoolM PooledByteBuf := do
  match ← look fun σ => σ.bufs[b]? with
  | some buf => pure buf
  | none => fail .null

def setBuf (b : BufId) (buf : PooledByteBuf) : PoolM Unit :=
  update fun σ => { σ with bufs := σ.bufs.set b buf }

/-- Element `i` of a vector that the code indexes with an `int`. -/
def fetchInt {α : Type} (xs : List α) (i : ℤ) : Checked α :=
  if 0 ≤ i then fetch xs i.toNat else .error .range

/-! ### PoolSubpage -/

namespace PoolSubpage

def modifyRing (n : Node) (f : RingLinks → RingLinks) : PoolM Unit :=
  update fun σ => { σ with ring := Function.update σ.ring n (f (σ.ring n)) }

def addToPool (s : SubpageId) (head : Node) : PoolM Unit := do
  let links ← look fun σ => σ.ring (.subpage s)
  assert (links.prev = none ∧ links.next = none)
  match (← look fun σ => σ.ring head).next with
  | none => fail .null
  | some next => do
    modifyRing (.subpage s) fun _ => { prev := some head, next := some next }
    modifyRing next fun l => { l with prev := some (.subpage s) }
    modifyRing head fun l => { l with next := some (.subpage s) }

def removeFromPool (s : SubpageId) : PoolM Unit := do
  let links ← look fun σ => σ.ring (.subpage s)
  match links.prev, links.next with
  | some prev, some next => do
    modifyRing prev fun l => { l with next := some next }
    modifyRing next fun l => { l with prev := some prev }
    modifyRing (.subpage s) fun _ => { prev := none, next := none }
  | _, _ => fail .assertion

def allocate (s : SubpageId) : PoolM Int64 := do
  let p ← getSubpage s
  if p.numAvail = 0 ∨ p.doNotDestroy = false then return -1
  else do
    let (bitmapIdx, p) ← check p.getNextAvail
    let p ← check (p.setBit bitmapIdx)
    let p := { p with numAvail := p.numAvail - 1 }
    setSubpage s p
    when (p.numAvail = 0) (removeFromPool s)
    return p.handle bitmapIdx

/-- The end of `free`, after the element has been counted. -/
def retire (s : SubpageId) (p : PoolSubpage) : PoolM Bool := do
  if p.numAvail ≠ p.maxNumElems then return true
  else do
    let links ← look fun σ => σ.ring (.subpage s)
    if links.prev = links.next then return true
    else do
      setSubpage s { p with doNotDestroy := false }
      removeFromPool s
      return false

def free (s : SubpageId) (head : Node) (bitmapIdx : ℤ) : PoolM Bool := do
  let p ← getSubpage s
  if p.elemSize = 0 then return true
  else do
    let p ← check (p.clearBit bitmapIdx)
    let wasFull := p.numAvail = 0
    let p := { p with nextAvail := bitmapIdx, numAvail := p.numAvail + 1 }
    setSubpage s p
    if wasFull then do
      addToPool s head
      if p.maxNumElems > 1 then return true else retire s p
    else retire s p

end PoolSubpage

/-! ### PooledByteBuf -/

/-- `init0`. -/
def PooledByteBuf.init (b : BufId) (c : ChunkId) (buffer : Option Pointer) (handle : Int64)
    (offset length maxLength : ℤ) (cache : Option ThreadId) : PoolM Unit := do
  assert (handle ≥ 0)
  let _ ← getChunk c
  let buf ← getBuf b
  setBuf b { buf with
    chunk := some c
    memory := some c
    cache := cache
    handle := handle
    offset := offset
    length := length
    maxLength := maxLength
    tmpBuf := some (buffer.getD (c, offset)) }

/-! ### PoolChunk -/

section

variable (k : Config)

/-- `size2SizeIdx` of an `int`: below 0 it reads before its table. -/
def sizeIdxOf (size : ℤ) : Checked ℕ :=
  if size < 0 then .error .range else k.sizes.size2SizeIdx size.toNat

def findSubpagePoolHead (a : ArenaId) (sizeIdx : ℕ) : Checked Node :=
  if sizeIdx < k.sizes.nSubpages then .ok (.head a sizeIdx) else .error .range

namespace PoolChunk

def usage (x : PoolChunk) : ℤ :=
  if x.runs.freeBytes = 0 then 100
  else
    let freePercentage := Int.tdiv (x.runs.freeBytes * 100) x.chunkSize
    if freePercentage = 0 then 99 else 100 - freePercentage

/-- The first loop of `calculateRunSize`, which ends at a multiple of the element size. The sum is an
`int` and wraps around. -/
def growRunSize (elemSize : ℕ) (runSize : ℤ) : Checked (ℤ ⊕ ℤ) :=
  let maxElements : ℤ := 2 ^ (k.sizes.pageShifts - 4)
  let runSize := SizeClasses.wrap32 (runSize + 2 ^ k.sizes.pageShifts)
  let nElements := runSize.tdiv elemSize
  if nElements < maxElements ∧ runSize ≠ nElements * elemSize then .ok (.inl runSize)
  else .ok (.inr runSize)

def shrinkRunSize (elemSize : ℕ) (runSize : ℤ) : Checked (ℤ ⊕ ℤ) :=
  let maxElements : ℤ := 2 ^ (k.sizes.pageShifts - 4)
  if runSize.tdiv elemSize > maxElements then .ok (.inl (runSize - 2 ^ k.sizes.pageShifts))
  else .ok (.inr runSize)

/-- The two loops of `calculateRunSize`. -/
def searchRunSize (elemSize : ℕ) : Checked ℤ := do
  let runSize ← Loop.run (growRunSize k elemSize) (elemSize + 1) 0
  Loop.run (shrinkRunSize k elemSize) (runSize.toNat + 1) runSize

def calculateRunSize (sizeIdx : ℕ) : Checked ℕ := do
  let elemSize ← k.sizes.sizeIdx2size sizeIdx
  let runSize ← searchRunSize k elemSize
  require (runSize.tdiv elemSize > 0)
  require (runSize ≤ k.sizes.chunkSize)
  require (runSize ≥ elemSize)
  return runSize.toNat

def subpageAt (x : PoolChunk) (runOffset : ℤ) : Checked SubpageId := do
  match ← fetchInt x.subpages runOffset with
  | some s => .ok s
  | none => .error .null

def initBufWithSubpage (c : ChunkId) (b : BufId) (buffer : Option Pointer) (handle : Int64)
    (reqCapacity : ℤ) (t : ThreadId) : PoolM Unit := do
  let x ← getChunk c
  let runOffset := calculateRunOffset handle
  let bitmapIdx := calculateBitmapIdx handle
  let s ← check (x.subpageAt runOffset)
  let p ← getSubpage s
  assert (p.doNotDestroy = true)
  assert (reqCapacity ≤ p.elemSize)
  let offset := runOffset * 2 ^ k.sizes.pageShifts + bitmapIdx * p.elemSize
  PooledByteBuf.init b c buffer handle offset reqCapacity p.elemSize (some t)

/-- `t` is the calling thread, whose cache is both the one passed and `threadCache()`. -/
def initBuf (c : ChunkId) (b : BufId) (buffer : Option Pointer) (handle : Int64)
    (reqCapacity : ℤ) (t : ThreadId) : PoolM Unit :=
  if isSubpage handle = false then
    PooledByteBuf.init b c buffer handle (calculateRunOffset handle * 2 ^ k.sizes.pageShifts)
      reqCapacity (Runs.runSize k.sizes handle) (some t)
  else initBufWithSubpage k c b buffer handle reqCapacity t

def allocateRun (c : ChunkId) (runSize : ℤ) : PoolM Int64 := do
  let x ← getChunk c
  let (handle, runs) ← check (x.runs.allocateRun k.sizes runSize)
  setChunk c { x with runs := runs }
  return handle

def newSubpage (p : PoolSubpage) : PoolM SubpageId := do
  let s ← look fun σ => σ.subpageCount
  update fun σ => { σ with
    subpage := Function.update σ.subpage s (some p)
    subpageCount := s + 1
    ring := Function.update σ.ring (.subpage s) { prev := none, next := none } }
  return s

def allocateSubpage (c : ChunkId) (sizeIdx : ℕ) : PoolM Int64 := do
  let x ← getChunk c
  let head ← check (findSubpagePoolHead k x.arena sizeIdx)
  let runSize ← check (calculateRunSize k sizeIdx)
  let runHandle ← allocateRun k c runSize
  if runHandle < 0 then return -1
  else do
    let runOffset := calculateRunOffset runHandle
    let x ← getChunk c
    let slot ← check (fetchInt x.subpages runOffset)
    assert (slot = none)
    let elemSize ← check (k.sizes.sizeIdx2size sizeIdx)
    let p ← check (PoolSubpage.make c k.sizes.pageShifts runOffset
      (Runs.runSize k.sizes runHandle) elemSize)
    let s ← newSubpage p
    PoolSubpage.addToPool s head
    setChunk c { x with subpages := x.subpages.set runOffset.toNat (some s) }
    PoolSubpage.allocate s

/-- The handle that `allocate` gets, negative where it returns false. -/
def allocateHandle (c : ChunkId) (sizeIdx : ℕ) : PoolM Int64 :=
  if sizeIdx ≤ k.sizes.smallMaxSizeIdx then do
    let handle ← allocateSubpage k c sizeIdx
    assert (handle < 0 ∨ isSubpage handle = true)
    return handle
  else do
    let runSize ← check (k.sizes.sizeIdx2size sizeIdx)
    allocateRun k c runSize

def allocate (c : ChunkId) (b : BufId) (reqCapacity : ℤ) (sizeIdx : ℕ) (t : ThreadId) :
    PoolM Bool := do
  let handle ← allocateHandle k c sizeIdx
  if handle < 0 then return false
  else do
    let x ← getChunk c
    let buffer := x.cachedBuffers.getLast?
    setChunk c { x with cachedBuffers := x.cachedBuffers.dropLast }
    initBuf k c b buffer handle reqCapacity t
    return true

/-- The end of `free`, for a whole run. -/
def freeRun (c : ChunkId) (handle : Int64) (buffer : Option Pointer) : PoolM Unit := do
  let x ← getChunk c
  let runs ← check (x.runs.free k.sizes handle)
  let cachedBuffers := match buffer with
    | some p => if x.cachedBuffers ≠ [] ∧ x.cachedBuffers.length < 1023 then x.cachedBuffers ++ [p]
      else x.cachedBuffers
    | none => x.cachedBuffers
  setChunk c { x with runs := runs, cachedBuffers := cachedBuffers }

def free (c : ChunkId) (handle : Int64) (normCapacity : ℤ) (buffer : Option Pointer) :
    PoolM Unit := do
  if isSubpage handle = true then do
    let x ← getChunk c
    let sizeIdx ← check (sizeIdxOf k normCapacity)
    let head ← check (findSubpagePoolHead k x.arena sizeIdx)
    let sIdx := calculateRunOffset handle
    match ← check (fetchInt x.subpages sIdx) with
    | none => fail .assertion
    | some s => do
      let p ← getSubpage s
      assert (p.doNotDestroy = true)
      if ← PoolSubpage.free s head (calculateBitmapIdx handle) then return ()
      else do
        let p ← getSubpage s
        assert (p.doNotDestroy = false)
        let x ← getChunk c
        setChunk c { x with subpages := x.subpages.set sIdx.toNat none }
        freeRun k c handle buffer
  else freeRun k c handle buffer

end PoolChunk

/-! ### PoolChunkList -/

namespace PoolChunkList

def getLinks (c : ChunkId) : PoolM ChunkLinks := do
  let _ ← getChunk c
  look fun σ => σ.chunkLinks c

def modifyLinks (c : ChunkId) (f : ChunkLinks → ChunkLinks) : PoolM Unit := do
  let _ ← getChunk c
  update fun σ => { σ with chunkLinks := Function.update σ.chunkLinks c (f (σ.chunkLinks c)) }

def setHead (a : ArenaId) (l : ListKind) (c : Option ChunkId) : PoolM Unit :=
  update fun σ => { σ with
    listHead := Function.update σ.listHead a (Function.update (σ.listHead a) l c) }

def remove (a : ArenaId) (l : ListKind) (cur : ChunkId) : PoolM Unit := do
  let head ← look fun σ => σ.listHead a l
  let links ← getLinks cur
  if head = some cur then do
    setHead a l links.next
    match links.next with
    | some next => modifyLinks next fun n => { n with prev := none }
    | none => return ()
  else
    match links.prev with
    | none => fail .null
    | some prev => do
      modifyLinks prev fun n => { n with next := links.next }
      match links.next with
      | some next => modifyLinks next fun n => { n with prev := some prev }
      | none => return ()

def add0 (a : ArenaId) (l : ListKind) (c : ChunkId) : PoolM Unit := do
  match ← look fun σ => σ.listHead a l with
  | none => do
    modifyLinks c fun _ => { prev := none, next := none, parent := some l }
    setHead a l (some c)
  | some head => do
    modifyLinks c fun _ => { prev := none, next := some head, parent := some l }
    modifyLinks head fun n => { n with prev := some c }
    setHead a l (some c)

/-- `add`, for at most `n` lists. -/
def addFrom (a : ArenaId) (c : ChunkId) : ℕ → ListKind → PoolM Unit
  | 0, _ => fail .budget
  | n + 1, l => do
    let x ← getChunk c
    if x.runs.freeBytes ≤ k.freeMinThreshold l then
      match l.nextList with
      | none => fail .null
      | some next => addFrom a c n next
    else add0 a l c

def add (a : ArenaId) (l : ListKind) (c : ChunkId) : PoolM Unit := addFrom k a c 6 l

def move (a : ArenaId) (c : ChunkId) (move0 : ListKind → PoolM Bool) (l : ListKind) :
    PoolM Bool := do
  let x ← getChunk c
  assert (x.usage < l.maxUsage)
  if x.runs.freeBytes > k.freeMaxThreshold l then move0 l
  else do
    add0 a l c
    return true

/-- `move0`, for at most `n` lists. `qInit` comes before itself, and a chunk too empty for it would
be moved forever. -/
def move0 (a : ArenaId) (c : ChunkId) : ℕ → ListKind → PoolM Bool
  | 0, _ => fail .budget
  | n + 1, l =>
    match l.prevList with
    | none => do
      let x ← getChunk c
      assert (x.usage = 0)
      return false
    | some prev => move k a c (move0 a c n) prev

/-- The loop of `allocate` from `cur` on, for at most `n` chunks. -/
def allocateFrom (a : ArenaId) (l : ListKind) (b : BufId) (reqCapacity : ℤ) (sizeIdx : ℕ)
    (t : ThreadId) : ℕ → Option ChunkId → PoolM Bool
  | _, none => return false
  | 0, some _ => fail .budget
  | n + 1, some cur => do
    if ← PoolChunk.allocate k cur b reqCapacity sizeIdx t then do
      let x ← getChunk cur
      when (x.runs.freeBytes ≤ k.freeMinThreshold l) do
        remove a l cur
        match l.nextList with
        | none => fail .null
        | some next => add k a next cur
      return true
    else do
      let links ← getLinks cur
      allocateFrom a l b reqCapacity sizeIdx t n links.next

def allocate (a : ArenaId) (l : ListKind) (b : BufId) (reqCapacity : ℤ) (sizeIdx : ℕ)
    (t : ThreadId) : PoolM Bool := do
  let normCapacity ← check (k.sizes.sizeIdx2size sizeIdx)
  if (normCapacity : ℤ) > l.calculateMaxCapacity k.sizes.chunkSize then return false
  else do
    let count ← look fun σ => σ.chunkCount
    let head ← look fun σ => σ.listHead a l
    allocateFrom k a l b reqCapacity sizeIdx t count head

def free (a : ArenaId) (l : ListKind) (c : ChunkId) (handle : Int64) (normCapacity : ℤ)
    (buffer : Option Pointer) : PoolM Bool := do
  PoolChunk.free k c handle normCapacity buffer
  let x ← getChunk c
  if x.runs.freeBytes > k.freeMaxThreshold l then do
    remove a l c
    move0 k a c 6 l
  else return true

end PoolChunkList

end

end Mutty.Buffer
