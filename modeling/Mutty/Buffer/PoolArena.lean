import Mutty.Buffer.Pool

/-!
# Arenas, thread caches and buffers

Allocation tries the calling thread's cache, then a subpage with a free element, then the chunks of
the arena and at last a new chunk; freed memory goes to the cache of the thread that allocated it,
and from there, when the cache is trimmed, back to its chunk. `poolMachine` is the whole: threads
that allocate, resize and free buffers, one operation after the other.
-/

namespace Mutty.Buffer

open Mutty.Lib Prog

section

variable (k : Config)

/-! ### PoolArena, freeing -/

namespace PoolArena

def destroyChunk (c : ChunkId) : PoolM Unit := do
  let x ← getChunk c
  update fun σ => { σ with
    chunk := Function.update σ.chunk c none
    subpage := fun s => if some s ∈ x.subpages then none else σ.subpage s }

def freeChunk (c : ChunkId) (handle : Int64) (normCapacity : ℤ) (buffer : Option Pointer) :
    PoolM Unit := do
  let x ← getChunk c
  let links ← PoolChunkList.getLinks c
  match links.parent with
  | none => fail .null
  | some l => do
    if ← PoolChunkList.free k x.arena l c handle normCapacity buffer then return ()
    else destroyChunk c

end PoolArena

/-! ### MemoryRegionCache and PoolThreadCache -/

def nextPowerofTwo (val : ℤ) : ℤ :=
  let val : Int32 := Int32.ofInt val - 1
  let val := val ||| (val >>> 1)
  let val := val ||| (val >>> 2)
  let val := val ||| (val >>> 4)
  let val := val ||| (val >>> 8)
  let val := val ||| (val >>> 16)
  (val + 1).toInt

def MemoryRegionCache.new (size : ℤ) : MemoryRegionCache :=
  { size := nextPowerofTwo size, allocations := 0, queue := [] }

namespace PoolThreadCache

def createSubPageCaches (cacheSize : ℤ) (numCaches : ℕ) : List MemoryRegionCache :=
  if cacheSize > 0 then List.replicate numCaches (.new cacheSize) else []

/-- The number of size classes from `idx` on, among `n`, that are cached. -/
def countNormalCaches (maxSize : ℤ) : ℕ → ℕ → Checked ℕ
  | _, 0 => return 0
  | idx, n + 1 => do
    let size ← k.sizes.sizeIdx2size idx
    if (size : ℤ) ≤ maxSize then do
      let count ← countNormalCaches maxSize (idx + 1) n
      return count + 1
    else return 0

def createNormalCaches (cacheSize maxCachedBufferCapacity : ℤ) :
    Checked (List MemoryRegionCache) := do
  if cacheSize > 0 ∧ maxCachedBufferCapacity > 0 then do
    let maxSize := min (k.sizes.chunkSize : ℤ) maxCachedBufferCapacity
    let count ← countNormalCaches k maxSize k.sizes.nSubpages (k.sizes.nSizes - k.sizes.nSubpages)
    return List.replicate count (.new cacheSize)
  else return []

def make : Checked PoolThreadCache := do
  require (k.maxCachedBufferCapacity ≥ 0)
  let small := createSubPageCaches k.smallCacheSize k.sizes.nSubpages
  let normal ← createNormalCaches k k.normalCacheSize k.maxCachedBufferCapacity
  if (small ≠ [] ∨ normal ≠ []) ∧ k.freeSweepAllocationThreshold < 1 then .error .thrown
  else return {
    smallSubPageCaches := small
    normalCaches := normal
    allocations := 0
    freeSweepAllocationThreshold := k.freeSweepAllocationThreshold }

def regions (cache : PoolThreadCache) : SizeClassType → List MemoryRegionCache
  | .small => cache.smallSubPageCaches
  | .normal => cache.normalCaches

def setRegion (cache : PoolThreadCache) (sizeClass : SizeClassType) (i : ℕ)
    (r : MemoryRegionCache) : PoolThreadCache :=
  match sizeClass with
  | .small => { cache with smallSubPageCaches := cache.smallSubPageCaches.set i r }
  | .normal => { cache with normalCaches := cache.normalCaches.set i r }

end PoolThreadCache

def getThread (t : ThreadId) : PoolM Thread := do
  match ← look fun σ => σ.threads[t]? with
  | some th => pure th
  | none => fail .null

def setThread (t : ThreadId) (th : Thread) : PoolM Unit :=
  update fun σ => { σ with threads := σ.threads.set t th }

namespace MemoryRegionCache

variable (t : ThreadId) (sizeClass : SizeClassType) (i : ℕ)

def get : PoolM MemoryRegionCache := do
  let th ← getThread t
  match (th.cache.regions sizeClass)[i]? with
  | some r => pure r
  | none => fail .null

def set (r : MemoryRegionCache) : PoolM Unit := do
  let th ← getThread t
  setThread t { th with cache := th.cache.setRegion sizeClass i r }

/-- The entry object itself is recycled; `add` never refuses. -/
def add (e : Entry) : PoolM Bool := do
  let r ← get t sizeClass i
  set t sizeClass i { r with queue := r.queue ++ [e] }
  return true

def initBuf (e : Entry) (b : BufId) (reqCapacity : ℤ) : PoolM Unit :=
  match sizeClass with
  | .small => PoolChunk.initBufWithSubpage k e.chunk b e.buffer e.handle reqCapacity t
  | .normal => PoolChunk.initBuf k e.chunk b e.buffer e.handle reqCapacity t

def allocate (b : BufId) (reqCapacity : ℤ) : PoolM Bool := do
  let r ← get t sizeClass i
  match r.queue with
  | [] => return false
  | e :: queue => do
    set t sizeClass i { r with queue := queue }
    initBuf k t sizeClass e b reqCapacity
    let r ← get t sizeClass i
    set t sizeClass i { r with allocations := r.allocations + 1 }
    return true

/-- `free(max, finalizer)`; `freeEntry` hands the block back to its chunk. -/
def free : ℕ → PoolM Unit
  | 0 => return ()
  | max + 1 => do
    let r ← get t sizeClass i
    match r.queue with
    | [] => return ()
    | e :: queue => do
      set t sizeClass i { r with queue := queue }
      PoolArena.freeChunk k e.chunk e.handle e.normCapacity e.buffer
      free max

def trim : PoolM Unit := do
  let r ← get t sizeClass i
  let toFreeNum := r.size - r.allocations
  set t sizeClass i { r with allocations := 0 }
  when (toFreeNum > 0) (free k t sizeClass i toFreeNum.toNat)

end MemoryRegionCache

namespace PoolThreadCache

/-- Trimming the caches from `i` on, `n` of them. -/
def trimFrom (t : ThreadId) (sizeClass : SizeClassType) : ℕ → ℕ → PoolM Unit
  | _, 0 => return ()
  | i, n + 1 => do
    MemoryRegionCache.trim k t sizeClass i
    trimFrom t sizeClass (i + 1) n

def trim (t : ThreadId) : PoolM Unit := do
  let th ← getThread t
  trimFrom k t .small 0 th.cache.smallSubPageCaches.length
  trimFrom k t .normal 0 th.cache.normalCaches.length

/-- `genCache`: the index of the cache for a size class, if there is one. -/
def indexOf (cache : PoolThreadCache) (sizeClass : SizeClassType) (sizeIdx : ℕ) : Option ℕ :=
  let idx : ℤ := match sizeClass with
    | .small => sizeIdx
    | .normal => sizeIdx - k.sizes.nSubpages
  if 0 ≤ idx ∧ idx < (cache.regions sizeClass).length then some idx.toNat else none

def allocate (t : ThreadId) (sizeClass : SizeClassType) (b : BufId) (reqCapacity : ℤ)
    (sizeIdx : ℕ) : PoolM Bool := do
  let th ← getThread t
  match th.cache.indexOf k sizeClass sizeIdx with
  | none => return false
  | some i => do
    let allocated ← MemoryRegionCache.allocate k t sizeClass i b reqCapacity
    let th ← getThread t
    let allocations := th.cache.allocations + 1
    if allocations ≥ th.cache.freeSweepAllocationThreshold then do
      setThread t { th with cache := { th.cache with allocations := 0 } }
      trim k t
      return allocated
    else do
      setThread t { th with cache := { th.cache with allocations := allocations } }
      return allocated

def add (t : ThreadId) (sizeClass : SizeClassType) (e : Entry) : PoolM Bool := do
  let sizeIdx ← check (sizeIdxOf k e.normCapacity)
  let th ← getThread t
  match th.cache.indexOf k sizeClass sizeIdx with
  | none => return false
  | some i => MemoryRegionCache.add t sizeClass i e

end PoolThreadCache

/-! ### PoolArena -/

namespace PoolArena

def getSizeClassType (handle : Int64) : SizeClassType :=
  if isSubpage handle then .small else .normal

def newChunk (a : ArenaId) : PoolM ChunkId := do
  let runs ← check (Runs.make k.sizes)
  let c ← look fun σ => σ.chunkCount
  update fun σ => { σ with
    chunk := Function.update σ.chunk c (some {
      arena := a
      unpooled := false
      chunkSize := k.sizes.chunkSize
      runs := runs
      subpages := List.replicate (k.sizes.chunkSize >>> k.sizes.pageShifts) none
      cachedBuffers := []
      memory := fun _ => 0
      memorySize := k.sizes.chunkSize })
    chunkCount := c + 1
    chunkLinks := Function.update σ.chunkLinks c { prev := none, next := none, parent := none } }
  return c

/-- The memory is that of a pooled chunk, whatever the capacity. -/
def newUnpooledChunk (a : ArenaId) (capacity : ℤ) : PoolM ChunkId := do
  let c ← look fun σ => σ.chunkCount
  update fun σ => { σ with
    chunk := Function.update σ.chunk c (some {
      arena := a
      unpooled := true
      chunkSize := capacity
      runs := { freeBytes := 0, runsAvail := [], runsAvailMap := fun _ => none }
      subpages := []
      cachedBuffers := []
      memory := fun _ => 0
      memorySize := k.sizes.chunkSize })
    chunkCount := c + 1
    chunkLinks := Function.update σ.chunkLinks c { prev := none, next := none, parent := none } }
  return c

def allocateHuge (a : ArenaId) (b : BufId) (reqCapacity : ℤ) : PoolM Unit := do
  let c ← newUnpooledChunk k a reqCapacity
  PooledByteBuf.init b c none 0 0 reqCapacity reqCapacity none

def allocateFromLists (a : ArenaId) (b : BufId) (reqCapacity : ℤ) (sizeIdx : ℕ) (t : ThreadId) :
    List ListKind → PoolM Bool
  | [] => return false
  | l :: ls => do
    if ← PoolChunkList.allocate k a l b reqCapacity sizeIdx t then return true
    else allocateFromLists a b reqCapacity sizeIdx t ls

def allocateNormal (a : ArenaId) (b : BufId) (reqCapacity : ℤ) (sizeIdx : ℕ) (t : ThreadId) :
    PoolM Unit := do
  if ← allocateFromLists k a b reqCapacity sizeIdx t [.q050, .q025, .q000, .qInit, .q075] then
    return ()
  else do
    let c ← newChunk k a
    let success ← PoolChunk.allocate k c b reqCapacity sizeIdx t
    assert (success = true)
    PoolChunkList.add k a .qInit c

/-- `tcacheAllocateSmall` from the point on where the cache has nothing. -/
def allocateSmall (a : ArenaId) (b : BufId) (reqCapacity : ℤ) (sizeIdx : ℕ) (t : ThreadId) :
    PoolM Unit := do
  let head ← check (findSubpagePoolHead k a sizeIdx)
  let links ← look fun σ => σ.ring head
  if links.next = some head then allocateNormal k a b reqCapacity sizeIdx t
  else
    match links.next with
    | none => fail .null
    -- the heads have element size -1
    | some (.head _ _) => fail .assertion
    | some (.subpage s) => do
      let p ← getSubpage s
      let size ← check (k.sizes.sizeIdx2size sizeIdx)
      assert (p.doNotDestroy = true ∧ p.elemSize = size)
      let handle ← PoolSubpage.allocate s
      assert (handle ≥ 0)
      PoolChunk.initBufWithSubpage k p.chunk b none handle reqCapacity t

def tcacheAllocateSmall (a : ArenaId) (b : BufId) (reqCapacity : ℤ) (sizeIdx : ℕ) (t : ThreadId) :
    PoolM Unit := do
  if ← PoolThreadCache.allocate k t .small b reqCapacity sizeIdx then return ()
  else allocateSmall k a b reqCapacity sizeIdx t

def tcacheAllocateNormal (a : ArenaId) (b : BufId) (reqCapacity : ℤ) (sizeIdx : ℕ) (t : ThreadId) :
    PoolM Unit := do
  if ← PoolThreadCache.allocate k t .normal b reqCapacity sizeIdx then return ()
  else allocateNormal k a b reqCapacity sizeIdx t

/-- `allocate` for a buffer object that is there already. -/
def allocateFor (a : ArenaId) (t : ThreadId) (b : BufId) (reqCapacity : ℤ) : PoolM Unit := do
  let sizeIdx ← check (sizeIdxOf k reqCapacity)
  if sizeIdx ≤ k.sizes.smallMaxSizeIdx then tcacheAllocateSmall k a b reqCapacity sizeIdx t
  else if sizeIdx < k.sizes.nSizes then tcacheAllocateNormal k a b reqCapacity sizeIdx t
  else do
    let normCapacity ← check (k.sizes.normalizeSize reqCapacity)
    allocateHuge k a b normCapacity

def free (c : ChunkId) (buffer : Option Pointer) (handle : Int64) (normCapacity : ℤ)
    (cache : Option ThreadId) : PoolM Unit := do
  let x ← getChunk c
  if x.unpooled = true then destroyChunk c
  else
    match cache with
    | none => freeChunk k c handle normCapacity buffer
    | some t => do
      let e : Entry := { chunk := c, buffer := buffer, handle := handle, normCapacity := normCapacity }
      if ← PoolThreadCache.add k t (getSizeClassType handle) e then return ()
      else freeChunk k c handle normCapacity buffer

end PoolArena

/-! ### PooledByteBuf -/

namespace PooledByteBuf

def new : PooledByteBuf :=
  { maxCapacity := 0
    chunk := none
    handle := 0
    memory := none
    offset := 0
    length := 0
    maxLength := 0
    cache := none
    tmpBuf := none
    readerIndex := 0
    writerIndex := 0 }

def newInstance (t : ThreadId) (maxCapacity : ℤ) : PoolM BufId := do
  let th ← getThread t
  match th.stack with
  | b :: stack => do
    setThread t { th with stack := stack }
    let buf ← getBuf b
    setBuf b { buf with maxCapacity := maxCapacity, readerIndex := 0, writerIndex := 0 }
    return b
  | [] => do
    let b ← look fun σ => σ.bufs.length
    update fun σ => { σ with bufs := σ.bufs ++ [{ new with maxCapacity := maxCapacity }] }
    return b

def recycle (t : ThreadId) (b : BufId) : PoolM Unit := do
  let th ← getThread t
  setThread t { th with stack := b :: th.stack }

def deallocate (t : ThreadId) (b : BufId) : PoolM Unit := do
  let buf ← getBuf b
  if buf.handle ≥ 0 then do
    setBuf b { buf with handle := -1, memory := none }
    match buf.chunk with
    | none => fail .null
    | some c => do
      PoolArena.free k c buf.tmpBuf buf.handle buf.maxLength buf.cache
      let buf ← getBuf b
      setBuf b { buf with tmpBuf := none, chunk := none }
      recycle t b
  else return ()

def trimIndicesToCapacity (buf : PooledByteBuf) (newCapacity : ℤ) : PooledByteBuf :=
  if buf.writerIndex > newCapacity then
    { buf with readerIndex := min buf.readerIndex newCapacity, writerIndex := newCapacity }
  else buf

end PooledByteBuf

def PoolChunk.InMemory (x : PoolChunk) (offset length : ℤ) : Prop :=
  0 ≤ offset ∧ 0 ≤ length ∧ offset + length ≤ x.memorySize

instance (x : PoolChunk) (offset length : ℤ) : Decidable (x.InMemory offset length) :=
  inferInstanceAs (Decidable (0 ≤ offset ∧ 0 ≤ length ∧ offset + length ≤ x.memorySize))

namespace PoolArena

def memoryCopy (src : Option ChunkId) (srcOffset : ℤ) (dst : PooledByteBuf) (length : ℤ) :
    PoolM Unit := do
  if length = 0 then return ()
  else
    match src, dst.memory with
    | some c, some d => do
      let x ← getChunk c
      let y ← getChunk d
      if x.InMemory srcOffset length ∧ y.InMemory dst.offset length then
        setChunk d { y with
          memory := fun i => if dst.offset ≤ i ∧ i < dst.offset + length
            then x.memory (i - dst.offset + srcOffset) else y.memory i }
      else fail .range
    | _, _ => fail .null

def reallocate (a : ArenaId) (t : ThreadId) (b : BufId) (newCapacity : ℤ) : PoolM Unit := do
  let buf ← getBuf b
  assert (newCapacity ≥ 0 ∧ newCapacity ≤ buf.maxCapacity)
  if buf.length = newCapacity then return ()
  else
    match buf.chunk with
    | none => fail .null
    | some oldChunk => do
      allocateFor k a t b newCapacity
      let new ← getBuf b
      let bytesToCopy := if newCapacity > buf.length then buf.length else newCapacity
      when (¬ newCapacity > buf.length) (setBuf b (new.trimIndicesToCapacity newCapacity))
      memoryCopy buf.memory buf.offset new bytesToCopy
      free k oldChunk buf.tmpBuf buf.handle buf.maxLength new.cache

end PoolArena

namespace PooledByteBuf

def capacity (t : ThreadId) (b : BufId) (newCapacity : ℤ) : PoolM Unit := do
  let buf ← getBuf b
  if newCapacity = buf.length then return ()
  -- `checkNewCapacity`
  else if newCapacity < 0 ∨ newCapacity > buf.maxCapacity then fail .thrown
  else if newCapacity > buf.length ∧ newCapacity ≤ buf.maxLength then
    setBuf b { buf with length := newCapacity }
  else if ¬ newCapacity > buf.length ∧ newCapacity > buf.maxLength / 2 ∧
      (buf.maxLength > 512 ∨ newCapacity > buf.maxLength - 16) then
    setBuf b ({ buf with length := newCapacity }.trimIndicesToCapacity newCapacity)
  else
    match buf.chunk with
    | none => fail .null
    | some c => do
      let x ← getChunk c
      PoolArena.reallocate k x.arena t b newCapacity

end PooledByteBuf

def PoolArena.allocate (a : ArenaId) (t : ThreadId) (reqCapacity maxCapacity : ℤ) :
    PoolM BufId := do
  let b ← PooledByteBuf.newInstance t maxCapacity
  PoolArena.allocateFor k a t b reqCapacity
  return b

/-! ### The machine -/

/-- The size classes of every arena of the allocator. -/
def arenaSizes (pageSize maxOrder : ℤ) : Checked SizeClasses := do
  let chunkSize ← validateAndCalculateChunkSize pageSize maxOrder
  let pageShifts ← validateAndCalculatePageShifts pageSize
  SizeClasses.make pageShifts.toNat chunkSize.toNat

inductive PoolAction
  | attach
  | allocate (a : ArenaId) (t : ThreadId) (reqCapacity maxCapacity : ℤ)
  | deallocate (t : ThreadId) (b : BufId)
  | capacity (t : ThreadId) (b : BufId) (newCapacity : ℤ)
  | trim (t : ThreadId)
  deriving DecidableEq, Repr

def attach : PoolM Unit := do
  let cache ← check (PoolThreadCache.make k)
  update fun σ => { σ with threads := σ.threads ++ [{ cache := cache, stack := [] }] }

def PoolAction.run : PoolAction → PoolM Unit
  | .attach => Buffer.attach k
  | .allocate a t reqCapacity maxCapacity => do
    let _ ← PoolArena.allocate k a t reqCapacity maxCapacity
    return ()
  | .deallocate t b => PooledByteBuf.deallocate k t b
  | .capacity t b newCapacity => PooledByteBuf.capacity k t b newCapacity
  | .trim t => PoolThreadCache.trim k t

def Pool.initial : Pool :=
  { chunk := fun _ => none
    chunkCount := 0
    chunkLinks := fun _ => { prev := none, next := none, parent := none }
    listHead := fun _ _ => none
    subpage := fun _ => none
    subpageCount := 0
    ring := fun n => { prev := some n, next := some n }
    threads := []
    bufs := [] }

/-- Any sequence of whole operations by any number of threads. A page size is an `int`. -/
def poolMachine : System Pool PoolAction where
  init σ := (∃ pageSize maxOrder, pageSize < 2 ^ 31 ∧ arenaSizes pageSize maxOrder = .ok k.sizes) ∧
    σ = Pool.initial
  step σ a := (a.run k σ).toOption.map Prod.snd

end

end Mutty.Buffer
