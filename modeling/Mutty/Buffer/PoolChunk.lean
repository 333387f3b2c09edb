import Mutty.Lib.Heap
import Mutty.Lib.Transition
import Mutty.Buffer.Handle
import Mutty.Buffer.SizeClasses

/-!
# Runs of a chunk

`Runs` is the part of a `PoolChunk` that `m_runAvailMtx` guards: one priority queue of free runs
for each page class, the map from the first and the last page of each free run to its handle, and
the count of free bytes. `free` here is the function from the point on where a whole run is to be
freed; the branch before it, for a block of a subpage, is not taken for a run handle.
-/

namespace Mutty.Buffer

open Mutty.Lib

/-! ### LongPriorityQueue -/

instance int64LinearOrder : LinearOrder Int64 where
  le_refl := Int64.le_refl
  le_trans _ _ _ := Int64.le_trans
  le_antisymm _ _ := Int64.le_antisymm
  le_total := Int64.le_total
  lt_iff_le_not_ge a b := by
    rw [Int64.lt_iff_toInt_lt, Int64.le_iff_toInt_le, Int64.le_iff_toInt_le]
    omega
  toDecidableLE := inferInstance
  toDecidableEq := inferInstance
  toDecidableLT := inferInstance

abbrev LongPriorityQueue := Heap Int64

namespace LongPriorityQueue

def new : LongPriorityQueue := { array := fun _ => 0, length := 9, size := 0 }

def isEmpty (q : LongPriorityQueue) : Bool := q.size = 0

def offer (q : LongPriorityQueue) (handle : Int64) : Checked LongPriorityQueue :=
  if handle = -1 then .error .thrown else q.insert handle

def poll (q : LongPriorityQueue) : Checked (Int64 × LongPriorityQueue) :=
  if q.size = 0 then .ok (-1, q) else q.pop 0

end LongPriorityQueue

/-! ### PoolChunk -/

structure Runs where
  freeBytes : ℤ
  runsAvail : List LongPriorityQueue
  runsAvailMap : ℤ → Option Int64

def lastPage (runOffset pages : ℤ) : ℤ := runOffset + pages - 1

namespace Runs

variable (s : SizeClasses) (c : Runs)

def queueAt (i : ℤ) : Checked LongPriorityQueue :=
  if 0 ≤ i then fetch c.runsAvail i.toNat else .error .range

def setQueue (i : ℤ) (q : LongPriorityQueue) : Runs :=
  { c with runsAvail := c.runsAvail.set i.toNat q }

/-- `std::unordered_map::insert` keeps an entry that is already there. -/
def insertAvailRun0 (runOffset : ℤ) (handle : Int64) : Runs :=
  if (c.runsAvailMap runOffset).isSome then c
  else { c with runsAvailMap := Function.update c.runsAvailMap runOffset (some handle) }

def eraseAvailRun0 (runOffset : ℤ) : Runs :=
  { c with runsAvailMap := Function.update c.runsAvailMap runOffset none }

def insertAvailRun (runOffset pages : ℤ) (handle : Int64) : Checked Runs := do
  let pageIdxFloor ← s.pages2pageIdxFloor pages
  let queue ← c.queueAt pageIdxFloor
  let queue ← LongPriorityQueue.offer queue handle
  let c := (c.setQueue pageIdxFloor queue).insertAvailRun0 runOffset handle
  return if pages > 1 then c.insertAvailRun0 (lastPage runOffset pages) handle else c

def removeAvailRunFrom (queueIdx : ℤ) (handle : Int64) : Checked Runs := do
  let queue ← c.queueAt queueIdx
  let queue ← queue.remove handle
  let runOffset := calculateRunOffset handle
  let pages := calculateRunPages handle
  let c := (c.setQueue queueIdx queue).eraseAvailRun0 runOffset
  return if pages > 1 then c.eraseAvailRun0 (lastPage runOffset pages) else c

def removeAvailRun (handle : Int64) : Checked Runs := do
  let pageIdxFloor ← s.pages2pageIdxFloor (calculateRunPages handle)
  c.removeAvailRunFrom pageIdxFloor handle

def make : Checked Runs :=
  let pages : ℤ := s.chunkSize >>> s.pageShifts
  insertAvailRun s
    { freeBytes := s.chunkSize
      runsAvail := List.replicate s.nPSizes LongPriorityQueue.new
      runsAvailMap := fun _ => none }
    0 pages (Int64.ofInt pages <<< 34)

def firstNonEmpty : ℤ → ℕ → Checked ℤ
  | _, 0 => return -1
  | i, n + 1 => do
    let queue ← c.queueAt i
    if LongPriorityQueue.isEmpty queue then firstNonEmpty (i + 1) n else return i

def runFirstBestFit (pageIdx : ℤ) : Checked ℤ :=
  if c.freeBytes = s.chunkSize then return s.nPSizes - 1
  else c.firstNonEmpty pageIdx (s.nPSizes - pageIdx).toNat

def splitLargeRun (handle : Int64) (needPages : ℤ) : Checked (Int64 × Runs) := do
  require (needPages > 0)
  let totalPages := calculateRunPages handle
  require (needPages ≤ totalPages)
  let remPages := totalPages - needPages
  if remPages > 0 then do
    let runOffset := calculateRunOffset handle
    let availOffset := runOffset + needPages
    let availRun := toRunHandle availOffset remPages 0
    let c ← c.insertAvailRun s availOffset remPages availRun
    return (toRunHandle runOffset needPages 1, c)
  else return (markUsed handle, c)

/-- `calculateRunSize(pageShifts, handle)`. -/
def runSize (handle : Int64) : ℤ := calculateRunPages handle * 2 ^ s.pageShifts

def allocateRun (runSize : ℤ) : Checked (Int64 × Runs) := do
  let pages := runSize / 2 ^ s.pageShifts
  let pageIdx ← s.pages2pageIdx pages
  let queueIdx ← c.runFirstBestFit s pageIdx
  if queueIdx = -1 then return (-1, c)
  else do
    let queue ← c.queueAt queueIdx
    require (LongPriorityQueue.isEmpty queue = false)
    let (handle, queue) ← LongPriorityQueue.poll queue
    require (isUsed handle = false)
    let c ← (c.setQueue queueIdx queue).removeAvailRunFrom queueIdx handle
    let (handle, c) ← if handle ≠ -1 then c.splitLargeRun s handle pages else pure (handle, c)
    return (handle, { c with freeBytes := c.freeBytes - Runs.runSize s handle })

/-- -1 when no free run begins or ends at the page. -/
def getAvailRunByOffset (runOffset : ℤ) : Int64 := (c.runsAvailMap runOffset).getD (-1)

def collapsePastBody : Runs × Int64 → Checked ((Runs × Int64) ⊕ (Runs × Int64))
  | (c, handle) =>
    let runOffset := calculateRunOffset handle
    let runPages := calculateRunPages handle
    let pastRun := c.getAvailRunByOffset (runOffset - 1)
    if pastRun = -1 then .ok (.inr (c, handle))
    else
      let pastOffset := calculateRunOffset pastRun
      let pastPages := calculateRunPages pastRun
      if pastRun ≠ handle ∧ pastOffset + pastPages = runOffset then do
        let c ← c.removeAvailRun s pastRun
        return .inl (c, toRunHandle pastOffset (pastPages + runPages) 0)
      else .ok (.inr (c, handle))

def collapseNextBody : Runs × Int64 → Checked ((Runs × Int64) ⊕ (Runs × Int64))
  | (c, handle) =>
    let runOffset := calculateRunOffset handle
    let runPages := calculateRunPages handle
    let nextRun := c.getAvailRunByOffset (runOffset + runPages)
    if nextRun = -1 then .ok (.inr (c, handle))
    else
      -- the page count is read where the offset is meant
      let nextOffset := calculateRunPages nextRun
      let nextPages := calculateRunPages nextRun
      if nextRun ≠ handle ∧ runOffset + runPages = nextOffset then do
        let c ← c.removeAvailRun s nextRun
        return .inl (c, toRunHandle runOffset (runPages + nextPages) 0)
      else .ok (.inr (c, handle))

/-- Every round joins a run of at least one page. -/
def rounds : ℕ := s.chunkSize >>> s.pageShifts + 1

def collapsePast (handle : Int64) : Checked (Runs × Int64) :=
  Loop.run (collapsePastBody s) (rounds s) (c, handle)

def collapseNext (handle : Int64) : Checked (Runs × Int64) :=
  Loop.run (collapseNextBody s) (rounds s) (c, handle)

def collapseRuns (handle : Int64) : Checked (Runs × Int64) := do
  let (c, handle) ← c.collapsePast s handle
  c.collapseNext s handle

def free (handle : Int64) : Checked Runs := do
  let pages := calculateRunPages handle
  let (c, finalRun) ← c.collapseRuns s handle
  let finalRun := clearFlags finalRun
  let c ← c.insertAvailRun s (calculateRunOffset finalRun) (calculateRunPages finalRun) finalRun
  return { c with freeBytes := c.freeBytes + pages * 2 ^ s.pageShifts }

end Runs

/-! ### Runs of a fresh chunk -/

structure RunState where
  sizes : SizeClasses
  runs : Runs
  outstanding : List Int64

inductive RunAction
  | allocateRun (runSize : ℤ)
  | free (handle : Int64)
  deriving DecidableEq, Repr

def RunState.make (pageSize maxOrder : ℤ) : Checked RunState := do
  let chunkSize ← validateAndCalculateChunkSize pageSize maxOrder
  let pageShifts ← validateAndCalculatePageShifts pageSize
  let sizes ← SizeClasses.make pageShifts.toNat chunkSize.toNat
  let runs ← Runs.make sizes
  return { sizes := sizes, runs := runs, outstanding := [] }

def RunState.allocateRun (σ : RunState) (runSize : ℤ) : Checked RunState := do
  let (handle, runs) ← σ.runs.allocateRun σ.sizes runSize
  return { σ with
    runs := runs
    outstanding := if handle < 0 then σ.outstanding else handle :: σ.outstanding }

def RunState.free (σ : RunState) (handle : Int64) : Checked RunState := do
  let runs ← σ.runs.free σ.sizes handle
  return { σ with runs := runs, outstanding := σ.outstanding.erase handle }

/-- All sequences of calls on a fresh chunk that free outstanding handles only. A page size is an
`int`. -/
def runMachine (pageSize maxOrder : ℤ) : System RunState RunAction where
  init σ := pageSize < 2 ^ 31 ∧ RunState.make pageSize maxOrder = .ok σ
  step σ a :=
    match a with
    | .allocateRun runSize => (σ.allocateRun runSize).toOption
    | .free handle => if handle ∈ σ.outstanding then (σ.free handle).toOption else none

end Mutty.Buffer
