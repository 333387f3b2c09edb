import Mathlib.Algebra.Order.Ring.Int
import Mathlib.Algebra.Order.Ring.Nat
import Mathlib.Data.Int.Basic
import Mutty.Lib.Loop

/-!
# Geometry and size classes of an arena

A `PoolArena` is built for a page size and a chunk size that `PooledByteBufAllocator` has
validated. Its base class tabulates the size classes: a first group of four, then groups of four
with the spacing doubled from group to group, up to the chunk size. The constructor's loops are
kept, with the counters they maintain; an `int` is an integer, reduced to 32 bits where the code
reads it as unsigned.
-/

namespace Mutty.Buffer

open Mutty.Lib

/-! ### MathUtil -/

/-- One halving step: `(n, val)` with the first `k` of 32 bits of `val` shifted out if zero. -/
def skipZeros (k : ℕ) : ℕ × ℕ → ℕ × ℕ
  | (n, val) => if val >>> (32 - k) = 0 then (n + k, val <<< k % 2 ^ 32) else (n, val)

def numberOfLeadingZeros (signedVal : ℤ) : ℕ :=
  let val := (signedVal % 2 ^ 32).toNat
  if val = 0 then 32
  else
    let r := skipZeros 2 (skipZeros 4 (skipZeros 8 (skipZeros 16 (1, val))))
    r.1 - r.2 >>> 31

def log2 (val : ℤ) : ℤ := 31 - numberOfLeadingZeros val

/-! ### PooledByteBufAllocator -/

def minPageSize : ℤ := 4096

def maxChunkSize : ℤ := 2 ^ 30

def validateAndCalculatePageShifts (pageSize : ℤ) : Checked ℤ :=
  if pageSize < minPageSize then .error .thrown
  else if pageSize.toNat &&& (pageSize.toNat - 1) ≠ 0 then .error .thrown
  else .ok (log2 pageSize)

/-- The doubling loop of `validateAndCalculateChunkSize`, for `i` rounds. -/
def doubleChunkSize : ℕ → ℤ → Checked ℤ
  | 0, chunkSize => .ok chunkSize
  | i + 1, chunkSize =>
    if chunkSize > maxChunkSize / 2 then .error .thrown else doubleChunkSize i (chunkSize * 2)

def validateAndCalculateChunkSize (pageSize maxOrder : ℤ) : Checked ℤ := do
  require (maxOrder < 14)
  doubleChunkSize maxOrder.toNat pageSize

/-! ### SizeClasses -/

structure SizeClass where
  index : ℕ
  log2Group : ℕ
  log2Delta : ℕ
  nDelta : ℕ
  isMultiPageSize : Bool
  isSubpage : Bool
  log2DeltaLookup : ℕ
  deriving DecidableEq, Repr

def SizeClass.size (c : SizeClass) : ℕ := 1 <<< c.log2Group + c.nDelta <<< c.log2Delta

structure SizeClasses where
  pageShifts : ℕ
  chunkSize : ℕ
  sizeClasses : List SizeClass := []
  nPSizes : ℕ := 0
  nSubpages : ℕ := 0
  smallMaxSizeIdx : ℕ := 0
  lookupMaxSize : ℕ := 0
  sizeIdx2sizeTab : List ℕ := []
  pageIdx2sizeTab : List ℕ := []
  size2idxTab : List ℕ := []
  deriving Repr

namespace SizeClasses

variable (s : SizeClasses)

def nSizes : ℕ := s.sizeClasses.length

def newRow (index log2Group log2Delta nDelta : ℕ) : SizeClass :=
  let size := 1 <<< log2Group + nDelta <<< log2Delta
  let log2Ndelta := if nDelta = 0 then 0 else (log2 nDelta).toNat
  let log2Size := if log2Delta + log2Ndelta = log2Group then log2Group + 1 else log2Group
  let remove : Bool := 1 <<< log2Ndelta < nDelta ∨ log2Size = log2Group
  { index := index
    log2Group := log2Group
    log2Delta := log2Delta
    nDelta := nDelta
    isMultiPageSize := s.pageShifts ≤ log2Delta ∨
      size = size / 1 <<< s.pageShifts * 1 <<< s.pageShifts
    isSubpage := log2Size < s.pageShifts + 2
    log2DeltaLookup := if log2Size < 12 ∨ (log2Size = 12 ∧ remove = false) then log2Delta else 0 }

def sizeClass (log2Group log2Delta nDelta : ℕ) : SizeClasses :=
  let c := s.newRow s.nSizes log2Group log2Delta nDelta
  { s with
    sizeClasses := s.sizeClasses ++ [c]
    nPSizes := if c.isMultiPageSize then s.nPSizes + 1 else s.nPSizes
    nSubpages := if c.isSubpage then s.nSubpages + 1 else s.nSubpages
    smallMaxSizeIdx := if c.isSubpage then c.index else s.smallMaxSizeIdx
    lookupMaxSize := if c.log2DeltaLookup ≠ 0 then c.size else s.lookupMaxSize }

def lastSize : ℕ := (s.sizeClasses.getLast?.map SizeClass.size).getD 0

/-- `nDelta` runs over the given values as long as the last size is below the chunk size. -/
def fillGroup (log2Group log2Delta : ℕ) : List ℕ → SizeClasses → SizeClasses
  | [], s => s
  | nDelta :: rest, s =>
    if s.lastSize < s.chunkSize then fillGroup log2Group log2Delta rest
      (s.sizeClass log2Group log2Delta nDelta)
    else s

def groupBody : SizeClasses × ℕ → Checked ((SizeClasses × ℕ) ⊕ SizeClasses)
  | (s, group) =>
    if s.lastSize < s.chunkSize then
      .ok (.inl (fillGroup (group + 5) (group + 3) [1, 2, 3, 4] s, group + 1))
    else .ok (.inr s)

/-- The first group has `log2Group = log2Delta = 4`, group `g` after it `log2Group = 5 + g` and
`log2Delta = 3 + g`. -/
def sizeClassesLoop : Checked SizeClasses := do
  let first := [0, 1, 2, 3].foldl (fun s nDelta => s.sizeClass 4 4 nDelta) s
  let s ← Loop.run groupBody 32 (first, 1)
  require (s.lastSize = s.chunkSize)
  return s

def idx2SizeTab : SizeClasses :=
  { s with
    sizeIdx2sizeTab := s.sizeClasses.map SizeClass.size
    pageIdx2sizeTab := (s.sizeClasses.filter (·.isMultiPageSize)).map SizeClass.size }

/-- `size` is 0 before the first entry and `idx + 1 << LOG2_QUANTUM` after entry `idx`. -/
def lookupSize (tab : List ℕ) : ℕ := if tab = [] then 0 else (tab.length + 1) <<< 4

def fillLookup (i : ℕ) : ℕ → List ℕ → List ℕ
  | 0, tab => tab
  | times + 1, tab =>
    if lookupSize tab ≤ s.lookupMaxSize then fillLookup i times (tab ++ [i]) else tab

def fillLookups : List SizeClass → List ℕ → Checked (List ℕ)
  | [], tab => if lookupSize tab ≤ s.lookupMaxSize then .error .range else .ok tab
  | c :: rest, tab =>
    if lookupSize tab ≤ s.lookupMaxSize then
      fillLookups rest (s.fillLookup c.index (1 <<< (c.log2Delta - 4)) tab)
    else .ok tab

def make (pageShifts chunkSize : ℕ) : Checked SizeClasses := do
  let s ← sizeClassesLoop { pageShifts := pageShifts, chunkSize := chunkSize }
  let s := s.idx2SizeTab
  let tab ← s.fillLookups s.sizeClasses []
  return { s with size2idxTab := tab }

def sizeIdx2size (sizeIdx : ℕ) : Checked ℕ := fetch s.sizeIdx2sizeTab sizeIdx

/-- The first group has no size of its own; the others start at `1 << 5 << group`. -/
def sizeIdx2sizeCompute (sizeIdx : ℕ) : ℕ :=
  let group := sizeIdx >>> 2
  let mod := sizeIdx % 4
  let groupSize := if group = 0 then 0 else 1 <<< (4 + 2 - 1) <<< group
  let shift := if group = 0 then 1 else group
  let lgDelta := shift + 4 - 1
  let modSize := (mod + 1) <<< lgDelta
  groupSize + modSize

def pageIdx2size (pageIdx : ℕ) : Checked ℕ := fetch s.pageIdx2sizeTab pageIdx

def pageIdx2sizeCompute (pageIdx : ℕ) : ℕ :=
  let group := pageIdx >>> 2
  let mod := pageIdx % 4
  let groupSize := if group = 0 then 0 else 1 <<< (s.pageShifts + 2 - 1) <<< group
  let shift := if group = 0 then 1 else group
  let log2Delta := shift + s.pageShifts - 1
  let modSize := (mod + 1) <<< log2Delta
  groupSize + modSize

/-- Masking the low `log2Delta` bits and shifting them out is one shift, and `& 3` is `% 4`. -/
def size2SizeIdx (size : ℕ) : Checked ℕ :=
  if size = 0 then .ok 0
  else if s.chunkSize < size then .ok s.nSizes
  else if size ≤ s.lookupMaxSize then fetch s.size2idxTab ((size - 1) >>> 4)
  else
    let x := (log2 (size * 2 - 1)).toNat
    let shift := if x < 2 + 4 + 1 then 0 else x - (2 + 4)
    let log2Delta := if x < 2 + 4 + 1 then 4 else x - 2 - 1
    .ok (shift <<< 2 + ((size - 1) >>> log2Delta) % 4)

/-- An `int` that has overflowed. -/
def wrap32 (x : ℤ) : ℤ := (x + 2 ^ 31) % 2 ^ 32 - 2 ^ 31

/-- Clearing the low `log2Delta` bits rounds down to a multiple of `1 << log2Delta`. -/
def normalizeSizeCompute (size : ℤ) : ℤ :=
  let x := log2 (wrap32 (size * 2) - 1)
  let log2Delta := if x < 2 + 4 + 1 then 4 else (x - 2 - 1).toNat
  let delta := 2 ^ log2Delta
  wrap32 (size + (delta - 1)) / delta * delta

def normalizeSize (size : ℤ) : Checked ℤ := do
  if size = 0 then
    let ret ← s.sizeIdx2size 0
    return ret
  else if size ≤ s.lookupMaxSize then
    if size < 0 then .error .range
    else
      let i ← fetch s.size2idxTab ((size.toNat - 1) >>> 4)
      let ret ← s.sizeIdx2size i
      require (ret = normalizeSizeCompute size)
      return ret
  else return normalizeSizeCompute size

def pages2pageIdxCompute (pages : ℤ) (floor : Bool) : Checked ℤ :=
  let pageSize := pages * 2 ^ s.pageShifts
  if pageSize > s.chunkSize then .ok s.nPSizes
  else
    let x := (log2 (pageSize * 2 - 1)).toNat
    let shift := if x < 2 + s.pageShifts then 0 else x - (2 + s.pageShifts)
    let log2Delta := if x < 2 + s.pageShifts + 1 then s.pageShifts else x - 2 - 1
    let mod := ((pageSize - 1) / 2 ^ log2Delta % 4).toNat
    let pageIdx := shift <<< 2 + mod
    if floor then do
      let size ← fetch s.pageIdx2sizeTab pageIdx
      return if (size : ℤ) > pageSize then pageIdx - 1 else pageIdx
    else .ok pageIdx

def pages2pageIdx (pages : ℤ) : Checked ℤ := s.pages2pageIdxCompute pages false

def pages2pageIdxFloor (pages : ℤ) : Checked ℤ := s.pages2pageIdxCompute pages true

end SizeClasses
end Mutty.Buffer
