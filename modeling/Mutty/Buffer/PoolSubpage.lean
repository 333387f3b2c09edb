import Mathlib.Data.Int.Basic
import Mathlib.Data.List.Nodup
import Mutty.Buffer.Handle
import Mutty.Lib.Checked

/-!
# Subpages

A `PoolSubpage` cuts a run into elements of one size and marks the ones in use in a bitmap. Here
is all of it but the links to the other subpages of its class, which `PoolArena` keeps.
`Elements p es` says that exactly the elements `es` are in use; it is what allocating and freeing
one element maintain.
-/

namespace Mutty.Buffer

open Mutty.Lib

abbrev ChunkId := ℕ

structure PoolSubpage where
  chunk : ChunkId
  pageShifts : ℕ
  runOffset : ℤ
  runSize : ℤ
  elemSize : ℤ
  bitmap : List (BitVec 64)
  maxNumElems : ℤ
  bitmapLength : ℤ
  nextAvail : ℤ
  numAvail : ℤ
  doNotDestroy : Bool
  deriving DecidableEq, Repr

namespace PoolSubpage

/-- The constructor, up to the call of `addToPool`. For an element size of 0, which is no size
class, the source leaves the counters as they are. -/
def make (chunk : ChunkId) (pageShifts : ℕ) (runOffset runSize elemSize : ℤ) :
    Checked PoolSubpage := do
  let bitmap := List.replicate (runSize / 2 ^ 10).toNat 0#64
  let maxNumElems := if elemSize ≠ 0 then runSize / elemSize else 0
  let bitmapLength := maxNumElems / 64 + if maxNumElems % 64 ≠ 0 then 1 else 0
  if bitmapLength ≤ bitmap.length then
    return {
      chunk := chunk
      pageShifts := pageShifts
      runOffset := runOffset
      runSize := runSize
      elemSize := elemSize
      bitmap := bitmap
      maxNumElems := maxNumElems
      bitmapLength := bitmapLength
      nextAvail := 0
      numAvail := maxNumElems
      doNotDestroy := true }
  else .error .range

variable (p : PoolSubpage)

def word (q : ℤ) : Checked (BitVec 64) := if 0 ≤ q then fetch p.bitmap q.toNat else .error .range

/-- The loop over the bits of one word, for the last `n` of them. -/
def findNextAvail0From (i : ℤ) : ℕ → BitVec 64 → ℤ
  | 0, _ => -1
  | n + 1, bits =>
    if bits.getLsbD 0 = false then
      let val := i * 64 + (63 - n)
      if val < p.maxNumElems then val else -1
    else findNextAvail0From i n (bits.sshiftRight 1)

def findNextAvail0 (i : ℤ) (bits : BitVec 64) : ℤ := p.findNextAvail0From i 64 bits

/-- The loop over the words from `i` on, for `n` of them. -/
def findNextAvailFrom : ℕ → ℤ → Checked ℤ
  | 0, _ => return -1
  | n + 1, i => do
    let bits ← p.word i
    if ~~~bits ≠ 0 then return p.findNextAvail0 i bits else findNextAvailFrom n (i + 1)

def findNextAvail : Checked ℤ := p.findNextAvailFrom p.bitmapLength.toNat 0

def getNextAvail : Checked (ℤ × PoolSubpage) :=
  if p.nextAvail ≥ 0 then return (p.nextAvail, { p with nextAvail := -1 })
  else do
    let i ← p.findNextAvail
    return (i, p)

def setBit (bitmapIdx : ℤ) : Checked PoolSubpage := do
  let q := bitmapIdx / 64
  let r := (bitmapIdx % 64).toNat
  let bits ← p.word q
  require (bits.getLsbD r = false)
  return { p with bitmap := p.bitmap.set q.toNat (bits ||| 1#64 <<< r) }

def clearBit (bitmapIdx : ℤ) : Checked PoolSubpage := do
  let q := bitmapIdx / 64
  let r := (bitmapIdx % 64).toNat
  let bits ← p.word q
  require (bits.getLsbD r = true)
  return { p with bitmap := p.bitmap.set q.toNat (bits ^^^ 1#64 <<< r) }

def handle (bitmapIdx : ℤ) : Int64 := toHandle p.runOffset (p.runSize / 2 ^ p.pageShifts) bitmapIdx

/-! ### Elements in use -/

def bit (i : ℕ) : Bool := (p.bitmap[i / 64]?).any (·.getLsbD (i % 64))

variable {p} {p' : PoolSubpage} {i : ℕ} {k : ℤ} {es es' : List ℕ}

theorem word_eq_ok {q : ℤ} {w : BitVec 64} (h : p.word q = .ok w) :
    0 ≤ q ∧ p.bitmap[q.toNat]? = some w := by
  unfold word at h
  split_ifs at h with hq
  exact ⟨hq, fetch_eq_ok.mp h⟩

theorem getLsbD_one_shiftLeft (r j : ℕ) (hj : j < 64) :
    (1#64 <<< r).getLsbD j = decide (j = r) := by
  by_cases hjr : j = r
  · subst hjr
    simp [hj]
  · by_cases hlt : j < r
    · simp [hlt, hjr]
    · simp [hlt, hjr, hj, show j - r ≠ 0 by omega]

theorem bit_set {w w' : BitVec 64} (hw : p.bitmap[i / 64]? = some w)
    (hw' : ∀ j < 64, j ≠ i % 64 → w'.getLsbD j = w.getLsbD j) (j : ℕ) :
    ({ p with bitmap := p.bitmap.set (i / 64) w' } : PoolSubpage).bit j =
      if j = i then w'.getLsbD (i % 64) else p.bit j := by
  have hlen : i / 64 < p.bitmap.length := (List.getElem?_eq_some_iff.mp hw).1
  unfold bit
  simp only [List.getElem?_set]
  by_cases hword : i / 64 = j / 64
  · rw [if_pos hword, if_pos hlen]
    split_ifs with hji
    · rw [hji]
      rfl
    · rw [← hword, hw]
      exact hw' _ (Nat.mod_lt _ (by norm_num)) (by omega)
  · rw [if_neg hword, if_neg (by rintro rfl; exact hword rfl)]

theorem index_split (hq : 0 ≤ k / 64) :
    ∃ i : ℕ, k = i ∧ (k / 64).toNat = i / 64 ∧ (k % 64).toNat = i % 64 := by
  refine ⟨k.toNat, by omega, by omega, by omega⟩

theorem setBit_eq_ok (h : p.setBit k = .ok p') : ∃ i : ℕ, k = i ∧ p.bit i = false ∧
    p' = { p with bitmap := p'.bitmap } ∧ ∀ j, p'.bit j = if j = i then true else p.bit j := by
  obtain ⟨w, hw, h⟩ := bind_eq_ok.mp h
  obtain ⟨u, hclear, h⟩ := bind_eq_ok.mp h
  obtain ⟨hq, hw⟩ := word_eq_ok hw
  obtain ⟨i, rfl, hdiv, hmod⟩ := index_split hq
  rw [hdiv] at hw
  rw [require_eq_ok, hmod] at hclear
  rw [hdiv, hmod] at h
  obtain rfl := Except.ok.inj h
  refine ⟨i, rfl, by simp [bit, hw, hclear], rfl, fun j => ?_⟩
  rw [bit_set hw fun j hj hne => ?_]
  · simp [getLsbD_one_shiftLeft _ _ (Nat.mod_lt i (show 0 < 64 by norm_num))]
  · simp [getLsbD_one_shiftLeft _ _ hj, hne]

theorem clearBit_eq_ok (h : p.clearBit k = .ok p') : ∃ i : ℕ, k = i ∧ p.bit i = true ∧
    p' = { p with bitmap := p'.bitmap } ∧ ∀ j, p'.bit j = if j = i then false else p.bit j := by
  obtain ⟨w, hw, h⟩ := bind_eq_ok.mp h
  obtain ⟨u, hset, h⟩ := bind_eq_ok.mp h
  obtain ⟨hq, hw⟩ := word_eq_ok hw
  obtain ⟨i, rfl, hdiv, hmod⟩ := index_split hq
  rw [hdiv] at hw
  rw [require_eq_ok, hmod] at hset
  rw [hdiv, hmod] at h
  obtain rfl := Except.ok.inj h
  refine ⟨i, rfl, by simp [bit, hw, hset], rfl, fun j => ?_⟩
  rw [bit_set hw fun j hj hne => ?_]
  · simp [getLsbD_one_shiftLeft _ _ (Nat.mod_lt i (show 0 < 64 by norm_num)), hset]
  · simp [getLsbD_one_shiftLeft _ _ hj, hne]

/-- The elements `es`, and no others, are in use. -/
structure Elements (p : PoolSubpage) (es : List ℕ) : Prop where
  nodup : es.Nodup
  lt : ∀ i ∈ es, (i : ℤ) < p.maxNumElems
  bits : ∀ i, p.bit i = true ↔ i ∈ es
  count : p.numAvail + es.length = p.maxNumElems
  next : p.numAvail ≠ 0 → p.nextAvail < p.maxNumElems

theorem Elements.perm (h : Elements p es) (hp : es.Perm es') : Elements p es' :=
  ⟨hp.nodup_iff.mp h.nodup, fun i hi => h.lt i (hp.mem_iff.mpr hi),
    fun i => (h.bits i).trans hp.mem_iff, by rw [← hp.length_eq]; exact h.count, h.next⟩

/-- What allocating and freeing elements leaves as it is. -/
structure SameRun (p p' : PoolSubpage) : Prop where
  chunk : p'.chunk = p.chunk
  pageShifts : p'.pageShifts = p.pageShifts
  runOffset : p'.runOffset = p.runOffset
  runSize : p'.runSize = p.runSize
  elemSize : p'.elemSize = p.elemSize
  maxNumElems : p'.maxNumElems = p.maxNumElems

theorem make_eq_ok {chunk : ChunkId} {pageShifts : ℕ} {runOffset runSize elemSize : ℤ}
    (h : make chunk pageShifts runOffset runSize elemSize = .ok p) (he : 0 < elemSize)
    (hr : 0 ≤ runSize) :
    Elements p [] ∧ p.chunk = chunk ∧ p.pageShifts = pageShifts ∧ p.runOffset = runOffset ∧
      p.runSize = runSize ∧ p.elemSize = elemSize ∧ p.maxNumElems = runSize / elemSize ∧
      p.doNotDestroy = true := by
  simp only [make, if_pos he.ne'] at h
  by_cases hlen : runSize / elemSize / 64 + (if runSize / elemSize % 64 ≠ 0 then 1 else 0) ≤
      ((List.replicate (runSize / 2 ^ 10).toNat 0#64).length : ℤ)
  swap
  · rw [if_neg hlen] at h
    cases h
  rw [if_pos hlen] at h
  obtain rfl := Except.ok.inj h
  refine ⟨⟨List.nodup_nil, fun i hi => absurd hi List.not_mem_nil, fun i => ?_, ?_, fun hne => ?_⟩,
    rfl, rfl, rfl, rfl, rfl, rfl, rfl⟩
  · simp only [bit, List.not_mem_nil, iff_false, Bool.not_eq_true]
    cases hw : (List.replicate (runSize / 2 ^ 10).toNat 0#64)[i / 64]? with
    | none => rfl
    | some w =>
      rw [List.eq_of_mem_replicate (List.mem_of_getElem? hw)]
      simp
  · simp
  · exact lt_of_le_of_ne (Int.ediv_nonneg hr he.le) (Ne.symm hne)

theorem findNextAvail0From_lt (i : ℤ) (n : ℕ) (bits : BitVec 64) :
    p.findNextAvail0From i n bits < p.maxNumElems ∨ p.findNextAvail0From i n bits = -1 := by
  induction n generalizing bits with
  | zero => exact .inr rfl
  | succ n ih =>
    simp only [findNextAvail0From]
    split_ifs with hbit hlt
    · exact .inl hlt
    · exact .inr rfl
    · exact ih _

theorem findNextAvailFrom_lt {n : ℕ} {i : ℤ} (h : p.findNextAvailFrom n i = .ok k) :
    k < p.maxNumElems ∨ k = -1 := by
  induction n generalizing i with
  | zero => exact .inr (Except.ok.inj h).symm
  | succ n ih =>
    obtain ⟨bits, -, h⟩ := bind_eq_ok.mp h
    split_ifs at h with hfull
    · rw [← Except.ok.inj h]
      exact findNextAvail0From_lt i 64 bits
    · exact ih h

theorem getNextAvail_eq_ok (hn : p.numAvail ≠ 0) (h : Elements p es)
    (hg : p.getNextAvail = .ok (k, p')) :
    (k < p.maxNumElems ∨ k = -1) ∧ p' = { p with nextAvail := p'.nextAvail } ∧ p'.nextAvail < 0 := by
  unfold getNextAvail at hg
  split_ifs at hg with hnext
  · obtain ⟨rfl, rfl⟩ := Prod.mk.inj (Except.ok.inj hg)
    exact ⟨.inl (h.next hn), rfl, by norm_num⟩
  · obtain ⟨i, hi, hg⟩ := bind_eq_ok.mp hg
    obtain ⟨rfl, rfl⟩ := Prod.mk.inj (Except.ok.inj hg)
    exact ⟨findNextAvailFrom_lt hi, rfl, by omega⟩

/-- The part of `allocate` that finds a free element and marks it. -/
theorem Elements.take (h : Elements p es) (hn : p.numAvail ≠ 0) {p₁ p₂ : PoolSubpage}
    (hg : p.getNextAvail = .ok (k, p₁)) (hs : p₁.setBit k = .ok p₂) :
    ∃ i : ℕ, k = i ∧ (i : ℤ) < p.maxNumElems ∧
      Elements { p₂ with numAvail := p₂.numAvail - 1 } (i :: es) ∧ SameRun p p₂ ∧
      p₂.doNotDestroy = p.doNotDestroy := by
  obtain ⟨hk, hp₁, hnext⟩ := getNextAvail_eq_ok hn h hg
  obtain ⟨i, rfl, hclear, hp₂, hbits⟩ := setBit_eq_ok hs
  have hlt : (i : ℤ) < p.maxNumElems := hk.resolve_right (by omega)
  have hbit : ∀ j, p₁.bit j = p.bit j := by
    intro j
    rw [hp₁]
    rfl
  have hnew : i ∉ es := by
    rw [← h.bits, ← hbit, hclear]
    simp
  rw [hp₁] at hp₂ hnext
  simp only at hp₂ hnext
  have hmax : p₂.maxNumElems = p.maxNumElems := by rw [hp₂]
  have havail : p₂.numAvail = p.numAvail := by rw [hp₂]
  have hnext₂ : p₂.nextAvail < 0 := by
    rw [hp₂]
    exact hnext
  refine ⟨i, rfl, hlt, ⟨List.nodup_cons.mpr ⟨hnew, h.nodup⟩, ?_, ?_, ?_, ?_⟩, ?_, by rw [hp₂]⟩
  · intro j hj
    show (j : ℤ) < p₂.maxNumElems
    rw [hmax]
    rcases List.mem_cons.mp hj with rfl | hj
    · exact hlt
    · exact h.lt j hj
  · intro j
    show p₂.bit j = true ↔ _
    rw [hbits, hbit, List.mem_cons]
    split_ifs with hji
    · simp [hji]
    · rw [h.bits]
      simp [hji]
  · have := h.count
    show p₂.numAvail - 1 + ((es.length + 1 : ℕ) : ℤ) = p₂.maxNumElems
    push_cast
    omega
  · intro _
    show p₂.nextAvail < p₂.maxNumElems
    omega
  · constructor <;> rw [hp₂]

/-- The part of `free` that clears the element's bit and counts it. -/
theorem Elements.give (h : Elements p (i :: es)) (hc : p.clearBit i = .ok p') :
    Elements { p' with nextAvail := i, numAvail := p'.numAvail + 1 } es ∧ SameRun p p' ∧
      p'.doNotDestroy = p.doNotDestroy ∧ p'.numAvail = p.numAvail := by
  obtain ⟨j, hj, -, hp', hbits⟩ := clearBit_eq_ok hc
  obtain rfl : i = j := by exact_mod_cast hj
  have hmax : p'.maxNumElems = p.maxNumElems := by rw [hp']
  have havail : p'.numAvail = p.numAvail := by rw [hp']
  obtain ⟨hnew, hnd⟩ := List.nodup_cons.mp h.nodup
  refine ⟨⟨hnd, ?_, ?_, ?_, ?_⟩, ?_, by rw [hp'], havail⟩
  · intro j hj
    show (j : ℤ) < p'.maxNumElems
    rw [hmax]
    exact h.lt j (List.mem_cons_of_mem _ hj)
  · intro j
    show p'.bit j = true ↔ _
    rw [hbits]
    split_ifs with hji
    · subst hji
      simp [hnew]
    · rw [h.bits, List.mem_cons]
      simp [hji]
  · have := h.count
    rw [List.length_cons] at this
    push_cast at this
    show p'.numAvail + 1 + (es.length : ℤ) = p'.maxNumElems
    omega
  · intro _
    show (i : ℤ) < p'.maxNumElems
    rw [hmax]
    exact h.lt i List.mem_cons_self
  · constructor <;> rw [hp']

end PoolSubpage
end Mutty.Buffer
