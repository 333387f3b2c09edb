import Mathlib.Algebra.BigOperators.Group.List.Basic
import Mathlib.Data.BitVec
import Mutty.Lib.Checked
import Mutty.Lib.Owners
import Mutty.Lib.Transition

/-!
# LongAdder

A counter striped over a base and a table of cells. The table pointer `m_cells` and its length
`nCells` are two variables; a spin lock `m_cellsBusy` covers the creation of a table, its expansion
and the creation of a cell in an empty slot, while additions to the base and to existing cells are
compare-and-swaps without it. Every read or write of one of these variables, of a slot or of a
cell's value is one step of `next`; what a thread has read so far is kept in its place `Pc`.
Tables and cells are named by their numbers and never freed, fresh tables hold null, and a
compare-and-swap may fail without a reason.
-/

namespace Mutty.Thread

open Mutty.Lib

structure Striped64 (T : Type) where
  base : T
  cellsBusy : Bool
  /-- `m_cells`: the number of a table -/
  cells : Option ℕ
  nCells : ℕ
  /-- all tables and the values of all cells ever created -/
  tables : List (List (Option ℕ))
  values : List T
  deriving DecidableEq, Repr

/-- The variables of `longAccumulate` that live across iterations. -/
structure Frame (T : Type) where
  x : T
  wasUncontended : Bool
  index : BitVec 32
  collide : Bool
  deriving DecidableEq, Repr

/-- Where a thread is in `add` and in `longAccumulate`, named after the access it makes next. -/
inductive Pc (T : Type)
  | idle
  | addLoadCells (x : T)
  | addLoadBase (x : T)
  | addCasBase (x b : T)
  | addLoadLength (x : T)
  | addReloadCells (x : T) (n : ℕ)
  | addLoadSlot (x : T) (n table : ℕ)
  | addLoadValue (x : T) (c : ℕ)
  | addCasValue (x : T) (c : ℕ) (v : T)
  /-- `longAccumulate`: the loop head, and the branch for a table -/
  | enter (x : T) (wasUncontended : Bool) (index : BitVec 32)
  | loadCells (f : Frame T)
  | loadLength (f : Frame T) (cs : ℕ)
  | loadSlot (f : Frame T) (cs n : ℕ)
  /-- the slot is null: a new cell is put there under the lock -/
  | testBusy (f : Frame T)
  | retestBusy (f : Frame T) (r : ℕ)
  | lockSlot (f : Frame T) (r : ℕ)
  | reloadCells (f : Frame T) (r : ℕ)
  | reloadLength (f : Frame T) (r rs : ℕ)
  | reloadSlot (f : Frame T) (r rs j : ℕ)
  | storeSlot (f : Frame T) (r rs j : ℕ)
  | unlockSlot (f : Frame T) (created : Bool)
  /-- the slot holds a cell: its value is tried, and then an expansion -/
  | loadValue (f : Frame T) (cs n c : ℕ)
  | casValue (f : Frame T) (cs n c : ℕ) (v : T)
  | testStale (f : Frame T) (cs n : ℕ)
  | testExpand (f : Frame T) (cs n : ℕ)
  | lockExpand (f : Frame T) (cs n : ℕ)
  | recheckCells (f : Frame T) (cs n : ℕ)
  | storeTable (f : Frame T) (cs n : ℕ)
  | copyRead (f : Frame T) (cs n i : ℕ)
  | copyReload (f : Frame T) (cs n i : ℕ) (slot : Option ℕ)
  | copyWrite (f : Frame T) (cs n i : ℕ) (slot : Option ℕ) (table : ℕ)
  | storeLength (f : Frame T) (n : ℕ)
  | unlockExpand (f : Frame T)
  /-- the branch without a table: one is created, or the base is used -/
  | testInit (f : Frame T) (cs : Option ℕ)
  | testInitCells (f : Frame T) (cs : Option ℕ)
  | lockInit (f : Frame T) (cs : Option ℕ)
  | recheckInit (f : Frame T) (cs : Option ℕ)
  | storeInitLength (f : Frame T)
  | storeInitSlot (f : Frame T) (rs : ℕ)
  | storeInitCells (f : Frame T) (rs c : ℕ)
  | unlockInit (f : Frame T) (init : Bool)
  | loadBase (f : Frame T)
  | casBase (f : Frame T) (v : T)
  deriving DecidableEq, Repr

namespace Striped64

variable {T : Type}

def slotOf (n : ℕ) (index : BitVec 32) : ℕ := (BitVec.ofNat 32 (n - 1) &&& index).toNat

def advanceProbe (probe : BitVec 32) : BitVec 32 :=
  let probe := probe ^^^ (probe <<< 13)
  let probe := probe ^^^ (probe.sshiftRight 17)
  probe ^^^ (probe <<< 5)

/-- The end of an iteration that goes on with another slot. -/
def rehash (f : Frame T) : Frame T := { f with index := advanceProbe f.index }

def readSlot (m : Striped64 T) (table j : ℕ) : Checked (Option ℕ) := do
  let slots ← fetch m.tables table
  fetch slots j

def writeSlot (m : Striped64 T) (table j : ℕ) (slot : Option ℕ) : Checked (Striped64 T) := do
  let slots ← fetch m.tables table
  let _ ← fetch slots j
  return { m with tables := m.tables.set table (slots.set j slot) }

def newTable (m : Striped64 T) (size : ℕ) : ℕ × Striped64 T :=
  (m.tables.length, { m with tables := m.tables ++ [List.replicate size none] })

def newCell (m : Striped64 T) (x : T) : ℕ × Striped64 T :=
  (m.values.length, { m with values := m.values ++ [x] })

def onSlot (f : Frame T) (cs n : ℕ) : Option ℕ → Pc T
  | none => .testBusy f
  | some c =>
    if f.wasUncontended then .loadValue f cs n c
    else .loadCells (rehash { f with wasUncontended := true })

variable [Add T] [DecidableEq T]

/-- `compare_exchange_weak`: the variable holds what was expected, and the operation does not fail
for no reason. -/
def casWeak (current expected : T) (spurious : Bool) : Bool := current = expected && !spurious

/-- The next access of a thread at the given place. `probe` is its hash, read by `add`. -/
def next (ncpu : ℕ) (probe : BitVec 32) (spurious : Bool) (m : Striped64 T) :
    Pc T → Checked (Striped64 T × Pc T)
  | .idle => .ok (m, .idle)
  | .addLoadCells x => .ok (m, if m.cells.isSome then .addLoadLength x else .addLoadBase x)
  | .addLoadBase x => .ok (m, .addCasBase x m.base)
  | .addCasBase x b =>
    if casWeak m.base b spurious then .ok ({ m with base := b + x }, .idle)
    else .ok (m, .enter x true probe)
  | .addLoadLength x =>
    .ok (m, if m.nCells = 0 then .enter x true probe else .addReloadCells x m.nCells)
  | .addReloadCells x n =>
    match m.cells with
    | none => .error .null
    | some table => .ok (m, .addLoadSlot x n table)
  | .addLoadSlot x n table => do
    match ← m.readSlot table (slotOf n probe) with
    | none => return (m, .enter x true probe)
    | some c => return (m, .addLoadValue x c)
  | .addLoadValue x c => do
    let v ← fetch m.values c
    return (m, .addCasValue x c v)
  | .addCasValue x c v => do
    let current ← fetch m.values c
    if casWeak current v spurious then
      return ({ m with values := m.values.set c (v + x) }, .idle)
    else return (m, .enter x false probe)
  | .enter x wasUncontended index => .ok (m, .loadCells ⟨x, wasUncontended, index, false⟩)
  | .loadCells f =>
    match m.cells with
    | some cs => .ok (m, .loadLength f cs)
    | none => .ok (m, .testInit f none)
  | .loadLength f cs =>
    .ok (m, if m.nCells > 0 then .loadSlot f cs m.nCells else .testInit f (some cs))
  | .loadSlot f cs n => do
    let slot ← m.readSlot cs (slotOf n f.index)
    return (m, onSlot f cs n slot)
  | .testBusy f =>
    if m.cellsBusy then .ok (m, .loadCells (rehash { f with collide := false }))
    else
      let (r, m) := m.newCell f.x
      .ok (m, .retestBusy f r)
  | .retestBusy f r =>
    .ok (m, if m.cellsBusy then .loadCells (rehash { f with collide := false }) else .lockSlot f r)
  | .lockSlot f r =>
    if m.cellsBusy then .ok (m, .loadCells (rehash { f with collide := false }))
    else .ok ({ m with cellsBusy := true }, .reloadCells f r)
  | .reloadCells f r =>
    match m.cells with
    | some rs => .ok (m, .reloadLength f r rs)
    | none => .ok (m, .unlockSlot f false)
  | .reloadLength f r rs =>
    .ok (m, if m.nCells > 0 then .reloadSlot f r rs (slotOf m.nCells f.index)
      else .unlockSlot f false)
  | .reloadSlot f r rs j => do
    let slot ← m.readSlot rs j
    return (m, if slot.isNone then .storeSlot f r rs j else .unlockSlot f false)
  | .storeSlot f r rs j => do
    let m ← m.writeSlot rs j (some r)
    return (m, .unlockSlot f true)
  | .unlockSlot f created =>
    .ok ({ m with cellsBusy := false }, if created then .idle else .loadCells f)
  | .loadValue f cs n c => do
    let v ← fetch m.values c
    return (m, .casValue f cs n c v)
  | .casValue f cs n c v => do
    let current ← fetch m.values c
    if casWeak current v spurious then
      return ({ m with values := m.values.set c (v + f.x) }, .idle)
    else if n ≥ ncpu then return (m, .loadCells (rehash { f with collide := false }))
    else return (m, .testStale f cs n)
  | .testStale f cs n =>
    if m.cells ≠ some cs then .ok (m, .loadCells (rehash { f with collide := false }))
    else if ¬ f.collide then .ok (m, .loadCells (rehash { f with collide := true }))
    else .ok (m, .testExpand f cs n)
  | .testExpand f cs n =>
    .ok (m, if m.cellsBusy then .loadCells (rehash f) else .lockExpand f cs n)
  | .lockExpand f cs n =>
    if m.cellsBusy then .ok (m, .loadCells (rehash f))
    else .ok ({ m with cellsBusy := true }, .recheckCells f cs n)
  | .recheckCells f cs n =>
    .ok (m, if m.cells = some cs then .storeTable f cs n else .unlockExpand f)
  | .storeTable f cs n =>
    let (table, m) := m.newTable (2 * n)
    .ok ({ m with cells := some table }, .copyRead f cs n 0)
  | .copyRead f cs n i =>
    if i < n then do
      let slot ← m.readSlot cs i
      return (m, .copyReload f cs n i slot)
    else .ok (m, .storeLength f n)
  | .copyReload f cs n i slot =>
    match m.cells with
    | none => .error .null
    | some table => .ok (m, .copyWrite f cs n i slot table)
  | .copyWrite f cs n i slot table => do
    let m ← m.writeSlot table i slot
    return (m, .copyRead f cs n (i + 1))
  | .storeLength f n => .ok ({ m with nCells := 2 * n }, .unlockExpand f)
  | .unlockExpand f => .ok ({ m with cellsBusy := false }, .loadCells { f with collide := false })
  | .testInit f cs => .ok (m, if m.cellsBusy then .loadBase f else .testInitCells f cs)
  | .testInitCells f cs => .ok (m, if m.cells = cs then .lockInit f cs else .loadBase f)
  | .lockInit f cs =>
    if m.cellsBusy then .ok (m, .loadBase f)
    else .ok ({ m with cellsBusy := true }, .recheckInit f cs)
  | .recheckInit f cs => .ok (m, if m.cells = cs then .storeInitLength f else .unlockInit f false)
  | .storeInitLength f =>
    let (rs, m) := m.newTable 2
    .ok ({ m with nCells := 2 }, .storeInitSlot f rs)
  | .storeInitSlot f rs => do
    let (c, m) := m.newCell f.x
    let m ← m.writeSlot rs (slotOf 2 f.index) (some c)
    return (m, .storeInitCells f rs c)
  | .storeInitCells f rs _ => .ok ({ m with cells := some rs }, .unlockInit f true)
  | .unlockInit f init =>
    .ok ({ m with cellsBusy := false }, if init then .idle else .loadCells f)
  | .loadBase f => .ok (m, .casBase f m.base)
  | .casBase f v =>
    if casWeak m.base v spurious then .ok ({ m with base := v + f.x }, .idle)
    else .ok (m, .loadCells f)

/-- `sum()`, with the cells in the first `nCells` slots of the table -/
def sum [Zero T] (m : Striped64 T) : T :=
  match m.cells with
  | none => m.base
  | some cs =>
    m.base + ((((m.tables.getD cs []).take m.nCells).flatMap Option.toList).map
      fun c => m.values.getD c 0).sum

end Striped64

/-- A thread with its thread-local `probe`. -/
structure Adder (T : Type) where
  probe : BitVec 32
  pc : Pc T
  deriving DecidableEq, Repr

/-- The counter, its threads, and the sum of all values passed to `add`. -/
structure AdderState (T : Type) where
  memory : Striped64 T
  threads : List (Adder T)
  added : T
  deriving DecidableEq, Repr

inductive AdderAction (T : Type)
  | add (thread : ℕ) (x : T)
  /-- one access; `spurious` makes a weak compare-and-swap fail, `seed` is the number drawn by
  `localinit` -/
  | step (thread : ℕ) (spurious : Bool) (seed : ℕ)
  deriving DecidableEq, Repr

namespace AdderState

variable {T : Type} [Add T] [DecidableEq T]

/-- A number from 1 to 2147483647. -/
def draw (seed : ℕ) : BitVec 32 := BitVec.ofNat 32 (seed % 2147483647 + 1)

/-- The beginning of `longAccumulate`: a thread without a hash draws one. -/
def localinit (seed : ℕ) (t : Adder T) : Adder T :=
  match t.pc with
  | .enter x wasUncontended index =>
    if index = 0 then ⟨draw seed, .enter x true (draw seed)⟩
    else ⟨t.probe, .enter x wasUncontended index⟩
  | _ => t

def run (ncpu : ℕ) (σ : AdderState T) : AdderAction T → Option (Checked (AdderState T))
  | .add i x =>
    match σ.threads[i]? with
    | some ⟨probe, .idle⟩ =>
      some (.ok { σ with
        threads := σ.threads.set i ⟨probe, .addLoadCells x⟩
        added := σ.added + x })
    | _ => none
  | .step i spurious seed =>
    (σ.threads[i]?).map fun t => do
      let t := localinit seed t
      let (memory, pc) ← σ.memory.next ncpu t.probe spurious t.pc
      return { σ with memory, threads := σ.threads.set i ⟨t.probe, pc⟩ }

end AdderState

/-- A fresh counter, with any number of threads that have not drawn a hash. -/
def adderMachine (T : Type) [Add T] [Zero T] [DecidableEq T] (ncpu : ℕ) :
    System (AdderState T) (AdderAction T) where
  init σ := ∃ n, σ = ⟨⟨0, false, none, 0, [], []⟩, List.replicate n ⟨0, .idle⟩, 0⟩
  step σ a := (σ.run ncpu a).bind Except.toOption

end Mutty.Thread
