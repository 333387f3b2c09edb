import Mutty.Thread.Striped64

/-!
# The invariant of the adder

The table pointer and its length are read apart, and an expansion that uses a length read for
another table copies too few slots. As long as every expansion starts with the current length, the
counter is exact: `slots` is the table as it is meant to be, whatever a half-made copy shows; the
cells in it are attached for good, and the base, the attached cells and the values of the calls
still under way add up to all that was added.
-/

namespace Mutty.Thread

open Mutty.Lib

variable {T : Type}

def attached (slots : List (Option ℕ)) : List ℕ := slots.flatMap Option.toList

theorem mem_attached {slots : List (Option ℕ)} {c : ℕ} : c ∈ attached slots ↔ some c ∈ slots := by
  simp [attached]

@[simp] theorem attached_replicate (n : ℕ) : attached (List.replicate n none) = [] := by
  simp [attached]

@[simp] theorem attached_append (l k : List (Option ℕ)) :
    attached (l ++ k) = attached l ++ attached k := by
  simp [attached]

namespace Pc

/-- The value of a call that has not been added yet. -/
@[simp] def pending [Zero T] : Pc T → T
  | idle => 0
  | addLoadCells x => x
  | addLoadBase x => x
  | addCasBase x _ => x
  | addLoadLength x => x
  | addReloadCells x _ => x
  | addLoadSlot x _ _ => x
  | addLoadValue x _ => x
  | addCasValue x _ _ => x
  | enter x _ _ => x
  | loadCells f => f.x
  | loadLength f _ => f.x
  | loadSlot f _ _ => f.x
  | testBusy f => f.x
  | retestBusy f _ => f.x
  | lockSlot f _ => f.x
  | reloadCells f _ => f.x
  | reloadLength f _ _ => f.x
  | reloadSlot f _ _ _ => f.x
  | storeSlot f _ _ _ => f.x
  | unlockSlot f created => if created then 0 else f.x
  | loadValue f _ _ _ => f.x
  | casValue f _ _ _ _ => f.x
  | testStale f _ _ => f.x
  | testExpand f _ _ => f.x
  | lockExpand f _ _ => f.x
  | recheckCells f _ _ => f.x
  | storeTable f _ _ => f.x
  | copyRead f _ _ _ => f.x
  | copyReload f _ _ _ _ => f.x
  | copyWrite f _ _ _ _ _ => f.x
  | storeLength f _ => f.x
  | unlockExpand f => f.x
  | testInit f _ => f.x
  | testInitCells f _ => f.x
  | lockInit f _ => f.x
  | recheckInit f _ => f.x
  | storeInitLength f => f.x
  | storeInitSlot f _ => f.x
  | storeInitCells f _ _ => f.x
  | unlockInit f init => if init then 0 else f.x
  | loadBase f => f.x
  | casBase f _ => f.x

@[simp] def holds : Pc T → Bool
  | reloadCells _ _ => true
  | reloadLength _ _ _ => true
  | reloadSlot _ _ _ _ => true
  | storeSlot _ _ _ _ => true
  | unlockSlot _ _ => true
  | recheckCells _ _ _ => true
  | storeTable _ _ _ => true
  | copyRead _ _ _ _ => true
  | copyReload _ _ _ _ _ => true
  | copyWrite _ _ _ _ _ _ => true
  | storeLength _ _ => true
  | unlockExpand _ => true
  | recheckInit _ _ => true
  | storeInitLength _ => true
  | storeInitSlot _ _ => true
  | storeInitCells _ _ _ => true
  | unlockInit _ _ => true
  | _ => false

/-- A new cell that only this thread knows, with its value. -/
@[simp] def owned : Pc T → Option (ℕ × T)
  | retestBusy f r => some (r, f.x)
  | lockSlot f r => some (r, f.x)
  | reloadCells f r => some (r, f.x)
  | reloadLength f r _ => some (r, f.x)
  | reloadSlot f r _ _ => some (r, f.x)
  | storeSlot f r _ _ => some (r, f.x)
  | storeInitCells f _ c => some (c, f.x)
  | _ => none

/-- A cell whose value the thread is about to read or swap. -/
@[simp] def seen : Pc T → Option ℕ
  | addLoadValue _ c => some c
  | addCasValue _ c _ => some c
  | loadValue _ _ _ c => some c
  | casValue _ _ _ c _ => some c
  | _ => none

/-- The thread has read a table pointer that was not null. -/
@[simp] def hasTable : Pc T → Bool
  | addLoadLength _ => true
  | addReloadCells _ _ => true
  | addLoadSlot _ _ _ => true
  | loadLength _ _ => true
  | loadSlot _ _ _ => true
  | _ => false

/-- The table pointer with which a thread goes for the branch without a table. -/
@[simp] def initCells : Pc T → Option (Option ℕ)
  | testInit _ cs => some cs
  | testInitCells _ cs => some cs
  | lockInit _ cs => some cs
  | recheckInit _ cs => some cs
  | _ => none

end Pc

/-- The table pointer, its length and the table agree with `slots`. -/
def Steady (m : Striped64 T) (slots : List (Option ℕ)) : Prop :=
  (m.cells = none ∧ m.nCells = 0 ∧ m.tables = [] ∧ slots = []) ∨
    ∃ t, m.cells = some t ∧ m.tables[t]? = some slots ∧ m.nCells = slots.length ∧ 0 < slots.length

/-- An expansion of table `cs` has copied `i` slots. -/
def Copying (m : Striped64 T) (slots : List (Option ℕ)) (cs n i : ℕ) : Prop :=
  m.tables[cs]? = some slots ∧ n = slots.length ∧ 0 < n ∧ m.nCells = n ∧ i ≤ n ∧
    ∃ t, m.cells = some t ∧ t ≠ cs ∧
      m.tables[t]? = some (slots.take i ++ List.replicate (2 * n - i) none)

def Creating (m : Striped64 T) (slots entries : List (Option ℕ)) (rs : ℕ) : Prop :=
  m.cells = none ∧ m.nCells = 2 ∧ slots = [] ∧ m.tables = [entries] ∧ rs = 0 ∧ entries.length = 2

/-- What the thread that holds the lock relies on. -/
@[simp] def Pc.HolderOk (m : Striped64 T) (slots : List (Option ℕ)) : Pc T → Prop
  | .reloadLength _ _ rs => Steady m slots ∧ m.cells = some rs
  | .reloadSlot _ _ rs j => Steady m slots ∧ m.cells = some rs ∧ j < slots.length
  | .storeSlot _ _ rs j => Steady m slots ∧ m.cells = some rs ∧ slots[j]? = some none
  | .storeTable _ cs _ => Steady m slots ∧ m.cells = some cs
  | .copyRead _ cs n i => Copying m slots cs n i
  | .copyReload _ cs n i slot => Copying m slots cs n i ∧ slots[i]? = some slot
  | .copyWrite _ cs n i slot t => Copying m slots cs n i ∧ slots[i]? = some slot ∧ m.cells = some t
  | .storeLength _ n => ∃ cs, Copying m slots cs n n
  | .storeInitLength _ => Steady m slots ∧ m.cells = none
  | .storeInitSlot _ rs => Creating m slots (List.replicate 2 none) rs
  | .storeInitCells _ rs c =>
    ∃ entries, Creating m slots entries rs ∧ attached entries = [c]
  | _ => Steady m slots

def tableLength (m : Striped64 T) : Option ℕ → ℕ
  | none => 0
  | some t => (m.tables.getD t []).length

theorem tableLength_some {m : Striped64 T} {t : ℕ} {entries : List (Option ℕ)}
    (h : m.tables[t]? = some entries) : tableLength m (some t) = entries.length := by
  rw [tableLength, List.getD_eq_getElem?_getD, h, Option.getD_some]

/-- A length that `add` has read is at most that of the table it is used with. -/
@[simp] def Pc.Covered (m : Striped64 T) : Pc T → Prop
  | .addReloadCells _ n => 0 < n ∧ n ≤ tableLength m m.cells
  | .addLoadSlot _ n table => 0 < n ∧ n ≤ tableLength m (some table)
  | _ => True

structure Local (m : Striped64 T) (slots : List (Option ℕ)) (pc : Pc T) : Prop where
  seen : ∀ c, pc.seen = some c → c ∈ attached slots
  table : pc.hasTable = true → m.cells.isSome = true
  init : ∀ cs, pc.initCells = some cs → cs = none
  covered : pc.Covered m
  owned : ∀ r x, pc.owned = some (r, x) → m.values[r]? = some x ∧ r ∉ attached slots
  holder : pc.holds = true → pc.HolderOk m slots

/-- Attached cells exist and are attached once, tables hold no other cells, and the length is
never more than that of the table. -/
structure Sound (m : Striped64 T) (slots : List (Option ℕ)) : Prop where
  nodup : (attached slots).Nodup
  lt : ∀ c ∈ attached slots, c < m.values.length
  contents : m.cells.isSome = true → ∀ entries ∈ m.tables, ∀ c ∈ attached entries,
    c ∈ attached slots
  length : m.cells.isSome = true → 0 < m.nCells ∧ m.nCells ≤ tableLength m m.cells

def cellSum [Zero T] [Add T] (m : Striped64 T) (slots : List (Option ℕ)) : T :=
  ((attached slots).map fun c => m.values.getD c 0).sum

/-! ## The invariant -/

structure AdderInv [Zero T] [Add T] (σ : AdderState T) (slots : List (Option ℕ)) : Prop where
  sound : Sound σ.memory slots
  locals : ∀ t ∈ σ.threads, Local σ.memory slots t.pc
  lock : σ.memory.cellsBusy = true ↔
    ∃ (i : ℕ) (t : Adder T), σ.threads[i]? = some t ∧ t.pc.holds = true
  unique : ∀ (i j : ℕ) (t u : Adder T), σ.threads[i]? = some t → σ.threads[j]? = some u →
    t.pc.holds = true → u.pc.holds = true → i = j
  steady : σ.memory.cellsBusy = false → Steady σ.memory slots
  distinct : ∀ (i j : ℕ) (t u : Adder T) (r : ℕ) (x y : T), σ.threads[i]? = some t →
    σ.threads[j]? = some u → t.pc.owned = some (r, x) → u.pc.owned = some (r, y) → i = j
  sum : σ.memory.base + cellSum σ.memory slots + (σ.threads.map fun t => t.pc.pending).sum = σ.added

theorem Pc.HolderOk.congr {m m' : Striped64 T} {slots : List (Option ℕ)} {pc : Pc T}
    (h : pc.HolderOk m slots) (ht : m'.tables = m.tables) (hc : m'.cells = m.cells)
    (hn : m'.nCells = m.nCells) : pc.HolderOk m' slots := by
  cases pc <;> simpa only [Pc.HolderOk, Steady, Copying, Creating, ht, hc, hn] using h

theorem Pc.Covered.mono {m m' : Striped64 T} {pc : Pc T} (h : pc.Covered m)
    (ht : ∀ t, tableLength m t ≤ tableLength m' t)
    (hc : tableLength m m.cells ≤ tableLength m' m'.cells) : pc.Covered m' := by
  cases pc with
  | addReloadCells x n => exact ⟨h.1, h.2.trans hc⟩
  | addLoadSlot x n table => exact ⟨h.1, h.2.trans (ht _)⟩
  | _ => trivial

theorem Local.relock {m : Striped64 T} {slots : List (Option ℕ)} {pc : Pc T} (h : Local m slots pc) (b : Bool) :
    Local { m with cellsBusy := b } slots pc :=
  ⟨h.seen, h.table, h.init, h.covered.mono (fun _ => le_rfl) le_rfl, h.owned,
    fun hh => (h.holder hh).congr rfl rfl rfl⟩

theorem Local.idle (m : Striped64 T) (slots : List (Option ℕ)) : Local m slots .idle := by
  constructor <;> simp

theorem tableLength_append (m : Striped64 T) (entries : List (Option ℕ)) (t : Option ℕ) :
    tableLength m t ≤ tableLength { m with tables := m.tables ++ [entries] } t := by
  cases t with
  | none => exact le_rfl
  | some t =>
    simp only [tableLength, List.getD_eq_getElem?_getD]
    by_cases ht : t < m.tables.length
    · rw [List.getElem?_append_left ht]
    · rw [List.getElem?_eq_none (not_lt.mp ht)]
      exact Nat.zero_le _

theorem tableLength_set {m : Striped64 T} {s : ℕ} {entries entries' : List (Option ℕ)}
    (hs : m.tables[s]? = some entries) (hlen : entries'.length = entries.length) (t : Option ℕ) :
    tableLength { m with tables := m.tables.set s entries' } t = tableLength m t := by
  cases t with
  | none => rfl
  | some t =>
    simp only [tableLength, List.getD_eq_getElem?_getD]
    by_cases hst : t = s
    · subst hst
      rw [List.getElem?_set_self (List.getElem?_eq_some_iff.mp hs).1, hs]
      exact hlen
    · rw [List.getElem?_set_ne (Ne.symm hst)]

theorem attached_set {slots : List (Option ℕ)} {j r : ℕ} (hj : slots[j]? = some none) :
    (attached (slots.set j (some r))).Perm (r :: attached slots) :=
  flatMap_set_cons hj (List.Perm.refl _)

section update

variable [AddCommGroup T] {σ : AdderState T} {slots slots' : List (Option ℕ)} {i : ℕ}
  {t t' : Adder T} {m' : Striped64 T}

/-- What the step of one thread may do to the memory so that the others are not disturbed. -/
structure Frames (σ : AdderState T) (slots : List (Option ℕ)) (i : ℕ) (pc : Pc T)
    (m' : Striped64 T) (slots' : List (Option ℕ)) : Prop where
  seen : ∀ c ∈ attached slots, c ∈ attached slots'
  table : σ.memory.cells.isSome = true → m'.cells.isSome = true
  lengths : ∀ t, tableLength σ.memory t ≤ tableLength m' t
  current : tableLength σ.memory σ.memory.cells ≤ tableLength m' m'.cells
  owned : ∀ (j : ℕ) (u : Adder T) (r : ℕ) (x : T), j ≠ i → σ.threads[j]? = some u →
    u.pc.owned = some (r, x) → σ.memory.values[r]? = some x → r ∉ attached slots →
    m'.values[r]? = some x ∧ r ∉ attached slots'
  holder : pc.holds = true ∨ (m'.tables = σ.memory.tables ∧ m'.cells = σ.memory.cells ∧
    m'.nCells = σ.memory.nCells ∧ slots' = slots)

theorem AdderInv.others (h : AdderInv σ slots) (hi : σ.threads[i]? = some t)
    (hf : Frames σ slots i t.pc m' slots') {j : ℕ} {u : Adder T} (hj : j ≠ i)
    (hu : σ.threads[j]? = some u) : Local m' slots' u.pc := by
  have hlocal := h.locals u (List.mem_of_getElem? hu)
  refine ⟨fun c hc => hf.seen c (hlocal.seen c hc), fun ht => hf.table (hlocal.table ht),
    hlocal.init, hlocal.covered.mono hf.lengths hf.current, fun r x hr => ?_, fun hh => ?_⟩
  · obtain ⟨hv, hn⟩ := hlocal.owned r x hr
    exact hf.owned j u r x hj hu hr hv hn
  · rcases hf.holder with ht | ⟨htab, hcells, hlen, rfl⟩
    · exact absurd (h.unique j i u t hu hi hh ht) hj
    · exact (hlocal.holder hh).congr htab hcells hlen

theorem getElem?_set_cases {α : Type} {l : List α} {i j : ℕ} {x y z : α} (hi : l[i]? = some z)
    (h : (l.set i x)[j]? = some y) : (j = i ∧ y = x) ∨ (j ≠ i ∧ l[j]? = some y) := by
  have hlen : i < l.length := (List.getElem?_eq_some_iff.mp hi).1
  by_cases hj : j = i
  · subst hj
    rw [List.getElem?_set_self hlen] at h
    exact Or.inl ⟨rfl, (Option.some.inj h).symm⟩
  · rw [List.getElem?_set_ne (Ne.symm hj)] at h
    exact Or.inr ⟨hj, h⟩

/-- How a step treats the lock: it is kept, or taken or given back by this thread. -/
def LockStep (busy holds busy' holds' : Bool) : Prop :=
  (busy' = busy ∧ holds' = holds) ∨ (busy' = holds' ∧ (busy = false ∨ holds = true))

theorem AdderInv.alone (h : AdderInv σ slots) (hi : σ.threads[i]? = some t)
    (ht : σ.memory.cellsBusy = false ∨ t.pc.holds = true) {j : ℕ} {u : Adder T} (hj : j ≠ i)
    (hu : σ.threads[j]? = some u) : u.pc.holds = false := by
  by_contra hh
  rw [Bool.not_eq_false] at hh
  rcases ht with hbusy | ht
  · have := h.lock.mpr ⟨j, u, hu, hh⟩
    rw [hbusy] at this
    cases this
  · exact hj (h.unique j i u t hu hi hh ht)

theorem AdderInv.lock_update (h : AdderInv σ slots) (hi : σ.threads[i]? = some t)
    (hl : LockStep σ.memory.cellsBusy t.pc.holds m'.cellsBusy t'.pc.holds) :
    m'.cellsBusy = true ↔
      ∃ (j : ℕ) (u : Adder T), (σ.threads.set i t')[j]? = some u ∧ u.pc.holds = true := by
  have hself : (σ.threads.set i t')[i]? = some t' :=
    List.getElem?_set_self (List.getElem?_eq_some_iff.mp hi).1
  rcases hl with ⟨hbusy, hholds⟩ | ⟨hbusy, halone⟩
  · rw [hbusy, h.lock]
    constructor
    · rintro ⟨j, u, hu, hh⟩
      by_cases hj : j = i
      · subst hj
        obtain rfl : u = t := Option.some.inj (hu.symm.trans hi)
        exact ⟨j, t', hself, hholds.trans hh⟩
      · exact ⟨j, u, by rw [List.getElem?_set_ne (Ne.symm hj), hu], hh⟩
    · rintro ⟨j, u, hu, hh⟩
      rcases getElem?_set_cases hi hu with ⟨-, rfl⟩ | ⟨-, hu'⟩
      · exact ⟨i, t, hi, hholds.symm.trans hh⟩
      · exact ⟨j, u, hu', hh⟩
  · rw [hbusy]
    constructor
    · intro hh
      exact ⟨i, t', hself, hh⟩
    · rintro ⟨j, u, hu, hh⟩
      rcases getElem?_set_cases hi hu with ⟨-, rfl⟩ | ⟨hj, hu'⟩
      · exact hh
      · rw [h.alone hi halone hj hu'] at hh
        cases hh

theorem AdderInv.unique_update (h : AdderInv σ slots) (hi : σ.threads[i]? = some t)
    (hl : LockStep σ.memory.cellsBusy t.pc.holds m'.cellsBusy t'.pc.holds) {j k : ℕ}
    {u v : Adder T} (hu : (σ.threads.set i t')[j]? = some u)
    (hv : (σ.threads.set i t')[k]? = some v) (hhu : u.pc.holds = true)
    (hhv : v.pc.holds = true) : j = k := by
  -- another holder means that this thread holds the lock neither before nor after the step
  have hother : ∀ {k : ℕ} {v : Adder T}, k ≠ i → σ.threads[k]? = some v → v.pc.holds = true →
      t'.pc.holds = true → False := by
    intro k v hk hv hhv ht'
    rcases hl with ⟨-, hholds⟩ | ⟨-, halone⟩
    · exact hk (h.unique k i v t hv hi hhv (hholds.symm.trans ht'))
    · rw [h.alone hi halone hk hv] at hhv
      cases hhv
  rcases getElem?_set_cases hi hu with ⟨rfl, rfl⟩ | ⟨hj, hu'⟩
  · rcases getElem?_set_cases hi hv with ⟨rfl, -⟩ | ⟨hk, hv'⟩
    · rfl
    · exact (hother hk hv' hhv hhu).elim
  · rcases getElem?_set_cases hi hv with ⟨rfl, rfl⟩ | ⟨hk, hv'⟩
    · exact (hother hj hu' hhu hhv).elim
    · exact h.unique j k u v hu' hv' hhu hhv

/-- The cell a thread owns after a step: none, the same as before, or a new one. -/
def OwnedStep (m : Striped64 T) (pc pc' : Pc T) : Prop :=
  pc'.owned = none ∨ pc'.owned = pc.owned ∨ ∃ x, pc'.owned = some (m.values.length, x)

theorem AdderInv.distinct_update (h : AdderInv σ slots) (hi : σ.threads[i]? = some t)
    (ho : OwnedStep σ.memory t.pc t'.pc) {j k : ℕ} {u v : Adder T} {r : ℕ} {x y : T}
    (hu : (σ.threads.set i t')[j]? = some u) (hv : (σ.threads.set i t')[k]? = some v)
    (hru : u.pc.owned = some (r, x)) (hrv : v.pc.owned = some (r, y)) : j = k := by
  have hother : ∀ {k : ℕ} {v : Adder T} {x y : T}, k ≠ i → σ.threads[k]? = some v →
      v.pc.owned = some (r, y) → t'.pc.owned = some (r, x) → False := by
    intro k v x y hk hv hrv ht'
    rcases ho with hnone | hsame | ⟨z, hnew⟩
    · rw [hnone] at ht'
      cases ht'
    · exact hk (h.distinct k i v t r y x hv hi hrv (hsame.symm.trans ht'))
    · obtain ⟨hval, -⟩ := (h.locals v (List.mem_of_getElem? hv)).owned r y hrv
      have hr : σ.memory.values.length = r := by
        rw [hnew] at ht'
        exact congrArg Prod.fst (Option.some.inj ht')
      have hlt := (List.getElem?_eq_some_iff.mp hval).1
      omega
  rcases getElem?_set_cases hi hu with ⟨rfl, rfl⟩ | ⟨hj, hu'⟩
  · rcases getElem?_set_cases hi hv with ⟨rfl, -⟩ | ⟨hk, hv'⟩
    · rfl
    · exact (hother hk hv' hrv hru).elim
  · rcases getElem?_set_cases hi hv with ⟨rfl, rfl⟩ | ⟨hk, hv'⟩
    · exact (hother hj hu' hru hrv).elim
    · exact h.distinct j k u v r x y hu' hv' hru hrv

theorem AdderInv.update (h : AdderInv σ slots) (hi : σ.threads[i]? = some t)
    (hf : Frames σ slots i t.pc m' slots') (hsound : Sound m' slots')
    (hlocal : Local m' slots' t'.pc)
    (hlock : LockStep σ.memory.cellsBusy t.pc.holds m'.cellsBusy t'.pc.holds)
    (hsteady : m'.cellsBusy = false → Steady m' slots')
    (howned : OwnedStep σ.memory t.pc t'.pc)
    (hsum : m'.base + cellSum m' slots' + t'.pc.pending =
      σ.memory.base + cellSum σ.memory slots + t.pc.pending) :
    AdderInv { σ with memory := m', threads := σ.threads.set i t' } slots' where
  sound := hsound
  locals := by
    intro u hu
    obtain ⟨j, hj⟩ := List.mem_iff_getElem?.mp hu
    rcases getElem?_set_cases hi hj with ⟨-, rfl⟩ | ⟨hne, hu'⟩
    · exact hlocal
    · exact h.others hi hf hne hu'
  lock := h.lock_update hi hlock
  unique := fun _ _ _ _ hu hv => h.unique_update hi hlock hu hv
  steady := hsteady
  distinct := fun _ _ _ _ _ _ _ hu hv => h.distinct_update hi howned hu hv
  sum := by
    have hset := sum_map_set (x := t') (w := fun t : Adder T => t.pc.pending) hi
    refine add_right_cancel (b := t.pc.pending) ?_
    calc m'.base + cellSum m' slots' + ((σ.threads.set i t').map fun t => t.pc.pending).sum
          + t.pc.pending
        = m'.base + cellSum m' slots' + (((σ.threads.set i t').map fun t => t.pc.pending).sum
          + t.pc.pending) := by abel
      _ = m'.base + cellSum m' slots' + t'.pc.pending
          + (σ.threads.map fun t => t.pc.pending).sum := by rw [hset]; abel
      _ = σ.memory.base + cellSum σ.memory slots + (σ.threads.map fun t => t.pc.pending).sum
          + t.pc.pending := by rw [hsum]; abel
      _ = σ.added + t.pc.pending := by rw [h.sum]

/-! ## The kinds of steps -/

theorem AdderInv.relock (h : AdderInv σ slots) (hi : σ.threads[i]? = some t) {b : Bool}
    (hlocal : Local σ.memory slots t'.pc)
    (hlock : LockStep σ.memory.cellsBusy t.pc.holds b t'.pc.holds)
    (hsteady : b = false → Steady σ.memory slots)
    (howned : t'.pc.owned = none ∨ t'.pc.owned = t.pc.owned)
    (hpending : t'.pc.pending = t.pc.pending) :
    AdderInv { σ with
      memory := { σ.memory with cellsBusy := b }, threads := σ.threads.set i t' } slots := by
  have hframes : Frames σ slots i t.pc { σ.memory with cellsBusy := b } slots :=
    ⟨fun _ => id, id, fun _ => le_rfl, le_rfl, fun _ _ _ _ _ _ _ hv hn => ⟨hv, hn⟩,
      Or.inr ⟨rfl, rfl, rfl, rfl⟩⟩
  refine h.update hi hframes ⟨h.sound.nodup, h.sound.lt, h.sound.contents, h.sound.length⟩
    (hlocal.relock b) hlock hsteady (howned.imp_right Or.inl) ?_
  simp only [hpending, cellSum]

theorem AdderInv.quiet (h : AdderInv σ slots) (hi : σ.threads[i]? = some t)
    (hlocal : Local σ.memory slots t'.pc) (hholds : t'.pc.holds = t.pc.holds)
    (howned : t'.pc.owned = none ∨ t'.pc.owned = t.pc.owned)
    (hpending : t'.pc.pending = t.pc.pending) :
    AdderInv { σ with threads := σ.threads.set i t' } slots :=
  h.relock hi (b := σ.memory.cellsBusy) hlocal (Or.inl ⟨rfl, hholds⟩) h.steady howned hpending

theorem AdderInv.addBase (h : AdderInv σ slots) (hi : σ.threads[i]? = some t) (probe : BitVec 32)
    (hholds : t.pc.holds = false) :
    AdderInv { σ with
      memory := { σ.memory with base := σ.memory.base + t.pc.pending }
      threads := σ.threads.set i ⟨probe, .idle⟩ } slots := by
  have hframes : Frames σ slots i t.pc
      { σ.memory with base := σ.memory.base + t.pc.pending } slots :=
    ⟨fun _ => id, id, fun _ => le_rfl, le_rfl, fun _ _ _ _ _ _ _ hv hn => ⟨hv, hn⟩,
      Or.inr ⟨rfl, rfl, rfl, rfl⟩⟩
  refine h.update hi hframes ⟨h.sound.nodup, h.sound.lt, h.sound.contents, h.sound.length⟩
    (Local.idle _ _) (Or.inl ⟨rfl, hholds.symm⟩) h.steady (Or.inl rfl) ?_
  simp only [cellSum, Pc.pending]
  abel

theorem sum_map_getD_set {l : List ℕ} {values : List T} {c : ℕ} {v x : T} (hl : l.Nodup)
    (hc : c ∈ l) (hv : values[c]? = some v) :
    (l.map fun d => (values.set c (v + x)).getD d 0).sum
      = (l.map fun d => values.getD d 0).sum + x := by
  have hlt : c < values.length := (List.getElem?_eq_some_iff.mp hv).1
  have hne : ∀ d, d ≠ c → (values.set c (v + x)).getD d 0 = values.getD d 0 := by
    intro d hd
    simp only [List.getD_eq_getElem?_getD, List.getElem?_set_ne (Ne.symm hd)]
  have hself : (values.set c (v + x)).getD c 0 = values.getD c 0 + x := by
    simp only [List.getD_eq_getElem?_getD, List.getElem?_set_self hlt, hv, Option.getD_some]
  induction l with
  | nil => cases hc
  | cons d l ih =>
    obtain ⟨hd, hl'⟩ := List.nodup_cons.mp hl
    simp only [List.map_cons, List.sum_cons]
    rcases List.mem_cons.mp hc with rfl | hc'
    · have hrest : (l.map fun d => (values.set c (v + x)).getD d 0)
          = l.map fun d => values.getD d 0 :=
        List.map_congr_left fun d hmem => hne d fun heq => hd (heq ▸ hmem)
      rw [hself, hrest]
      abel
    · rw [hne d fun heq => hd (heq ▸ hc'), ih hl' hc']
      abel

theorem AdderInv.addCell (h : AdderInv σ slots) (hi : σ.threads[i]? = some t) (probe : BitVec 32)
    (hholds : t.pc.holds = false) {c : ℕ} {v : T} (hc : c ∈ attached slots)
    (hv : σ.memory.values[c]? = some v) :
    AdderInv { σ with
      memory := { σ.memory with values := σ.memory.values.set c (v + t.pc.pending) }
      threads := σ.threads.set i ⟨probe, .idle⟩ } slots := by
  have hframes : Frames σ slots i t.pc
      { σ.memory with values := σ.memory.values.set c (v + t.pc.pending) } slots := by
    refine ⟨fun _ => id, id, fun _ => le_rfl, le_rfl, fun _ _ r x _ _ _ hr hn => ⟨?_, hn⟩,
      Or.inr ⟨rfl, rfl, rfl, rfl⟩⟩
    rw [List.getElem?_set_ne fun heq : c = r => hn (heq ▸ hc)]
    exact hr
  refine h.update hi hframes ⟨h.sound.nodup, ?_, h.sound.contents, h.sound.length⟩
    (Local.idle _ _) (Or.inl ⟨rfl, hholds.symm⟩) h.steady (Or.inl rfl) ?_
  · intro d hd
    simpa using h.sound.lt d hd
  · simp only [cellSum, sum_map_getD_set h.sound.nodup hc hv, Pc.pending]
    abel

theorem cellSum_append {m : Striped64 T} (hlt : ∀ c ∈ attached slots, c < m.values.length)
    (x : T) : cellSum { m with values := m.values ++ [x] } slots = cellSum m slots := by
  refine congrArg List.sum (List.map_congr_left fun c hc => ?_)
  simp only [List.getD_eq_getElem?_getD, List.getElem?_append_left (hlt c hc)]

theorem AdderInv.newCell (h : AdderInv σ slots) (hi : σ.threads[i]? = some t) {f : Frame T}
    (probe : BitVec 32) (hholds : t.pc.holds = false) (hpending : t.pc.pending = f.x) :
    AdderInv { σ with
      memory := { σ.memory with values := σ.memory.values ++ [f.x] }
      threads := σ.threads.set i ⟨probe, .retestBusy f σ.memory.values.length⟩ } slots := by
  have hframes : Frames σ slots i t.pc
      { σ.memory with values := σ.memory.values ++ [f.x] } slots := by
    refine ⟨fun _ => id, id, fun _ => le_rfl, le_rfl, fun _ _ r x _ _ _ hr hn => ⟨?_, hn⟩,
      Or.inr ⟨rfl, rfl, rfl, rfl⟩⟩
    rw [List.getElem?_append_left (List.getElem?_eq_some_iff.mp hr).1]
    exact hr
  have hfresh : σ.memory.values.length ∉ attached slots := fun hmem =>
    lt_irrefl _ (h.sound.lt _ hmem)
  refine h.update hi hframes ⟨h.sound.nodup, ?_, h.sound.contents, h.sound.length⟩ ?_
    (Or.inl ⟨rfl, hholds.symm⟩) h.steady (Or.inr (Or.inr ⟨f.x, rfl⟩)) ?_
  · intro c hc
    exact (h.sound.lt c hc).trans (by simp)
  · constructor <;> simp [hfresh]
  · rw [cellSum_append h.sound.lt, hpending]
    rfl

/-! ## Steps under the lock -/

theorem AdderInv.held (h : AdderInv σ slots) (hi : σ.threads[i]? = some t)
    (hholds : t.pc.holds = true) (hholds' : t'.pc.holds = true)
    (hbusy : m'.cellsBusy = σ.memory.cellsBusy) (hf : Frames σ slots i t.pc m' slots')
    (hsound : Sound m' slots') (hlocal : Local m' slots' t'.pc)
    (howned : OwnedStep σ.memory t.pc t'.pc)
    (hsum : m'.base + cellSum m' slots' + t'.pc.pending =
      σ.memory.base + cellSum σ.memory slots + t.pc.pending) :
    AdderInv { σ with memory := m', threads := σ.threads.set i t' } slots' := by
  have htaken : σ.memory.cellsBusy = true := h.lock.mpr ⟨i, t, hi, hholds⟩
  refine h.update hi hf hsound hlocal (Or.inl ⟨hbusy, hholds'.trans hholds.symm⟩) ?_ howned hsum
  intro hfree
  rw [hbusy, htaken] at hfree
  cases hfree

theorem cellSum_cons {m : Striped64 T} {r : ℕ} {x : T}
    (hp : (attached slots').Perm (r :: attached slots)) (hr : m.values[r]? = some x) :
    cellSum m slots' = cellSum m slots + x := by
  have hx : m.values.getD r 0 = x := by rw [List.getD_eq_getElem?_getD, hr, Option.getD_some]
  calc cellSum m slots' = ((r :: attached slots).map fun c => m.values.getD c 0).sum :=
        (hp.map _).sum_eq
    _ = x + cellSum m slots := by rw [List.map_cons, List.sum_cons, hx, cellSum]
    _ = cellSum m slots + x := add_comm _ _

theorem AdderInv.storeSlot (h : AdderInv σ slots) {probe : BitVec 32} {f : Frame T}
    {r rs j : ℕ} (hi : σ.threads[i]? = some ⟨probe, .storeSlot f r rs j⟩)
    (hrs : σ.memory.tables[rs]? = some slots) (hcells : σ.memory.cells = some rs)
    (hn : σ.memory.nCells = slots.length) (hj : slots[j]? = some none) :
    AdderInv { σ with
      memory := { σ.memory with tables := σ.memory.tables.set rs (slots.set j (some r)) }
      threads := σ.threads.set i ⟨probe, .unlockSlot f true⟩ } (slots.set j (some r)) := by
  have hlocal := h.locals _ (List.mem_of_getElem? hi)
  obtain ⟨hr, hnew⟩ := hlocal.owned r f.x rfl
  have hperm := attached_set (r := r) hj
  have hmem : ∀ c, c ∈ attached (slots.set j (some r)) ↔ c = r ∨ c ∈ attached slots := fun c =>
    hperm.mem_iff.trans List.mem_cons
  have hsame : ∀ t, tableLength
      { σ.memory with tables := σ.memory.tables.set rs (slots.set j (some r)) } t
        = tableLength σ.memory t := tableLength_set hrs (by simp)
  have hget : (σ.memory.tables.set rs (slots.set j (some r)))[rs]?
      = some (slots.set j (some r)) :=
    List.getElem?_set_self (List.getElem?_eq_some_iff.mp hrs).1
  refine h.held hi rfl rfl rfl ⟨fun c hc => (hmem c).mpr (Or.inr hc), id,
    fun t => (hsame t).ge, (hsame _).ge, ?_, Or.inl rfl⟩ ⟨?_, ?_, ?_, ?_⟩ ?_ (Or.inl rfl) ?_
  · intro k u s x hk hu hs hv hns
    refine ⟨hv, fun hin => ?_⟩
    rcases (hmem s).mp hin with rfl | hin
    · exact hk (h.distinct k i u _ s x f.x hu hi hs rfl)
    · exact hns hin
  · exact hperm.nodup_iff.mpr (List.nodup_cons.mpr ⟨hnew, h.sound.nodup⟩)
  · intro c hc
    rcases (hmem c).mp hc with rfl | hc
    · exact (List.getElem?_eq_some_iff.mp hr).1
    · exact h.sound.lt c hc
  · intro hsome entries hentries c hc
    rcases List.mem_or_eq_of_mem_set hentries with hold | rfl
    · exact (hmem c).mpr (Or.inr (h.sound.contents hsome entries hold c hc))
    · exact hc
  · intro hsome
    rw [hsame]
    exact h.sound.length hsome
  · refine ⟨by simp, by simp, by simp, by simp, by simp, fun _ => Or.inr ⟨rs, hcells, hget, ?_⟩⟩
    rw [List.length_set]
    exact ⟨hn, Nat.zero_lt_of_lt (List.getElem?_eq_some_iff.mp hj).1⟩
  · have hsum := cellSum_cons (m := σ.memory) hperm hr
    simp only [cellSum] at hsum ⊢
    rw [hsum]
    simp only [Pc.pending, if_true]
    abel

theorem AdderInv.storeTable (h : AdderInv σ slots) {probe : BitVec 32} {f : Frame T} {cs n : ℕ}
    (hi : σ.threads[i]? = some ⟨probe, .storeTable f cs n⟩)
    (hcs : σ.memory.tables[cs]? = some slots) (hcells : σ.memory.cells = some cs)
    (hn : σ.memory.nCells = slots.length) (hpos : 0 < slots.length) (hlen : n = σ.memory.nCells) :
    AdderInv { σ with
      memory := { σ.memory with
        tables := σ.memory.tables ++ [List.replicate (2 * n) none]
        cells := some σ.memory.tables.length }
      threads := σ.threads.set i ⟨probe, .copyRead f cs n 0⟩ } slots := by
  have hcslt : cs < σ.memory.tables.length := (List.getElem?_eq_some_iff.mp hcs).1
  have hget : (σ.memory.tables ++ [List.replicate (2 * n) none])[σ.memory.tables.length]?
      = some (List.replicate (2 * n) none) := List.getElem?_concat_length
  have hcur : tableLength { σ.memory with
      tables := σ.memory.tables ++ [List.replicate (2 * n) none]
      cells := some σ.memory.tables.length } (some σ.memory.tables.length) = 2 * n :=
    (tableLength_some hget).trans List.length_replicate
  refine h.held hi rfl rfl rfl ⟨fun _ => id, fun _ => rfl, tableLength_append σ.memory _, ?_,
    fun _ _ _ _ _ _ _ hv hns => ⟨hv, hns⟩, Or.inl rfl⟩ ⟨h.sound.nodup, h.sound.lt, ?_, ?_⟩ ?_
    (Or.inl rfl) rfl
  · rw [hcur, hcells, tableLength_some hcs]
    omega
  · intro _ entries hentries c hc
    rcases List.mem_append.mp hentries with hold | hnew
    · exact h.sound.contents (by rw [hcells]; rfl) entries hold c hc
    · obtain rfl := List.mem_singleton.mp hnew
      rw [attached_replicate] at hc
      cases hc
  · intro _
    rw [hcur]
    show 0 < σ.memory.nCells ∧ σ.memory.nCells ≤ 2 * n
    omega
  · refine ⟨by simp, by simp, by simp, by simp, by simp, fun _ => ?_⟩
    refine ⟨?_, hlen.trans hn, by omega, hlen.symm, Nat.zero_le _, _, rfl, by omega, ?_⟩
    · rw [List.getElem?_append_left hcslt]
      exact hcs
    · exact hget

theorem set_take_append {slots : List (Option ℕ)} {n k : ℕ} {slot : Option ℕ}
    (hk : slots[k]? = some slot) (hn : n = slots.length) :
    (slots.take k ++ List.replicate (2 * n - k) none).set k slot
      = slots.take (k + 1) ++ List.replicate (2 * n - (k + 1)) none := by
  have hlt : k < slots.length := (List.getElem?_eq_some_iff.mp hk).1
  have hlen : (slots.take k).length = k := List.length_take_of_le hlt.le
  have hrep : 2 * n - k = (2 * n - (k + 1)) + 1 := by omega
  rw [List.set_append_right _ _ hlen.le, hlen, Nat.sub_self, hrep, List.replicate_succ,
    List.set_cons_zero, List.take_add_one, hk, Option.toList_some, List.append_assoc,
    List.singleton_append]

theorem AdderInv.copyWrite (h : AdderInv σ slots) {probe : BitVec 32} {f : Frame T}
    {cs n k tab : ℕ} {slot : Option ℕ}
    (hi : σ.threads[i]? = some ⟨probe, .copyWrite f cs n k slot tab⟩)
    (hcopy : Copying σ.memory slots cs n k) (hslot : slots[k]? = some slot)
    (hcells : σ.memory.cells = some tab) :
    AdderInv { σ with
      memory := { σ.memory with
        tables := σ.memory.tables.set tab
          (slots.take (k + 1) ++ List.replicate (2 * n - (k + 1)) none) }
      threads := σ.threads.set i ⟨probe, .copyRead f cs n (k + 1)⟩ } slots := by
  obtain ⟨hcs, hn, hpos, hlen, hk, tab', hcells', hne, htab⟩ := hcopy
  obtain rfl : tab' = tab := Option.some.inj (hcells'.symm.trans hcells)
  have hlt : k < slots.length := (List.getElem?_eq_some_iff.mp hslot).1
  have hsame : ∀ t, tableLength { σ.memory with
      tables := σ.memory.tables.set tab'
        (slots.take (k + 1) ++ List.replicate (2 * n - (k + 1)) none) } t
        = tableLength σ.memory t := by
    refine tableLength_set htab ?_
    simp only [List.length_append, List.length_take, List.length_replicate]
    omega
  refine h.held hi rfl rfl rfl ⟨fun _ => id, id, fun t => (hsame t).ge, (hsame _).ge,
    fun _ _ _ _ _ _ _ hv hns => ⟨hv, hns⟩, Or.inl rfl⟩ ⟨h.sound.nodup, h.sound.lt, ?_, ?_⟩ ?_
    (Or.inl rfl) rfl
  · intro hsome entries hentries c hc
    rcases List.mem_or_eq_of_mem_set hentries with hold | rfl
    · exact h.sound.contents hsome entries hold c hc
    · rw [attached_append, attached_replicate, List.append_nil, mem_attached] at hc
      exact mem_attached.mpr (List.mem_of_mem_take hc)
  · intro hsome
    rw [hsame]
    exact h.sound.length hsome
  · refine ⟨by simp, by simp, by simp, by simp, by simp, fun _ => ?_⟩
    refine ⟨?_, hn, hpos, hlen, by omega, tab', hcells, hne, ?_⟩
    · rw [List.getElem?_set_ne hne]
      exact hcs
    · exact List.getElem?_set_self (List.getElem?_eq_some_iff.mp htab).1

theorem AdderInv.storeLength (h : AdderInv σ slots) {probe : BitVec 32} {f : Frame T} {cs n : ℕ}
    (hi : σ.threads[i]? = some ⟨probe, .storeLength f n⟩)
    (hcopy : Copying σ.memory slots cs n n) :
    AdderInv { σ with
      memory := { σ.memory with nCells := 2 * n }
      threads := σ.threads.set i ⟨probe, .unlockExpand f⟩ }
      (slots ++ List.replicate n none) := by
  obtain ⟨hcs, hn, hpos, hlen, -, tab, hcells, hne, htab⟩ := hcopy
  have hfull : slots.take n ++ List.replicate (2 * n - n) none = slots ++ List.replicate n none := by
    rw [hn, List.take_length, two_mul, Nat.add_sub_cancel]
  rw [hfull] at htab
  have hattached : attached (slots ++ List.replicate n none) = attached slots := by
    rw [attached_append, attached_replicate, List.append_nil]
  have hlength : (slots ++ List.replicate n (none : Option ℕ)).length = 2 * n := by
    rw [List.length_append, List.length_replicate]
    omega
  refine h.held hi rfl rfl rfl ⟨?_, id, fun _ => le_rfl, le_rfl, ?_, Or.inl rfl⟩
    ⟨?_, ?_, ?_, ?_⟩ ?_ (Or.inl rfl) ?_
  · rw [hattached]
    exact fun _ => id
  · rw [hattached]
    exact fun _ _ _ _ _ _ _ hv hns => ⟨hv, hns⟩
  · rw [hattached]
    exact h.sound.nodup
  · rw [hattached]
    exact h.sound.lt
  · rw [hattached]
    exact h.sound.contents
  · intro _
    rw [hcells]
    refine ⟨by show 0 < 2 * n; omega, (hlength.symm.trans (tableLength_some htab).symm).le⟩
  · refine ⟨by simp, by simp, by simp, by simp, by simp, fun _ => Or.inr ⟨tab, hcells, htab, ?_⟩⟩
    rw [hlength]
    exact ⟨rfl, by omega⟩
  · simp only [cellSum, hattached]
    rfl

theorem AdderInv.storeInitLength (h : AdderInv σ slots) {probe : BitVec 32} {f : Frame T}
    (hi : σ.threads[i]? = some ⟨probe, .storeInitLength f⟩) (hcells : σ.memory.cells = none)
    (htables : σ.memory.tables = []) (hslots : slots = []) :
    AdderInv { σ with
      memory := { σ.memory with
        tables := σ.memory.tables ++ [List.replicate 2 none], nCells := 2 }
      threads := σ.threads.set i ⟨probe, .storeInitSlot f σ.memory.tables.length⟩ } slots := by
  have hnone : ¬ σ.memory.cells.isSome = true := by simp [hcells]
  refine h.held hi rfl rfl rfl ⟨fun _ => id, id, tableLength_append σ.memory _, ?_,
    fun _ _ _ _ _ _ _ hv hns => ⟨hv, hns⟩, Or.inl rfl⟩
    ⟨h.sound.nodup, h.sound.lt, fun hsome => absurd hsome hnone, fun hsome => absurd hsome hnone⟩ ?_
    (Or.inl rfl) rfl
  · rw [hcells]
    exact le_rfl
  · refine ⟨by simp, by simp, by simp, by simp, by simp, fun _ => ?_⟩
    refine ⟨hcells, rfl, hslots, ?_, ?_, rfl⟩
    · rw [htables]
      rfl
    · rw [htables]
      rfl

theorem AdderInv.storeInitSlot (h : AdderInv σ slots) {probe : BitVec 32} {f : Frame T} {rs j : ℕ}
    (hi : σ.threads[i]? = some ⟨probe, .storeInitSlot f rs⟩)
    (hcreate : Creating σ.memory slots (List.replicate 2 none) rs) (hj : j < 2) :
    AdderInv { σ with
      memory := { σ.memory with
        values := σ.memory.values ++ [f.x]
        tables := σ.memory.tables.set rs
          ((List.replicate 2 none).set j (some σ.memory.values.length)) }
      threads := σ.threads.set i ⟨probe, .storeInitCells f rs σ.memory.values.length⟩ } slots := by
  obtain ⟨hcells, hlen, hslots, htables, rfl, -⟩ := hcreate
  have hnone : ¬ σ.memory.cells.isSome = true := by simp [hcells]
  have hsame : ∀ t, tableLength { σ.memory with
      tables := σ.memory.tables.set 0
        ((List.replicate 2 none).set j (some σ.memory.values.length)) } t
        = tableLength σ.memory t :=
    tableLength_set (by rw [htables]; rfl) (by rw [List.length_set])
  have hfresh : attached ((List.replicate 2 none).set j (some σ.memory.values.length))
      = [σ.memory.values.length] := by
    have hnull : (List.replicate 2 (none : Option ℕ))[j]? = some none := by
      rw [List.getElem?_replicate_of_lt hj]
    have hperm := attached_set (r := σ.memory.values.length) hnull
    rw [attached_replicate] at hperm
    exact List.perm_singleton.mp hperm
  refine h.held hi rfl rfl rfl ⟨fun _ => id, id, fun t => (hsame t).ge, ?_, ?_, Or.inl rfl⟩
    ⟨h.sound.nodup, ?_, fun hsome => absurd hsome hnone, fun hsome => absurd hsome hnone⟩ ?_
    (Or.inr (Or.inr ⟨f.x, rfl⟩)) ?_
  · rw [hcells]
    exact le_rfl
  · intro k u s x hk hu hs hv hns
    refine ⟨?_, hns⟩
    rw [List.getElem?_append_left (List.getElem?_eq_some_iff.mp hv).1]
    exact hv
  · rw [hslots]
    simp [attached]
  · refine ⟨by simp, by simp, by simp, by simp, ?_, fun _ => ?_⟩
    · rw [hslots]
      simp [attached]
    · refine ⟨_, ⟨hcells, hlen, hslots, ?_, rfl, ?_⟩, hfresh⟩
      · rw [htables]
        rfl
      · rw [List.length_set, List.length_replicate]
  · rw [hslots]
    rfl

theorem AdderInv.storeInitCells (h : AdderInv σ slots) {probe : BitVec 32} {f : Frame T}
    {rs c : ℕ} {entries : List (Option ℕ)}
    (hi : σ.threads[i]? = some ⟨probe, .storeInitCells f rs c⟩)
    (hcreate : Creating σ.memory slots entries rs) (hentries : attached entries = [c]) :
    AdderInv { σ with
      memory := { σ.memory with cells := some rs }
      threads := σ.threads.set i ⟨probe, .unlockInit f true⟩ } entries := by
  obtain ⟨hcells, hlen, rfl, htables, rfl, htwo⟩ := hcreate
  obtain ⟨hc, -⟩ := (h.locals _ (List.mem_of_getElem? hi)).owned c f.x rfl
  have htab : σ.memory.tables[0]? = some entries := by rw [htables]; rfl
  have hcur : tableLength { σ.memory with cells := some 0 } (some 0) = 2 :=
    (tableLength_some htab).trans htwo
  refine h.held hi rfl rfl rfl ⟨by simp [attached], fun _ => rfl, fun _ => le_rfl, ?_, ?_,
    Or.inl rfl⟩ ⟨?_, ?_, ?_, ?_⟩ ?_ (Or.inl rfl) ?_
  · rw [hcells]
    exact Nat.zero_le _
  · intro k u s x hk hu hs hv _
    refine ⟨hv, fun hin => ?_⟩
    rw [hentries, List.mem_singleton] at hin
    subst hin
    exact hk (h.distinct k i u _ s x f.x hu hi hs rfl)
  · rw [hentries]
    exact List.nodup_singleton c
  · intro d hd
    rw [hentries, List.mem_singleton] at hd
    subst hd
    exact (List.getElem?_eq_some_iff.mp hc).1
  · intro _ entries' hmem d hd
    rw [htables, List.mem_singleton] at hmem
    subst hmem
    exact hd
  · intro _
    rw [hcur]
    show 0 < σ.memory.nCells ∧ σ.memory.nCells ≤ 2
    omega
  · refine ⟨by simp, by simp, by simp, by simp, by simp, fun _ => Or.inr ⟨0, rfl, htab, ?_⟩⟩
    rw [htwo]
    exact ⟨hlen, by omega⟩
  · have hperm : (attached entries).Perm (c :: attached []) := by
      rw [hentries]
      rfl
    have hsum := cellSum_cons hperm hc
    simp only [cellSum] at hsum ⊢
    rw [hsum]
    simp only [Pc.pending, if_true]
    abel

end update

end Mutty.Thread
