import Mathlib.Algebra.Order.BigOperators.Group.List
import Mathlib.Algebra.Order.Group.Int
import Mutty.Thread.LongAdder

/-!
# A sum while others add

`sum` reads the table pointer once, then the base, and then the slots of this table one by one,
with the length read anew before each. It takes no lock. When nothing but non-negative values is
added, the base and the cells only grow, and a cell stays in its slot; so the result is between what
had been added when the pointer was read and what has been added when `sum` returns. An expansion
breaks both parts of this: it publishes the new table before the cells are copied into it, and
it changes the length under a reader of the old table.
-/

namespace Mutty.Thread

open Mutty.Lib

inductive SumPc (T : Type)
  | loadCells
  | loadBase (cs : Option ℕ)
  | loadLength (cs i : ℕ) (sum : T)
  | loadSlot (cs i : ℕ) (sum : T)
  /-- the value for the output, and the one for the sum -/
  | printValue (cs i c : ℕ) (sum : T)
  | loadValue (cs i c : ℕ) (sum : T)
  deriving DecidableEq, Repr

namespace SumPc

variable {T : Type}

def begun : SumPc T → Bool
  | .loadCells => false
  | _ => true

theorem eq_loadCells {pc : SumPc T} (h : pc.begun = false) : pc = .loadCells := by
  cases pc with
  | loadCells => rfl
  | _ => cases h

variable [Add T]

/-- The next access; the right side is the value that `sum` returns. -/
def next (m : Striped64 T) : SumPc T → Checked (SumPc T ⊕ T)
  | .loadCells => .ok (.inl (.loadBase m.cells))
  | .loadBase none => .ok (.inr m.base)
  | .loadBase (some cs) => .ok (.inl (.loadLength cs 0 m.base))
  | .loadLength cs i sum =>
    .ok (if i < m.nCells then .inl (.loadSlot cs i sum) else .inr sum)
  | .loadSlot cs i sum => do
    match ← m.readSlot cs i with
    | none => return .inl (.loadLength cs (i + 1) sum)
    | some c => return .inl (.printValue cs i c sum)
  | .printValue cs i c sum => do
    let _ ← fetch m.values c
    return .inl (.loadValue cs i c sum)
  | .loadValue cs i c sum => do
    let v ← fetch m.values c
    return .inl (.loadLength cs (i + 1) (sum + v))

end SumPc

namespace Pc

variable {T : Type}

def writes : Pc T → Bool
  | addCasBase _ _ => true
  | addCasValue _ _ _ => true
  | testBusy _ => true
  | storeSlot _ _ _ _ => true
  | casValue _ _ _ _ _ => true
  | storeTable _ _ _ => true
  | copyWrite _ _ _ _ _ _ => true
  | storeLength _ _ => true
  | storeInitLength _ => true
  | storeInitSlot _ _ => true
  | storeInitCells _ _ _ => true
  | casBase _ _ => true
  | _ => false

/-- The table of an expansion is published, and its length not yet. -/
@[simp] def copying : Pc T → Bool
  | copyRead _ _ _ _ => true
  | copyReload _ _ _ _ _ => true
  | copyWrite _ _ _ _ _ _ => true
  | storeLength _ _ => true
  | _ => false

@[simp] def expands : Pc T → Bool
  | storeTable _ _ _ => true
  | _ => false

end Pc

/-- The sum of what has been added by now: the calls that are still to add their value are left out. -/
def AdderState.settled {T : Type} [AddCommGroup T] (σ : AdderState T) : T :=
  σ.added - (σ.threads.map fun t => t.pc.pending).sum

/-- The adders, one call of `sum`, and what had been added when it read the pointer. -/
structure SumState (T : Type) where
  adder : AdderState T
  pc : SumPc T
  before : T
  deriving DecidableEq, Repr

inductive SumAction (T : Type)
  | adder (a : AdderAction T)
  | read
  deriving DecidableEq, Repr

section machine

variable {T : Type} [AddCommGroup T] [DecidableEq T]

def SumState.read (σ : SumState T) : Checked (SumState T ⊕ T) := do
  match ← σ.pc.next σ.adder.memory with
  | .inl pc =>
    return .inl { σ with pc := pc, before := if σ.pc.begun then σ.before else σ.adder.settled }
  | .inr sum => return .inr sum

def SumState.run (ncpu : ℕ) (σ : SumState T) : SumAction T → Option (SumState T)
  | .adder a => ((σ.adder.run ncpu a).bind Except.toOption).map fun adder => { σ with adder := adder }
  | .read => σ.read.toOption.bind fun r => r.getLeft?

variable (T) in
def sumMachine (ncpu : ℕ) : System (SumState T) (SumAction T) where
  init σ := (adderMachine T ncpu).init σ.adder ∧ σ.pc = .loadCells
  step := SumState.run ncpu

/-- Only non-negative values are added, the pointer and the length of `longAccumulate` belong
together, and no expansion is under way while `sum` runs. -/
def Undisturbed [LE T] (σ : SumState T) : SumAction T → Prop
  | .adder (.add _ x) => 0 ≤ x
  | .adder (.step i spurious seed) => Coherent σ.adder (.step i spurious seed) ∧
    (σ.pc.begun = true → (σ.adder.threads[i]?).all (fun t => !t.pc.expands) = true)
  | .read => σ.pc.begun = false → σ.adder.threads.all (fun t => !t.pc.copying) = true

instance [LE T] [DecidableLE T] (σ : SumState T) : (a : SumAction T) → Decidable (Undisturbed σ a)
  | .adder (.add _ x) => inferInstanceAs (Decidable (0 ≤ x))
  | .adder (.step i spurious seed) =>
    inferInstanceAs (Decidable (Coherent σ.adder (.step i spurious seed) ∧ (_ → _)))
  | .read => inferInstanceAs (Decidable (_ → _))

end machine

/-! ## What one access of an adder does -/

section reads

variable {T : Type} [Zero T] {m m' : Striped64 T} {pc pc' q r : Pc T} {ncpu : ℕ} {probe : BitVec 32}
  {spurious : Bool}

/-- The access writes the lock at most, and has added nothing. -/
def Reads (m : Striped64 T) (pc : Pc T) (r : Checked (Striped64 T × Pc T)) : Prop :=
  ∀ m' pc', r = .ok (m', pc') → m' = { m with cellsBusy := m'.cellsBusy } ∧
    pc'.copying = pc.copying ∧ pc'.pending = pc.pending

theorem reads_lock (b : Bool) (hq : q.copying = pc.copying) (hx : q.pending = pc.pending) :
    Reads m pc (.ok ({ m with cellsBusy := b }, q)) := by
  intro m' pc' h
  obtain ⟨rfl, rfl⟩ := Prod.mk.inj (Except.ok.inj h)
  exact ⟨rfl, hq, hx⟩

theorem reads_ok (hq : q.copying = pc.copying) (hx : q.pending = pc.pending) :
    Reads m pc (.ok (m, q)) := reads_lock m.cellsBusy hq hx

theorem reads_error (e : Fault) : Reads m pc (.error e) := by
  intro m' pc' h
  cases h

theorem reads_if {p : Prop} [Decidable p] (hq : q.copying = pc.copying) (hx : q.pending = pc.pending)
    (hq' : r.copying = pc.copying) (hx' : r.pending = pc.pending) :
    Reads m pc (.ok (m, if p then q else r)) := by
  split_ifs
  · exact reads_ok hq hx
  · exact reads_ok hq' hx'

theorem reads_ite {p : Prop} [Decidable p] {a b : Checked (Striped64 T × Pc T)} (ha : Reads m pc a)
    (hb : Reads m pc b) : Reads m pc (if p then a else b) := by
  split_ifs
  · exact ha
  · exact hb

theorem reads_bind {α : Type} {x : Checked α} {f : α → Checked (Striped64 T × Pc T)}
    (h : ∀ a, Reads m pc (f a)) : Reads m pc (x >>= f) := by
  intro m' pc' hr
  obtain ⟨a, -, hr⟩ := bind_eq_ok.mp hr
  exact h a m' pc' hr

variable [Add T] [DecidableEq T]

theorem next_reads (hpc : pc.writes = false) : Reads m pc (m.next ncpu probe spurious pc) := by
  cases pc with
  | idle => exact reads_ok rfl rfl
  | addLoadCells x => exact reads_if rfl rfl rfl rfl
  | addLoadBase x => exact reads_ok rfl rfl
  | addLoadLength x => exact reads_if rfl rfl rfl rfl
  | addReloadCells x n =>
    unfold Striped64.next
    cases m.cells with
    | none => exact reads_error _
    | some table => exact reads_ok rfl rfl
  | addLoadSlot x n table =>
    refine reads_bind fun slot => ?_
    cases slot with
    | none => exact reads_ok rfl rfl
    | some c => exact reads_ok rfl rfl
  | addLoadValue x c => exact reads_bind fun v => reads_ok rfl rfl
  | enter x wasUncontended index => exact reads_ok rfl rfl
  | loadCells f =>
    unfold Striped64.next
    cases m.cells with
    | none => exact reads_ok rfl rfl
    | some cs => exact reads_ok rfl rfl
  | loadLength f cs => exact reads_if rfl rfl rfl rfl
  | loadSlot f cs n =>
    refine reads_bind fun slot => ?_
    cases slot with
    | none => exact reads_ok rfl rfl
    | some c => exact reads_if rfl rfl rfl rfl
  | retestBusy f r => exact reads_if rfl rfl rfl rfl
  | lockSlot f r => exact reads_ite (reads_ok rfl rfl) (reads_lock true rfl rfl)
  | reloadCells f r =>
    unfold Striped64.next
    cases m.cells with
    | none => exact reads_ok rfl rfl
    | some rs => exact reads_ok rfl rfl
  | reloadLength f r rs => exact reads_if rfl rfl rfl rfl
  | reloadSlot f r rs j => exact reads_bind fun slot => reads_if rfl rfl rfl rfl
  | unlockSlot f created =>
    cases created with
    | true => exact reads_lock false rfl rfl
    | false => exact reads_lock false rfl rfl
  | loadValue f cs n c => exact reads_bind fun v => reads_ok rfl rfl
  | testStale f cs n =>
    exact reads_ite (reads_ok rfl rfl) (reads_ite (reads_ok rfl rfl) (reads_ok rfl rfl))
  | testExpand f cs n => exact reads_if rfl rfl rfl rfl
  | lockExpand f cs n => exact reads_ite (reads_ok rfl rfl) (reads_lock true rfl rfl)
  | recheckCells f cs n => exact reads_if rfl rfl rfl rfl
  | copyRead f cs n i => exact reads_ite (reads_bind fun slot => reads_ok rfl rfl) (reads_ok rfl rfl)
  | copyReload f cs n i slot =>
    unfold Striped64.next
    cases m.cells with
    | none => exact reads_error _
    | some table => exact reads_ok rfl rfl
  | unlockExpand f => exact reads_lock false rfl rfl
  | testInit f cs => exact reads_if rfl rfl rfl rfl
  | testInitCells f cs => exact reads_if rfl rfl rfl rfl
  | lockInit f cs => exact reads_ite (reads_ok rfl rfl) (reads_lock true rfl rfl)
  | recheckInit f cs => exact reads_if rfl rfl rfl rfl
  | unlockInit f init =>
    cases init with
    | true => exact reads_lock false rfl rfl
    | false => exact reads_lock false rfl rfl
  | loadBase f => exact reads_ok rfl rfl
  | _ => cases hpc

end reads

theorem writeSlot_ok {T : Type} {m m' : Striped64 T} {table j : ℕ} {slot : Option ℕ}
    (h : m.writeSlot table j slot = .ok m') : m' = { m with tables := m'.tables } := by
  obtain ⟨entries, -, h⟩ := bind_eq_ok.mp h
  obtain ⟨_, -, h⟩ := bind_eq_ok.mp h
  obtain rfl := Except.ok.inj h
  rfl

section grows

variable {T : Type} [AddCommGroup T] [PartialOrder T] {m m' : Striped64 T} {pc pc' : Pc T} {ncpu : ℕ}
  {probe : BitVec 32} {spurious : Bool} {x : T}

structure Grows (m m' : Striped64 T) : Prop where
  base : m.base ≤ m'.base
  value : ∀ (c : ℕ) (v : T), m.values[c]? = some v → ∃ v' : T, m'.values[c]? = some v' ∧ v ≤ v'
  nonneg : (∀ v ∈ m.values, 0 ≤ v) → ∀ v ∈ m'.values, 0 ≤ v

theorem grows_same (hbase : m.base ≤ m'.base) (hvalues : m'.values = m.values) : Grows m m' := by
  refine ⟨hbase, fun c v hv => ⟨v, ?_, le_rfl⟩, ?_⟩
  · rw [hvalues, hv]
  · rw [hvalues]
    exact id

theorem grows_append (hx : 0 ≤ x) (hbase : m'.base = m.base) (hvalues : m'.values = m.values ++ [x]) :
    Grows m m' := by
  refine ⟨hbase.ge, fun c v hv => ⟨v, ?_, le_rfl⟩, fun hnonneg v hv => ?_⟩
  · rw [hvalues, List.getElem?_append_left (List.getElem?_eq_some_iff.mp hv).1, hv]
  · rw [hvalues] at hv
    rcases List.mem_append.mp hv with hold | hnew
    · exact hnonneg v hold
    · rw [List.mem_singleton.mp hnew]
      exact hx

variable [IsOrderedAddMonoid T]

theorem grows_set {c : ℕ} {v : T} (hv : m.values[c]? = some v) (hx : 0 ≤ x)
    (hbase : m'.base = m.base) (hvalues : m'.values = m.values.set c (v + x)) : Grows m m' := by
  have hlt := (List.getElem?_eq_some_iff.mp hv).1
  refine ⟨hbase.ge, fun d w hw => ?_, fun hnonneg w hw => ?_⟩
  · by_cases hd : c = d
    · subst hd
      obtain rfl : v = w := Option.some.inj (hv.symm.trans hw)
      exact ⟨v + x, by rw [hvalues, List.getElem?_set_self hlt], le_add_of_nonneg_right hx⟩
    · exact ⟨w, by rw [hvalues, List.getElem?_set_ne hd, hw], le_rfl⟩
  · rw [hvalues] at hw
    rcases List.mem_or_eq_of_mem_set hw with hold | rfl
    · exact hnonneg w hold
    · exact add_nonneg (hnonneg v (List.mem_of_getElem? hv)) hx

/-- A value that is added is never negative, a call keeps its value until it has added it, and only
`storeTable` begins an expansion. -/
theorem next_grows [DecidableEq T] (hx : 0 ≤ pc.pending)
    (h : m.next ncpu probe spurious pc = .ok (m', pc')) :
    Grows m m' ∧ 0 ≤ pc'.pending ∧
      (pc.copying = false → pc.expands = false → pc'.copying = false) := by
  cases hw : pc.writes with
  | false =>
    obtain ⟨hm, hcopy, hpending⟩ := next_reads hw m' pc' h
    rw [hm, hpending, hcopy]
    exact ⟨grows_same le_rfl rfl, hx, fun h _ => h⟩
  | true =>
    cases pc with
    | addCasBase x b =>
      simp only [Striped64.next] at h
      split_ifs at h with hcas
      · obtain ⟨rfl, rfl⟩ := Prod.mk.inj (Except.ok.inj h)
        rw [← eq_of_casWeak hcas]
        exact ⟨grows_same (le_add_of_nonneg_right hx) rfl, le_rfl, fun _ _ => rfl⟩
      · obtain ⟨rfl, rfl⟩ := Prod.mk.inj (Except.ok.inj h)
        exact ⟨grows_same le_rfl rfl, hx, fun _ _ => rfl⟩
    | casBase f v =>
      simp only [Striped64.next] at h
      split_ifs at h with hcas
      · obtain ⟨rfl, rfl⟩ := Prod.mk.inj (Except.ok.inj h)
        rw [← eq_of_casWeak hcas]
        exact ⟨grows_same (le_add_of_nonneg_right hx) rfl, le_rfl, fun _ _ => rfl⟩
      · obtain ⟨rfl, rfl⟩ := Prod.mk.inj (Except.ok.inj h)
        exact ⟨grows_same le_rfl rfl, hx, fun _ _ => rfl⟩
    | addCasValue x c v =>
      obtain ⟨current, hv, h⟩ := bind_eq_ok.mp h
      split_ifs at h with hcas
      · obtain ⟨rfl, rfl⟩ := Prod.mk.inj (Except.ok.inj h)
        rw [← eq_of_casWeak hcas]
        exact ⟨grows_set (fetch_eq_ok.mp hv) hx rfl rfl, le_rfl, fun _ _ => rfl⟩
      · obtain ⟨rfl, rfl⟩ := Prod.mk.inj (Except.ok.inj h)
        exact ⟨grows_same le_rfl rfl, hx, fun _ _ => rfl⟩
    | casValue f cs n c v =>
      obtain ⟨current, hv, h⟩ := bind_eq_ok.mp h
      split_ifs at h with hcas
      · obtain ⟨rfl, rfl⟩ := Prod.mk.inj (Except.ok.inj h)
        rw [← eq_of_casWeak hcas]
        exact ⟨grows_set (fetch_eq_ok.mp hv) hx rfl rfl, le_rfl, fun _ _ => rfl⟩
      all_goals
        obtain ⟨rfl, rfl⟩ := Prod.mk.inj (Except.ok.inj h)
        exact ⟨grows_same le_rfl rfl, hx, fun _ _ => rfl⟩
    | testBusy f =>
      simp only [Striped64.next] at h
      split_ifs at h
      · obtain ⟨rfl, rfl⟩ := Prod.mk.inj (Except.ok.inj h)
        exact ⟨grows_same le_rfl rfl, hx, fun _ _ => rfl⟩
      · obtain ⟨rfl, rfl⟩ := Prod.mk.inj (Except.ok.inj h)
        exact ⟨grows_append hx rfl rfl, hx, fun _ _ => rfl⟩
    | storeSlot f r rs j =>
      obtain ⟨m₁, hwrite, h⟩ := bind_eq_ok.mp h
      obtain ⟨rfl, rfl⟩ := Prod.mk.inj (Except.ok.inj h)
      rw [writeSlot_ok hwrite]
      exact ⟨grows_same le_rfl rfl, le_rfl, fun _ _ => rfl⟩
    | copyWrite f cs n i slot table =>
      obtain ⟨m₁, hwrite, h⟩ := bind_eq_ok.mp h
      obtain ⟨rfl, rfl⟩ := Prod.mk.inj (Except.ok.inj h)
      rw [writeSlot_ok hwrite]
      refine ⟨grows_same le_rfl rfl, hx, fun hcopy => ?_⟩
      cases hcopy
    | storeInitSlot f rs =>
      obtain ⟨m₁, hwrite, h⟩ := bind_eq_ok.mp h
      obtain ⟨rfl, rfl⟩ := Prod.mk.inj (Except.ok.inj h)
      rw [writeSlot_ok hwrite]
      exact ⟨grows_append hx rfl rfl, hx, fun _ _ => rfl⟩
    | storeTable f cs n =>
      obtain ⟨rfl, rfl⟩ := Prod.mk.inj (Except.ok.inj h)
      refine ⟨grows_same le_rfl rfl, hx, fun _ hexp => ?_⟩
      cases hexp
    | storeLength f n =>
      obtain ⟨rfl, rfl⟩ := Prod.mk.inj (Except.ok.inj h)
      refine ⟨grows_same le_rfl rfl, hx, fun hcopy => ?_⟩
      cases hcopy
    | storeInitLength f =>
      obtain ⟨rfl, rfl⟩ := Prod.mk.inj (Except.ok.inj h)
      exact ⟨grows_same le_rfl rfl, hx, fun _ _ => rfl⟩
    | storeInitCells f rs c =>
      obtain ⟨rfl, rfl⟩ := Prod.mk.inj (Except.ok.inj h)
      exact ⟨grows_same le_rfl rfl, le_rfl, fun _ _ => rfl⟩
    | _ => cases hw

end grows

/-! ## The table that a reader has -/

section table

variable {T : Type} {m m' : Striped64 T} {pc pc' : Pc T} {ncpu : ℕ} {probe : BitVec 32}
  {spurious : Bool}

structure KeepsTable (cs : ℕ) (m m' : Striped64 T) : Prop where
  cells : m'.cells = some cs
  table : ∀ entries : List (Option ℕ), m.tables[cs]? = some entries →
    ∃ entries' : List (Option ℕ), m'.tables[cs]? = some entries' ∧
      entries'.length = entries.length ∧
      ∀ j c : ℕ, entries[j]? = some (some c) → entries'[j]? = some (some c)

theorem keepsTable_same {cs : ℕ} (hcs : m.cells = some cs) (hcells : m'.cells = m.cells)
    (htables : m'.tables = m.tables) : KeepsTable cs m m' := by
  refine ⟨hcells.trans hcs, fun entries h => ⟨entries, ?_, rfl, fun _ _ => id⟩⟩
  rw [htables, h]

theorem next_keepsTable [Add T] [Zero T] [DecidableEq T] {slots : List (Option ℕ)} {cs : ℕ}
    (hcs : m.cells = some cs) (hlocal : Local m slots pc) (hcopy : pc.copying = false)
    (hexp : pc.expands = false) (h : m.next ncpu probe spurious pc = .ok (m', pc')) :
    KeepsTable cs m m' := by
  have hnone : m.cells ≠ none := by
    rw [hcs]
    exact Option.some_ne_none cs
  cases hw : pc.writes with
  | false =>
    obtain ⟨hm, -, -⟩ := next_reads hw m' pc' h
    rw [hm]
    exact keepsTable_same hcs rfl rfl
  | true =>
    cases pc with
    | addCasBase x b =>
      simp only [Striped64.next] at h
      split_ifs at h
      all_goals
        obtain ⟨rfl, rfl⟩ := Prod.mk.inj (Except.ok.inj h)
        exact keepsTable_same hcs rfl rfl
    | casBase f v =>
      simp only [Striped64.next] at h
      split_ifs at h
      all_goals
        obtain ⟨rfl, rfl⟩ := Prod.mk.inj (Except.ok.inj h)
        exact keepsTable_same hcs rfl rfl
    | addCasValue x c v =>
      obtain ⟨current, -, h⟩ := bind_eq_ok.mp h
      split_ifs at h
      all_goals
        obtain ⟨rfl, rfl⟩ := Prod.mk.inj (Except.ok.inj h)
        exact keepsTable_same hcs rfl rfl
    | casValue f cs n c v =>
      obtain ⟨current, -, h⟩ := bind_eq_ok.mp h
      split_ifs at h
      all_goals
        obtain ⟨rfl, rfl⟩ := Prod.mk.inj (Except.ok.inj h)
        exact keepsTable_same hcs rfl rfl
    | testBusy f =>
      simp only [Striped64.next] at h
      split_ifs at h
      all_goals
        obtain ⟨rfl, rfl⟩ := Prod.mk.inj (Except.ok.inj h)
        exact keepsTable_same hcs rfl rfl
    | storeSlot f r rs j =>
      obtain ⟨hsteady, hcells, hslot⟩ := hlocal.holder rfl
      obtain rfl : rs = cs := Option.some.inj (hcells.symm.trans hcs)
      have htab := (hsteady.table hcs).1
      have hj := (List.getElem?_eq_some_iff.mp hslot).1
      simp only [Striped64.next, writeSlot_eq htab hj] at h
      obtain ⟨rfl, rfl⟩ := Prod.mk.inj (Except.ok.inj h)
      refine ⟨hcs, fun entries hentries => ?_⟩
      obtain rfl : slots = entries := Option.some.inj (htab.symm.trans hentries)
      refine ⟨_, List.getElem?_set_self (List.getElem?_eq_some_iff.mp htab).1, List.length_set, ?_⟩
      intro j' c hc
      -- the slot that is written was empty
      have hne : j ≠ j' := by
        rintro rfl
        rw [hslot] at hc
        cases hc
      rw [List.getElem?_set_ne hne, hc]
    | storeInitLength f => exact absurd (hlocal.holder rfl).2 hnone
    | storeInitSlot f rs => exact absurd (hlocal.holder rfl).1 hnone
    | storeInitCells f rs c =>
      obtain ⟨entries, hcreate, -⟩ := hlocal.holder rfl
      exact absurd hcreate.1 hnone
    | storeTable f cs n => cases hexp
    | copyWrite f cs n i slot table => cases hcopy
    | storeLength f n => cases hcopy
    | _ => cases hw

end table

section shown

variable {T : Type} [AddCommGroup T] {m m' : Striped64 T} {σ : AdderState T} {slots : List (Option ℕ)}

def shown (m : Striped64 T) : Option ℕ → T
  | none => 0
  | some c => m.values.getD c 0

theorem shown_some {c : ℕ} {v : T} (hv : m.values[c]? = some v) : shown m (some c) = v := by
  rw [shown, List.getD_eq_getElem?_getD, hv, Option.getD_some]

theorem sum_shown (m : Striped64 T) (slots : List (Option ℕ)) :
    (slots.map (shown m)).sum = cellSum m slots := by
  induction slots with
  | nil => rfl
  | cons slot slots ih =>
    cases slot with
    | none =>
      rw [List.map_cons, List.sum_cons, ih]
      exact zero_add _
    | some c =>
      rw [List.map_cons, List.sum_cons, ih]
      rfl

/-- What has been added is in the base and in the attached cells. -/
theorem AdderInv.settled_eq (h : AdderInv σ slots) :
    σ.settled = σ.memory.base + (slots.map (shown σ.memory)).sum := by
  rw [AdderState.settled, ← h.sum, sum_shown, add_sub_cancel_right]

theorem AdderInv.visible (h : AdderInv σ slots) (hcopy : ∀ t ∈ σ.threads, t.pc.copying = false) :
    (σ.memory.cells = none → slots = []) ∧
      ∀ cs, σ.memory.cells = some cs → σ.memory.tables[cs]? = some slots ∧
        σ.memory.nCells = slots.length := by
  have hsteady : Steady σ.memory slots → (σ.memory.cells = none → slots = []) ∧
      ∀ cs, σ.memory.cells = some cs → σ.memory.tables[cs]? = some slots ∧
        σ.memory.nCells = slots.length := by
    intro hs
    refine ⟨fun hnone => (hs.empty hnone).2, fun cs hcs => ?_⟩
    obtain ⟨htab, hn, -⟩ := hs.table hcs
    exact ⟨htab, hn⟩
  have hcreating : ∀ {entries : List (Option ℕ)} {rs : ℕ}, Creating σ.memory slots entries rs →
      (σ.memory.cells = none → slots = []) ∧
      ∀ cs, σ.memory.cells = some cs → σ.memory.tables[cs]? = some slots ∧
        σ.memory.nCells = slots.length := by
    rintro entries rs ⟨hcells, -, hslots, -⟩
    refine ⟨fun _ => hslots, fun cs hcs => ?_⟩
    rw [hcells] at hcs
    cases hcs
  cases hbusy : σ.memory.cellsBusy with
  | false => exact hsteady (h.steady hbusy)
  | true =>
    obtain ⟨i, t, hi, hh⟩ := h.lock.mp hbusy
    have hmem := List.mem_of_getElem? hi
    have hok := (h.locals t hmem).holder hh
    have hquiet := hcopy t hmem
    obtain ⟨probe, pc⟩ := t
    cases pc with
    | reloadLength f r rs => exact hsteady hok.1
    | reloadSlot f r rs j => exact hsteady hok.1
    | storeSlot f r rs j => exact hsteady hok.1
    | storeTable f cs n => exact hsteady hok.1
    | storeInitLength f => exact hsteady hok.1
    | storeInitSlot f rs => exact hcreating hok
    | storeInitCells f rs c =>
      obtain ⟨entries, hcreate, -⟩ := hok
      exact hcreating hcreate
    | copyRead f cs n i => cases hquiet
    | copyReload f cs n i slot => cases hquiet
    | copyWrite f cs n i slot table => cases hquiet
    | storeLength f n => cases hquiet
    | _ => exact hsteady hok

end shown

section bounds

variable {T : Type} [AddCommGroup T] [PartialOrder T] {m m' : Striped64 T} {before sum : T} {cs i : ℕ}
  {entries : List (Option ℕ)}

theorem shown_nonneg (hnonneg : ∀ v ∈ m.values, 0 ≤ v) (slot : Option ℕ) : 0 ≤ shown m slot := by
  cases slot with
  | none => exact le_rfl
  | some c =>
    rw [shown, List.getD_eq_getElem?_getD]
    cases hv : m.values[c]? with
    | none => exact le_rfl
    | some v => exact hnonneg v (List.mem_of_getElem? hv)

theorem Grows.shown_le (h : Grows m m') (hnonneg : ∀ v ∈ m'.values, 0 ≤ v) {c : ℕ} :
    shown m (some c) ≤ shown m' (some c) := by
  cases hv : m.values[c]? with
  | none =>
    have hzero : shown m (some c) = 0 := by
      rw [shown, List.getD_eq_getElem?_getD, hv, Option.getD_none]
    rw [hzero]
    exact shown_nonneg hnonneg (some c)
  | some v =>
    obtain ⟨v', hv', hle⟩ := h.value c v hv
    rw [shown_some hv, shown_some hv']
    exact hle

theorem Grows.forall₂_shown (h : Grows m m') (hnonneg : ∀ v ∈ m'.values, 0 ≤ v)
    {entries' : List (Option ℕ)} (hlen : entries'.length = entries.length)
    (hkeep : ∀ j c : ℕ, entries[j]? = some (some c) → entries'[j]? = some (some c)) :
    List.Forall₂ (· ≤ ·) (entries.map (shown m)) (entries'.map (shown m')) := by
  rw [List.forall₂_map_left_iff, List.forall₂_map_right_iff, List.forall₂_iff_get]
  refine ⟨hlen.symm, fun j hj hj' => ?_⟩
  cases hslot : entries.get ⟨j, hj⟩ with
  | none => exact shown_nonneg hnonneg _
  | some c =>
    have hj₁ : entries[j]? = some (some c) := List.getElem?_eq_some_iff.mpr ⟨hj, hslot⟩
    have hj₂ : entries'.get ⟨j, hj'⟩ = some c := (List.getElem?_eq_some_iff.mp (hkeep j c hj₁)).2
    rw [hj₂]
    exact h.shown_le hnonneg

/-- The reader has added `i` slots of the current table to `sum`: it has not counted more than
there is in them now, and what is missing is in the other slots. -/
structure Partway (m : Striped64 T) (before : T) (cs i : ℕ) (sum : T) (entries : List (Option ℕ)) :
    Prop where
  cells : m.cells = some cs
  table : m.tables[cs]? = some entries
  upper : sum ≤ m.base + ((entries.map (shown m)).take i).sum
  lower : before ≤ sum + ((entries.map (shown m)).drop i).sum

variable [IsOrderedAddMonoid T]

theorem Partway.grows (h : Partway m before cs i sum entries) (hg : Grows m m')
    (hnonneg : ∀ v ∈ m'.values, 0 ≤ v) (hk : KeepsTable cs m m') :
    ∃ entries' : List (Option ℕ), Partway m' before cs i sum entries' ∧
      entries'.length = entries.length ∧
      ∀ j c : ℕ, entries[j]? = some (some c) → entries'[j]? = some (some c) := by
  obtain ⟨entries', htab, hlen, hkeep⟩ := hk.table entries h.table
  have hle := hg.forall₂_shown hnonneg hlen hkeep
  refine ⟨entries', ⟨hk.cells, htab, ?_, ?_⟩, hlen, hkeep⟩
  · exact h.upper.trans (add_le_add hg.base (List.forall₂_take i hle).sum_le_sum)
  · exact h.lower.trans (add_le_add le_rfl (List.forall₂_drop i hle).sum_le_sum)

theorem Partway.next (h : Partway m before cs i sum entries) {slot : Option ℕ} {v : T}
    (hslot : entries[i]? = some slot) (hv : shown m slot = v) :
    Partway m before cs (i + 1) (sum + v) entries := by
  have hi : (entries.map (shown m))[i]? = some v := by
    rw [List.getElem?_map, hslot, Option.map_some, hv]
  obtain ⟨hlt, hget⟩ := List.getElem?_eq_some_iff.mp hi
  refine ⟨h.cells, h.table, ?_, ?_⟩
  · calc sum + v ≤ m.base + ((entries.map (shown m)).take i).sum + v := add_le_add h.upper le_rfl
      _ = m.base + ((entries.map (shown m)).take (i + 1)).sum := by
        rw [List.sum_take_succ _ _ hlt, hget, add_assoc]
  · calc before ≤ sum + ((entries.map (shown m)).drop i).sum := h.lower
      _ = sum + v + ((entries.map (shown m)).drop (i + 1)).sum := by
        rw [List.drop_eq_getElem_cons hlt, List.sum_cons, hget, add_assoc]

/-- Before the first slot, what is in the base now can be taken for the sum. -/
theorem Partway.start (h : Partway m before cs 0 sum entries) : Partway m before cs 0 m.base entries := by
  have hupper := h.upper
  rw [List.take_zero, List.sum_nil, add_zero] at hupper
  refine ⟨h.cells, h.table, ?_, h.lower.trans (add_le_add hupper le_rfl)⟩
  rw [List.take_zero, List.sum_nil, add_zero]

theorem Partway.le_total (h : Partway m before cs i sum entries) (hnonneg : ∀ v ∈ m.values, 0 ≤ v) :
    sum ≤ m.base + (entries.map (shown m)).sum := by
  have hrest : 0 ≤ ((entries.map (shown m)).drop i).sum := by
    refine List.sum_nonneg fun x hx => ?_
    obtain ⟨slot, -, rfl⟩ := List.mem_map.mp (List.mem_of_mem_drop hx)
    exact shown_nonneg hnonneg slot
  rw [← List.sum_take_add_sum_drop (entries.map (shown m)) i, ← add_assoc]
  exact h.upper.trans (le_add_of_nonneg_right hrest)

def SumPc.Bounds (m : Striped64 T) (before : T) : SumPc T → Prop
  | .loadCells => True
  | .loadBase none => before ≤ m.base
  | .loadBase (some cs) => ∃ entries, Partway m before cs 0 m.base entries
  | .loadLength cs i sum => ∃ entries, Partway m before cs i sum entries
  | .loadSlot cs i sum => ∃ entries, Partway m before cs i sum entries ∧ i < entries.length
  | .printValue cs i c sum =>
    ∃ entries, Partway m before cs i sum entries ∧ entries[i]? = some (some c)
  | .loadValue cs i c sum =>
    ∃ entries, Partway m before cs i sum entries ∧ entries[i]? = some (some c)

theorem SumPc.Bounds.grows {pc : SumPc T} (h : pc.Bounds m before) (hg : Grows m m')
    (hnonneg : ∀ v ∈ m'.values, 0 ≤ v) (hk : ∀ cs, m.cells = some cs → KeepsTable cs m m') :
    pc.Bounds m' before := by
  cases pc with
  | loadCells => trivial
  | loadBase cs =>
    cases cs with
    | none => exact le_trans h hg.base
    | some cs =>
      obtain ⟨entries, hpart⟩ := h
      obtain ⟨entries', hpart', -⟩ := hpart.grows hg hnonneg (hk cs hpart.cells)
      exact ⟨entries', hpart'.start⟩
  | loadLength cs i sum =>
    obtain ⟨entries, hpart⟩ := h
    obtain ⟨entries', hpart', -⟩ := hpart.grows hg hnonneg (hk cs hpart.cells)
    exact ⟨entries', hpart'⟩
  | loadSlot cs i sum =>
    obtain ⟨entries, hpart, hi⟩ := h
    obtain ⟨entries', hpart', hlen, -⟩ := hpart.grows hg hnonneg (hk cs hpart.cells)
    exact ⟨entries', hpart', hlen ▸ hi⟩
  | printValue cs i c sum =>
    obtain ⟨entries, hpart, hslot⟩ := h
    obtain ⟨entries', hpart', -, hkeep⟩ := hpart.grows hg hnonneg (hk cs hpart.cells)
    exact ⟨entries', hpart', hkeep i c hslot⟩
  | loadValue cs i c sum =>
    obtain ⟨entries, hpart, hslot⟩ := h
    obtain ⟨entries', hpart', -, hkeep⟩ := hpart.grows hg hnonneg (hk cs hpart.cells)
    exact ⟨entries', hpart', hkeep i c hslot⟩

end bounds

/-! ## The reader -/

section reader

variable {T : Type} [AddCommGroup T] [PartialOrder T] {σ : AdderState T} {slots : List (Option ℕ)}
  {before : T}

def Answers (σ : AdderState T) (before : T) : SumPc T ⊕ T → Prop
  | .inl pc => pc.begun = true ∧ pc.Bounds σ.memory before
  | .inr sum => before ≤ sum ∧ sum ≤ σ.settled

theorem AdderInv.bounds_begin (h : AdderInv σ slots)
    (hquiet : ∀ t ∈ σ.threads, t.pc.copying = false) :
    (SumPc.loadBase σ.memory.cells).Bounds σ.memory σ.settled := by
  obtain ⟨hnone, hsome⟩ := h.visible hquiet
  cases hcells : σ.memory.cells with
  | none =>
    rw [SumPc.Bounds, h.settled_eq, hnone hcells, List.map_nil, List.sum_nil, add_zero]
  | some cs =>
    refine ⟨slots, hcells, (hsome cs hcells).1, ?_, ?_⟩
    · rw [List.take_zero, List.sum_nil, add_zero]
    · rw [List.drop_zero, h.settled_eq]

variable [IsOrderedAddMonoid T]

theorem AdderInv.base_le_settled (h : AdderInv σ slots) (hnonneg : ∀ v ∈ σ.memory.values, 0 ≤ v) :
    σ.memory.base ≤ σ.settled := by
  rw [h.settled_eq]
  refine le_add_of_nonneg_right (List.sum_nonneg fun x hx => ?_)
  obtain ⟨slot, -, rfl⟩ := List.mem_map.mp hx
  exact shown_nonneg hnonneg slot

theorem AdderInv.answers (h : AdderInv σ slots) (hnonneg : ∀ v ∈ σ.memory.values, 0 ≤ v)
    (hquiet : ∀ t ∈ σ.threads, t.pc.copying = false) {pc : SumPc T} (hbegun : pc.begun = true)
    (hb : pc.Bounds σ.memory before) :
    ∃ r, pc.next σ.memory = .ok r ∧ Answers σ before r := by
  have htable : ∀ {cs i : ℕ} {sum : T} {entries : List (Option ℕ)},
      Partway σ.memory before cs i sum entries → slots = entries ∧ σ.memory.nCells = entries.length := by
    intro cs i sum entries hpart
    obtain ⟨htab, hn⟩ := (h.visible hquiet).2 cs hpart.cells
    obtain rfl : slots = entries := Option.some.inj (htab.symm.trans hpart.table)
    exact ⟨rfl, hn⟩
  have hvalue : ∀ {cs i c : ℕ} {sum : T} {entries : List (Option ℕ)},
      Partway σ.memory before cs i sum entries → entries[i]? = some (some c) →
        ∃ v, fetch σ.memory.values c = .ok v ∧ σ.memory.values[c]? = some v := by
    intro cs i c sum entries hpart hslot
    have hsome : σ.memory.cells.isSome = true := by
      rw [hpart.cells]
      rfl
    exact h.sound.fetch_value (h.sound.attached_of_slot hsome hpart.table hslot)
  cases pc with
  | loadCells => cases hbegun
  | loadBase cs =>
    cases cs with
    | none => exact ⟨_, rfl, hb, h.base_le_settled hnonneg⟩
    | some cs => exact ⟨_, rfl, rfl, hb⟩
  | loadLength cs i sum =>
    obtain ⟨entries, hpart⟩ := hb
    obtain ⟨rfl, hn⟩ := htable hpart
    refine ⟨_, rfl, ?_⟩
    split_ifs with hi
    · exact ⟨rfl, slots, hpart, hn ▸ hi⟩
    · refine ⟨?_, h.settled_eq ▸ hpart.le_total hnonneg⟩
      have hlower := hpart.lower
      rw [List.drop_of_length_le, List.sum_nil, add_zero] at hlower
      · exact hlower
      · rw [List.length_map]
        omega
  | loadSlot cs i sum =>
    obtain ⟨entries, hpart, hi⟩ := hb
    have hslot := List.getElem?_eq_getElem hi
    simp only [SumPc.next, readSlot_eq hpart.table hslot, bind, Except.bind]
    cases hcell : entries[i] with
    | none =>
      rw [hcell] at hslot
      have hnext := hpart.next hslot rfl
      rw [shown, add_zero] at hnext
      exact ⟨_, rfl, rfl, entries, hnext⟩
    | some c =>
      rw [hcell] at hslot
      exact ⟨_, rfl, rfl, entries, hpart, hslot⟩
  | printValue cs i c sum =>
    obtain ⟨entries, hpart, hslot⟩ := hb
    obtain ⟨v, hfetch, -⟩ := hvalue hpart hslot
    simp only [SumPc.next, hfetch, bind, Except.bind]
    exact ⟨_, rfl, rfl, entries, hpart, hslot⟩
  | loadValue cs i c sum =>
    obtain ⟨entries, hpart, hslot⟩ := hb
    obtain ⟨v, hfetch, hv⟩ := hvalue hpart hslot
    simp only [SumPc.next, hfetch, bind, Except.bind]
    exact ⟨_, rfl, rfl, entries, hpart.next hslot (shown_some hv)⟩

end reader

section access

variable {T : Type} [AddCommGroup T]

theorem localinit_pc (seed : ℕ) (t : Adder T) :
    (AdderState.localinit seed t).pc.pending = t.pc.pending ∧
      (AdderState.localinit seed t).pc.copying = t.pc.copying ∧
      (AdderState.localinit seed t).pc.expands = t.pc.expands := by
  obtain ⟨probe, pc⟩ := t
  cases pc with
  | enter x wasUncontended index =>
    simp only [AdderState.localinit]
    split
    · exact ⟨rfl, rfl, rfl⟩
    · exact ⟨rfl, rfl, rfl⟩
  | _ => exact ⟨rfl, rfl, rfl⟩

variable [DecidableEq T] {slots : List (Option ℕ)} {ncpu : ℕ}

theorem AdderInv.step_cases {τ τ' : AdderState T} (h : AdderInv τ slots) {i : ℕ} {spurious : Bool}
    {seed : ℕ} (hrun : τ.run ncpu (.step i spurious seed) = some (.ok τ')) :
    ∃ t m' pc', τ.threads[i]? = some t ∧ Local τ.memory slots (AdderState.localinit seed t).pc ∧
      τ.memory.next ncpu (AdderState.localinit seed t).probe spurious
        (AdderState.localinit seed t).pc = .ok (m', pc') ∧
      τ' = { τ with
        memory := m'
        threads := τ.threads.set i ⟨(AdderState.localinit seed t).probe, pc'⟩ } := by
  obtain ⟨t, hi, hstep⟩ := Option.map_eq_some_iff.mp hrun
  obtain ⟨⟨m', pc'⟩, hnext, hok⟩ := bind_eq_ok.mp hstep
  have hlen : i < τ.threads.length := (List.getElem?_eq_some_iff.mp hi).1
  refine ⟨t, m', pc', hi, ?_, hnext, (Except.ok.inj hok).symm⟩
  exact (h.localinit hi seed).locals _ (List.mem_of_getElem? (List.getElem?_set_self hlen))

end access

section runs

variable {T : Type} [AddCommGroup T] [PartialOrder T] {σ σ' : SumState T} {ncpu : ℕ}

structure SumInv (σ : SumState T) : Prop where
  inv : ∃ slots, AdderInv σ.adder slots
  nonneg : ∀ v ∈ σ.adder.memory.values, 0 ≤ v
  pending : ∀ t ∈ σ.adder.threads, 0 ≤ t.pc.pending
  quiet : σ.pc.begun = true → ∀ t ∈ σ.adder.threads, t.pc.copying = false
  bounds : σ.pc.Bounds σ.adder.memory σ.before

variable [DecidableEq T] in
theorem SumInv.init (h : (sumMachine T ncpu).init σ) : SumInv σ := by
  obtain ⟨⟨n, hadder⟩, hpc⟩ := h
  refine ⟨⟨[], hadder ▸ AdderInv.init n⟩, ?_, ?_, ?_, ?_⟩
  · rw [hadder]
    simp
  · rw [hadder]
    intro t ht
    rw [List.eq_of_mem_replicate ht]
    exact le_rfl
  · rw [hpc]
    intro hbegun
    cases hbegun
  · rw [hpc]
    trivial

theorem SumInv.add (h : SumInv σ) {i : ℕ} {x : T} {probe : BitVec 32} (hx : 0 ≤ x)
    (hi : σ.adder.threads[i]? = some ⟨probe, .idle⟩) :
    SumInv { σ with adder := { σ.adder with
      threads := σ.adder.threads.set i ⟨probe, .addLoadCells x⟩
      added := σ.adder.added + x } } := by
  obtain ⟨slots, hinv⟩ := h.inv
  refine ⟨⟨slots, hinv.add hi⟩, h.nonneg, fun t ht => ?_, fun hbegun t ht => ?_, h.bounds⟩
  · rcases List.mem_or_eq_of_mem_set ht with hold | rfl
    · exact h.pending t hold
    · exact hx
  · rcases List.mem_or_eq_of_mem_set ht with hold | rfl
    · exact h.quiet hbegun t hold
    · rfl

variable [IsOrderedAddMonoid T]

/-- An access of the reader finds what it reads, and when it is the last one the sum is between what
had been added at the first and what has been added now. -/
theorem SumInv.read (h : SumInv σ) (hg : Undisturbed σ .read) :
    ∃ r, σ.read = .ok r ∧ (∀ σ', r = .inl σ' → SumInv σ') ∧
      ∀ sum, r = .inr sum → σ.before ≤ sum ∧ sum ≤ σ.adder.settled := by
  obtain ⟨slots, hinv⟩ := h.inv
  cases hbegun : σ.pc.begun with
  | false =>
    have hquiet : ∀ t ∈ σ.adder.threads, t.pc.copying = false := by
      intro t ht
      have hall := List.all_eq_true.mp (hg hbegun) t ht
      rwa [Bool.not_eq_true'] at hall
    refine ⟨.inl { σ with pc := .loadBase σ.adder.memory.cells, before := σ.adder.settled }, ?_, ?_, ?_⟩
    · rw [SumState.read, SumPc.eq_loadCells hbegun]
      rfl
    · intro σ' hσ'
      obtain rfl := Sum.inl.inj hσ'
      exact ⟨⟨slots, hinv⟩, h.nonneg, h.pending, fun _ => hquiet, hinv.bounds_begin hquiet⟩
    · intro sum hsum
      cases hsum
  | true =>
    obtain ⟨r, hnext, hanswers⟩ := hinv.answers h.nonneg (h.quiet hbegun) hbegun h.bounds
    cases r with
    | inl pc =>
      refine ⟨.inl { σ with pc := pc, before := σ.before }, ?_, ?_, ?_⟩
      · simp only [SumState.read, hnext, hbegun, bind, Except.bind, if_true]
        rfl
      · intro σ' hσ'
        obtain rfl := Sum.inl.inj hσ'
        exact ⟨⟨slots, hinv⟩, h.nonneg, h.pending, fun _ => h.quiet hbegun, hanswers.2⟩
      · intro sum hsum
        cases hsum
    | inr sum =>
      refine ⟨.inr sum, ?_, ?_, ?_⟩
      · simp only [SumState.read, hnext, bind, Except.bind]
        rfl
      · intro σ' hσ'
        cases hσ'
      · intro sum' hsum
        obtain rfl := Sum.inr.inj hsum
        exact hanswers

variable [DecidableEq T]

theorem SumInv.adder_step (h : SumInv σ) {i : ℕ} {spurious : Bool} {seed : ℕ}
    (hg : Undisturbed σ (.adder (.step i spurious seed))) {adder : AdderState T}
    (hrun : σ.adder.run ncpu (.step i spurious seed) = some (.ok adder)) :
    SumInv { σ with adder := adder } := by
  obtain ⟨slots, hinv⟩ := h.inv
  obtain ⟨hcoherent, hexpands⟩ := hg
  obtain ⟨t, m', pc', hi, hlocal, hnext, rfl⟩ := hinv.step_cases hrun
  have hmem := List.mem_of_getElem? hi
  obtain ⟨hpending, hcopying, hexp⟩ := localinit_pc seed t
  obtain ⟨hgrows, hpending', hcopy'⟩ := next_grows (hpending ▸ h.pending t hmem) hnext
  have hnonneg := hgrows.nonneg h.nonneg
  obtain ⟨_, slots', hok, hinv'⟩ := hinv.run hcoherent hrun
  have hinv'' : AdderInv _ slots' := Except.ok.inj hok ▸ hinv'
  -- while the reader runs, this thread neither begins an expansion nor is in one
  have hthread : σ.pc.begun = true → (AdderState.localinit seed t).pc.copying = false ∧
      (AdderState.localinit seed t).pc.expands = false := by
    intro hbegun
    have hall := hexpands hbegun
    rw [hi, Option.all_some, Bool.not_eq_true'] at hall
    exact ⟨hcopying.trans (h.quiet hbegun t hmem), hexp.trans hall⟩
  refine ⟨⟨slots', hinv''⟩, hnonneg, fun u hu => ?_, fun hbegun u hu => ?_, ?_⟩
  · rcases List.mem_or_eq_of_mem_set hu with hold | rfl
    · exact h.pending u hold
    · exact hpending'
  · rcases List.mem_or_eq_of_mem_set hu with hold | rfl
    · exact h.quiet hbegun u hold
    · exact hcopy' (hthread hbegun).1 (hthread hbegun).2
  · cases hbegun : σ.pc.begun with
    | false =>
      rw [SumPc.eq_loadCells hbegun]
      trivial
    | true =>
      obtain ⟨hcopy, hexp⟩ := hthread hbegun
      exact h.bounds.grows hgrows hnonneg fun cs hcs => next_keepsTable hcs hlocal hcopy hexp hnext

theorem SumInv.run (h : SumInv σ) {a : SumAction T} (hg : Undisturbed σ a)
    (hrun : σ.run ncpu a = some σ') : SumInv σ' := by
  cases a with
  | adder a =>
    obtain ⟨adder, hadder, rfl⟩ := Option.map_eq_some_iff.mp hrun
    obtain ⟨r, hr, hok⟩ := Option.bind_eq_some_iff.mp hadder
    obtain rfl := toOption_eq_some.mp hok
    cases a with
    | add i x =>
      simp only [AdderState.run] at hr
      split at hr
      · rename_i probe hi
        obtain rfl := Except.ok.inj (Option.some.inj hr)
        exact h.add hg hi
      · cases hr
    | step i spurious seed => exact h.adder_step hg hr
  | read =>
    obtain ⟨r, hread, hkeeps, -⟩ := h.read hg
    simp only [SumState.run, hread] at hrun
    cases r with
    | inl τ =>
      obtain rfl : τ = σ' := Option.some.inj hrun
      exact hkeeps τ rfl
    | inr sum => cases hrun

theorem SumInv.reach (h : System.Reach (sumMachine T ncpu) Undisturbed σ) : SumInv σ :=
  h.invariant (fun _ => SumInv.init) fun _ _ _ hinv hg hrun => hinv.run hg hrun

end runs

def freshSum (threads : ℕ) : SumState ℤ :=
  ⟨⟨⟨0, false, none, 0, [], []⟩, List.replicate threads ⟨0, .idle⟩, 0⟩, .loadCells, 0⟩

def stepsOf (count thread : ℕ) (spurious : Bool) (seed : ℕ) : List (SumAction ℤ) :=
  List.replicate count (.adder (.step thread spurious seed))

/-- 1 and 2 are in the two slots; after the reader has added the first of them, 4 is added to the
second and 8 to the first. -/
def overlappingSchedule : List (SumAction ℤ) :=
  .adder (.add 0 1) :: stepsOf 13 0 true 0 ++ .adder (.add 1 2) :: stepsOf 16 1 true 1 ++
    List.replicate 6 .read ++ .adder (.add 0 4) :: stepsOf 6 0 false 0 ++
    .adder (.add 1 8) :: stepsOf 6 1 false 1 ++ List.replicate 4 .read

/-- The reader has the table of two slots when it is expanded to four. -/
def expandedSchedule : List (SumAction ℤ) :=
  .adder (.add 0 1) :: stepsOf 13 0 true 0 ++ .adder (.add 1 2) :: stepsOf 16 1 true 1 ++ .read ::
    .adder (.add 0 8) :: stepsOf 35 0 true 0 ++ stepsOf 5 0 false 0 ++ List.replicate 10 .read

/-- With an expansion between its reads, `sum` reads the third slot of a table of two. -/
theorem sum_leaves_table_after_expansion :
    ∃ σ : SumState ℤ, System.Reach (sumMachine ℤ 4) System.Free σ ∧ σ.read = .error .range := by
  obtain ⟨σ, -, hreach, hp⟩ := System.exists_reach (M := sumMachine ℤ 4) (G := System.Free)
    expandedSchedule (fun σ => σ.pc = .loadSlot 0 2 11 ∧
      σ.adder.memory.readSlot 0 2 = .error .range) (s := freshSum 2) ⟨⟨2, rfl⟩, rfl⟩
    (by decide +kernel)
  obtain ⟨hpc, hslot⟩ := of_decide_eq_true hp
  refine ⟨σ, hreach, ?_⟩
  simp [SumState.read, hpc, SumPc.next, hslot, bind, Except.bind]

end Mutty.Thread
