import Mutty.Thread.AdderInvariant

/-!
# No update is lost

Every access that a thread makes keeps the invariant of the adder and finds what it accesses, as
long as the pointer and the length that `longAccumulate` has read belong together. When all calls
have returned, the base and the cells of the current table then hold all that was added. Without
that condition an expansion with an old length drops the slots it does not know of.
-/

namespace Mutty.Thread

open Mutty.Lib

variable {T : Type}

theorem Local.loadCells (m : Striped64 T) (slots : List (Option ℕ)) (f : Frame T) :
    Local m slots (.loadCells f) := by
  constructor <;> simp

theorem slotOf_lt {n : ℕ} (index : BitVec 32) (hn : 0 < n) : Striped64.slotOf n index < n := by
  have hle : (BitVec.ofNat 32 (n - 1) &&& index).toNat ≤ (BitVec.ofNat 32 (n - 1)).toNat := by
    rw [BitVec.toNat_and]
    exact Nat.and_le_left
  have hmod : (BitVec.ofNat 32 (n - 1)).toNat ≤ n - 1 := by
    rw [BitVec.toNat_ofNat]
    exact Nat.mod_le _ _
  have := hle.trans hmod
  rw [Striped64.slotOf]
  omega

theorem readSlot_eq {m : Striped64 T} {table j : ℕ} {entries : List (Option ℕ)} {slot : Option ℕ}
    (htab : m.tables[table]? = some entries) (hslot : entries[j]? = some slot) :
    m.readSlot table j = .ok slot := by
  rw [Striped64.readSlot, bind_eq_ok]
  exact ⟨entries, fetch_eq_ok.mpr htab, fetch_eq_ok.mpr hslot⟩

theorem readSlot_of_lt {m : Striped64 T} {table j : ℕ} (hj : j < tableLength m (some table)) :
    ∃ entries slot, m.readSlot table j = .ok slot ∧ m.tables[table]? = some entries ∧
      entries[j]? = some slot := by
  rw [tableLength, List.getD_eq_getElem?_getD] at hj
  cases htab : m.tables[table]? with
  | none => simp [htab] at hj
  | some entries =>
    rw [htab, Option.getD_some] at hj
    have hslot := List.getElem?_eq_getElem hj
    exact ⟨entries, entries[j], readSlot_eq htab hslot, rfl, hslot⟩

theorem Sound.attached_of_slot {m : Striped64 T} {slots : List (Option ℕ)} (h : Sound m slots)
    (hsome : m.cells.isSome = true) {table j c : ℕ} {entries : List (Option ℕ)}
    (htab : m.tables[table]? = some entries) (hslot : entries[j]? = some (some c)) :
    c ∈ attached slots :=
  h.contents hsome entries (List.mem_of_getElem? htab) c
    (mem_attached.mpr (List.mem_of_getElem? hslot))

theorem Sound.fetch_value {m : Striped64 T} {slots : List (Option ℕ)} (h : Sound m slots) {c : ℕ}
    (hc : c ∈ attached slots) : ∃ v, fetch m.values c = .ok v ∧ m.values[c]? = some v := by
  have hv := List.getElem?_eq_getElem (h.lt c hc)
  exact ⟨_, fetch_eq_ok.mpr hv, hv⟩

theorem Steady.table {m : Striped64 T} {slots : List (Option ℕ)} {cs : ℕ} (h : Steady m slots)
    (hcells : m.cells = some cs) : m.tables[cs]? = some slots ∧ m.nCells = slots.length ∧
      0 < slots.length := by
  rcases h with ⟨hnone, -⟩ | ⟨t, ht, htab, hn, hpos⟩
  · rw [hnone] at hcells
    cases hcells
  · obtain rfl : t = cs := Option.some.inj (ht.symm.trans hcells)
    exact ⟨htab, hn, hpos⟩

theorem Steady.empty {m : Striped64 T} {slots : List (Option ℕ)} (h : Steady m slots)
    (hcells : m.cells = none) : m.tables = [] ∧ slots = [] := by
  rcases h with ⟨-, -, htables, hslots⟩ | ⟨t, ht, -⟩
  · exact ⟨htables, hslots⟩
  · rw [ht] at hcells
    cases hcells

theorem writeSlot_eq {m : Striped64 T} {table j : ℕ} {entries : List (Option ℕ)}
    (htab : m.tables[table]? = some entries) (hj : j < entries.length) (slot : Option ℕ) :
    m.writeSlot table j slot
      = .ok { m with tables := m.tables.set table (entries.set j slot) } := by
  have hfetch : fetch entries j = .ok entries[j] := by
    rw [fetch_eq_ok]
    exact List.getElem?_eq_getElem hj
  simp only [Striped64.writeSlot, fetch_eq_ok.mpr htab, hfetch, bind, Except.bind]
  rfl

theorem eq_of_casWeak [Add T] [DecidableEq T] {a b : T} {spurious : Bool}
    (h : Striped64.casWeak a b spurious = true) : a = b := by
  simp only [Striped64.casWeak, Bool.and_eq_true, decide_eq_true_eq] at h
  exact h.1

section idle

variable [AddCommGroup T] {σ : AdderState T} {slots : List (Option ℕ)} {i : ℕ} {t : Adder T}
  {probe : BitVec 32}

theorem AdderInv.init (n : ℕ) :
    AdderInv (T := T) ⟨⟨0, false, none, 0, [], []⟩, List.replicate n ⟨0, .idle⟩, 0⟩ [] := by
  have hidle : ∀ {i : ℕ} {t : Adder T}, (List.replicate n (⟨0, .idle⟩ : Adder T))[i]? = some t →
      t = ⟨0, .idle⟩ := fun ht => List.eq_of_mem_replicate (List.mem_of_getElem? ht)
  constructor
  case sound => constructor <;> simp [attached]
  case locals =>
    intro t ht
    rw [List.eq_of_mem_replicate ht]
    exact Local.idle _ _
  case lock =>
    refine ⟨fun hbusy => (by cases hbusy), ?_⟩
    rintro ⟨i, t, ht, hh⟩
    rw [hidle ht] at hh
    cases hh
  case unique =>
    intro i j t u ht _ hh
    rw [hidle ht] at hh
    cases hh
  case steady => exact fun _ => Or.inl ⟨rfl, rfl, rfl, rfl⟩
  case distinct =>
    intro i j t u r x y ht _ hr
    rw [hidle ht] at hr
    cases hr
  case sum => simp [cellSum, attached]

theorem AdderInv.add (h : AdderInv σ slots) {x : T} (hi : σ.threads[i]? = some ⟨probe, .idle⟩) :
    AdderInv { σ with
      threads := σ.threads.set i ⟨probe, .addLoadCells x⟩, added := σ.added + x } slots := by
  have hlock : LockStep σ.memory.cellsBusy (Pc.idle (T := T)).holds σ.memory.cellsBusy
      (Pc.addLoadCells x).holds := Or.inl ⟨rfl, rfl⟩
  have howned : OwnedStep σ.memory .idle (.addLoadCells x) := Or.inl rfl
  constructor
  case sound => exact h.sound
  case locals =>
    intro u hu
    rcases List.mem_or_eq_of_mem_set hu with hold | rfl
    · exact h.locals u hold
    · constructor <;> simp
  case lock => exact h.lock_update hi hlock
  case unique => exact fun _ _ _ _ hu hv => h.unique_update hi hlock hu hv
  case steady => exact h.steady
  case distinct => exact fun _ _ _ _ _ _ _ hu hv => h.distinct_update hi howned hu hv
  case sum =>
    have hset := sum_map_set (x := (⟨probe, .addLoadCells x⟩ : Adder T))
      (w := fun t : Adder T => t.pc.pending) hi
    have hnew : ((σ.threads.set i ⟨probe, .addLoadCells x⟩).map fun t => t.pc.pending).sum
        = (σ.threads.map fun t => t.pc.pending).sum + x := (add_zero _).symm.trans hset
    calc σ.memory.base + cellSum σ.memory slots
          + ((σ.threads.set i ⟨probe, .addLoadCells x⟩).map fun t => t.pc.pending).sum
        = σ.memory.base + cellSum σ.memory slots + (σ.threads.map fun t => t.pc.pending).sum + x := by
          rw [hnew, add_assoc, add_assoc, add_assoc]
      _ = σ.added + x := by rw [h.sum]

theorem AdderInv.localinit (h : AdderInv σ slots) (hi : σ.threads[i]? = some t) (seed : ℕ) :
    AdderInv { σ with threads := σ.threads.set i (AdderState.localinit seed t) } slots := by
  obtain ⟨probe, pc⟩ := t
  have hlocal := h.locals _ (List.mem_of_getElem? hi)
  cases pc with
  | enter x w index =>
    simp only [AdderState.localinit]
    split
    · exact h.quiet hi (by constructor <;> simp) rfl (Or.inl rfl) rfl
    · exact h.quiet hi hlocal rfl (Or.inr rfl) rfl
  | _ => exact h.quiet hi hlocal rfl (Or.inr rfl) rfl

theorem AdderInv.sum_eq (h : AdderInv σ slots) (hidle : ∀ t ∈ σ.threads, t.pc = .idle) :
    σ.memory.sum = σ.added := by
  have hfree : σ.memory.cellsBusy = false := by
    by_contra hbusy
    rw [Bool.not_eq_false] at hbusy
    obtain ⟨i, t, ht, hh⟩ := h.lock.mp hbusy
    rw [hidle t (List.mem_of_getElem? ht)] at hh
    cases hh
  have hpending : (σ.threads.map fun t => t.pc.pending).sum = 0 := by
    refine List.sum_eq_zero fun x hx => ?_
    obtain ⟨t, ht, rfl⟩ := List.mem_map.mp hx
    rw [hidle t ht]
    rfl
  have hsum := h.sum
  rw [hpending, add_zero] at hsum
  rw [← hsum, Striped64.sum]
  rcases h.steady hfree with ⟨hcells, -, -, rfl⟩ | ⟨cs, hcells, htab, hn, -⟩
  · simp [hcells, cellSum, attached]
  · simp only [hcells, List.getD_eq_getElem?_getD, htab, Option.getD_some, hn, List.take_length,
      cellSum, attached]

end idle

/-- The pointer and the length that `longAccumulate` has read belong together: a slot is read
inside its table, and an expansion starts with the current length. -/
def Pc.coherent (m : Striped64 T) : Pc T → Bool
  | .loadSlot f cs n => decide (Striped64.slotOf n f.index < tableLength m (some cs))
  | .storeTable _ _ n => decide (n = m.nCells)
  | _ => true

theorem coherent_localinit (m : Striped64 T) (seed : ℕ) (t : Adder T) :
    (AdderState.localinit seed t).pc.coherent m = t.pc.coherent m := by
  obtain ⟨probe, pc⟩ := t
  cases pc with
  | enter x w index =>
    simp only [AdderState.localinit]
    split <;> rfl
  | _ => rfl

/-! ## Every step -/

section steps

variable [AddCommGroup T] [DecidableEq T] {σ : AdderState T} {slots : List (Option ℕ)} {i : ℕ}
  {t : Adder T} {ncpu : ℕ} {spurious : Bool} {p : Pc T} {probe : BitVec 32}

def StepKeeps (ncpu : ℕ) (spurious : Bool) (σ : AdderState T) (i : ℕ) (t : Adder T) : Prop :=
  ∃ m' pc' slots', Striped64.next ncpu t.probe spurious σ.memory t.pc = .ok (m', pc') ∧
    AdderInv { σ with memory := m', threads := σ.threads.set i ⟨t.probe, pc'⟩ } slots'

theorem AdderInv.moves (h : AdderInv σ slots) (hi : σ.threads[i]? = some t)
    (hnext : Striped64.next ncpu t.probe spurious σ.memory t.pc = .ok (σ.memory, p))
    (hlocal : Local σ.memory slots p) (hholds : p.holds = t.pc.holds)
    (howned : p.owned = none ∨ p.owned = t.pc.owned) (hpending : p.pending = t.pc.pending) :
    StepKeeps ncpu spurious σ i t := by
  have hinv : AdderInv { σ with threads := σ.threads.set i ⟨t.probe, p⟩ } slots :=
    h.quiet hi hlocal hholds howned hpending
  exact ⟨_, _, slots, hnext, hinv⟩

theorem AdderInv.restarts (h : AdderInv σ slots) (hi : σ.threads[i]? = some t) {f : Frame T}
    (hnext : Striped64.next ncpu t.probe spurious σ.memory t.pc = .ok (σ.memory, .loadCells f))
    (hholds : t.pc.holds = false) (hpending : f.x = t.pc.pending) :
    StepKeeps ncpu spurious σ i t :=
  h.moves hi hnext (Local.loadCells _ _ _) hholds.symm (Or.inl rfl) hpending

theorem AdderInv.locks (h : AdderInv σ slots) (hi : σ.threads[i]? = some t)
    (hfree : σ.memory.cellsBusy = false)
    (hnext : Striped64.next ncpu t.probe spurious σ.memory t.pc =
      .ok ({ σ.memory with cellsBusy := true }, p))
    (hlocal : Local σ.memory slots p) (hholds : p.holds = true)
    (howned : p.owned = none ∨ p.owned = t.pc.owned) (hpending : p.pending = t.pc.pending) :
    StepKeeps ncpu spurious σ i t := by
  have hlock : LockStep σ.memory.cellsBusy t.pc.holds true p.holds := Or.inr ⟨hholds.symm, Or.inl hfree⟩
  exact ⟨_, _, slots, hnext, h.relock (b := true) hi hlocal hlock (fun hb => by cases hb) howned hpending⟩

theorem AdderInv.unlocks (h : AdderInv σ slots) (hi : σ.threads[i]? = some t) (hheld : t.pc.holds = true)
    (hnext : Striped64.next ncpu t.probe spurious σ.memory t.pc =
      .ok ({ σ.memory with cellsBusy := false }, p))
    (hlocal : Local σ.memory slots p) (hholds : p.holds = false) (hsteady : Steady σ.memory slots)
    (howned : p.owned = none) (hpending : p.pending = t.pc.pending) :
    StepKeeps ncpu spurious σ i t := by
  have hlock : LockStep σ.memory.cellsBusy t.pc.holds false p.holds := Or.inr ⟨hholds.symm, Or.inr hheld⟩
  exact ⟨_, _, slots, hnext,
    h.relock (b := false) hi hlocal hlock (fun _ => hsteady) (Or.inl howned) hpending⟩

theorem AdderInv.moves_add_base (h : AdderInv σ slots) {x b : T}
    (hi : σ.threads[i]? = some ⟨probe, .addCasBase x b⟩) :
    StepKeeps ncpu spurious σ i ⟨probe, .addCasBase x b⟩ := by
  by_cases hcas : Striped64.casWeak σ.memory.base b spurious
  · obtain rfl : σ.memory.base = b := eq_of_casWeak hcas
    exact ⟨_, _, slots, by simp only [Striped64.next, hcas, if_true]; rfl, h.addBase hi probe rfl⟩
  · refine h.moves hi (p := .enter x true probe) ?_ ?_ rfl (Or.inl rfl) rfl
    · simp only [Striped64.next, hcas]
      rfl
    · constructor <;> simp

theorem AdderInv.moves_base (h : AdderInv σ slots) {f : Frame T} {b : T}
    (hi : σ.threads[i]? = some ⟨probe, .casBase f b⟩) :
    StepKeeps ncpu spurious σ i ⟨probe, .casBase f b⟩ := by
  by_cases hcas : Striped64.casWeak σ.memory.base b spurious
  · obtain rfl : σ.memory.base = b := eq_of_casWeak hcas
    exact ⟨_, _, slots, by simp only [Striped64.next, hcas, if_true]; rfl, h.addBase hi probe rfl⟩
  · refine h.restarts hi (f := f) ?_ rfl rfl
    simp only [Striped64.next, hcas]
    rfl

theorem AdderInv.moves_add_cell (h : AdderInv σ slots) {x v : T} {c : ℕ}
    (hi : σ.threads[i]? = some ⟨probe, .addCasValue x c v⟩) :
    StepKeeps ncpu spurious σ i ⟨probe, .addCasValue x c v⟩ := by
  have hc := (h.locals _ (List.mem_of_getElem? hi)).seen c rfl
  obtain ⟨current, hfetch, hcurrent⟩ := h.sound.fetch_value hc
  by_cases hcas : Striped64.casWeak current v spurious
  · obtain rfl : current = v := eq_of_casWeak hcas
    refine ⟨_, _, slots, ?_, h.addCell hi probe rfl hc hcurrent⟩
    simp only [Striped64.next, hfetch, bind, Except.bind, hcas, if_true]
    rfl
  · refine h.moves hi (p := .enter x false probe) ?_ ?_ rfl (Or.inl rfl) rfl
    · simp only [Striped64.next, hfetch, bind, Except.bind, hcas]
      rfl
    · constructor <;> simp

theorem AdderInv.moves_cell (h : AdderInv σ slots) {f : Frame T} {v : T} {cs n c : ℕ}
    (hi : σ.threads[i]? = some ⟨probe, .casValue f cs n c v⟩) :
    StepKeeps ncpu spurious σ i ⟨probe, .casValue f cs n c v⟩ := by
  have hc := (h.locals _ (List.mem_of_getElem? hi)).seen c rfl
  obtain ⟨current, hfetch, hcurrent⟩ := h.sound.fetch_value hc
  by_cases hcas : Striped64.casWeak current v spurious
  · obtain rfl : current = v := eq_of_casWeak hcas
    refine ⟨_, _, slots, ?_, h.addCell hi probe rfl hc hcurrent⟩
    simp only [Striped64.next, hfetch, bind, Except.bind, hcas, if_true]
    rfl
  · by_cases hn : n ≥ ncpu
    · refine h.restarts hi (f := Striped64.rehash { f with collide := false }) ?_ rfl rfl
      simp only [Striped64.next, hfetch, bind, Except.bind, hcas, hn]
      rfl
    · refine h.moves hi (p := .testStale f cs n) ?_ ?_ rfl (Or.inl rfl) rfl
      · simp only [Striped64.next, hfetch, bind, Except.bind, hcas, hn]
        rfl
      · constructor <;> simp

/-- The places of `add` and of `longAccumulate` outside the lock. -/
theorem AdderInv.moves_free (h : AdderInv σ slots) {pc : Pc T}
    (hi : σ.threads[i]? = some ⟨probe, pc⟩) (hc : pc.coherent σ.memory = true) (hh : pc.holds = false) :
    StepKeeps ncpu spurious σ i ⟨probe, pc⟩ := by
  have hlocal := h.locals _ (List.mem_of_getElem? hi)
  cases pc with
  | idle => exact h.moves hi rfl (Local.idle _ _) rfl (Or.inl rfl) rfl
  | addLoadCells x =>
    by_cases hsome : σ.memory.cells.isSome = true
    · refine h.moves hi (p := .addLoadLength x) ?_ ?_ rfl (Or.inl rfl) rfl
      · simp only [Striped64.next, hsome, if_true]
      · constructor <;> simp [hsome]
    · refine h.moves hi (p := .addLoadBase x) ?_ ?_ rfl (Or.inl rfl) rfl
      · simp only [Striped64.next, hsome]
        rfl
      · constructor <;> simp
  | addLoadBase x => exact h.moves hi rfl (by constructor <;> simp) rfl (Or.inl rfl) rfl
  | addCasBase x b => exact h.moves_add_base hi
  | addLoadLength x =>
    have hsome := hlocal.table rfl
    obtain ⟨hpos, hle⟩ := h.sound.length hsome
    refine h.moves hi (p := .addReloadCells x σ.memory.nCells) ?_ ?_ rfl (Or.inl rfl) rfl
    · simp only [Striped64.next, hpos.ne', if_false]
    · constructor <;> simp [hsome, hpos, hle]
  | addReloadCells x n =>
    obtain ⟨table, htable⟩ := Option.isSome_iff_exists.mp (hlocal.table rfl)
    have hcov := hlocal.covered
    rw [Pc.Covered, htable] at hcov
    refine h.moves hi (p := .addLoadSlot x n table) ?_ ?_ rfl (Or.inl rfl) rfl
    · simp only [Striped64.next, htable]
    · constructor <;> simp [htable, hcov]
  | addLoadSlot x n table =>
    obtain ⟨hpos, hle⟩ := hlocal.covered
    obtain ⟨entries, slot, hread, htab, hslot⟩ :=
      readSlot_of_lt (m := σ.memory) ((slotOf_lt probe hpos).trans_le hle)
    cases slot with
    | none =>
      refine h.moves hi (p := .enter x true probe) ?_ ?_ rfl (Or.inl rfl) rfl
      · simp only [Striped64.next, hread, bind, Except.bind]
        rfl
      · constructor <;> simp
    | some c =>
      have hatt := h.sound.attached_of_slot (hlocal.table rfl) htab hslot
      refine h.moves hi (p := .addLoadValue x c) ?_ ?_ rfl (Or.inl rfl) rfl
      · simp only [Striped64.next, hread, bind, Except.bind]
        rfl
      · constructor <;> simp [hatt]
  | addLoadValue x c =>
    have hatt := hlocal.seen c rfl
    obtain ⟨v, hfetch, -⟩ := h.sound.fetch_value hatt
    refine h.moves hi (p := .addCasValue x c v) ?_ ?_ rfl (Or.inl rfl) rfl
    · simp only [Striped64.next, hfetch, bind, Except.bind]
      rfl
    · constructor <;> simp [hatt]
  | addCasValue x c v => exact h.moves_add_cell hi
  | enter x w index => exact h.restarts hi rfl rfl rfl
  | loadCells f =>
    cases hcells : σ.memory.cells with
    | none =>
      refine h.moves hi (p := .testInit f none) ?_ ?_ rfl (Or.inl rfl) rfl
      · simp only [Striped64.next, hcells]
      · constructor <;> simp
    | some cs =>
      refine h.moves hi (p := .loadLength f cs) ?_ ?_ rfl (Or.inl rfl) rfl
      · simp only [Striped64.next, hcells]
      · constructor <;> simp [hcells]
  | loadLength f cs =>
    have hsome := hlocal.table rfl
    have hpos : σ.memory.nCells > 0 := (h.sound.length hsome).1
    refine h.moves hi (p := .loadSlot f cs σ.memory.nCells) ?_ ?_ rfl (Or.inl rfl) rfl
    · simp only [Striped64.next, hpos, if_true]
    · constructor <;> simp [hsome]
  | loadSlot f cs n =>
    obtain ⟨entries, slot, hread, htab, hslot⟩ := readSlot_of_lt (of_decide_eq_true hc)
    have hnext : Striped64.next ncpu probe spurious σ.memory (.loadSlot f cs n)
        = .ok (σ.memory, Striped64.onSlot f cs n slot) := by
      simp only [Striped64.next, hread, bind, Except.bind]
      rfl
    cases slot with
    | none => exact h.moves hi hnext (by constructor <;> simp [Striped64.onSlot]) rfl (Or.inl rfl) rfl
    | some c =>
      have hatt := h.sound.attached_of_slot (hlocal.table rfl) htab hslot
      by_cases hw : f.wasUncontended
      · rw [Striped64.onSlot, if_pos hw] at hnext
        exact h.moves hi hnext (by constructor <;> simp [hatt]) rfl (Or.inl rfl) rfl
      · rw [Striped64.onSlot, if_neg hw] at hnext
        exact h.restarts hi hnext rfl rfl
  | testBusy f =>
    by_cases hbusy : σ.memory.cellsBusy = true
    · refine h.restarts hi (f := Striped64.rehash { f with collide := false }) ?_ rfl rfl
      simp only [Striped64.next, hbusy, if_true]
    · refine ⟨_, _, slots, ?_, h.newCell (f := f) hi probe rfl rfl⟩
      simp only [Striped64.next, hbusy, Striped64.newCell]
      rfl
  | retestBusy f r =>
    have howned := hlocal.owned r f.x rfl
    by_cases hbusy : σ.memory.cellsBusy = true
    · refine h.restarts hi (f := Striped64.rehash { f with collide := false }) ?_ rfl rfl
      simp only [Striped64.next, hbusy, if_true]
    · refine h.moves hi (p := .lockSlot f r) ?_ ?_ rfl (Or.inr rfl) rfl
      · simp only [Striped64.next, hbusy]
        rfl
      · constructor <;> simp [howned]
  | lockSlot f r =>
    have howned := hlocal.owned r f.x rfl
    by_cases hbusy : σ.memory.cellsBusy = true
    · refine h.restarts hi (f := Striped64.rehash { f with collide := false }) ?_ rfl rfl
      simp only [Striped64.next, hbusy, if_true]
    · rw [Bool.not_eq_true] at hbusy
      refine h.locks hi hbusy (p := .reloadCells f r) ?_ ?_ rfl (Or.inr rfl) rfl
      · simp only [Striped64.next, hbusy]
        rfl
      · constructor <;> simp [howned, h.steady hbusy]
  | loadValue f cs n c =>
    have hatt := hlocal.seen c rfl
    obtain ⟨v, hfetch, -⟩ := h.sound.fetch_value hatt
    refine h.moves hi (p := .casValue f cs n c v) ?_ ?_ rfl (Or.inl rfl) rfl
    · simp only [Striped64.next, hfetch, bind, Except.bind]
      rfl
    · constructor <;> simp [hatt]
  | casValue f cs n c v => exact h.moves_cell hi
  | testStale f cs n =>
    by_cases hcells : σ.memory.cells = some cs
    · by_cases hcol : f.collide = true
      · refine h.moves hi (p := .testExpand f cs n) ?_ ?_ rfl (Or.inl rfl) rfl
        · simp [Striped64.next, hcells, hcol]
        · constructor <;> simp
      · refine h.restarts hi (f := Striped64.rehash { f with collide := true }) ?_ rfl rfl
        simp [Striped64.next, hcells, hcol]
    · refine h.restarts hi (f := Striped64.rehash { f with collide := false }) ?_ rfl rfl
      simp [Striped64.next, hcells]
  | testExpand f cs n =>
    by_cases hbusy : σ.memory.cellsBusy = true
    · refine h.restarts hi (f := Striped64.rehash f) ?_ rfl rfl
      simp only [Striped64.next, hbusy, if_true]
    · refine h.moves hi (p := .lockExpand f cs n) ?_ ?_ rfl (Or.inl rfl) rfl
      · simp only [Striped64.next, hbusy]
        rfl
      · constructor <;> simp
  | lockExpand f cs n =>
    by_cases hbusy : σ.memory.cellsBusy = true
    · refine h.restarts hi (f := Striped64.rehash f) ?_ rfl rfl
      simp only [Striped64.next, hbusy, if_true]
    · rw [Bool.not_eq_true] at hbusy
      refine h.locks hi hbusy (p := .recheckCells f cs n) ?_ ?_ rfl (Or.inl rfl) rfl
      · simp only [Striped64.next, hbusy]
        rfl
      · constructor <;> simp [h.steady hbusy]
  | testInit f cs =>
    have hinit := hlocal.init cs rfl
    by_cases hbusy : σ.memory.cellsBusy = true
    · refine h.moves hi (p := .loadBase f) ?_ (by constructor <;> simp) rfl (Or.inl rfl) rfl
      simp only [Striped64.next, hbusy, if_true]
    · refine h.moves hi (p := .testInitCells f cs) ?_ (by constructor <;> simp [hinit]) rfl
        (Or.inl rfl) rfl
      simp only [Striped64.next, hbusy]
      rfl
  | testInitCells f cs =>
    have hinit := hlocal.init cs rfl
    by_cases hcells : σ.memory.cells = cs
    · refine h.moves hi (p := .lockInit f cs) ?_ (by constructor <;> simp [hinit]) rfl
        (Or.inl rfl) rfl
      simp only [Striped64.next, hcells, if_true]
    · refine h.moves hi (p := .loadBase f) ?_ (by constructor <;> simp) rfl (Or.inl rfl) rfl
      simp only [Striped64.next, hcells, if_false]
  | lockInit f cs =>
    have hinit := hlocal.init cs rfl
    by_cases hbusy : σ.memory.cellsBusy = true
    · refine h.moves hi (p := .loadBase f) ?_ (by constructor <;> simp) rfl (Or.inl rfl) rfl
      simp only [Striped64.next, hbusy, if_true]
    · rw [Bool.not_eq_true] at hbusy
      refine h.locks hi hbusy (p := .recheckInit f cs) ?_ ?_ rfl (Or.inl rfl) rfl
      · simp only [Striped64.next, hbusy]
        rfl
      · constructor <;> simp [h.steady hbusy, hinit]
  | loadBase f => exact h.moves hi rfl (by constructor <;> simp) rfl (Or.inl rfl) rfl
  | casBase f v => exact h.moves_base hi
  | _ => cases hh

/-- The places under the lock. -/
theorem AdderInv.moves_holder (h : AdderInv σ slots) {pc : Pc T}
    (hi : σ.threads[i]? = some ⟨probe, pc⟩) (hc : pc.coherent σ.memory = true) (hh : pc.holds = true) :
    StepKeeps ncpu spurious σ i ⟨probe, pc⟩ := by
  have hlocal := h.locals _ (List.mem_of_getElem? hi)
  have hok := hlocal.holder hh
  cases pc with
  | reloadCells f r =>
    have howned := hlocal.owned r f.x rfl
    cases hcells : σ.memory.cells with
    | none =>
      refine h.moves hi (p := .unlockSlot f false) ?_ ?_ rfl (Or.inl rfl) rfl
      · simp only [Striped64.next, hcells]
      · constructor <;> simp_all
    | some rs =>
      refine h.moves hi (p := .reloadLength f r rs) ?_ ?_ rfl (Or.inr rfl) rfl
      · simp only [Striped64.next, hcells]
      · constructor <;> simp_all
  | reloadLength f r rs =>
    have howned := hlocal.owned r f.x rfl
    obtain ⟨hsteady, hcells⟩ := hok
    obtain ⟨htab, hn, hpos⟩ := hsteady.table hcells
    have hpos' : σ.memory.nCells > 0 := hn ▸ hpos
    refine h.moves hi (p := .reloadSlot f r rs (Striped64.slotOf σ.memory.nCells f.index)) ?_ ?_
      rfl (Or.inr rfl) rfl
    · simp only [Striped64.next, hpos', if_true]
    · have hlt := slotOf_lt f.index hpos'
      refine ⟨by simp, by simp, by simp, by simp, ?_, fun _ => ⟨hsteady, hcells, hn ▸ hlt⟩⟩
      rintro _ _ ⟨⟩
      exact howned
  | reloadSlot f r rs j =>
    have howned := hlocal.owned r f.x rfl
    obtain ⟨hsteady, hcells, hj⟩ := hok
    obtain ⟨htab, -, -⟩ := hsteady.table hcells
    have hread := readSlot_eq htab (List.getElem?_eq_getElem hj)
    cases hslot : slots[j] with
    | none =>
      refine h.moves hi (p := .storeSlot f r rs j) ?_ ?_ rfl (Or.inr rfl) rfl
      · simp only [Striped64.next, hread, hslot, bind, Except.bind]
        rfl
      · refine ⟨by simp, by simp, by simp, by simp, ?_, fun _ => ⟨hsteady, hcells, ?_⟩⟩
        · rintro _ _ ⟨⟩
          exact howned
        · rw [List.getElem?_eq_getElem hj, hslot]
    | some c =>
      refine h.moves hi (p := .unlockSlot f false) ?_ ?_ rfl (Or.inl rfl) rfl
      · simp only [Striped64.next, hread, hslot, bind, Except.bind]
        rfl
      · exact ⟨by simp, by simp, by simp, by simp, by simp, fun _ => hsteady⟩
  | storeSlot f r rs j =>
    obtain ⟨hsteady, hcells, hj⟩ := hok
    obtain ⟨htab, hn, -⟩ := hsteady.table hcells
    refine ⟨_, _, _, ?_, h.storeSlot hi htab hcells hn hj⟩
    simp only [Striped64.next, writeSlot_eq htab (List.getElem?_eq_some_iff.mp hj).1, bind,
      Except.bind]
    rfl
  | unlockSlot f created =>
    cases created with
    | true => exact h.unlocks hi rfl rfl (Local.idle _ _) rfl hok rfl rfl
    | false => exact h.unlocks hi rfl rfl (Local.loadCells _ _ _) rfl hok rfl rfl
  | recheckCells f cs n =>
    by_cases hcells : σ.memory.cells = some cs
    · refine h.moves hi (p := .storeTable f cs n) ?_ ?_ rfl (Or.inl rfl) rfl
      · simp only [Striped64.next, hcells, if_true]
      · constructor <;> simp_all
    · refine h.moves hi (p := .unlockExpand f) ?_ ?_ rfl (Or.inl rfl) rfl
      · simp only [Striped64.next, hcells, if_false]
      · constructor <;> simp_all
  | storeTable f cs n =>
    obtain ⟨hsteady, hcells⟩ := hok
    obtain ⟨htab, hn, hpos⟩ := hsteady.table hcells
    exact ⟨_, _, _, rfl, h.storeTable hi htab hcells hn hpos (of_decide_eq_true hc)⟩
  | copyRead f cs n k =>
    obtain ⟨hcs, hn, -, -, hk, -⟩ := id hok
    by_cases hkn : k < n
    · have hlt : k < slots.length := hn ▸ hkn
      have hslot := List.getElem?_eq_getElem hlt
      refine h.moves hi (p := .copyReload f cs n k slots[k]) ?_ ?_ rfl (Or.inl rfl) rfl
      · simp only [Striped64.next, hkn, if_true, readSlot_eq hcs hslot, bind, Except.bind]
        rfl
      · exact ⟨by simp, by simp, by simp, by simp, by simp, fun _ => ⟨hok, hslot⟩⟩
    · obtain rfl : k = n := by omega
      refine h.moves hi (p := .storeLength f k) ?_ ?_ rfl (Or.inl rfl) rfl
      · simp only [Striped64.next, lt_irrefl, if_false]
      · exact ⟨by simp, by simp, by simp, by simp, by simp, fun _ => ⟨cs, hok⟩⟩
  | copyReload f cs n k slot =>
    obtain ⟨hcopy, hslot⟩ := hok
    obtain ⟨-, -, -, -, -, tab, hcells, -⟩ := id hcopy
    refine h.moves hi (p := .copyWrite f cs n k slot tab) ?_ ?_ rfl (Or.inl rfl) rfl
    · simp only [Striped64.next, hcells]
    · exact ⟨by simp, by simp, by simp, by simp, by simp, fun _ => ⟨hcopy, hslot, hcells⟩⟩
  | copyWrite f cs n k slot tab =>
    obtain ⟨hcopy, hslot, hcells⟩ := hok
    obtain ⟨-, hn, -, -, -, tab', hcells', -, htab⟩ := id hcopy
    obtain rfl : tab' = tab := Option.some.inj (hcells'.symm.trans hcells)
    have hk : k < slots.length := (List.getElem?_eq_some_iff.mp hslot).1
    refine ⟨_, _, _, ?_, h.copyWrite hi hcopy hslot hcells⟩
    have hlt : k < (slots.take k ++ List.replicate (2 * n - k) (none : Option ℕ)).length := by
      simp only [List.length_append, List.length_take, List.length_replicate]
      omega
    simp only [Striped64.next, writeSlot_eq htab hlt, set_take_append hslot hn, bind, Except.bind]
    rfl
  | storeLength f n =>
    obtain ⟨cs, hcopy⟩ := hok
    exact ⟨_, _, _, rfl, h.storeLength hi hcopy⟩
  | unlockExpand f =>
    exact h.unlocks hi rfl rfl (Local.loadCells _ _ _) rfl hok rfl rfl
  | recheckInit f cs =>
    have hinit := hlocal.init cs rfl
    by_cases hcells : σ.memory.cells = cs
    · refine h.moves hi (p := .storeInitLength f) ?_ ?_ rfl (Or.inl rfl) rfl
      · simp only [Striped64.next, hcells, if_true]
      · constructor <;> simp_all
    · refine h.moves hi (p := .unlockInit f false) ?_ ?_ rfl (Or.inl rfl) rfl
      · simp only [Striped64.next, hcells, if_false]
      · constructor <;> simp_all
  | storeInitLength f =>
    obtain ⟨hsteady, hcells⟩ := hok
    obtain ⟨htables, hslots⟩ := hsteady.empty hcells
    exact ⟨_, _, _, rfl, h.storeInitLength hi hcells htables hslots⟩
  | storeInitSlot f rs =>
    obtain ⟨-, -, -, htables, hrs, -⟩ := id hok
    refine ⟨_, _, _, ?_, h.storeInitSlot hi hok (slotOf_lt f.index (by omega : 0 < 2))⟩
    have htab : (σ.memory.newCell f.x).2.tables[rs]? = some (List.replicate 2 none) := by
      rw [hrs]
      simp [Striped64.newCell, htables]
    have hlt : Striped64.slotOf 2 f.index < (List.replicate 2 (none : Option ℕ)).length :=
      slotOf_lt f.index (by omega)
    simp only [Striped64.next, writeSlot_eq htab hlt, bind, Except.bind]
    rfl
  | storeInitCells f rs c =>
    obtain ⟨entries, hcreate, hentries⟩ := hok
    exact ⟨_, _, _, rfl, h.storeInitCells hi hcreate hentries⟩
  | unlockInit f init =>
    cases init with
    | true => exact h.unlocks hi rfl rfl (Local.idle _ _) rfl hok rfl rfl
    | false => exact h.unlocks hi rfl rfl (Local.loadCells _ _ _) rfl hok rfl rfl
  | _ => cases hh

/-! ## Runs -/

/-- What the action of a thread finds of the pointer and the length it has read. -/
def Coherent (σ : AdderState T) : AdderAction T → Prop
  | .add _ _ => True
  | .step i _ _ => (σ.threads[i]?).all (fun t => t.pc.coherent σ.memory) = true

instance (σ : AdderState T) : (a : AdderAction T) → Decidable (Coherent σ a)
  | .add _ _ => isTrue trivial
  | .step _ _ _ => inferInstanceAs (Decidable (_ = true))

theorem AdderInv.step (h : AdderInv σ slots) {seed : ℕ} (hi : σ.threads[i]? = some t)
    (hc : t.pc.coherent σ.memory = true) :
    ∃ σ' slots', σ.run ncpu (.step i spurious seed) = some (.ok σ') ∧ AdderInv σ' slots' := by
  have hlen : i < σ.threads.length := (List.getElem?_eq_some_iff.mp hi).1
  have h₁ := h.localinit hi seed
  have hi₁ := List.getElem?_set_self (a := AdderState.localinit seed t) hlen
  have hc₁ : (AdderState.localinit seed t).pc.coherent σ.memory = true :=
    (coherent_localinit _ _ _).trans hc
  have hmoves : StepKeeps ncpu spurious
      { σ with threads := σ.threads.set i (AdderState.localinit seed t) } i
      (AdderState.localinit seed t) := by
    cases hh : (AdderState.localinit seed t).pc.holds with
    | false => exact h₁.moves_free hi₁ hc₁ hh
    | true => exact h₁.moves_holder hi₁ hc₁ hh
  obtain ⟨m', pc', slots', hnext, hinv⟩ := hmoves
  rw [List.set_set] at hinv
  refine ⟨_, slots', ?_, hinv⟩
  simp only [AdderState.run, hi, Option.map_some, hnext, bind, Except.bind]
  rfl

theorem AdderInv.run (h : AdderInv σ slots) {a : AdderAction T} (hc : Coherent σ a)
    {r : Checked (AdderState T)} (hr : σ.run ncpu a = some r) :
    ∃ σ' slots', r = .ok σ' ∧ AdderInv σ' slots' := by
  cases a with
  | add i x =>
    simp only [AdderState.run] at hr
    split at hr
    · rename_i probe hi
      exact ⟨_, slots, (Option.some.inj hr).symm, h.add hi⟩
    · cases hr
  | step i spurious seed =>
    cases hi : σ.threads[i]? with
    | none => simp [AdderState.run, hi] at hr
    | some t =>
      have hcoh : t.pc.coherent σ.memory = true := by simpa [Coherent, hi] using hc
      obtain ⟨σ', slots', hrun, hinv⟩ := h.step hi hcoh
      exact ⟨σ', slots', Option.some.inj (hr.symm.trans hrun), hinv⟩

theorem AdderInv.reach (h : System.Reach (adderMachine T ncpu) Coherent σ) :
    ∃ slots, AdderInv σ slots := by
  induction h with
  | init hi =>
    obtain ⟨n, rfl⟩ := hi
    exact ⟨[], AdderInv.init n⟩
  | step _ hg hs ih =>
    obtain ⟨slots, hinv⟩ := ih
    obtain ⟨r, hr, hok⟩ := Option.bind_eq_some_iff.mp hs
    obtain ⟨σ', slots', rfl, hinv'⟩ := hinv.run hg hr
    obtain rfl := Option.some.inj hok
    exact ⟨slots', hinv'⟩

end steps

/-- In every run in which the pointer and the length belong together no access leaves its table,
and the counter is exact whenever all calls have returned. -/
theorem sum_eq_added {ncpu : ℕ} {σ : AdderState (BitVec 64)}
    (h : System.Reach (adderMachine (BitVec 64) ncpu) Coherent σ) :
    (∀ a r, Coherent σ a → σ.run ncpu a = some r → ∃ σ', r = .ok σ') ∧
      ((∀ t ∈ σ.threads, t.pc = .idle) → σ.memory.sum = σ.added) := by
  obtain ⟨slots, hinv⟩ := AdderInv.reach h
  refine ⟨fun a r hc hr => ?_, hinv.sum_eq⟩
  obtain ⟨σ', -, hok, -⟩ := hinv.run hc hr
  exact ⟨σ', hok⟩

def freshAdder (threads : ℕ) : AdderState (BitVec 64) :=
  ⟨⟨0, false, none, 0, [], []⟩, List.replicate threads ⟨0, .idle⟩, 0⟩

def accesses (count thread : ℕ) (spurious : Bool) (seed : ℕ) : List (AdderAction (BitVec 64)) :=
  List.replicate count (.step thread spurious seed)

/-- A table is made and expanded to four slots, always with the current length. -/
def coherentSchedule : List (AdderAction (BitVec 64)) :=
  .add 0 1 :: accesses 13 0 true 0 ++ .add 1 2 :: accesses 16 1 true 1 ++
    .add 0 8 :: accesses 35 0 true 0 ++ accesses 5 0 false 0

theorem sum_eq_added_after_expansion :
    ∃ σ : AdderState (BitVec 64), System.Reach (adderMachine (BitVec 64) 4) Coherent σ ∧
      σ.memory.nCells = 4 ∧ σ.memory.sum = σ.added ∧ σ.added = 11 := by
  obtain ⟨σ, -, hreach, hp⟩ := System.exists_reach (M := adderMachine (BitVec 64) 4)
    (G := Coherent) coherentSchedule
    (fun σ => (∀ t ∈ σ.threads, t.pc = .idle) ∧ σ.memory.nCells = 4 ∧ σ.added = 11)
    (s := freshAdder 2) ⟨2, rfl⟩ (by decide +kernel)
  obtain ⟨hidle, hn, hadded⟩ := of_decide_eq_true hp
  exact ⟨σ, hreach, hn, (sum_eq_added hreach).2 hidle, hadded⟩

/-- Thread 1 reads the new table of thread 0 with the old length, thread 2 puts a cell into the
new half of it, and thread 1 expands the table from its old length. -/
def staleSchedule : List (AdderAction (BitVec 64)) :=
  .add 0 1 :: accesses 13 0 true 0 ++ .add 1 2 :: accesses 16 1 true 1 ++
    .add 1 4 :: accesses 16 1 true 0 ++ .add 0 8 :: accesses 26 0 true 0 ++ accesses 2 1 true 0 ++
    accesses 9 0 true 0 ++ accesses 5 0 false 0 ++ .add 2 16 :: accesses 18 2 true 1 ++
    accesses 17 1 true 1 ++ accesses 11 1 false 1

/-- All calls have returned, 31 was added, and the counter shows 15. -/
theorem update_lost_after_stale_length :
    ¬ ∀ (ncpu : ℕ) (σ : AdderState (BitVec 64)),
      System.Reach (adderMachine (BitVec 64) ncpu) System.Free σ →
      (∀ t ∈ σ.threads, t.pc = .idle) → σ.memory.sum = σ.added := by
  intro h
  obtain ⟨σ, -, hreach, hp⟩ := System.exists_reach (M := adderMachine (BitVec 64) 4)
    (G := System.Free) staleSchedule
    (fun σ => (∀ t ∈ σ.threads, t.pc = .idle) ∧ σ.memory.sum = 15 ∧ σ.added = 31)
    (s := freshAdder 3) ⟨3, rfl⟩ (by decide +kernel)
  obtain ⟨hidle, hsum, hadded⟩ := of_decide_eq_true hp
  have heq := h 4 σ hreach hidle
  rw [hsum, hadded] at heq
  exact absurd heq (by decide)

end Mutty.Thread
