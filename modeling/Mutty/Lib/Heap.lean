import Mathlib.Order.Lattice
import Mathlib.Data.List.Nodup
import Mathlib.Data.List.Perm.Lattice
import Mathlib.Logic.Equiv.Basic
import Mathlib.Order.Basic
import Mutty.Lib.Loop

/-!
# A binary heap in an array

The elements are `array 1, ..., array size`, and the parent of place `i` is place `i / 2`. Every
access is checked against the number `length` of allocated places. `lift` and `sink` repair the
order at one place. The three orders with a hole at `i` say which edges are still to be
repaired: the edge above `i` (`LiftOrder`), the edges below it (`SinkOrder`), or both
(`HoleOrder`). Each operation is specified by the list of elements up to permutation.
-/

namespace Mutty.Lib

structure Heap (α : Type) where
  array : ℕ → α
  length : ℕ
  size : ℕ

namespace Heap

variable {α : Type}

def get (q : Heap α) (i : ℕ) : Checked α :=
  if i < q.length then .ok (q.array i) else .error .range

def put (q : Heap α) (i : ℕ) (v : α) : Checked (Heap α) :=
  if i < q.length then .ok { q with array := Function.update q.array i v } else .error .range

def swap (q : Heap α) (a b : ℕ) : Checked (Heap α) := do
  let value ← q.get a
  let other ← q.get b
  let q ← q.put a other
  q.put b value

def elems (q : Heap α) : List α := (List.range' 1 q.size).map q.array

def swapped (q : Heap α) (a b : ℕ) : Heap α := { q with array := q.array ∘ Equiv.swap a b }

section access

variable {q : Heap α} {a b i : ℕ} {v : α}

theorem get_eq (h : i < q.length) : q.get i = .ok (q.array i) := if_pos h

theorem put_eq (h : i < q.length) :
    q.put i v = .ok { q with array := Function.update q.array i v } := if_pos h

theorem update_update_eq_swap (f : ℕ → α) (a b : ℕ) :
    Function.update (Function.update f a (f b)) b (f a) = f ∘ Equiv.swap a b := by
  funext j
  simp only [Function.comp_apply, Equiv.swap_apply_def, Function.update_apply]
  split_ifs with h1 h2 h2 <;> simp_all

theorem swap_eq (ha : a < q.length) (hb : b < q.length) : q.swap a b = .ok (q.swapped a b) := by
  have hb' : b < ({ q with array := Function.update q.array a (q.array b) } : Heap α).length := hb
  simp only [swap, get_eq ha, get_eq hb, bind, Except.bind, put_eq ha]
  rw [put_eq hb', swapped, ← update_update_eq_swap]

end access

def grow (q : Heap α) : Heap α :=
  if q.size = q.length then { q with length := 1 + (q.length - 1) * 2 } else q

section elements

variable {q q' q'' : Heap α} {f : ℕ → α} {a b i : ℕ}

/-- `q'` holds the elements of `q`, in other places. -/
structure Rearranged (q q' : Heap α) : Prop where
  size : q'.size = q.size
  length : q'.length = q.length
  elems : q'.elems.Perm q.elems

theorem Rearranged.rfl : Rearranged q q := ⟨by rfl, by rfl, List.Perm.refl _⟩

theorem Rearranged.trans (h : Rearranged q q') (h' : Rearranged q' q'') : Rearranged q q'' :=
  ⟨h'.size.trans h.size, h'.length.trans h.length, h'.elems.trans h.elems⟩

theorem map_swap_range (n : ℕ) (ha : 1 ≤ a) (ha' : a ≤ n) (hb : 1 ≤ b) (hb' : b ≤ n) :
    ((List.range' 1 n).map (Equiv.swap a b)).Perm (List.range' 1 n) := by
  have hnd : (List.range' 1 n).Nodup := List.nodup_range'
  refine (List.perm_ext_iff_of_nodup (hnd.map (Equiv.injective _)) hnd).mpr fun j => ?_
  simp only [List.mem_map, List.mem_range'_1]
  constructor
  · rintro ⟨i, hi, rfl⟩
    rw [Equiv.swap_apply_def]
    split_ifs <;> omega
  · intro hj
    refine ⟨Equiv.swap a b j, ?_, Equiv.swap_apply_self a b j⟩
    rw [Equiv.swap_apply_def]
    split_ifs <;> omega

theorem rearranged_swapped (ha : 1 ≤ a) (ha' : a ≤ q.size) (hb : 1 ≤ b) (hb' : b ≤ q.size) :
    Rearranged q (q.swapped a b) := by
  refine ⟨by rfl, by rfl, ?_⟩
  have h := (map_swap_range q.size ha ha' hb hb').map q.array
  rwa [List.map_map] at h

theorem swap_of_ne {j a b : ℕ} (ha : j ≠ a) (hb : j ≠ b) : (f ∘ Equiv.swap a b) j = f j :=
  congrArg f (Equiv.swap_apply_of_ne_of_ne ha hb)

theorem swap_left (a b : ℕ) : (f ∘ Equiv.swap a b) a = f b := congrArg f (Equiv.swap_apply_left a b)

theorem swap_right (a b : ℕ) : (f ∘ Equiv.swap a b) b = f a :=
  congrArg f (Equiv.swap_apply_right a b)

theorem elems_size_succ (f : ℕ → α) (l n : ℕ) :
    elems ⟨f, l, n + 1⟩ = elems ⟨f, l, n⟩ ++ [f (n + 1)] := by
  simp [elems, List.range'_concat, Nat.add_comm]

theorem elems_congr {f g : ℕ → α} {l m n : ℕ} (h : ∀ j, 1 ≤ j → j ≤ n → f j = g j) :
    elems ⟨f, l, n⟩ = elems ⟨g, m, n⟩ := by
  refine List.map_congr_left fun j hj => ?_
  have hj' := List.mem_range'_1.mp hj
  simp only at hj'
  exact h j hj'.1 (by omega)

/-- Overwriting place `i` with the last element, and giving up the last place, removes the element
at `i`. -/
theorem elems_overwrite {f g : ℕ → α} {l m n : ℕ} (h1 : 1 ≤ i) (hi : i ≤ n + 1)
    (hg : ∀ j, 1 ≤ j → j ≤ n → g j = Function.update f i (f (n + 1)) j) :
    (elems ⟨f, l, n + 1⟩).Perm (f i :: elems ⟨g, m, n⟩) := by
  have hswap := (rearranged_swapped (q := ⟨f, l, n + 1⟩) h1 hi (Nat.succ_pos n) (Nat.le_refl _)).elems
  have hrest : elems ⟨f ∘ Equiv.swap i (n + 1), l, n⟩ = elems ⟨g, m, n⟩ := by
    refine elems_congr fun j hj1 hjn => ?_
    rw [hg j hj1 hjn, Function.update_apply]
    split_ifs with hji
    · rw [hji, swap_left]
    · rw [swap_of_ne hji (by omega)]
  have hlast : elems (swapped ⟨f, l, n + 1⟩ i (n + 1)) = elems ⟨g, m, n⟩ ++ [f i] := by
    rw [swapped, elems_size_succ, hrest, swap_right]
  rw [hlast] at hswap
  exact hswap.symm.trans (List.perm_append_singleton _ _)

theorem grow_size (q : Heap α) : q.grow.size = q.size := by
  unfold grow
  split_ifs <;> rfl

theorem grow_array (q : Heap α) : q.grow.array = q.array := by
  unfold grow
  split_ifs <;> rfl

theorem size_lt_grow_length (hg : 2 ≤ q.length) (hr : q.size ≤ q.length) :
    q.size < q.grow.length := by
  unfold grow
  split_ifs with h
  · simp only
    omega
  · omega

theorem length_le_grow_length (hg : 2 ≤ q.length) : q.length ≤ q.grow.length := by
  unfold grow
  split_ifs with h
  · simp only
    omega
  · exact Nat.le_refl _

end elements

variable [LinearOrder α]

def subord (q : Heap α) (a b : ℕ) : Checked Bool := do
  let x ← q.get a
  let y ← q.get b
  return decide (y < x)

def liftBody : Heap α × ℕ → Checked ((Heap α × ℕ) ⊕ Heap α)
  | (q, index) =>
    if 1 < index then do
      let above ← q.subord (index / 2) index
      if above then do
        let q' ← q.swap index (index / 2)
        return .inl (q', index / 2)
      else return .inr q
    else return .inr q

def lift (q : Heap α) (index : ℕ) : Checked (Heap α) := Loop.run liftBody (index + 1) (q, index)

def lesserChild (q : Heap α) (index : ℕ) : Checked ℕ :=
  if 2 * index < q.size then do
    let right ← q.subord (2 * index) (2 * index + 1)
    return if right then 2 * index + 1 else 2 * index
  else return 2 * index

def sinkBody : Heap α × ℕ → Checked ((Heap α × ℕ) ⊕ Heap α)
  | (q, index) =>
    if 2 * index ≤ q.size then do
      let child ← q.lesserChild index
      let below ← q.subord index child
      if below then do
        let q' ← q.swap index child
        return .inl (q', child)
      else return .inr q
    else return .inr q

def sink (q : Heap α) (index : ℕ) : Checked (Heap α) :=
  Loop.run sinkBody (q.size + 1) (q, index)

def insert (q : Heap α) (v : α) : Checked (Heap α) := do
  let q := grow { q with size := q.size + 1 }
  let q ← q.put q.size v
  q.lift q.size

def find (q : Heap α) (v : α) : ℕ → ℕ → Checked (Option ℕ)
  | _, 0 => return none
  | i, n + 1 => do
    let w ← q.get i
    if w = v then return some i else q.find v (i + 1) n

def removeAt (q : Heap α) (i : ℕ) : Checked (Heap α) := do
  let last ← q.get q.size
  let q ← q.put i last
  let q ← lift { q with size := q.size - 1 } i
  q.sink i

def remove (q : Heap α) (v : α) : Checked (Heap α) := do
  match ← q.find v 1 q.size with
  | some i => q.removeAt i
  | none => return q

/-- The root of a heap with elements, and the heap without it; `zero` overwrites the place that
becomes free. -/
def pop (q : Heap α) (zero : α) : Checked (α × Heap α) := do
  let val ← q.get 1
  let last ← q.get q.size
  let q ← q.put 1 last
  let q ← q.put q.size zero
  let q ← sink { q with size := q.size - 1 } 1
  return (val, q)

section order

variable {f : ℕ → α} {n i c : ℕ}

/-- Every place below the root is at least its parent. -/
def Ordered (f : ℕ → α) (n : ℕ) : Prop := ∀ j, 2 ≤ j → j ≤ n → f (j / 2) ≤ f j

/-- The places below `i` are at least the place above it. -/
def Spanned (f : ℕ → α) (n i : ℕ) : Prop :=
  ∀ j, 2 ≤ j → j ≤ n → j / 2 = i → 2 ≤ i → f (i / 2) ≤ f j

structure HoleOrder (f : ℕ → α) (n i : ℕ) : Prop where
  except : ∀ j, 2 ≤ j → j ≤ n → j ≠ i → j / 2 ≠ i → f (j / 2) ≤ f j
  span : Spanned f n i

structure LiftOrder (f : ℕ → α) (n i : ℕ) : Prop where
  except : ∀ j, 2 ≤ j → j ≤ n → j ≠ i → f (j / 2) ≤ f j
  span : Spanned f n i

structure SinkOrder (f : ℕ → α) (n i : ℕ) : Prop where
  except : ∀ j, 2 ≤ j → j ≤ n → j / 2 ≠ i → f (j / 2) ≤ f j
  span : Spanned f n i

theorem LiftOrder.hole (h : LiftOrder f n i) : HoleOrder f n i :=
  ⟨fun j h2 hn hj _ => h.except j h2 hn hj, h.span⟩

theorem Ordered.spanned (h : Ordered f n) : Spanned f n i := fun j h2 hn hj hi =>
  (h i hi (by omega)).trans (hj ▸ h j h2 hn)

theorem Ordered.sink (h : Ordered f n) : SinkOrder f n i :=
  ⟨fun j h2 hn _ => h j h2 hn, h.spanned⟩

/-- One round of `lift`: the hole moves to the parent, and all edges below it are in order. -/
theorem HoleOrder.swap (h : HoleOrder f n i) (hi : 2 ≤ i) (hn : i ≤ n) (hlt : f i < f (i / 2)) :
    LiftOrder (f ∘ Equiv.swap i (i / 2)) n (i / 2) := by
  have hup : 2 ≤ i / 2 → f (i / 2 / 2) ≤ f (i / 2) := fun h2 =>
    h.except (i / 2) h2 (by omega) (by omega) (by omega)
  constructor
  · intro j h2 hj hne
    by_cases hji : j = i
    · subst hji
      rw [swap_left, swap_right]
      exact hlt.le
    · rw [swap_of_ne hji hne]
      by_cases hpi : j / 2 = i
      · rw [hpi, swap_left]
        exact h.span j h2 hj hpi hi
      · by_cases hpp : j / 2 = i / 2
        · rw [hpp, swap_right]
          have := h.except j h2 hj hji hpi
          rw [hpp] at this
          exact hlt.le.trans this
        · rw [swap_of_ne hpi hpp]
          exact h.except j h2 hj hji hpi
  · intro j h2 hj hjp hp2
    rw [swap_of_ne (by omega) (by omega)]
    by_cases hji : j = i
    · subst hji
      rw [swap_left]
      exact hup hp2
    · rw [swap_of_ne hji (by omega)]
      have := h.except j h2 hj hji (by omega)
      rw [hjp] at this
      exact (hup hp2).trans this

theorem HoleOrder.stay (h : HoleOrder f n i) (hstop : 2 ≤ i → i ≤ n → f (i / 2) ≤ f i) :
    SinkOrder f n i := by
  refine ⟨fun j h2 hj hp => ?_, h.span⟩
  by_cases hji : j = i
  · subst hji
    exact hstop h2 hj
  · exact h.except j h2 hj hji hp

theorem LiftOrder.stay (h : LiftOrder f n i) (hstop : 2 ≤ i → i ≤ n → f (i / 2) ≤ f i) :
    Ordered f n := by
  intro j h2 hj
  by_cases hji : j = i
  · subst hji
    exact hstop h2 hj
  · exact h.except j h2 hj hji

/-- One round of `sink`: the hole moves to the lesser child. -/
theorem SinkOrder.swap (h : SinkOrder f n i) (hi : 1 ≤ i) (hc : c / 2 = i) (hn : c ≤ n)
    (hmin : ∀ j, j / 2 = i → 2 ≤ j → j ≤ n → f c ≤ f j) (hlt : f c < f i) :
    SinkOrder (f ∘ Equiv.swap i c) n c := by
  constructor
  · intro j h2 hj hpc
    by_cases hjc : j = c
    · subst hjc
      rw [hc, swap_left, swap_right]
      exact hlt.le
    · by_cases hji : j = i
      · subst hji
        rw [swap_left, swap_of_ne (by omega) (by omega)]
        exact h.span c (by omega) hn hc h2
      · rw [swap_of_ne hji hjc]
        by_cases hpi : j / 2 = i
        · rw [hpi, swap_left]
          exact hmin j hpi h2 hj
        · rw [swap_of_ne hpi hpc]
          exact h.except j h2 hj hpi
  · intro j h2 hj hjc hc2
    rw [hc, swap_left, swap_of_ne (by omega) (by omega)]
    have := h.except j h2 hj (by omega)
    rwa [hjc] at this

theorem SinkOrder.stay (h : SinkOrder f n i)
    (hstop : ∀ j, 2 ≤ j → j ≤ n → j / 2 = i → f i ≤ f j) : Ordered f n := by
  intro j h2 hj
  by_cases hp : j / 2 = i
  · rw [hp]
    exact hstop j h2 hj hp
  · exact h.except j h2 hj hp

end order

section spec

variable {q : Heap α} {a b i : ℕ} {v : α}

theorem subord_eq (ha : a < q.length) (hb : b < q.length) :
    q.subord a b = .ok (decide (q.array b < q.array a)) := by
  simp [subord, get_eq ha, get_eq hb, bind, Except.bind, pure, Except.pure]

theorem lesserChild_eq (hi : 2 * i ≤ q.size) (hq : q.size < q.length) :
    ∃ c, q.lesserChild i = .ok c ∧ c / 2 = i ∧ c ≤ q.size ∧
      (∀ j, j / 2 = i → 2 ≤ j → j ≤ q.size → q.array c ≤ q.array j) := by
  unfold lesserChild
  split_ifs with h
  · rw [subord_eq (by omega) (by omega)]
    refine ⟨_, rfl, ?_⟩
    by_cases hlt : q.array (2 * i + 1) < q.array (2 * i)
    · simp only [hlt, decide_true, if_true]
      refine ⟨by omega, by omega, fun j hj h2 _ => ?_⟩
      obtain rfl | rfl : j = 2 * i ∨ j = 2 * i + 1 := by omega
      · exact hlt.le
      · exact le_rfl
    · simp only [hlt, decide_false, Bool.false_eq_true, if_false]
      refine ⟨by omega, by omega, fun j hj h2 _ => ?_⟩
      obtain rfl | rfl : j = 2 * i ∨ j = 2 * i + 1 := by omega
      · exact le_rfl
      · exact not_lt.mp hlt
  · refine ⟨_, rfl, by omega, by omega, fun j hj h2 hs => ?_⟩
    obtain rfl : j = 2 * i := by omega
    exact le_rfl

structure Valid (q : Heap α) : Prop where
  room : q.size < q.length
  grown : 2 ≤ q.length
  ordered : Ordered q.array q.size

theorem root_le (hv : q.Valid) {x : α} (hx : x ∈ q.elems) : q.array 1 ≤ x := by
  obtain ⟨j, hj, rfl⟩ := List.mem_map.mp hx
  obtain ⟨h1, hn⟩ := List.mem_range'_1.mp hj
  clear hj hx
  induction j using Nat.strong_induction_on with
  | _ j ih =>
    by_cases h2 : 2 ≤ j
    · calc q.array 1 ≤ q.array (j / 2) := ih (j / 2) (by omega) (by omega) (by omega)
        _ ≤ q.array j := hv.ordered j h2 (by omega)
    · obtain rfl : j = 1 := by omega
      exact le_rfl

theorem liftBody_of_le (hi : i ≤ 1) : liftBody (q, i) = .ok (.inr q) := by
  simp only [liftBody, if_neg (by omega : ¬ 1 < i)]
  rfl

theorem liftBody_of_lt (hi : 2 ≤ i) (hl : i < q.length) (hlt : q.array i < q.array (i / 2)) :
    liftBody (q, i) = .ok (.inl (q.swapped i (i / 2), i / 2)) := by
  have hp : i / 2 < q.length := by omega
  simp [liftBody, show 1 < i by omega, subord_eq hp hl, hlt, swap_eq hl hp, bind, Except.bind,
    pure, Except.pure]

theorem liftBody_of_not_lt (hi : 2 ≤ i) (hl : i < q.length)
    (hlt : ¬ q.array i < q.array (i / 2)) : liftBody (q, i) = .ok (.inr q) := by
  have hp : i / 2 < q.length := by omega
  simp [liftBody, show 1 < i by omega, subord_eq hp hl, hlt, bind, Except.bind, pure, Except.pure]

theorem run_lift (hr : q.size < q.length) (h1 : 1 ≤ i) (hi : i ≤ q.size)
    (ho : LiftOrder q.array q.size i) {n : ℕ} (hn : i < n) :
    ∃ q', Loop.run liftBody n (q, i) = .ok q' ∧ Rearranged q q' ∧ Ordered q'.array q'.size := by
  refine Loop.run_ok _ (μ := fun p : Heap α × ℕ => p.2)
    (I := fun p => Rearranged q p.1 ∧ 1 ≤ p.2 ∧ p.2 ≤ q.size ∧ LiftOrder p.1.array p.1.size p.2)
    (fun ⟨p, k⟩ ⟨hre, hk1, hk, hord⟩ => ?_) n (q, i) ⟨.rfl, h1, hi, ho⟩ hn
  simp only at hre hk1 hk hord
  have hs := hre.size
  have hl : k < p.length := by rw [hre.length]; omega
  by_cases hk2 : 2 ≤ k
  · by_cases hlt : p.array k < p.array (k / 2)
    · refine .inl ⟨_, liftBody_of_lt hk2 hl hlt, ⟨?_, by omega, by omega, ?_⟩, by omega⟩
      · exact hre.trans (rearranged_swapped (by omega) (by omega) (by omega) (by omega))
      · exact hord.hole.swap hk2 (by omega) hlt
    · refine .inr ⟨p, liftBody_of_not_lt hk2 hl hlt, hre, hord.stay fun _ _ => not_lt.mp hlt⟩
  · exact .inr ⟨p, liftBody_of_le (by omega), hre, hord.stay fun h2 => absurd h2 hk2⟩

/-- After a value has been overwritten at `i`, `lift` leaves at most the edges below `i` to be
repaired. -/
theorem lift_hole (hr : q.size < q.length) (h1 : 1 ≤ i) (hi : i ≤ q.size)
    (ho : HoleOrder q.array q.size i) :
    ∃ q', q.lift i = .ok q' ∧ Rearranged q q' ∧ SinkOrder q'.array q'.size i := by
  unfold lift
  have hstop : ∀ x, Loop.run liftBody (i + 1) (q, i) = x → x = .ok q →
      (2 ≤ i → i ≤ q.size → q.array (i / 2) ≤ q.array i) →
      ∃ q', Loop.run liftBody (i + 1) (q, i) = .ok q' ∧ Rearranged q q' ∧
        SinkOrder q'.array q'.size i := fun x hx hq hle => ⟨q, hx.trans hq, .rfl, ho.stay hle⟩
  by_cases hi2 : 2 ≤ i
  · by_cases hlt : q.array i < q.array (i / 2)
    · rw [Loop.run_next (liftBody_of_lt hi2 (by omega) hlt)]
      obtain ⟨q', hq', hre, hord⟩ := run_lift (q := q.swapped i (i / 2)) (i := i / 2) (n := i) hr
        (by omega) (show i / 2 ≤ q.size by omega) (ho.swap hi2 hi hlt) (by omega)
      exact ⟨q', hq', (rearranged_swapped h1 hi (by omega) (by omega)).trans hre, hord.sink⟩
    · exact hstop _ rfl (Loop.run_done (liftBody_of_not_lt hi2 (by omega) hlt) i)
        fun _ _ => not_lt.mp hlt
  · exact hstop _ rfl (Loop.run_done (liftBody_of_le (by omega)) i) fun h2 => absurd h2 hi2

theorem sink_ordered (hr : q.size < q.length) (h1 : 1 ≤ i) (ho : SinkOrder q.array q.size i) :
    ∃ q', q.sink i = .ok q' ∧ Rearranged q q' ∧ Ordered q'.array q'.size := by
  refine Loop.run_ok _ (μ := fun p : Heap α × ℕ => q.size - p.2)
    (I := fun p => Rearranged q p.1 ∧ 1 ≤ p.2 ∧ SinkOrder p.1.array p.1.size p.2)
    (fun ⟨p, k⟩ ⟨hre, hk1, hord⟩ => ?_) _ (q, i) ⟨.rfl, h1, ho⟩ (by simp only; omega)
  simp only at hre hk1 hord
  have hs := hre.size
  have hl := hre.length
  by_cases hk : 2 * k ≤ p.size
  · obtain ⟨c, hc, hck, hcs, hmin⟩ := lesserChild_eq hk (by omega)
    have hsub := subord_eq (q := p) (a := k) (b := c) (by omega) (by omega)
    by_cases hlt : p.array c < p.array k
    · refine .inl ⟨(p.swapped k c, c), ?_, ⟨?_, by omega, hord.swap hk1 hck hcs hmin hlt⟩, ?_⟩
      · simp [sinkBody, hk, hc, hsub, hlt, swap_eq (q := p) (a := k) (b := c) (by omega) (by omega),
          bind, Except.bind, pure, Except.pure]
      · exact hre.trans (rearranged_swapped hk1 (by omega) (by omega) hcs)
      · simp only
        omega
    · refine .inr ⟨p, ?_, hre, hord.stay fun j h2 hj hjk => ?_⟩
      · simp [sinkBody, hk, hc, hsub, hlt, bind, Except.bind, pure, Except.pure]
      · exact (not_lt.mp hlt).trans (hmin j hjk h2 hj)
  · refine .inr ⟨p, ?_, hre, hord.stay fun j h2 hj hjk => by omega⟩
    simp only [sinkBody, if_neg hk]
    rfl

theorem insert_spec (hv : q.Valid) (v : α) :
    ∃ q', q.insert v = .ok q' ∧ q'.Valid ∧ q'.elems.Perm (v :: q.elems) := by
  obtain ⟨hr, hg, ho⟩ := hv
  set g := grow { q with size := q.size + 1 } with hgdef
  have hsize : g.size = q.size + 1 := grow_size _
  have harr : g.array = q.array := grow_array _
  have hroom : q.size + 1 < g.length :=
    size_lt_grow_length (q := { q with size := q.size + 1 }) hg hr
  have hgrown : 2 ≤ g.length :=
    Nat.le_trans hg (length_le_grow_length (q := { q with size := q.size + 1 }) hg)
  set p : Heap α := { g with array := Function.update g.array g.size v } with hp
  have hlift : LiftOrder p.array p.size p.size := by
    refine ⟨fun j h2 hj hne => ?_, fun j h2 hj hjp => by omega⟩
    simp only [hp] at hj hne ⊢
    rw [Function.update_of_ne (by omega), Function.update_of_ne hne, harr]
    exact ho j h2 (by omega)
  obtain ⟨q', hq', hre, hord⟩ := run_lift (q := p) (i := p.size) (n := p.size + 1)
    (by simp only [hp]; omega) (by simp only [hp]; omega) (Nat.le_refl _) hlift (by omega)
  refine ⟨q', ?_, ⟨?_, ?_, hord⟩, hre.elems.trans ?_⟩
  · simp only [insert, ← hgdef]
    rw [put_eq (by omega)]
    exact hq'
  · rw [hre.size, hre.length]
    simp only [hp]
    omega
  · rw [hre.length]
    exact hgrown
  · have hpe : p.elems = q.elems ++ [v] := by
      have hps : p = ⟨p.array, p.length, q.size + 1⟩ := by simp only [hp, ← hsize]
      rw [hps, elems_size_succ]
      congr 1
      · refine elems_congr (g := q.array) fun j _ hj => ?_
        simp only [hp]
        rw [Function.update_of_ne (by omega), harr]
      · simp only [hp, hsize, Function.update_self]
    rw [hpe]
    exact List.perm_append_singleton _ _

theorem find_spec (v : α) (n : ℕ) (hi : i + n ≤ q.length) :
    (∃ k, q.find v i n = .ok (some k) ∧ i ≤ k ∧ k < i + n ∧ q.array k = v) ∨
      (q.find v i n = .ok none ∧ ∀ k, i ≤ k → k < i + n → q.array k ≠ v) := by
  induction n generalizing i with
  | zero => exact .inr ⟨rfl, fun k h1 h2 => by omega⟩
  | succ n ih =>
    have hget := get_eq (q := q) (i := i) (by omega)
    by_cases heq : q.array i = v
    · refine .inl ⟨i, ?_, Nat.le_refl i, by omega, heq⟩
      simp [find, hget, heq, bind, Except.bind, pure, Except.pure]
    · have hfind : q.find v i (n + 1) = q.find v (i + 1) n := by
        simp [find, hget, heq, bind, Except.bind]
      rw [hfind]
      rcases ih (i := i + 1) (by omega) with ⟨k, hk, h1, h2, hv⟩ | ⟨hnone, hne⟩
      · exact .inl ⟨k, hk, by omega, by omega, hv⟩
      · refine .inr ⟨hnone, fun k h1 h2 => ?_⟩
        by_cases hki : k = i
        · rwa [hki]
        · exact hne k (by omega) (by omega)

theorem Ordered.overwrite {f g : ℕ → α} {n : ℕ} (h : Ordered f (n + 1)) (hi : i ≤ n)
    (hg : ∀ j, 1 ≤ j → j ≤ n → g j = Function.update f i (f (n + 1)) j) : HoleOrder g n i := by
  have hother : ∀ j, 1 ≤ j → j ≤ n → j ≠ i → g j = f j := fun j h1 hj hne => by
    rw [hg j h1 hj, Function.update_of_ne hne]
  constructor
  · intro j h2 hj hji hpi
    rw [hother j (by omega) hj hji, hother (j / 2) (by omega) (by omega) hpi]
    exact h j h2 (by omega)
  · intro j h2 hj hjp hi2
    rw [hother j (by omega) hj (by omega), hother (i / 2) (by omega) (by omega) (by omega)]
    exact h.spanned j h2 (by omega) hjp hi2

theorem removeAt_spec (hv : q.Valid) (h1 : 1 ≤ i) (hi : i ≤ q.size) :
    ∃ q', q.removeAt i = .ok q' ∧ q'.Valid ∧ q.elems.Perm (q.array i :: q'.elems) := by
  obtain ⟨hr, hg, ho⟩ := hv
  obtain ⟨n, hn⟩ : ∃ n, q.size = n + 1 := ⟨q.size - 1, by omega⟩
  set f := Function.update q.array i (q.array (n + 1)) with hf
  set p : Heap α := ⟨f, q.length, n⟩ with hp
  have hbody : q.removeAt i = p.lift i >>= fun q' => q'.sink i := by
    simp only [removeAt, hn, get_eq (show n + 1 < q.length by omega),
      put_eq (show i < q.length by omega), bind, Except.bind, Nat.add_sub_cancel, hp, hf]
  have hperm : q.elems.Perm (q.array i :: p.elems) := by
    have := elems_overwrite (f := q.array) (g := f) (l := q.length) (m := q.length) h1
      (show i ≤ n + 1 by omega) fun j _ _ => rfl
    rwa [← hn] at this
  have hdone : ∀ p' q' : Heap α, p.lift i = .ok p' → p'.sink i = .ok q' → Rearranged p q' →
      Ordered q'.array q'.size →
      ∃ q', q.removeAt i = .ok q' ∧ q'.Valid ∧ q.elems.Perm (q.array i :: q'.elems) := by
    intro p' q' hlift hsink hre hord
    refine ⟨q', ?_, ⟨?_, ?_, hord⟩, hperm.trans (hre.elems.symm.cons _)⟩
    · rw [hbody, hlift]
      exact hsink
    · rw [hre.size, hre.length]
      simp only [hp]
      omega
    · rw [hre.length]
      exact hg
  by_cases hin : i ≤ n
  · have hole : HoleOrder p.array p.size i := (hn ▸ ho).overwrite hin fun j _ _ => rfl
    obtain ⟨p', hp', hre, hso⟩ := lift_hole (show p.size < p.length by simp only [hp]; omega) h1
      hin hole
    obtain ⟨q', hq', hre', hord⟩ := sink_ordered (by rw [hre.size, hre.length]; simp only [hp]; omega)
      h1 hso
    exact hdone p' q' hp' hq' (hre.trans hre') hord
  · -- The removed element was the last one: `lift` starts outside the heap, at a place whose
    -- value is still at least its parent's.
    obtain rfl : i = n + 1 := by omega
    have hfq : f = q.array := Function.update_eq_self _ _
    have hpo : Ordered p.array p.size := fun j h2 hj => by
      simp only [hp, hfq]
      exact ho j h2 (by simp only [hp] at hj; omega)
    have hlift : p.lift (n + 1) = .ok p := by
      refine Loop.run_done ?_ _
      by_cases h2 : 2 ≤ n + 1
      · refine liftBody_of_not_lt h2 (by simp only [hp]; omega) ?_
        simp only [hp, hfq, not_lt]
        exact ho (n + 1) h2 (by omega)
      · exact liftBody_of_le (by omega)
    obtain ⟨q', hq', hre', hord⟩ := sink_ordered (q := p) (i := n + 1) (by simp only [hp]; omega)
      h1 hpo.sink
    exact hdone p q' hlift hq' hre' hord

theorem remove_spec (hv : q.Valid) (v : α) :
    ∃ q', q.remove v = .ok q' ∧ q'.Valid ∧ q'.elems.Perm (q.elems.erase v) := by
  have hr := hv.room
  rcases find_spec (q := q) (i := 1) v q.size (by omega) with ⟨k, hk, h1, h2, heq⟩ | ⟨hk, hne⟩
  · obtain ⟨q', hq', hv', hperm⟩ := removeAt_spec hv h1 (show k ≤ q.size by omega)
    refine ⟨q', ?_, hv', ?_⟩
    · simp [remove, hk, bind, Except.bind, hq']
    · have herase := hperm.erase v
      rw [heq, List.erase_cons_head] at herase
      exact herase.symm
  · refine ⟨q, ?_, hv, ?_⟩
    · simp [remove, hk, bind, Except.bind, pure, Except.pure]
    · have hmem : v ∉ q.elems := by
        intro hin
        obtain ⟨j, hj, hjv⟩ := List.mem_map.mp hin
        have hj' := List.mem_range'_1.mp hj
        exact hne j hj'.1 hj'.2 hjv
      rw [List.erase_of_not_mem hmem]

theorem pop_spec (hv : q.Valid) (h1 : 1 ≤ q.size) (zero : α) :
    ∃ q', q.pop zero = .ok (q.array 1, q') ∧ q'.Valid ∧ q.elems.Perm (q.array 1 :: q'.elems) := by
  obtain ⟨hr, hg, ho⟩ := hv
  obtain ⟨n, hn⟩ : ∃ n, q.size = n + 1 := ⟨q.size - 1, by omega⟩
  set f := Function.update (Function.update q.array 1 (q.array (n + 1))) (n + 1) zero with hf
  set p : Heap α := ⟨f, q.length, n⟩ with hp
  have hfeq : ∀ j, 1 ≤ j → j ≤ n → f j = Function.update q.array 1 (q.array (n + 1)) j :=
    fun j _ hj => Function.update_of_ne (by omega) _ _
  have hbody : q.pop zero = p.sink 1 >>= fun q' => return (q.array 1, q') := by
    have hput := put_eq (q := ⟨Function.update q.array 1 (q.array (n + 1)), q.length, n + 1⟩)
      (i := n + 1) (v := zero) (hn ▸ hr)
    simp only [pop, hn, get_eq (show n + 1 < q.length by omega),
      get_eq (show 1 < q.length by omega), put_eq (show 1 < q.length by omega), hput, bind,
      Except.bind, Nat.add_sub_cancel, hp, hf]
  have hperm : q.elems.Perm (q.array 1 :: p.elems) := by
    have := elems_overwrite (f := q.array) (g := f) (l := q.length) (m := q.length) (n := n)
      (Nat.le_refl 1) (by omega) hfeq
    rwa [← hn] at this
  have hso : SinkOrder p.array p.size 1 := by
    by_cases hn0 : 1 ≤ n
    · exact ((hn ▸ ho).overwrite hn0 hfeq).stay fun h2 => absurd h2 (by omega)
    · exact ⟨fun j h2 hj => absurd hj (by simp only [hp]; omega),
        fun j h2 hj => absurd hj (by simp only [hp]; omega)⟩
  obtain ⟨q', hq', hre, hord⟩ := sink_ordered (q := p) (by simp only [hp]; omega) (Nat.le_refl 1) hso
  refine ⟨q', ?_, ⟨?_, ?_, hord⟩, hperm.trans (hre.elems.symm.cons _)⟩
  · rw [hbody, hq']
    rfl
  · rw [hre.size, hre.length]
    simp only [hp]
    omega
  · rw [hre.length]
    exact hg

end spec

end Heap
end Mutty.Lib
