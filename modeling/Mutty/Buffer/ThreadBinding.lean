import Mathlib.Data.Int.Basic
import Mathlib.Logic.Function.Basic
import Mutty.Lib.Transition

/-!
# Binding threads to arenas

A thread that uses the allocator for the first time gets a `PoolThreadCache` of the arena with the
fewest of them. `m_numThreadCaches` counts the caches of an arena. `free` is the counting in
`PoolThreadCache::free`; the entries it gives back to the chunks, for which it has its argument, are
left out. `frees` records the calls of `free` on a cache.
-/

namespace Mutty.Buffer

open Mutty.Lib

/-! ## Counting the caches of an arena -/

structure CountedCache where
  arena : Option ℕ
  toFree : Bool := false
  frees : ℕ := 0
  deriving DecidableEq, Repr

structure CacheCounts where
  numThreadCaches : ℕ → ℤ := fun _ => 0
  caches : List CountedCache := []

inductive CacheCall
  | construct (arena : Option ℕ)
  | free (cache : ℕ) (finalizer : Bool)
  deriving DecidableEq, Repr

namespace CacheCounts

def addTo (n : ℕ → ℤ) (arena : Option ℕ) (d : ℤ) : ℕ → ℤ :=
  match arena with
  | none => n
  | some a => Function.update n a (n a + d)

def construct (s : CacheCounts) (arena : Option ℕ) : CacheCounts where
  numThreadCaches := addTo s.numThreadCaches arena 1
  caches := s.caches ++ [{ arena := arena }]

def free (s : CacheCounts) (i : ℕ) (c : CountedCache) : CacheCounts where
  numThreadCaches :=
    let n := if c.toFree then s.numThreadCaches else addTo s.numThreadCaches c.arena 1
    addTo n c.arena (-1)
  caches := s.caches.set i { c with toFree := true, frees := c.frees + 1 }

def step (s : CacheCounts) : CacheCall → Option CacheCounts
  | .construct arena => some (s.construct arena)
  | .free i _ => s.caches[i]?.map (s.free i)

/-- A cache of arena `a` on which `free` has not been called. -/
def counted (a : ℕ) (c : CountedCache) : Bool := decide (c.arena = some a ∧ c.frees = 0)

def unfreed (s : CacheCounts) (a : ℕ) : ℕ := s.caches.countP (counted a)

def Accounted (s : CacheCounts) : Prop := ∀ a, s.numThreadCaches a = s.unfreed a

end CacheCounts

def cacheMachine : System CacheCounts CacheCall where
  init s := s = {}
  step := CacheCounts.step

namespace CacheCounts

/-- What every step has to keep: the count, and that a call of `free` after the first changes
nothing. -/
def StepAccounted (s : CacheCounts) (a : CacheCall) (s' : CacheCounts) : Prop :=
  s'.Accounted ∧ ∀ i f c, a = .free i f → s.caches[i]? = some c → 0 < c.frees →
    s'.numThreadCaches = s.numThreadCaches

def FreesDetached (s : CacheCounts) : CacheCall → Prop
  | .construct _ => True
  | .free i _ => ∀ c, s.caches[i]? = some c → c.arena = none

/-- The flag is set by the first call, and so far only caches without an arena were freed. -/
structure Tidy (s : CacheCounts) : Prop where
  accounted : s.Accounted
  flag : ∀ c ∈ s.caches, c.toFree = decide (0 < c.frees)
  detached : ∀ c ∈ s.caches, 0 < c.frees → c.arena = none

variable {s s' : CacheCounts} {i : ℕ} {c : CountedCache}

theorem addTo_apply (n : ℕ → ℤ) (arena : Option ℕ) (d : ℤ) (a : ℕ) :
    addTo n arena d a = n a + if arena = some a then d else 0 := by
  cases arena with
  | none => simp [addTo]
  | some b =>
    simp only [addTo, Function.update_apply, Option.some.injEq]
    by_cases h : a = b
    · simp [h]
    · simp [h, Ne.symm h]

theorem construct_unfreed (s : CacheCounts) (arena : Option ℕ) (a : ℕ) :
    (s.construct arena).unfreed a = s.unfreed a + if arena = some a then 1 else 0 := by
  simp [unfreed, construct, counted, List.countP_append, List.countP_cons]

theorem Tidy.construct (h : s.Tidy) (arena : Option ℕ) : (s.construct arena).Tidy where
  accounted := by
    intro a
    rw [construct_unfreed]
    simp only [CacheCounts.construct, addTo_apply, h.accounted a]
    split_ifs <;> simp
  flag := by
    intro c hc
    rcases List.mem_append.mp hc with hc | hc
    · exact h.flag c hc
    · obtain rfl := List.mem_singleton.mp hc
      rfl
  detached := by
    intro c hc hf
    rcases List.mem_append.mp hc with hc | hc
    · exact h.detached c hc hf
    · obtain rfl := List.mem_singleton.mp hc
      exact absurd hf (Nat.lt_irrefl 0)

theorem free_unfreed (hi : s.caches[i]? = some c) (a : ℕ) :
    (s.free i c).unfreed a + (if counted a c then 1 else 0) = s.unfreed a := by
  obtain ⟨hlt, hc⟩ := List.getElem?_eq_some_iff.mp hi
  have hnew : counted a { c with toFree := true, frees := c.frees + 1 } = false := by
    simp [counted]
  have hle : (if counted a c then 1 else 0) ≤ s.unfreed a := by
    split_ifs with hin
    · exact List.countP_pos_iff.mpr ⟨c, List.mem_of_getElem? hi, hin⟩
    · exact Nat.zero_le _
  have hset := List.countP_set (p := counted a) (a := { c with toFree := true, frees := c.frees + 1 }) hlt
  rw [hc, hnew] at hset
  have hfree : (s.free i c).unfreed a =
      (s.caches.set i { c with toFree := true, frees := c.frees + 1 }).countP (counted a) := rfl
  unfold unfreed at *
  simp only [Bool.false_eq_true, if_false, Nat.add_zero] at hset
  omega

/-- The first call of `free` on a cache of an arena undoes its own decrement. -/
theorem free_numThreadCaches (hflag : c.toFree = decide (0 < c.frees)) (a : ℕ) :
    (s.free i c).numThreadCaches a =
      s.numThreadCaches a - if c.arena = some a ∧ 0 < c.frees then 1 else 0 := by
  by_cases hf : 0 < c.frees
  · simp only [free, hflag, hf, decide_true, if_true, addTo_apply, and_true]
    split_ifs <;> omega
  · simp only [free, hflag, hf, decide_false, Bool.false_eq_true, if_false, addTo_apply, and_false]
    split_ifs <;> omega

theorem Tidy.not_accounted (h : s.Tidy) (hi : s.caches[i]? = some c) {a : ℕ} (ha : c.arena = some a) :
    ¬ (s.free i c).Accounted := by
  have hmem := List.mem_of_getElem? hi
  have hzero : c.frees = 0 := by
    by_contra hne
    have := h.detached c hmem (Nat.pos_of_ne_zero hne)
    rw [ha] at this
    cases this
  have hcount : counted a c = true := by simp [counted, ha, hzero]
  have hunfreed := free_unfreed hi a
  rw [if_pos hcount] at hunfreed
  intro hacc
  have hafter := hacc a
  rw [free_numThreadCaches (h.flag c hmem), hzero, h.accounted a] at hafter
  simp only [Nat.lt_irrefl, and_false, if_false] at hafter
  omega

theorem Tidy.free (h : s.Tidy) (hi : s.caches[i]? = some c) (hc : c.arena = none) :
    (s.free i c).numThreadCaches = s.numThreadCaches ∧ (s.free i c).Tidy := by
  have hmem := List.mem_of_getElem? hi
  have hnum : (s.free i c).numThreadCaches = s.numThreadCaches := by
    funext a
    rw [free_numThreadCaches (h.flag c hmem), hc]
    simp
  refine ⟨hnum, ?_, ?_, ?_⟩
  · intro a
    have hcount : counted a c = false := by simp [counted, hc]
    have hunfreed := free_unfreed hi a
    rw [if_neg (by rw [hcount]; decide)] at hunfreed
    rw [hnum, h.accounted a, ← hunfreed]
    rfl
  · intro d hd
    rcases List.mem_or_eq_of_mem_set hd with hd | rfl
    · exact h.flag d hd
    · simp
  · intro d hd hf
    rcases List.mem_or_eq_of_mem_set hd with hd | rfl
    · exact h.detached d hd hf
    · exact hc

theorem Tidy.step_iff (h : s.Tidy) {a : CacheCall} (hs : s.step a = some s') :
    StepAccounted s a s' ↔ FreesDetached s a := by
  cases a with
  | construct arena =>
    obtain rfl := Option.some.inj hs
    exact ⟨fun _ => trivial, fun _ => ⟨(h.construct arena).accounted, nofun⟩⟩
  | free i f =>
    obtain ⟨c, hi, rfl⟩ := Option.map_eq_some_iff.mp hs
    constructor
    · intro hacc d hd
      obtain rfl : c = d := Option.some.inj (hi.symm.trans hd)
      cases ha : c.arena with
      | none => rfl
      | some a => exact absurd hacc.1 (h.not_accounted hi ha)
    · intro hdet
      obtain ⟨hnum, htidy⟩ := h.free hi (hdet c hi)
      exact ⟨htidy.accounted, fun _ _ _ _ _ _ => hnum⟩

theorem Tidy.step (h : s.Tidy) {a : CacheCall} (hg : FreesDetached s a) (hs : s.step a = some s') :
    s'.Tidy := by
  cases a with
  | construct arena =>
    obtain rfl := Option.some.inj hs
    exact h.construct arena
  | free i f =>
    obtain ⟨c, hi, rfl⟩ := Option.map_eq_some_iff.mp hs
    exact (h.free hi (hg c hi)).2

theorem tidy_init : ({} : CacheCounts).Tidy where
  accounted := fun _ => rfl
  flag := nofun
  detached := nofun

end CacheCounts

/-- The counts are right all along a run exactly when `free` is called on no cache of an arena. -/
theorem accounted_iff_freesDetached (calls : List CacheCall) :
    cacheMachine.Along CacheCounts.StepAccounted {} calls ↔
      cacheMachine.Along (fun s a _ => CacheCounts.FreesDetached s a) {} calls :=
  System.along_iff (fun _ _ _ h hs => h.step_iff hs) (fun _ _ _ h hg hs => h.step hg hs) calls
    CacheCounts.tidy_init

/-- One cache is freed twice: the first call leaves the count at one, the second takes it to zero. -/
theorem not_accounted_after_free :
    ¬ cacheMachine.Along CacheCounts.StepAccounted {}
      [.construct (some 0), .free 0 true, .free 0 true] := by
  intro h
  obtain ⟨-, h⟩ := h _ rfl
  obtain ⟨⟨hacc, -⟩, -⟩ := h _ rfl
  exact absurd (hacc 0) (by decide)

/-! ## Choosing an arena -/

/-- Where a thread is in `initialValue`. The lock is held from `begin` to the end of the scan. -/
inductive InitPc
  | idle
  | scan (i minArena : ℕ)
  | compare (i minArena : ℕ) (count : ℕ)
  | bound (arena : Option ℕ)
  | done
  deriving DecidableEq, Repr

/-- `numThreadCaches` is the counter of each arena, `lock` the thread that holds
`m_lockThreadcache`. -/
structure Binding where
  numThreadCaches : ℕ → ℕ
  lock : Option ℕ
  pc : List InitPc

inductive InitStep
  | begin (t : ℕ)
  | load (t : ℕ)
  | test (t : ℕ)
  | construct (t : ℕ)
  deriving DecidableEq, Repr

namespace Binding

def goto (s : Binding) (t : ℕ) (pc : InitPc) (lock : Option ℕ) : Binding :=
  { s with pc := s.pc.set t pc, lock := lock }

/-- `initialValue` on `n` arenas, one load of a counter at a time: `load` reads the counter of
`arenas[i]`, `test` the one of `minArena`. -/
def step (n : ℕ) (s : Binding) : InitStep → Option Binding
  | .begin t =>
    match s.pc[t]?, s.lock with
    | some .idle, none =>
      if n = 0 then some (s.goto t (.bound none) none) else some (s.goto t (.scan 1 0) (some t))
    | _, _ => none
  | .load t =>
    match s.pc[t]? with
    | some (.scan i minArena) =>
      if i < n then some (s.goto t (.compare i minArena (s.numThreadCaches i)) s.lock)
      else some (s.goto t (.bound (some minArena)) none)
    | _ => none
  | .test t =>
    match s.pc[t]? with
    | some (.compare i minArena count) =>
      if count < s.numThreadCaches minArena then some (s.goto t (.scan (i + 1) i) s.lock)
      else some (s.goto t (.scan (i + 1) minArena) s.lock)
    | _ => none
  | .construct t =>
    match s.pc[t]? with
    | some (.bound none) => some (s.goto t .done s.lock)
    | some (.bound (some a)) =>
      some { s.goto t .done s.lock with
        numThreadCaches := Function.update s.numThreadCaches a (s.numThreadCaches a + 1) }
    | _ => none

def Balanced (n : ℕ) (s : Binding) : Prop :=
  ∀ a < n, ∀ b < n, s.numThreadCaches a ≤ s.numThreadCaches b + 1

def Finished (s : Binding) : Prop := ∀ pc ∈ s.pc, pc = .idle ∨ pc = .done

end Binding

def InitPc.isBound : InitPc → Bool
  | .bound _ => true
  | _ => false

/-- No thread begins while another has chosen an arena that does not count it yet. -/
def Binding.CountedFirst (s : Binding) : InitStep → Prop
  | .begin _ => ∀ pc ∈ s.pc, pc.isBound = false
  | _ => True

def bindingMachine (n : ℕ) : System Binding InitStep where
  init s := ∃ threads, s = ⟨fun _ => 0, none, List.replicate threads .idle⟩
  step := Binding.step n

def InitPc.active : InitPc → Bool
  | .idle => false
  | .done => false
  | _ => true

def InitPc.Knows (n : ℕ) (count : ℕ → ℕ) : InitPc → Prop
  | .scan i m => m < n ∧ i ≤ n ∧ ∀ j < i, count m ≤ count j
  | .compare i m v => m < n ∧ i < n ∧ v = count i ∧ ∀ j < i, count m ≤ count j
  | .bound (some m) => m < n ∧ ∀ j < n, count m ≤ count j
  | _ => True

/-- Only thread `t` may be between its `begin` and its `construct`. -/
def Binding.Alone (s : Binding) (t : ℕ) : Prop :=
  ∀ u pc, s.pc[u]? = some pc → pc.active = true → u = t

structure BindingInv (n : ℕ) (s : Binding) : Prop where
  balanced : s.Balanced n
  knows : ∀ pc ∈ s.pc, pc.Knows n s.numThreadCaches
  alone : ∀ t pc, s.pc[t]? = some pc → pc.active = true → s.Alone t
  lock : ∀ t pc, s.pc[t]? = some pc → pc.active = true → pc.isBound = false → s.lock = some t

namespace BindingInv

variable {n : ℕ} {s s' : Binding} {t : ℕ}

theorem goto (h : BindingInv n s) (ht : s.Alone t) (pc : InitPc) (hk : pc.Knows n s.numThreadCaches)
    (lock : Option ℕ) (hl : pc.active = true → pc.isBound = false → lock = some t) :
    BindingInv n (s.goto t pc lock) := by
  have hget : ∀ u p, (s.pc.set t pc)[u]? = some p → (u = t ∧ p = pc) ∨ (u ≠ t ∧ s.pc[u]? = some p) := by
    intro u p hu
    rw [List.getElem?_set] at hu
    split_ifs at hu with h1 h2
    · exact .inl ⟨h1.symm, (Option.some.inj hu).symm⟩
    · exact .inr ⟨fun he => h1 he.symm, hu⟩
  have halone : (s.goto t pc lock).Alone t := by
    intro u p hu hact
    rcases hget u p hu with ⟨rfl, -⟩ | ⟨-, hu⟩
    · rfl
    · exact ht u p hu hact
  constructor
  · exact h.balanced
  · intro p hp
    rcases List.mem_or_eq_of_mem_set hp with hp | rfl
    · exact h.knows p hp
    · exact hk
  · intro u p hu hact
    rw [halone u p hu hact]
    exact halone
  · intro u p hu hact hb
    rcases hget u p hu with ⟨rfl, rfl⟩ | ⟨hne, hu⟩
    · exact hl hact hb
    · exact absurd (ht u p hu hact) hne

theorem count (h : BindingInv n s) (hq : ∀ pc ∈ s.pc, pc.active = false) {a : ℕ}
    (hmin : ∀ j < n, s.numThreadCaches a ≤ s.numThreadCaches j) :
    BindingInv n
      { s with numThreadCaches := Function.update s.numThreadCaches a (s.numThreadCaches a + 1) } where
  balanced := by
    intro b hb c hc
    have h1 := h.balanced b hb c hc
    have h2 := hmin c hc
    simp only [Function.update_apply]
    split_ifs with hba hca hca
    · omega
    · omega
    · subst hca
      omega
    · exact h1
  knows := by
    intro pc hpc
    have hact := hq pc hpc
    cases pc with
    | idle => trivial
    | done => trivial
    | scan => cases hact
    | compare => cases hact
    | bound => cases hact
  alone := h.alone
  lock := h.lock

theorem alone_of_unlocked (h : BindingInv n s) (hg : ∀ pc ∈ s.pc, pc.isBound = false)
    (hlock : s.lock = none) (t : ℕ) : s.Alone t := by
  intro u pc hu hact
  have hl := h.lock u pc hu hact (hg pc (List.mem_of_getElem? hu))
  rw [hlock] at hl
  cases hl

theorem begins (h : BindingInv n s) (hg : s.CountedFirst (.begin t))
    (hs : s.step n (.begin t) = some s') : BindingInv n s' := by
  simp only [Binding.step] at hs
  split at hs
  case h_2 => cases hs
  case h_1 hpc hlock =>
    have ht := h.alone_of_unlocked hg hlock t
    split_ifs at hs with hn
    · obtain rfl := Option.some.inj hs
      exact h.goto ht (.bound none) trivial none nofun
    · obtain rfl := Option.some.inj hs
      refine h.goto ht (.scan 1 0) ⟨by omega, by omega, fun j hj => ?_⟩ (some t) fun _ _ => rfl
      obtain rfl : j = 0 := by omega
      exact Nat.le_refl _

theorem loads (h : BindingInv n s) (hs : s.step n (.load t) = some s') : BindingInv n s' := by
  simp only [Binding.step] at hs
  split at hs
  case h_2 => cases hs
  case h_1 i m hpc =>
    have ht := h.alone t _ hpc rfl
    have hlock := h.lock t _ hpc rfl rfl
    obtain ⟨hm, hi, hmin⟩ := h.knows _ (List.mem_of_getElem? hpc)
    split_ifs at hs with hlt
    · obtain rfl := Option.some.inj hs
      exact h.goto ht (.compare i m _) ⟨hm, hlt, rfl, hmin⟩ s.lock fun _ _ => hlock
    · obtain rfl := Option.some.inj hs
      obtain rfl : i = n := by omega
      exact h.goto ht (.bound (some m)) ⟨hm, hmin⟩ none nofun

theorem tests (h : BindingInv n s) (hs : s.step n (.test t) = some s') : BindingInv n s' := by
  simp only [Binding.step] at hs
  split at hs
  case h_2 => cases hs
  case h_1 i m v hpc =>
    have ht := h.alone t _ hpc rfl
    have hlock := h.lock t _ hpc rfl rfl
    obtain ⟨hm, hi, rfl, hmin⟩ := h.knows _ (List.mem_of_getElem? hpc)
    split_ifs at hs with hlt
    · obtain rfl := Option.some.inj hs
      refine h.goto ht (.scan (i + 1) i) ⟨hi, hi, fun j hj => ?_⟩ s.lock fun _ _ => hlock
      rcases Nat.lt_succ_iff_lt_or_eq.mp hj with hj | rfl
      · exact Nat.le_trans (Nat.le_of_lt hlt) (hmin j hj)
      · exact Nat.le_refl _
    · obtain rfl := Option.some.inj hs
      refine h.goto ht (.scan (i + 1) m) ⟨hm, hi, fun j hj => ?_⟩ s.lock fun _ _ => hlock
      rcases Nat.lt_succ_iff_lt_or_eq.mp hj with hj | rfl
      · exact hmin j hj
      · exact Nat.le_of_not_lt hlt

theorem constructs (h : BindingInv n s) (hs : s.step n (.construct t) = some s') : BindingInv n s' := by
  simp only [Binding.step] at hs
  split at hs
  case h_3 => cases hs
  case h_1 hpc =>
    obtain rfl := Option.some.inj hs
    exact h.goto (h.alone t _ hpc rfl) .done trivial s.lock nofun
  case h_2 a hpc =>
    have ht := h.alone t _ hpc rfl
    have hk := h.knows _ (List.mem_of_getElem? hpc)
    obtain rfl := Option.some.inj hs
    refine (h.goto ht .done trivial s.lock nofun).count (fun pc hmem => ?_) hk.2
    obtain ⟨u, hu⟩ := List.mem_iff_getElem?.mp hmem
    simp only [Binding.goto, List.getElem?_set] at hu
    split_ifs at hu with h1 h2
    · obtain rfl := Option.some.inj hu
      rfl
    · exact Bool.eq_false_iff.mpr fun hact => h1 (ht u pc hu hact).symm

theorem init (threads : ℕ) : BindingInv n ⟨fun _ => 0, none, List.replicate threads .idle⟩ where
  balanced := by simp [Binding.Balanced]
  knows := by
    intro pc hpc
    rw [List.eq_of_mem_replicate hpc]
    trivial
  alone := by
    intro t pc ht hact
    rw [List.eq_of_mem_replicate (List.mem_of_getElem? ht)] at hact
    cases hact
  lock := by
    intro t pc ht hact
    rw [List.eq_of_mem_replicate (List.mem_of_getElem? ht)] at hact
    cases hact

theorem reach (h : (bindingMachine n).Reach Binding.CountedFirst s) : BindingInv n s := by
  refine h.invariant (fun s hs => ?_) fun s a s' hi hg hs => ?_
  · obtain ⟨threads, rfl⟩ := hs
    exact init threads
  · cases a with
    | begin t => exact hi.begins hg hs
    | load t => exact hi.loads hs
    | test t => exact hi.tests hs
    | construct t => exact hi.constructs hs

end BindingInv

theorem balanced_of_countedFirst (n : ℕ) (s : Binding)
    (h : (bindingMachine n).Reach Binding.CountedFirst s) (_ : s.Finished) : s.Balanced n :=
  (BindingInv.reach h).balanced

instance (s : Binding) (a : InitStep) : Decidable (s.CountedFirst a) :=
  match a with
  | .begin _ => inferInstanceAs (Decidable (∀ pc ∈ s.pc, pc.isBound = false))
  | .load _ => isTrue trivial
  | .test _ => isTrue trivial
  | .construct _ => isTrue trivial

instance (s : Binding) : Decidable s.Finished :=
  inferInstanceAs (Decidable (∀ pc ∈ s.pc, pc = .idle ∨ pc = .done))

instance (n : ℕ) (s : Binding) : Decidable (s.Balanced n) :=
  inferInstanceAs (Decidable (∀ a < n, ∀ b < n, s.numThreadCaches a ≤ s.numThreadCaches b + 1))

/-- Two threads, one after the other, on two arenas. -/
theorem balanced_in_turn : ∃ s, (bindingMachine 2).Reach Binding.CountedFirst s ∧ s.Finished ∧
    s.numThreadCaches 1 = 1 ∧ s.Balanced 2 := by
  obtain ⟨s, -, hreach, hp⟩ := System.exists_reach (M := bindingMachine 2) (G := Binding.CountedFirst)
    (s := ⟨fun _ => 0, none, List.replicate 2 .idle⟩)
    [.begin 0, .load 0, .test 0, .load 0, .construct 0, .begin 1, .load 1, .test 1, .load 1,
      .construct 1] (fun s => decide (s.Finished ∧ s.numThreadCaches 1 = 1)) ⟨2, rfl⟩ (by decide)
  obtain ⟨hfin, hone⟩ := of_decide_eq_true hp
  exact ⟨s, hreach, hfin, hone, balanced_of_countedFirst 2 s hreach hfin⟩

/-- The second thread begins before the first is counted: both are bound to arena 0. -/
theorem unbalanced_after_race : ∃ s, (bindingMachine 2).Reach System.Free s ∧ s.Finished ∧
    s.numThreadCaches 0 = 2 ∧ s.numThreadCaches 1 = 0 ∧ ¬ s.Balanced 2 := by
  obtain ⟨s, -, hreach, hp⟩ := System.exists_reach (M := bindingMachine 2) (G := System.Free)
    (s := ⟨fun _ => 0, none, List.replicate 2 .idle⟩)
    [.begin 0, .load 0, .test 0, .load 0, .begin 1, .load 1, .test 1, .load 1, .construct 0,
      .construct 1] (fun s => decide (s.Finished ∧ s.numThreadCaches 0 = 2 ∧ s.numThreadCaches 1 = 0 ∧
      ¬ s.Balanced 2)) ⟨2, rfl⟩ (by decide)
  exact ⟨s, hreach, of_decide_eq_true hp⟩

end Mutty.Buffer
