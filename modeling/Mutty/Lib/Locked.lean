import Mathlib.Logic.Function.Basic
import Mutty.Lib.Transition

/-!
# An object behind a lock

Any number of threads call operations on one object. An operation spins until it has the lock,
takes its steps on the object one by one, and gives the lock back. What a step reads from outside
the object (a clock, the choice among equals) is its input. `Serial` runs the operations of a list
one after another, each as a whole; in every run of the threads the completed calls, in the order
of their returns, are such a list.
-/

namespace Mutty.Lib

/-- An operation `ω` begins in a state `κ` of its own; a step leads to the next one or to the
result. -/
structure Section (σ ω ι κ ρ : Type) where
  start : ω → κ
  step : κ → σ → ι → Option ((κ ⊕ ρ) × σ)

structure Call (ω ι ρ : Type) where
  thread : ℕ
  op : ω
  inputs : List ι
  result : ρ

namespace Section

variable {σ ω ι κ ρ : Type} (sec : Section σ ω ι κ ρ)

/-- The operation at `k` with these inputs and no other thread in between. -/
def exec : κ → σ → List ι → Option ((κ ⊕ ρ) × σ)
  | k, s, [] => some (.inl k, s)
  | k, s, i :: is =>
    match sec.step k s i with
    | none => none
    | some (.inl k', s') => exec k' s' is
    | some (.inr r, s') => if is.isEmpty then some (.inr r, s') else none

inductive Serial : σ → List (Call ω ι ρ) → σ → Prop
  | nil (s : σ) : Serial s [] s
  | snoc {s s' s'' : σ} {calls : List (Call ω ι ρ)} {c : Call ω ι ρ} : Serial s calls s' →
      sec.exec (sec.start c.op) s' c.inputs = some (.inr c.result, s'') → Serial s (calls ++ [c]) s''

variable {sec}

theorem exec_concat {k k' : κ} {s s' : σ} {is : List ι} (h : sec.exec k s is = some (.inl k', s'))
    (i : ι) : sec.exec k s (is ++ [i]) = sec.step k' s' i := by
  induction is generalizing k s with
  | nil =>
    obtain ⟨hk, hs⟩ := Prod.mk.inj (Option.some.inj h)
    rw [← hs, ← Sum.inl.inj hk, List.nil_append]
    simp only [exec]
    split
    · rename_i hstep
      rw [hstep]
    · rename_i hstep
      rw [hstep]
    · rename_i hstep
      rw [hstep]
      rfl
  | cons j is ih =>
    simp only [exec] at h
    rw [List.cons_append]
    split at h
    · cases h
    · rename_i hstep
      simp only [exec, hstep]
      exact ih h
    · split_ifs at h
      cases h

/-- What every step keeps, in terms of the inputs read so far, holds where the operation stands. -/
theorem exec_keeps {R : List ι → κ ⊕ ρ → σ → Prop}
    (hR : ∀ is k s i next s', R is (.inl k) s → sec.step k s i = some (next, s') →
      R (is ++ [i]) next s')
    {k : κ} {s s' : σ} {is : List ι} {next : κ ⊕ ρ} (h : sec.exec k s is = some (next, s'))
    (hk : R [] (.inl k) s) : R is next s' := by
  suffices hgen : ∀ before, R before (.inl k) s → R (before ++ is) next s' from hgen [] hk
  clear hk
  induction is generalizing k s with
  | nil =>
    intro before hbefore
    obtain ⟨rfl, rfl⟩ := Prod.mk.inj (Option.some.inj h)
    simpa using hbefore
  | cons i is ih =>
    intro before hbefore
    simp only [exec] at h
    split at h
    · cases h
    · rename_i hstep
      have hnext := ih h _ (hR before _ _ i _ _ hbefore hstep)
      simpa using hnext
    · rename_i hstep
      split_ifs at h with hlast
      obtain ⟨rfl, rfl⟩ := Prod.mk.inj (Option.some.inj h)
      rw [List.isEmpty_iff.mp hlast]
      exact hR before _ _ i _ _ hbefore hstep

end Section

/-- Where a thread is; `op` and `inputs` record the call it is in. -/
inductive Place (ω ι κ ρ : Type)
  | outside
  | spinning (op : ω)
  | inside (op : ω) (inputs : List ι) (k : κ)
  | leaving (op : ω) (inputs : List ι) (result : ρ)

structure Locked (σ ω ι κ ρ : Type) where
  object : σ
  /-- the thread that has set the flag of the lock -/
  holder : Option ℕ
  place : ℕ → Place ω ι κ ρ
  /-- the completed calls in the order of their returns -/
  calls : List (Call ω ι ρ)

inductive LockAction (ω ι : Type)
  | call (thread : ℕ) (op : ω)
  | acquire (thread : ℕ)
  | step (thread : ℕ) (input : ι)
  | release (thread : ℕ)

namespace Locked

variable {σ ω ι κ ρ : Type}

def goto (s : Locked σ ω ι κ ρ) (t : ℕ) (p : Place ω ι κ ρ) : Locked σ ω ι κ ρ :=
  { s with place := Function.update s.place t p }

/-- A failed `compare_exchange` changes nothing and is no step here. -/
def run (sec : Section σ ω ι κ ρ) (s : Locked σ ω ι κ ρ) : LockAction ω ι → Option (Locked σ ω ι κ ρ)
  | .call t op =>
    match s.place t with
    | .outside => some (s.goto t (.spinning op))
    | _ => none
  | .acquire t =>
    match s.place t, s.holder with
    | .spinning op, none =>
      some { s.goto t (.inside op [] (sec.start op)) with holder := some t }
    | _, _ => none
  | .step t i =>
    match s.place t with
    | .inside op inputs k =>
      match sec.step k s.object i with
      | none => none
      | some (.inl k', object) => some { s.goto t (.inside op (inputs ++ [i]) k') with object }
      | some (.inr r, object) => some { s.goto t (.leaving op (inputs ++ [i]) r) with object }
    | _ => none
  | .release t =>
    match s.place t with
    | .leaving op inputs r =>
      some { s.goto t .outside with holder := none, calls := s.calls ++ [⟨t, op, inputs, r⟩] }
    | _ => none

end Locked

def lockMachine {σ ω ι κ ρ : Type} (sec : Section σ ω ι κ ρ) (init : σ → Prop) :
    System (Locked σ ω ι κ ρ) (LockAction ω ι) where
  init s := ∃ object, init object ∧ s = ⟨object, none, fun _ => .outside, []⟩
  step := Locked.run sec

namespace Locked

variable {σ ω ι κ ρ : Type} {sec : Section σ ω ι κ ρ} {init : σ → Prop} {s s' : Locked σ ω ι κ ρ}

/-- What a thread holding the lock has done to the object since it was `base`. -/
def Progress (sec : Section σ ω ι κ ρ) (base object : σ) : Place ω ι κ ρ → Prop
  | .inside op inputs k => sec.exec (sec.start op) base inputs = some (.inl k, object)
  | .leaving op inputs r => sec.exec (sec.start op) base inputs = some (.inr r, object)
  | _ => False

/-- The object was `base` when the lock was last free; only its holder has touched it since. -/
structure Serialized (sec : Section σ ω ι κ ρ) (init : σ → Prop) (s : Locked σ ω ι κ ρ) (base : σ) :
    Prop where
  serial : ∃ first, init first ∧ sec.Serial first s.calls base
  free : s.holder = none → s.object = base
  held : ∀ t, s.holder = some t → Progress sec base s.object (s.place t)
  holds : ∀ t, s.holder ≠ some t → s.place t = .outside ∨ ∃ op, s.place t = .spinning op

namespace Serialized

variable {base : σ}

theorem holder_of {t : ℕ} (h : Serialized sec init s base) (hout : s.place t ≠ .outside)
    (hspin : ∀ op, s.place t ≠ .spinning op) : s.holder = some t := by
  by_contra hne
  rcases h.holds t hne with hp | ⟨op, hp⟩
  · exact hout hp
  · exact hspin op hp

theorem goto_waiting {t : ℕ} {op : ω} (h : Serialized sec init s base)
    (hout : s.place t = .outside) : Serialized sec init (s.goto t (.spinning op)) base := by
  have hne : s.holder ≠ some t := by
    intro ht
    have hprogress := h.held t ht
    rw [hout] at hprogress
    exact hprogress
  refine ⟨h.serial, h.free, ?_, ?_⟩
  · intro u hu
    have hut : u ≠ t := by
      rintro rfl
      exact hne hu
    simp only [goto, Function.update_of_ne hut]
    exact h.held u hu
  · intro u hu
    by_cases hut : u = t
    · exact Or.inr ⟨op, by simp [goto, hut]⟩
    · simp only [goto, Function.update_of_ne hut]
      exact h.holds u hu

theorem acquire {t : ℕ} {op : ω} (h : Serialized sec init s base) (hfree : s.holder = none) :
    Serialized sec init { s.goto t (.inside op [] (sec.start op)) with holder := some t } base := by
  refine ⟨h.serial, by simp, ?_, ?_⟩
  · intro u hu
    obtain rfl := Option.some.inj hu
    simp [goto, Progress, Section.exec, h.free hfree]
  · intro u hu
    have hut : u ≠ t := fun heq => hu (by rw [heq])
    simp only [goto, Function.update_of_ne hut]
    exact h.holds u (by simp [hfree])

theorem progress {t : ℕ} {p : Place ω ι κ ρ} {object : σ} (h : Serialized sec init s base)
    (ht : s.holder = some t) (hp : Progress sec base object p) :
    Serialized sec init { s.goto t p with object } base := by
  refine ⟨h.serial, ?_, ?_, ?_⟩
  · intro hfree
    rw [show s.holder = none from hfree] at ht
    cases ht
  · intro u hu
    obtain rfl : t = u := Option.some.inj (ht.symm.trans hu)
    simpa [goto] using hp
  · intro u hu
    have hut : u ≠ t := by
      rintro rfl
      exact hu ht
    simp only [goto, Function.update_of_ne hut]
    exact h.holds u hu

theorem release {t : ℕ} {op : ω} {inputs : List ι} {r : ρ} (h : Serialized sec init s base)
    (hp : s.place t = .leaving op inputs r) :
    Serialized sec init
      { s.goto t .outside with holder := none, calls := s.calls ++ [⟨t, op, inputs, r⟩] }
      s.object := by
  have ht := h.holder_of (t := t) (by simp [hp]) (by simp [hp])
  have hprogress := h.held t ht
  rw [hp] at hprogress
  obtain ⟨first, hfirst, hserial⟩ := h.serial
  refine ⟨⟨first, hfirst, .snoc hserial hprogress⟩, fun _ => rfl, by simp, ?_⟩
  intro u _
  by_cases hut : u = t
  · exact Or.inl (by simp [goto, hut])
  · simp only [goto, Function.update_of_ne hut]
    refine h.holds u ?_
    rw [ht]
    exact fun heq => hut (Option.some.inj heq).symm

theorem step {a : LockAction ω ι} (h : Serialized sec init s base) (hstep : s.run sec a = some s') :
    ∃ base', Serialized sec init s' base' := by
  cases a with
  | call t op =>
    simp only [run] at hstep
    split at hstep
    · rename_i hp
      rw [← Option.some.inj hstep]
      exact ⟨base, h.goto_waiting hp⟩
    · cases hstep
  | acquire t =>
    simp only [run] at hstep
    split at hstep
    · rename_i hfree
      rw [← Option.some.inj hstep]
      exact ⟨base, h.acquire hfree⟩
    · cases hstep
  | step t i =>
    simp only [run] at hstep
    split at hstep
    · rename_i op inputs k hp
      have ht := h.holder_of (t := t) (by simp [hp]) (by simp [hp])
      have hprogress := h.held t ht
      rw [hp] at hprogress
      have hexec := Section.exec_concat hprogress i
      split at hstep
      · cases hstep
      · rename_i hmove
        rw [← Option.some.inj hstep]
        exact ⟨base, h.progress ht (hexec.trans hmove)⟩
      · rename_i hmove
        rw [← Option.some.inj hstep]
        exact ⟨base, h.progress ht (hexec.trans hmove)⟩
    · cases hstep
  | release t =>
    simp only [run] at hstep
    split at hstep
    · rename_i hp
      rw [← Option.some.inj hstep]
      exact ⟨s.object, h.release hp⟩
    · cases hstep

/-- No deadlock: while some thread is in a call, one of the steps inside the lock, or around it, is
enabled. -/
theorem exists_step {t : ℕ} (h : Serialized sec init s base)
    (hsec : ∀ op inputs k object, sec.exec (sec.start op) base inputs = some (.inl k, object) →
      ∃ i, (sec.step k object i).isSome)
    (ht : s.place t ≠ .outside) : ∃ a, (∀ u op, a ≠ .call u op) ∧ (s.run sec a).isSome := by
  cases hholder : s.holder with
  | none =>
    rcases h.holds t (by simp [hholder]) with hp | ⟨op, hp⟩
    · exact absurd hp ht
    · exact ⟨.acquire t, by simp, by simp [run, hp, hholder]⟩
  | some u =>
    have hprogress := h.held u hholder
    cases hp : s.place u with
    | outside =>
      rw [hp] at hprogress
      exact hprogress.elim
    | spinning op =>
      rw [hp] at hprogress
      exact hprogress.elim
    | leaving op inputs r => exact ⟨.release u, by simp, by simp [run, hp]⟩
    | inside op inputs k =>
      rw [hp] at hprogress
      obtain ⟨i, hi⟩ := hsec op inputs k s.object hprogress
      obtain ⟨⟨next, object⟩, hstep⟩ := Option.isSome_iff_exists.mp hi
      cases next with
      | inl k' => exact ⟨.step u i, by simp, by simp [run, hp, hstep]⟩
      | inr r => exact ⟨.step u i, by simp, by simp [run, hp, hstep]⟩

theorem reach {G : Locked σ ω ι κ ρ → LockAction ω ι → Prop}
    (h : System.Reach (lockMachine sec init) G s) : ∃ base, Serialized sec init s base := by
  induction h with
  | init hinit =>
    obtain ⟨object, hobject, rfl⟩ := hinit
    exact ⟨object, ⟨object, hobject, .nil object⟩, fun _ => rfl, by simp, fun _ _ => Or.inl rfl⟩
  | step _ _ hstep ih =>
    obtain ⟨base, hbase⟩ := ih
    exact hbase.step hstep

end Serialized
end Locked
end Mutty.Lib
