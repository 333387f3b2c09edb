import Mathlib.Order.Defs.Unbundled
import Mutty.Lib.Checked

/-!
# Programs with a state and faults

`Prog σ α` is a piece of code over a state `σ` that ends with a value and a new state, or stops at
a fault. Each construct has an equivalence that says when it ends and how, so that a completed run
is taken apart from its first step on. `Within R x` says that every completed run of `x` leads from
a state to one related to it by `R`; for a preorder it is proved construct by construct.
`Ends x s Q` says that a run of `x` from `s`, if it is completed, ends with `Q`; its rules follow the
program, with what comes after a step inside the postcondition. `Safe E x s` says that the run stops
only at faults in `E`, and rests on `Ends` for what holds in between.
-/

namespace Mutty.Lib

abbrev Prog (σ α : Type) := StateT σ (Except Fault) α

namespace Prog

variable {σ α β : Type} {s s' : σ}

/-- A computation that does not touch the state. -/
def check (x : Checked α) : Prog σ α := fun s =>
  match x with
  | .ok a => .ok (a, s)
  | .error e => .error e

def fail (e : Fault) : Prog σ α := check (.error e)

def assert (p : Prop) [Decidable p] : Prog σ Unit := check (require p)

def when (p : Prop) [Decidable p] (x : Prog σ Unit) : Prog σ Unit := if p then x else pure ()

def look (f : σ → α) : Prog σ α := fun s => .ok (f s, s)

def update (f : σ → σ) : Prog σ Unit := fun s => .ok ((), f s)

theorem bind_ok {x : Prog σ α} {f : α → Prog σ β} {b : β} :
    (x >>= f) s = .ok (b, s') ↔ ∃ a s₁, x s = .ok (a, s₁) ∧ f a s₁ = .ok (b, s') := by
  change (x s >>= fun p => f p.1 p.2) = .ok (b, s') ↔ _
  rw [bind_eq_ok]
  constructor
  · rintro ⟨⟨a, s₁⟩, hx, hf⟩
    exact ⟨a, s₁, hx, hf⟩
  · rintro ⟨a, s₁, hx, hf⟩
    exact ⟨(a, s₁), hx, hf⟩

theorem run_bind {x : Prog σ α} {f : α → Prog σ β} {a : α} (h : x s = .ok (a, s')) :
    (x >>= f) s = f a s' := by
  change (x s >>= fun p => f p.1 p.2) = _
  rw [h]
  rfl

theorem run_bind_error {x : Prog σ α} {f : α → Prog σ β} {e : Fault} (h : x s = .error e) :
    (x >>= f) s = .error e := by
  change (x s >>= fun p => f p.1 p.2) = _
  rw [h]
  rfl

@[simp] theorem pure_ok {a b : α} : (pure a : Prog σ α) s = .ok (b, s') ↔ b = a ∧ s' = s := by
  change (Except.ok (a, s) : Checked _) = .ok (b, s') ↔ _
  rw [Except.ok.injEq, Prod.mk.injEq, eq_comm, @eq_comm _ s]

@[simp] theorem check_ok {x : Checked α} {a : α} :
    (check x : Prog σ α) s = .ok (a, s') ↔ x = .ok a ∧ s' = s := by
  cases x with
  | error e => simp [check]
  | ok b => simp [check, eq_comm]

@[simp] theorem fail_ok {e : Fault} {a : α} : ¬ (fail e : Prog σ α) s = .ok (a, s') := by
  simp [fail]

@[simp] theorem assert_ok {p : Prop} [Decidable p] {u : Unit} :
    (assert p : Prog σ Unit) s = .ok (u, s') ↔ p ∧ s' = s := by
  simp [assert]

@[simp] theorem look_ok {f : σ → α} {a : α} :
    (look f : Prog σ α) s = .ok (a, s') ↔ a = f s ∧ s' = s := by
  rw [look, Except.ok.injEq, Prod.mk.injEq, eq_comm, @eq_comm _ s]

@[simp] theorem update_ok {f : σ → σ} {u : Unit} :
    (update f : Prog σ Unit) s = .ok (u, s') ↔ s' = f s := by
  rw [update, Except.ok.injEq, Prod.mk.injEq, eq_comm (a := f s)]
  simp

/-! ### Relating the states before and after -/

def Within (R : σ → σ → Prop) (x : Prog σ α) : Prop := ∀ s a s', x s = .ok (a, s') → R s s'

section

variable {R : σ → σ → Prop} [IsPreorder σ R]

theorem within_pure (a : α) : Within R (pure a : Prog σ α) := by
  intro s b s' h
  rw [(pure_ok.mp h).2]
  exact refl_of R s

theorem within_check (x : Checked α) : Within R (check x : Prog σ α) := by
  intro s b s' h
  rw [(check_ok.mp h).2]
  exact refl_of R s

theorem within_fail (e : Fault) : Within R (fail e : Prog σ α) := within_check _

theorem within_assert (p : Prop) [Decidable p] : Within R (assert p : Prog σ Unit) :=
  within_check _

theorem within_look (f : σ → α) : Within R (look f : Prog σ α) := by
  intro s b s' h
  rw [(look_ok.mp h).2]
  exact refl_of R s

theorem Within.bind {x : Prog σ α} {f : α → Prog σ β} (hx : Within R x)
    (hf : ∀ a, Within R (f a)) : Within R (x >>= f) := by
  intro s b s' h
  obtain ⟨a, s₁, h₁, h₂⟩ := bind_ok.mp h
  exact trans_of R (hx s a s₁ h₁) (hf a s₁ b s' h₂)

end

theorem Within.ite {R : σ → σ → Prop} {p : Prop} [Decidable p] {x y : Prog σ α} (hx : Within R x)
    (hy : Within R y) : Within R (if p then x else y) := by
  split_ifs
  · exact hx
  · exact hy

theorem Within.mono {R S : σ → σ → Prop} {x : Prog σ α} (h : Within R x)
    (hRS : ∀ s s', R s s' → S s s') : Within S x := fun s a s' hs => hRS s s' (h s a s' hs)

theorem within_update {R : σ → σ → Prop} {f : σ → σ} (h : ∀ s, R s (f s)) :
    Within R (update f) := by
  intro s b s' hs
  rw [update_ok.mp hs]
  exact h s

/-! ### Postconditions -/

def Ends (x : Prog σ α) (s : σ) (Q : α → σ → Prop) : Prop := ∀ a s', x s = .ok (a, s') → Q a s'

variable {Q R : α → σ → Prop}

theorem Ends.mono {x : Prog σ α} (h : Ends x s Q) (hQ : ∀ a s', Q a s' → R a s') : Ends x s R :=
  fun a s' hs => hQ a s' (h a s' hs)

theorem Ends.of_eq {x y : Prog σ α} (hxy : x s = y s') (h : Ends y s' Q) : Ends x s Q :=
  fun a s₁ hs => h a s₁ (hxy ▸ hs)

theorem Ends.and {x : Prog σ α} (h : Ends x s Q) (h' : Ends x s R) :
    Ends x s fun a s' => Q a s' ∧ R a s' := fun a s' hs => ⟨h a s' hs, h' a s' hs⟩

theorem Within.ends {S : σ → σ → Prop} {x : Prog σ α} (h : Within S x) (s : σ) :
    Ends x s fun _ s' => S s s' := h s

theorem ends_bind {x : Prog σ α} {f : α → Prog σ β} {Q : β → σ → Prop}
    (h : Ends x s fun a s₁ => Ends (f a) s₁ Q) : Ends (x >>= f) s Q := by
  intro b s' hs
  obtain ⟨a, s₁, hx, hf⟩ := bind_ok.mp hs
  exact h a s₁ hx b s' hf

theorem ends_pure {a : α} (h : Q a s) : Ends (pure a) s Q := by
  intro b s' hs
  obtain ⟨rfl, rfl⟩ := pure_ok.mp hs
  exact h

theorem ends_check {x : Checked α} (h : ∀ a, x = .ok a → Q a s) : Ends (check x) s Q := by
  intro b s' hs
  obtain ⟨hx, rfl⟩ := check_ok.mp hs
  exact h b hx

theorem ends_fail (e : Fault) : Ends (fail e) s Q := fun _ _ hs => absurd hs fail_ok

theorem ends_assert {p : Prop} [Decidable p] {Q : Unit → σ → Prop} (h : p → Q () s) :
    Ends (assert p) s Q := by
  intro b s' hs
  obtain ⟨hp, rfl⟩ := assert_ok.mp hs
  exact h hp

theorem ends_look {f : σ → α} (h : Q (f s) s) : Ends (look f) s Q := by
  intro b s' hs
  obtain ⟨rfl, rfl⟩ := look_ok.mp hs
  exact h

theorem ends_update {f : σ → σ} {Q : Unit → σ → Prop} (h : Q () (f s)) : Ends (update f) s Q := by
  intro b s' hs
  obtain rfl := update_ok.mp hs
  exact h

theorem ends_ite {p : Prop} [Decidable p] {x y : Prog σ α} (hx : p → Ends x s Q)
    (hy : ¬ p → Ends y s Q) : Ends (if p then x else y) s Q := by
  split_ifs with h
  · exact hx h
  · exact hy h

theorem ends_when {p : Prop} [Decidable p] {x : Prog σ Unit} {Q : Unit → σ → Prop}
    (hx : p → Ends x s Q) (hy : ¬ p → Q () s) : Ends (when p x) s Q :=
  ends_ite hx fun h => ends_pure (hy h)

/-! ### Faults -/

def Safe (E : Fault → Prop) (x : Prog σ α) (s : σ) : Prop := ∀ e, x s = .error e → E e

variable {E : Fault → Prop}

theorem Safe.mono {E' : Fault → Prop} {x : Prog σ α} (h : Safe E x s) (hE : ∀ e, E e → E' e) :
    Safe E' x s := fun e hx => hE e (h e hx)

theorem Safe.of_eq {x y : Prog σ α} (hxy : x s = y s') (h : Safe E y s') : Safe E x s :=
  fun e he => h e (hxy ▸ he)

theorem safe_bind {x : Prog σ α} {f : α → Prog σ β} (hx : Safe E x s)
    (hf : Ends x s fun a s₁ => Safe E (f a) s₁) : Safe E (x >>= f) s := by
  intro e he
  change (x s >>= fun p => f p.1 p.2) = .error e at he
  cases hr : x s with
  | error e' =>
    rw [hr] at he
    exact Except.error.inj he ▸ hx e' hr
  | ok r =>
    rw [hr] at he
    exact hf r.1 r.2 hr e he

theorem Safe.bind {x : Prog σ α} {f : α → Prog σ β} (hx : Safe E x s) (hf : ∀ a s', Safe E (f a) s') :
    Safe E (x >>= f) s := safe_bind hx fun a s' _ => hf a s'

theorem safe_fail {e : Fault} (h : E e) : Safe E (fail e : Prog σ α) s :=
  fun _ he => Except.error.inj he ▸ h

theorem safe_pure (a : α) : Safe E (pure a : Prog σ α) s := fun _ he => nomatch he

theorem safe_look (f : σ → α) : Safe E (look f) s := fun _ he => nomatch he

theorem safe_update (f : σ → σ) : Safe E (update f) s := fun _ he => nomatch he

theorem safe_check {x : Checked α} (h : ∀ e, x = .error e → E e) : Safe E (check x) s := by
  intro e he
  cases x with
  | error e' => exact Except.error.inj he ▸ h e' rfl
  | ok a => cases he

theorem safe_assert {p : Prop} [Decidable p] (h : p) : Safe E (assert p) s := by
  refine safe_check fun e he => ?_
  rw [require, if_pos h] at he
  cases he

theorem safe_ite {p : Prop} [Decidable p] {x y : Prog σ α} (hx : p → Safe E x s)
    (hy : ¬ p → Safe E y s) : Safe E (if p then x else y) s := by
  split_ifs with h
  · exact hx h
  · exact hy h

theorem safe_when {p : Prop} [Decidable p] {x : Prog σ Unit} (hx : p → Safe E x s) :
    Safe E (when p x) s := safe_ite hx fun _ => safe_pure _

end Prog

end Mutty.Lib
