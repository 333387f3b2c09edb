import Mathlib.Data.List.Basic

/-!
# Labelled transition systems and guarded runs

A system has a set of initial states and a partial step function on labelled actions. `Reach M G`
holds of the states that runs reach in which every step meets the guard `G` on the state before
the step and its label; `Reach M Free` are all reachable states. An invariant of the guarded
steps holds along every such run. `Along M P` says that every step of one given run has `P`; when
a guard decides that step by step, it decides it for the run.
-/

namespace Mutty.Lib

structure System (σ α : Type*) where
  init : σ → Prop
  step : σ → α → Option σ

namespace System

variable {σ α : Type*} {M : System σ α} {G H : σ → α → Prop}

def Free : σ → α → Prop := fun _ _ => True

inductive Reach (M : System σ α) (G : σ → α → Prop) : σ → Prop
  | init {s : σ} : M.init s → Reach M G s
  | step {s s' : σ} {a : α} : Reach M G s → G s a → M.step s a = some s' → Reach M G s'

theorem Reach.mono (hGH : ∀ s a, G s a → H s a) {s : σ} (h : Reach M G s) : Reach M H s := by
  induction h with
  | init hi => exact .init hi
  | step _ hg hs ih => exact .step ih (hGH _ _ hg) hs

theorem Reach.invariant {I : σ → Prop} (hinit : ∀ s, M.init s → I s)
    (hstep : ∀ s a s', I s → G s a → M.step s a = some s' → I s') {s : σ}
    (h : Reach M G s) : I s := by
  induction h with
  | init hi => exact hinit _ hi
  | step _ hg hs ih => exact hstep _ _ _ ih hg hs

/-- Every step of the run that takes `as` from `s` has `P`. -/
def Along (M : System σ α) (P : σ → α → σ → Prop) : σ → List α → Prop
  | _, [] => True
  | s, a :: as => ∀ s', M.step s a = some s' → P s a s' ∧ Along M P s' as

theorem Along.mono {I : σ → Prop} {P Q : σ → α → σ → Prop}
    (hstep : ∀ s a s', I s → M.step s a = some s' → P s a s' → Q s a s' ∧ I s') {as : List α} {s : σ}
    (h : M.Along P s as) (hs : I s) : M.Along Q s as := by
  induction as generalizing s with
  | nil => trivial
  | cons a as ih =>
    intro s' hs'
    obtain ⟨hp, hrest⟩ := h s' hs'
    obtain ⟨hq, hi⟩ := hstep s a s' hs hs' hp
    exact ⟨hq, ih hrest hi⟩

theorem along_iff {I : σ → Prop} {P : σ → α → σ → Prop}
    (hiff : ∀ s a s', I s → M.step s a = some s' → (P s a s' ↔ G s a))
    (hkeep : ∀ s a s', I s → G s a → M.step s a = some s' → I s') (as : List α) {s : σ} (hs : I s) :
    M.Along P s as ↔ M.Along (fun s a _ => G s a) s as := by
  constructor
  · intro h
    refine h.mono (fun s a s' hi hs' hp => ?_) hs
    have hg := (hiff s a s' hi hs').mp hp
    exact ⟨hg, hkeep s a s' hi hg hs'⟩
  · intro h
    refine h.mono (fun s a s' hi hs' hg => ?_) hs
    exact ⟨(hiff s a s' hi hs').mpr hg, hkeep s a s' hi hg hs'⟩

section

variable [∀ s a, Decidable (G s a)]

/-- The state after a list of actions, when every one of them is enabled and meets the guard. -/
def exec (M : System σ α) (G : σ → α → Prop) [∀ s a, Decidable (G s a)] : σ → List α → Option σ
  | s, [] => some s
  | s, a :: as => if G s a then (M.step s a).bind fun s' => exec M G s' as else none

theorem Reach.exec {s s' : σ} {as : List α} (h : Reach M G s) (he : M.exec G s as = some s') :
    Reach M G s' := by
  induction as generalizing s with
  | nil =>
    obtain rfl := Option.some.inj he
    exact h
  | cons a as ih =>
    simp only [System.exec] at he
    split_ifs at he with hg
    obtain ⟨u, hu, hrest⟩ := Option.bind_eq_some_iff.mp he
    exact ih (.step h hg hu) hrest

/-- A computed run reaches a state with every property that can be computed there. -/
theorem exists_reach (as : List α) (p : σ → Bool) {s : σ} (hi : M.init s)
    (hp : (M.exec G s as).any p = true) :
    ∃ s', M.exec G s as = some s' ∧ Reach M G s' ∧ p s' = true := by
  cases he : M.exec G s as with
  | none =>
    rw [he] at hp
    cases hp
  | some s' =>
    rw [he] at hp
    exact ⟨s', rfl, (Reach.init hi).exec he, hp⟩

end

instance (s : σ) (a : α) : Decidable (Free s a) := isTrue trivial

end System
end Mutty.Lib
