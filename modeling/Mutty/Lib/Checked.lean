import Mathlib.Data.List.Basic

/-!
# Computations that may stop at a failed check

`Checked α` is the result of a piece of code that runs to its end with a value, or stops at a
failed `assert`, at an access outside an array, through a null pointer, at a thrown exception, or
because a supplied iteration budget is spent.
The last case is not a behaviour of the code; `Loop` shows when a budget is large enough.
-/

namespace Mutty.Lib

inductive Fault
  | assertion
  | range
  | null
  | thrown
  | budget
  deriving DecidableEq, Repr

abbrev Checked (α : Type*) := Except Fault α

def require (p : Prop) [Decidable p] : Checked Unit :=
  if p then .ok () else .error .assertion

def fetch {α : Type*} (xs : List α) (i : ℕ) : Checked α :=
  match xs[i]? with
  | some x => .ok x
  | none => .error .range

theorem bind_eq_ok {α β : Type} {x : Checked α} {f : α → Checked β} {b : β} :
    (x >>= f) = .ok b ↔ ∃ a, x = .ok a ∧ f a = .ok b := by
  cases x with
  | error e => simp [bind, Except.bind]
  | ok a => simp [bind, Except.bind]

@[simp] theorem require_eq_ok {p : Prop} [Decidable p] {u : Unit} : require p = .ok u ↔ p := by
  unfold require
  split_ifs with h <;> simp [h]

@[simp] theorem fetch_eq_ok {α : Type*} {xs : List α} {i : ℕ} {x : α} :
    fetch xs i = .ok x ↔ xs[i]? = some x := by
  unfold fetch
  cases xs[i]? <;> simp

theorem getElem?_concat_eq_some {α : Type*} {xs : List α} {x y : α} {i : ℕ} :
    (xs ++ [x])[i]? = some y ↔ xs[i]? = some y ∨ i = xs.length ∧ x = y := by
  rcases Nat.lt_trichotomy i xs.length with hlt | rfl | hgt
  · rw [List.getElem?_append_left hlt]
    exact ⟨Or.inl, fun h => h.resolve_right fun he => Nat.ne_of_lt hlt he.1⟩
  · simp
  · rw [List.getElem?_eq_none (by simpa [Nat.succ_le_iff] using hgt),
      List.getElem?_eq_none (Nat.le_of_lt hgt)]
    simp [Nat.ne_of_gt hgt]

@[simp] theorem toOption_eq_some {α : Type*} {x : Checked α} {a : α} :
    x.toOption = some a ↔ x = .ok a := by
  cases x <;> simp [Except.toOption]

end Mutty.Lib
