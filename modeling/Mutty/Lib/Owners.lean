import Mathlib.Algebra.BigOperators.Group.List.Basic
import Mathlib.Data.List.Perm.Basic
import Mathlib.Tactic.Abel

/-!
# Things owned by the places of a list

Each place of a list owns a list of things, and `flatMap` collects them. When one place changes,
the collection changes by what that place gives up and gets, up to order.
-/

namespace Mutty.Lib

variable {α β : Type} {f : α → List β} {l : List α} {i : ℕ} {x y : α} {h : β}

theorem flatMap_set_perm (hi : l[i]? = some y) :
    ((l.set i x).flatMap f ++ f y).Perm (l.flatMap f ++ f x) := by
  induction l generalizing i with
  | nil => simp at hi
  | cons a l ih =>
    cases i with
    | zero =>
      obtain rfl : a = y := by simpa using hi
      simp only [List.set_cons_zero, List.flatMap_cons, List.append_assoc]
      calc (f x ++ (l.flatMap f ++ f a)).Perm (f x ++ (f a ++ l.flatMap f)) :=
            List.perm_append_comm.append_left _
        _ |>.Perm (f a ++ l.flatMap f ++ f x) := List.perm_append_comm
        _ |>.Perm (f a ++ (l.flatMap f ++ f x)) := by rw [List.append_assoc]
    | succ i =>
      simp only [List.set_cons_succ, List.flatMap_cons, List.append_assoc]
      exact (ih (by simpa using hi)).append_left _

theorem flatMap_eraseIdx_perm (hi : l[i]? = some y) :
    (l.flatMap f).Perm (f y ++ (l.eraseIdx i).flatMap f) := by
  obtain ⟨hlt, rfl⟩ := List.getElem?_eq_some_iff.mp hi
  exact (List.getElem_cons_eraseIdx_perm hlt).symm.flatMap_right f

theorem flatMap_set_cons (hi : l[i]? = some y) (hx : (f x).Perm (h :: f y)) :
    ((l.set i x).flatMap f).Perm (h :: l.flatMap f) := by
  refine (List.perm_append_right_iff (f y)).mp ((flatMap_set_perm hi).trans ?_)
  exact (hx.append_left _).trans List.perm_middle

theorem flatMap_set_uncons (hi : l[i]? = some y) (hx : (f y).Perm (h :: f x)) :
    (l.flatMap f).Perm (h :: (l.set i x).flatMap f) := by
  refine (List.perm_append_right_iff (f x)).mp ((flatMap_set_perm hi).symm.trans ?_)
  exact (hx.append_left _).trans List.perm_middle

theorem flatMap_set_same (hi : l[i]? = some y) (hx : f x = f y) :
    ((l.set i x).flatMap f).Perm (l.flatMap f) := by
  refine (List.perm_append_right_iff (f y)).mp ((flatMap_set_perm hi).trans ?_)
  rw [hx]

theorem map_set_same {γ : Type} {w : α → γ} (hi : l[i]? = some y) (hx : w x = w y) :
    (l.set i x).map w = l.map w := by
  induction l generalizing i with
  | nil => rfl
  | cons a l ih =>
    cases i with
    | zero =>
      obtain rfl : a = y := by simpa using hi
      rw [List.set_cons_zero, List.map_cons, List.map_cons, hx]
    | succ i => rw [List.set_cons_succ, List.map_cons, List.map_cons, ih (by simpa using hi)]

theorem sum_map_set {M : Type} [AddCommMonoid M] {w : α → M} (hi : l[i]? = some y) :
    ((l.set i x).map w).sum + w y = (l.map w).sum + w x := by
  induction l generalizing i with
  | nil => simp at hi
  | cons a l ih =>
    cases i with
    | zero =>
      obtain rfl : a = y := by simpa using hi
      simp only [List.set_cons_zero, List.map_cons, List.sum_cons]
      abel
    | succ i =>
      have hrest := ih (by simpa using hi)
      simp only [List.set_cons_succ, List.map_cons, List.sum_cons, add_assoc, hrest]

end Mutty.Lib
