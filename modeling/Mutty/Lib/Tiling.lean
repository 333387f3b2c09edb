import Mathlib.Algebra.Order.Ring.Nat
import Mathlib.Algebra.BigOperators.Group.Finset.Piecewise
import Mathlib.Order.Interval.Finset.Nat
import Mathlib.Data.List.Nodup
import Mathlib.Data.List.Perm.Basic
import Mathlib.Order.Basic
import Mathlib.Tactic.SplitIfs

/-!
# Exact covers by blocks

A block is a start and a length. `cover bs k` counts the blocks of `bs` that hold place `k`, so
`Tiles n bs` says that the blocks are not empty and that every place below `n`, and no other, is in
exactly one of them. Cutting a block and joining neighbours change no count. In a tiling, blocks
that meet are the same one, and a tiling without neighbours is a single block.
-/

namespace Mutty.Lib

abbrev Block := ℕ × ℕ

namespace Block

def stop (b : Block) : ℕ := b.1 + b.2

def Holds (b : Block) (k : ℕ) : Prop := b.1 ≤ k ∧ k < b.stop

instance (b : Block) (k : ℕ) : Decidable (b.Holds k) := inferInstanceAs (Decidable (_ ∧ _))

def Apart (a b : Block) : Prop := ∀ k, ¬ (a.Holds k ∧ b.Holds k)

end Block

open Block

def cover (bs : List Block) (k : ℕ) : ℕ := bs.countP (·.Holds k)

structure Tiles (n : ℕ) (bs : List Block) : Prop where
  pos : ∀ b ∈ bs, 0 < b.2
  once : ∀ k, cover bs k = if k < n then 1 else 0

section

variable {n k : ℕ} {a b c : Block} {bs cs : List Block}

theorem cover_cons : cover (b :: bs) k = cover bs k + if b.Holds k then 1 else 0 := by
  simp [cover, List.countP_cons]

theorem cover_perm (h : bs.Perm cs) : cover bs k = cover cs k := h.countP_eq _

theorem cover_pos_of_mem (hb : b ∈ bs) (hk : b.Holds k) : 0 < cover bs k :=
  List.countP_pos_iff.mpr ⟨b, hb, by simpa using hk⟩

theorem Tiles.perm (h : Tiles n bs) (hp : bs.Perm cs) : Tiles n cs :=
  ⟨fun b hb => h.pos b (hp.mem_iff.mpr hb), fun k => by rw [← cover_perm hp, h.once]⟩

theorem Tiles.stop_le (h : Tiles n bs) (hb : b ∈ bs) : b.stop ≤ n := by
  have hpos := h.pos b hb
  have hlast := cover_pos_of_mem hb (k := b.1 + b.2 - 1) ⟨by omega, by unfold stop; omega⟩
  rw [h.once] at hlast
  split_ifs at hlast
  · unfold stop
    omega
  · omega

theorem Tiles.apart (h : Tiles n (a :: bs)) (hb : b ∈ bs) : a.Apart b := by
  rintro k ⟨ha, hk⟩
  have hcov := h.once k
  have hpos := cover_pos_of_mem hb hk
  rw [cover_cons, if_pos ha] at hcov
  split_ifs at hcov
  omega

theorem Tiles.not_mem (h : Tiles n (a :: bs)) : a ∉ bs := fun hmem =>
  h.apart hmem a.1 ⟨⟨Nat.le_refl _, Nat.lt_add_of_pos_right (h.pos a List.mem_cons_self)⟩,
    ⟨Nat.le_refl _, Nat.lt_add_of_pos_right (h.pos a List.mem_cons_self)⟩⟩

theorem Tiles.nodup (h : Tiles n bs) : bs.Nodup := by
  refine List.nodup_iff_count_le_one.mpr fun a => ?_
  by_cases ha : a ∈ bs
  · have hrest := List.count_eq_zero_of_not_mem (h.perm (List.perm_cons_erase ha)).not_mem
    rw [List.count_erase_self] at hrest
    omega
  · rw [List.count_eq_zero_of_not_mem ha]
    exact Nat.zero_le 1

theorem tiles_split {o p m : ℕ} (h0 : 0 < m) (hm : m < p) :
    Tiles n ((o, p) :: bs) ↔ Tiles n ((o, m) :: (o + m, p - m) :: bs) := by
  have hcov : ∀ k, cover ((o, p) :: bs) k = cover ((o, m) :: (o + m, p - m) :: bs) k := by
    intro k
    have h1 : Holds (o, p) k ↔ Holds (o, m) k ∨ Holds (o + m, p - m) k := by
      simp only [Holds, stop]
      omega
    have h2 : ¬ (Holds (o, m) k ∧ Holds (o + m, p - m) k) := by
      simp only [Holds, stop]
      omega
    rw [cover_cons, cover_cons, cover_cons]
    split_ifs <;> simp_all
  constructor
  · intro h
    refine ⟨fun b hb => ?_, fun k => by rw [← hcov, h.once]⟩
    rcases List.mem_cons.mp hb with rfl | hb
    · exact h0
    · rcases List.mem_cons.mp hb with rfl | hb
      · exact Nat.sub_pos_of_lt hm
      · exact h.pos b (List.mem_cons_of_mem _ hb)
  · intro h
    refine ⟨fun b hb => ?_, fun k => by rw [hcov, h.once]⟩
    rcases List.mem_cons.mp hb with rfl | hb
    · exact Nat.lt_of_le_of_lt (Nat.zero_le _) hm
    · exact h.pos b (List.mem_cons_of_mem _ (List.mem_cons_of_mem _ hb))

theorem Tiles.join {o p q : ℕ} (h : Tiles n ((o, p) :: (o + p, q) :: bs)) :
    Tiles n ((o, p + q) :: bs) := by
  have hp : 0 < p := h.pos (o, p) List.mem_cons_self
  have hq : 0 < q := h.pos (o + p, q) (List.mem_cons_of_mem _ List.mem_cons_self)
  refine (tiles_split (m := p) hp (by omega)).mpr ?_
  rwa [Nat.add_sub_cancel_left]

theorem tiles_single (hn : 0 < n) : Tiles n [(0, n)] := by
  refine ⟨fun b hb => ?_, fun k => ?_⟩
  · rw [List.mem_singleton.mp hb]
    exact hn
  · simp [cover, Holds, stop]

theorem sum_holds {N : ℕ} (hN : b.stop ≤ N) :
    ∑ k ∈ Finset.range N, (if b.Holds k then 1 else 0) = b.2 := by
  have hset : (Finset.range N).filter (b.Holds ·) = Finset.Ico b.1 b.stop := by
    ext k
    rw [Finset.mem_filter, Finset.mem_range, Finset.mem_Ico]
    unfold Holds
    omega
  rw [← Finset.card_filter, hset, Nat.card_Ico, stop]
  omega

theorem sum_cover {N : ℕ} (hN : ∀ b ∈ bs, b.stop ≤ N) :
    ∑ k ∈ Finset.range N, cover bs k = (bs.map Prod.snd).sum := by
  induction bs with
  | nil => simp [cover]
  | cons b bs ih =>
    simp only [cover_cons, Finset.sum_add_distrib, List.map_cons, List.sum_cons]
    rw [ih fun a ha => hN a (List.mem_cons_of_mem _ ha), sum_holds (hN b List.mem_cons_self),
      Nat.add_comm]

theorem Tiles.sum_eq (h : Tiles n bs) : (bs.map Prod.snd).sum = n := by
  rw [← sum_cover fun b hb => h.stop_le hb,
    Finset.sum_congr rfl fun k hk => by rw [h.once, if_pos (Finset.mem_range.mp hk)]]
  simp

/-- No block ends where another one begins. -/
def NoNeighbours (bs : List Block) : Prop := ∀ a ∈ bs, ∀ b ∈ bs, a.stop ≠ b.1

theorem Tiles.eq_single (h : Tiles n bs) (hn : 0 < n) (hno : NoNeighbours bs) : bs = [(0, n)] := by
  have hat : ∀ k < n, ∃ b ∈ bs, b.Holds k := fun k hk => by
    have hone := h.once k
    rw [if_pos hk] at hone
    obtain ⟨b, hb, hbk⟩ := List.countP_pos_iff.mp (show 0 < bs.countP (·.Holds k) from by
      unfold cover at hone; omega)
    exact ⟨b, hb, by simpa using hbk⟩
  obtain ⟨a, ha, ha0⟩ := hat 0 hn
  have hstart : a.1 = 0 := Nat.le_zero.mp ha0.1
  have hstop : a.stop = n := by
    by_contra hne
    have hlt : a.stop < n := Nat.lt_of_le_of_ne (h.stop_le ha) hne
    obtain ⟨b, hb, hbk⟩ := hat a.stop hlt
    -- `b` holds the first place after `a`; it begins there, or it meets `a`.
    by_cases hbegin : b.1 = a.stop
    · exact hno a ha b hb hbegin.symm
    · have hperm := List.perm_cons_erase ha
      have hbe : b ∈ bs.erase a := by
        refine (List.mem_erase_of_ne ?_).mpr hb
        rintro rfl
        exact absurd hbk.2 (Nat.lt_irrefl _)
      have hpos : 0 < a.2 := h.pos a ha
      exact (h.perm hperm).apart hbe (a.stop - 1)
        ⟨⟨by unfold stop; omega, by unfold stop; omega⟩,
          ⟨by have := hbk.1; omega, by have := hbk.2; omega⟩⟩
  have ha' : a = (0, n) := by
    refine Prod.ext hstart ?_
    unfold stop at hstop
    simp only
    omega
  have hperm := List.perm_cons_erase ha
  have hnil : bs.erase a = [] := by
    rw [List.eq_nil_iff_forall_not_mem]
    intro b hb
    have hpos : 0 < b.2 := h.pos b (List.mem_of_mem_erase hb)
    have hle := h.stop_le (List.mem_of_mem_erase hb)
    refine (h.perm hperm).apart hb b.1 ⟨⟨by omega, ?_⟩, ⟨Nat.le_refl _, by unfold stop; omega⟩⟩
    rw [hstop]
    unfold stop at hle
    omega
  rw [hnil, ha'] at hperm
  exact List.perm_singleton.mp hperm

end

end Mutty.Lib
