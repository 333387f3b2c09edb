import Mathlib.Data.List.Nodup
import Mathlib.Data.List.Perm.Subperm
import Mathlib.Tactic.SplitIfs

/-!
# Doubly linked lists

The nodes carry their links, `prev` and `next`. `Chain prev next p xs q` says that the nodes `xs` are
linked both ways, with `p` before the first and `q` after the last; a list that ends in null pointers
has `none` there, and a ring has its head at both sides. Taking a node out and putting one in front
write one link at each side, and the lemmas for it say what is to be written.
-/

namespace Mutty.Lib

variable {α : Type} {prev next prev' next' : α → Option α} {p p' q q' : Option α} {c : α}
  {xs ys zs : List α}

def Chain (prev next : α → Option α) : Option α → List α → Option α → Prop
  | _, [], _ => True
  | p, x :: xs, q => prev x = p ∧ next x = xs.head?.or q ∧ Chain prev next (some x) xs q

namespace Chain

theorem congr (h : Chain prev next p xs q) (hprev : ∀ x ∈ xs, prev' x = prev x)
    (hnext : ∀ x ∈ xs, next' x = next x) : Chain prev' next' p xs q := by
  induction xs generalizing p with
  | nil => trivial
  | cons x xs ih =>
    obtain ⟨hp, hn, h⟩ := h
    have hrest := ih h (fun y hy => hprev y (List.mem_cons_of_mem _ hy))
      fun y hy => hnext y (List.mem_cons_of_mem _ hy)
    exact ⟨(hprev x List.mem_cons_self).trans hp, (hnext x List.mem_cons_self).trans hn, hrest⟩

theorem append : Chain prev next p (xs ++ ys) q ↔
    Chain prev next p xs (ys.head?.or q) ∧ Chain prev next (xs.getLast?.or p) ys q := by
  induction xs generalizing p with
  | nil => simp [Chain]
  | cons x xs ih =>
    have hlast : (x :: xs).getLast?.or p = xs.getLast?.or (some x) := by
      cases xs with
      | nil => rfl
      | cons y ys => simp [List.getLast?_cons]
    rw [List.cons_append, Chain, Chain, ih, hlast, List.head?_append, Option.or_assoc]
    tauto

theorem set_end (h : Chain prev next p xs q) (hnodup : xs.Nodup) (hprev : ∀ x ∈ xs, prev' x = prev x)
    (hlast : ∀ x, xs.getLast? = some x → next' x = q')
    (hnext : ∀ x ∈ xs, xs.getLast? ≠ some x → next' x = next x) : Chain prev' next' p xs q' := by
  induction xs generalizing p with
  | nil => trivial
  | cons x xs ih =>
    obtain ⟨hp, hn, h⟩ := h
    obtain ⟨hx, hnodup⟩ := List.nodup_cons.mp hnodup
    refine ⟨(hprev x List.mem_cons_self).trans hp, ?_, ?_⟩
    · cases xs with
      | nil => exact hlast x rfl
      | cons y ys =>
        rw [hnext x List.mem_cons_self, hn]
        · rfl
        · intro heq
          rw [List.getLast?_cons_cons] at heq
          exact hx (List.mem_of_getLast? heq)
    · cases xs with
      | nil => trivial
      | cons y ys =>
        refine ih h hnodup (fun z hz => hprev z (List.mem_cons_of_mem _ hz)) ?_ ?_
        · intro z hz
          exact hlast z (by rw [List.getLast?_cons_cons, hz])
        · intro z hz hne
          exact hnext z (List.mem_cons_of_mem _ hz) (by rw [List.getLast?_cons_cons]; exact hne)

theorem set_start (h : Chain prev next p xs q) (hnodup : xs.Nodup)
    (hnext : ∀ x ∈ xs, next' x = next x) (hhead : ∀ x, xs.head? = some x → prev' x = p')
    (hprev : ∀ x ∈ xs, xs.head? ≠ some x → prev' x = prev x) : Chain prev' next' p' xs q := by
  cases xs with
  | nil => trivial
  | cons x xs =>
    obtain ⟨-, hn, h⟩ := h
    obtain ⟨hx, hnodup⟩ := List.nodup_cons.mp hnodup
    refine ⟨hhead x rfl, (hnext x List.mem_cons_self).trans hn, h.congr ?_ ?_⟩
    · intro y hy
      refine hprev y (List.mem_cons_of_mem _ hy) fun heq => hx ?_
      rw [Option.some.inj heq]
      exact hy
    · exact fun y hy => hnext y (List.mem_cons_of_mem _ hy)

theorem push [DecidableEq α] (h : Chain prev next p xs q) (hnodup : xs.Nodup) (hprev : prev' c = p)
    (hnext : next' c = xs.head?.or q) (hprev' : ∀ x ∈ xs, prev' x =
      if xs.head?.or q = some x then some c else prev x)
    (hnext' : ∀ x ∈ xs, next' x = next x) : Chain prev' next' p (c :: xs) q := by
  refine ⟨hprev, hnext, h.set_start hnodup hnext' ?_ ?_⟩
  · intro x hx
    rw [hprev' x (List.mem_of_head? hx), hx, Option.some_or, if_pos rfl]
  · intro x hx hne
    rw [hprev' x hx, if_neg]
    cases xs with
    | nil => cases hx
    | cons y ys => exact hne

theorem links (h : Chain prev next p (ys ++ c :: zs) q) :
    prev c = ys.getLast?.or p ∧ next c = zs.head?.or q := by
  obtain ⟨-, hp, hn, -⟩ := append.mp h
  exact ⟨hp, hn⟩

theorem erase [DecidableEq α] (h : Chain prev next p (ys ++ c :: zs) q) (hnodup : (ys ++ c :: zs).Nodup)
    (hp : ∀ x ∈ zs, p ≠ some x) (hq : ∀ x ∈ ys, q ≠ some x)
    (hnext : ∀ x ∈ ys ++ zs, next' x = if prev c = some x then next c else next x)
    (hprev : ∀ x ∈ ys ++ zs, prev' x = if next c = some x then prev c else prev x) :
    Chain prev' next' p (ys ++ zs) q := by
  obtain ⟨hpc, hnc⟩ := h.links
  obtain ⟨hys, -, -, hzs⟩ := append.mp h
  obtain ⟨hnys, hnzs, hdisj⟩ := List.nodup_append.mp hnodup
  obtain ⟨-, hnzs⟩ := List.nodup_cons.mp hnzs
  have hapart : ∀ x ∈ ys, x ∉ zs := fun x hx hx' =>
    hdisj x hx x (List.mem_cons_of_mem _ hx') rfl
  refine append.mpr ⟨hys.set_end hnys ?_ ?_ ?_, hzs.set_start hnzs ?_ ?_ ?_⟩
  · intro x hx
    rw [hprev x (List.mem_append_left _ hx), if_neg]
    rw [hnc]
    cases zs with
    | nil => exact hq x hx
    | cons z zs =>
      rintro ⟨⟩
      exact hapart x hx List.mem_cons_self
  · intro x hx
    rw [hnext x (List.mem_append_left _ (List.mem_of_getLast? hx)), hpc, hx, Option.some_or,
      if_pos rfl, hnc]
  · intro x hx hne
    rw [hnext x (List.mem_append_left _ hx), if_neg]
    rw [hpc]
    cases hlast : ys.getLast? with
    | none =>
      rw [List.getLast?_eq_none_iff.mp hlast] at hx
      cases hx
    | some y =>
      rw [hlast] at hne
      exact hne
  · intro x hx
    rw [hnext x (List.mem_append_right _ hx), if_neg]
    rw [hpc]
    cases hlast : ys.getLast? with
    | none => exact hp x hx
    | some y =>
      rintro ⟨⟩
      exact hapart x (List.mem_of_getLast? hlast) hx
  · intro x hx
    rw [hprev x (List.mem_append_right _ (List.mem_of_head? hx)), hnc, hx, Option.some_or,
      if_pos rfl, hpc]
  · intro x hx hne
    rw [hprev x (List.mem_append_right _ hx), if_neg]
    rw [hnc]
    cases zs with
    | nil => cases hx
    | cons z zs => exact hne

end Chain

/-! ### Rings -/

/-- The nodes `xs` and the head `h` are linked in a circle. -/
structure LinkedRing (prev next : α → Option α) (h : α) (xs : List α) : Prop where
  nodup : (h :: xs).Nodup
  chain : Chain prev next (some h) xs (some h)
  first : next h = xs.head?.or (some h)
  last : prev h = xs.getLast?.or (some h)

namespace LinkedRing

variable {h : α}

theorem congr (hr : LinkedRing prev next h xs) (hprev : ∀ x ∈ h :: xs, prev' x = prev x)
    (hnext : ∀ x ∈ h :: xs, next' x = next x) : LinkedRing prev' next' h xs where
  nodup := hr.nodup
  chain := hr.chain.congr (fun x hx => hprev x (List.mem_cons_of_mem _ hx))
    fun x hx => hnext x (List.mem_cons_of_mem _ hx)
  first := (hnext h List.mem_cons_self).trans hr.first
  last := (hprev h List.mem_cons_self).trans hr.last

theorem insert [DecidableEq α] (hr : LinkedRing prev next h xs) (hc : c ∉ h :: xs) (hcprev : prev' c = some h)
    (hcnext : next' c = next h)
    (hnext : ∀ x ≠ c, next' x = if x = h then some c else next x)
    (hprev : ∀ x ≠ c, prev' x = if next h = some x then some c else prev x) :
    LinkedRing prev' next' h (c :: xs) := by
  obtain ⟨hh, hnodup⟩ := List.nodup_cons.mp hr.nodup
  obtain ⟨hch, hcxs⟩ := not_or.mp (List.mem_cons.not.mp hc)
  refine ⟨?_, hr.chain.push hnodup hcprev ?_ ?_ ?_, ?_, ?_⟩
  · refine List.nodup_cons.mpr ⟨?_, List.nodup_cons.mpr ⟨hcxs, hnodup⟩⟩
    exact fun hmem => (List.mem_cons.mp hmem).elim (Ne.symm hch) hh
  · rw [hcnext, hr.first]
  · intro x hx
    rw [hprev x (by rintro rfl; exact hcxs hx), hr.first]
  · intro x hx
    rw [hnext x (by rintro rfl; exact hcxs hx), if_neg]
    rintro rfl
    exact hh hx
  · rw [hnext h (Ne.symm hch), if_pos rfl]
    rfl
  · rw [hprev h (Ne.symm hch), hr.first, hr.last]
    cases xs with
    | nil => exact if_pos rfl
    | cons y ys =>
      rw [if_neg]
      · rw [List.getLast?_cons_cons]
      · rintro ⟨⟩
        exact hh List.mem_cons_self

/-- The neighbours of a node. They are different only when there is another node. -/
theorem neighbours (hr : LinkedRing prev next h xs) (hc : c ∈ xs) :
    ∃ a ∈ h :: xs, ∃ b ∈ h :: xs, prev c = some a ∧ next c = some b ∧
      (a ≠ b → ∃ d ∈ xs, d ≠ c) := by
  obtain ⟨ys, zs, rfl⟩ := List.append_of_mem hc
  obtain ⟨hp, hn⟩ := hr.chain.links
  obtain ⟨-, hnodup⟩ := List.nodup_cons.mp hr.nodup
  obtain ⟨-, hzs, hdisj⟩ := List.nodup_append.mp hnodup
  have hys : ∀ y ∈ ys, y ≠ c := fun y hy => hdisj y hy c List.mem_cons_self
  have hzs : ∀ z ∈ zs, z ≠ c := by
    rintro z hz rfl
    exact (List.nodup_cons.mp hzs).1 hz
  have hbefore : ∃ a, ys.getLast?.or (some h) = some a ∧ (a = h ∨ a ∈ ys) := by
    cases hlast : ys.getLast? with
    | none => exact ⟨h, rfl, .inl rfl⟩
    | some y => exact ⟨y, rfl, .inr (List.mem_of_getLast? hlast)⟩
  have hafter : ∃ b, zs.head?.or (some h) = some b ∧ (b = h ∨ b ∈ zs) := by
    cases zs with
    | nil => exact ⟨h, rfl, .inl rfl⟩
    | cons z zs => exact ⟨z, rfl, .inr List.mem_cons_self⟩
  obtain ⟨a, ha, hamem⟩ := hbefore
  obtain ⟨b, hb, hbmem⟩ := hafter
  refine ⟨a, ?_, b, ?_, hp.trans ha, hn.trans hb, fun hne => ?_⟩
  · rcases hamem with rfl | hamem
    · exact List.mem_cons_self
    · exact List.mem_cons_of_mem _ (List.mem_append_left _ hamem)
  · rcases hbmem with rfl | hbmem
    · exact List.mem_cons_self
    · exact List.mem_cons_of_mem _ (List.mem_append_right _ (List.mem_cons_of_mem _ hbmem))
  · rcases hamem with rfl | hamem
    · rcases hbmem with rfl | hbmem
      · exact absurd rfl hne
      · exact ⟨b, List.mem_append_right _ (List.mem_cons_of_mem _ hbmem), hzs b hbmem⟩
    · exact ⟨a, List.mem_append_left _ hamem, hys a hamem⟩

/-- A node whose two neighbours are the same one is the only node beside the head. -/
theorem eq_singleton (hr : LinkedRing prev next h xs) (hc : c ∈ xs) (heq : prev c = next c) :
    xs = [c] := by
  obtain ⟨ys, zs, rfl⟩ := List.append_of_mem hc
  obtain ⟨hp, hn⟩ := hr.chain.links
  obtain ⟨hh, hnodup⟩ := List.nodup_cons.mp hr.nodup
  obtain ⟨-, -, hdisj⟩ := List.nodup_append.mp hnodup
  rw [hp, hn] at heq
  cases hlast : ys.getLast? with
  | none =>
    obtain rfl := List.getLast?_eq_none_iff.mp hlast
    cases zs with
    | nil => rfl
    | cons z zs =>
      obtain rfl : h = z := Option.some.inj heq
      exact absurd (List.mem_cons_of_mem _ List.mem_cons_self) hh
  | some y =>
    have hy := List.mem_of_getLast? hlast
    rw [hlast] at heq
    cases zs with
    | nil =>
      obtain rfl : y = h := Option.some.inj heq
      exact absurd (List.mem_append_left _ hy) hh
    | cons z zs =>
      obtain rfl : y = z := Option.some.inj heq
      exact absurd rfl (hdisj y hy y (List.mem_cons_of_mem _ List.mem_cons_self))

theorem erase [DecidableEq α] (hr : LinkedRing prev next h xs) (hc : c ∈ xs)
    (hnext : ∀ x ≠ c, next' x = if prev c = some x then next c else next x)
    (hprev : ∀ x ≠ c, prev' x = if next c = some x then prev c else prev x) :
    LinkedRing prev' next' h (xs.erase c) := by
  obtain ⟨ys, zs, rfl⟩ := List.append_of_mem hc
  obtain ⟨hp, hn⟩ := hr.chain.links
  obtain ⟨hh, hnodup⟩ := List.nodup_cons.mp hr.nodup
  obtain ⟨-, hczs, hdisj⟩ := List.nodup_append.mp hnodup
  have hys : ∀ y ∈ ys, y ≠ c := fun y hy => hdisj y hy c List.mem_cons_self
  have hzs : ∀ z ∈ zs, z ≠ c := by
    rintro z hz rfl
    exact (List.nodup_cons.mp hczs).1 hz
  have hne : ∀ x ∈ ys ++ zs, x ≠ c := fun x hx => (List.mem_append.mp hx).elim (hys x) (hzs x)
  have hhc : h ≠ c := by
    rintro rfl
    exact hh (List.mem_append_right _ List.mem_cons_self)
  have hhys : h ∉ ys := fun hmem => hh (List.mem_append_left _ hmem)
  have hhzs : h ∉ zs := fun hmem => hh (List.mem_append_right _ (List.mem_cons_of_mem _ hmem))
  rw [List.erase_append_right _ fun hmem => hys c hmem rfl, List.erase_cons_head]
  refine ⟨?_, ?_, ?_, ?_⟩
  · refine List.nodup_cons.mpr ⟨fun hmem => (List.mem_append.mp hmem).elim hhys hhzs, ?_⟩
    exact hnodup.sublist ((List.sublist_cons_self c zs).append_left ys)
  · refine hr.chain.erase hnodup ?_ ?_ (fun x hx => hnext x (hne x hx))
      fun x hx => hprev x (hne x hx)
    · rintro x hx ⟨⟩
      exact hhzs hx
    · rintro x hx ⟨⟩
      exact hhys hx
  · rw [hnext h hhc, hp, hn, hr.first]
    cases hlast : ys.getLast? with
    | none =>
      rw [List.getLast?_eq_none_iff.mp hlast]
      exact if_pos rfl
    | some y =>
      have hy := List.mem_of_getLast? hlast
      rw [Option.some_or, if_neg (by rintro ⟨⟩; exact hhys hy)]
      cases ys with
      | nil => cases hy
      | cons z ys => rfl
  · rw [hprev h hhc, hp, hn, hr.last]
    cases zs with
    | nil =>
      rw [List.append_nil]
      exact if_pos rfl
    | cons z zs =>
      rw [List.head?_cons, Option.some_or, if_neg (by rintro ⟨⟩; exact hhzs List.mem_cons_self)]
      simp [List.getLast?_cons]

end LinkedRing

end Mutty.Lib
