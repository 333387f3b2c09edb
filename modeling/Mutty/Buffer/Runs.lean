import Mathlib.Algebra.BigOperators.Group.List.Basic
import Mutty.Lib.Owners
import Mutty.Lib.Tiling
import Mutty.Buffer.PriorityQueue
import Mutty.Buffer.SizeTables

/-!
# The invariant of a chunk's runs

`Runs.Inv s n c held`: the free runs together with the blocks `held` by others tile the `n` pages
of the chunk, every free run is filed once under the floor of its page count, and the map holds
its first and its last page. Taking a free run out moves its pages to `held`, and filing a run
takes them back; the operations of the chunk are made of these two.
-/

namespace Mutty.Buffer

open Mutty.Lib

def span (h : Int64) : Block := ((calculateRunOffset h).toNat, (calculateRunPages h).toNat)

theorem Fields.span_eq {h : Int64} {o p low : ℕ} {u e : Bool} (f : Fields h o p u e low) :
    span h = (o, p) := by
  simp [span, f.decode.1, f.decode.2.1]

namespace Runs

def avail (c : Runs) : List Int64 := c.runsAvail.flatMap Heap.elems

def IsEnd (h : Int64) (k : ℤ) : Prop :=
  k = calculateRunOffset h ∨ k = lastPage (calculateRunOffset h) (calculateRunPages h)

structure Inv (s : SizeClasses) (n : ℕ) (c : Runs) (held : List Block) : Prop where
  queues : c.runsAvail.length = s.nPSizes
  valid : ∀ q ∈ c.runsAvail, q.Valid
  plain : ∀ h ∈ c.avail, 0 ≤ h ∧ isUsed h = false ∧ isSubpage h = false
  tiles : Tiles n (c.avail.map span ++ held)
  map : ∀ k h, c.runsAvailMap k = some h ↔ h ∈ c.avail ∧ IsEnd h k
  filed : ∀ (i : ℕ) q h, c.runsAvail[i]? = some q → h ∈ q.elems →
    s.pages2pageIdxFloor (calculateRunPages h) = .ok (i : ℤ)

variable {s : SizeClasses} {g : Geometry} {n : ℕ} {c : Runs} {held : List Block} {h : Int64}

theorem Inv.span_le (inv : Inv s n c held) (hh : h ∈ c.avail) :
    0 < (span h).2 ∧ (span h).1 + (span h).2 ≤ n := by
  have hmem : span h ∈ c.avail.map span ++ held := List.mem_append_left _ (List.mem_map_of_mem hh)
  exact ⟨inv.tiles.pos _ hmem, inv.tiles.stop_le hmem⟩

theorem Inv.decode (inv : Inv s n c held) (hh : h ∈ c.avail) :
    calculateRunOffset h = (span h).1 ∧ calculateRunPages h = (span h).2 := by
  obtain ⟨o, p, u, e, low, f⟩ := exists_fields (inv.plain h hh).1
  rw [f.span_eq]
  exact ⟨f.decode.1, f.decode.2.1⟩

theorem Inv.isEnd_holds (inv : Inv s n c held) (hh : h ∈ c.avail) {k : ℤ} (hk : IsEnd h k) :
    0 ≤ k ∧ (span h).Holds k.toNat := by
  obtain ⟨ho, hp⟩ := inv.decode hh
  have hpos := (inv.span_le hh).1
  unfold IsEnd lastPage at hk
  rw [ho, hp] at hk
  unfold Block.Holds Block.stop
  rcases hk with rfl | rfl <;> omega

theorem Inv.apart_held {b : Block} (inv : Inv s n c (b :: held)) (hh : h ∈ c.avail) : b.Apart (span h) :=
  (inv.tiles.perm List.perm_middle).apart
    (List.mem_append_left _ (List.mem_map_of_mem hh))

theorem Inv.nodup (inv : Inv s n c held) : c.avail.Nodup :=
  (List.nodup_append.mp inv.tiles.nodup).1.of_map _

theorem Inv.map_eq_none {b : Block} (inv : Inv s n c (b :: held)) {k : ℤ}
    (hb : b.Holds k.toNat) : c.runsAvailMap k = none := by
  cases hmap : c.runsAvailMap k with
  | none => rfl
  | some h =>
    obtain ⟨hh, hend⟩ := (inv.map k h).mp hmap
    exact absurd ⟨hb, (inv.isEnd_holds hh hend).2⟩ (inv.apart_held hh _)

/-! ### Filing a run and taking one out -/

/-- The chunk with the run `h` entered in queue `i`, where `q` is the queue after the entry. -/
def filed (c : Runs) (i : ℤ) (q : LongPriorityQueue) (h : Int64) : Runs :=
  let c := (c.setQueue i q).insertAvailRun0 (calculateRunOffset h) h
  if calculateRunPages h > 1 then
    c.insertAvailRun0 (lastPage (calculateRunOffset h) (calculateRunPages h)) h
  else c

/-- The chunk with the run `h` taken out of queue `i`, where `q` is the queue without it. -/
def taken (c : Runs) (i : ℤ) (q : LongPriorityQueue) (h : Int64) : Runs :=
  let c := (c.setQueue i q).eraseAvailRun0 (calculateRunOffset h)
  if calculateRunPages h > 1 then
    c.eraseAvailRun0 (lastPage (calculateRunOffset h) (calculateRunPages h))
  else c

theorem insertAvailRun0_runsAvail (c : Runs) (k : ℤ) (h : Int64) :
    (c.insertAvailRun0 k h).runsAvail = c.runsAvail := by
  unfold insertAvailRun0
  split_ifs <;> rfl

theorem insertAvailRun0_freeBytes (c : Runs) (k : ℤ) (h : Int64) :
    (c.insertAvailRun0 k h).freeBytes = c.freeBytes := by
  unfold insertAvailRun0
  split_ifs <;> rfl

theorem insertAvailRun0_map {c : Runs} {k : ℤ} (hk : c.runsAvailMap k = none ∨
    c.runsAvailMap k = some h) (j : ℤ) :
    (c.insertAvailRun0 k h).runsAvailMap j = if j = k then some h else c.runsAvailMap j := by
  unfold insertAvailRun0
  rcases hk with hk | hk
  · simp [hk, Function.update_apply]
  · simp only [hk, Option.isSome_some, if_true]
    split_ifs with hj
    · rw [hj, hk]
    · rfl

@[simp] theorem filed_runsAvail (c : Runs) (i : ℤ) (q : LongPriorityQueue) (h : Int64) :
    (c.filed i q h).runsAvail = c.runsAvail.set i.toNat q := by
  unfold filed
  simp only
  split_ifs
  · rw [insertAvailRun0_runsAvail, insertAvailRun0_runsAvail]
    rfl
  · rw [insertAvailRun0_runsAvail]
    rfl

@[simp] theorem filed_freeBytes (c : Runs) (i : ℤ) (q : LongPriorityQueue) (h : Int64) :
    (c.filed i q h).freeBytes = c.freeBytes := by
  unfold filed
  simp only
  split_ifs
  · rw [insertAvailRun0_freeBytes, insertAvailRun0_freeBytes]
    rfl
  · rw [insertAvailRun0_freeBytes]
    rfl

@[simp] theorem taken_runsAvail (c : Runs) (i : ℤ) (q : LongPriorityQueue) (h : Int64) :
    (c.taken i q h).runsAvail = c.runsAvail.set i.toNat q := by
  unfold taken
  simp only
  split_ifs <;> rfl

@[simp] theorem taken_freeBytes (c : Runs) (i : ℤ) (q : LongPriorityQueue) (h : Int64) :
    (c.taken i q h).freeBytes = c.freeBytes := by
  unfold taken
  simp only
  split_ifs <;> rfl

instance (h : Int64) (k : ℤ) : Decidable (IsEnd h k) := inferInstanceAs (Decidable (_ ∨ _))

theorem filed_map {i : ℤ} {q : LongPriorityQueue} (hpos : 0 < calculateRunPages h)
    (hnone : ∀ k, IsEnd h k → c.runsAvailMap k = none) (k : ℤ) :
    (c.filed i q h).runsAvailMap k = if IsEnd h k then some h else c.runsAvailMap k := by
  have hfirst : (c.setQueue i q).runsAvailMap (calculateRunOffset h) = none := hnone _ (.inl rfl)
  have hmap := insertAvailRun0_map (h := h) (.inl hfirst)
  unfold filed
  simp only
  split_ifs with hp hend hend
  · rw [insertAvailRun0_map, hmap]
    · unfold IsEnd at hend
      split_ifs <;> simp_all
    · rw [hmap]
      split_ifs
      · exact .inr rfl
      · exact .inl (hnone _ (.inr rfl))
  · rw [insertAvailRun0_map, hmap]
    · unfold IsEnd at hend
      rw [if_neg (fun h' => hend (.inr h')), if_neg (fun h' => hend (.inl h'))]
      rfl
    · rw [hmap]
      split_ifs
      · exact .inr rfl
      · exact .inl (hnone _ (.inr rfl))
  · rw [hmap, if_pos]
    unfold IsEnd lastPage at hend
    omega
  · rw [hmap, if_neg (fun h' => hend (.inl h'))]
    rfl

theorem taken_map {i : ℤ} {q : LongPriorityQueue} (hpos : 0 < calculateRunPages h) (k : ℤ) :
    (c.taken i q h).runsAvailMap k = if IsEnd h k then none else c.runsAvailMap k := by
  unfold taken
  simp only
  split_ifs with hp hend hend
  · simp only [eraseAvailRun0, setQueue, Function.update_apply]
    unfold IsEnd at hend
    split_ifs <;> simp_all
  · simp only [eraseAvailRun0, setQueue, Function.update_apply]
    unfold IsEnd at hend
    rw [if_neg (fun h' => hend (.inr h')), if_neg (fun h' => hend (.inl h'))]
  · simp only [eraseAvailRun0, setQueue, Function.update_apply]
    rw [if_pos]
    unfold IsEnd lastPage at hend
    omega
  · simp only [eraseAvailRun0, setQueue, Function.update_apply]
    rw [if_neg (fun h' => hend (.inl h'))]

variable {i o p low : ℕ} {q q' : LongPriorityQueue}

theorem mem_set_cases {l : List LongPriorityQueue} {x : LongPriorityQueue} (hx : x ∈ l.set i q) :
    x ∈ l ∨ x = q := List.mem_or_eq_of_mem_set hx

theorem Inv.file (inv : Inv s n c ((o, p) :: held)) (f : Fields h o p false false low)
    (hq : c.runsAvail[i]? = some q) (hq' : q'.Valid) (hperm : q'.elems.Perm (h :: q.elems))
    (hidx : s.pages2pageIdxFloor p = .ok (i : ℤ)) :
    Inv s n (c.filed i q' h) held ∧ (c.filed i q' h).avail.Perm (h :: c.avail) := by
  obtain ⟨hoff, hpages, hu, he, -⟩ := f.decode
  have havail : (c.filed i q' h).avail.Perm (h :: c.avail) := by
    rw [avail, filed_runsAvail]
    exact flatMap_set_cons hq hperm
  have hpos : 0 < p := inv.tiles.pos (o, p) (by simp)
  have hheld : ∀ k, IsEnd h k → Block.Holds (o, p) k.toNat := by
    intro k hk
    unfold IsEnd lastPage at hk
    rw [hoff, hpages] at hk
    unfold Block.Holds Block.stop
    simp only
    rcases hk with rfl | rfl <;> omega
  have hmap := filed_map (c := c) (i := i) (q := q') (h := h) (by rw [hpages]; omega)
    fun k hk => inv.map_eq_none (hheld k hk)
  refine ⟨⟨?_, ?_, ?_, ?_, ?_, ?_⟩, havail⟩
  · rw [filed_runsAvail, List.length_set]
    exact inv.queues
  · intro x hx
    rw [filed_runsAvail] at hx
    rcases mem_set_cases hx with hx | rfl
    · exact inv.valid x hx
    · exact hq'
  · intro x hx
    rcases List.mem_cons.mp (havail.mem_iff.mp hx) with rfl | hx
    · exact ⟨f.nonneg, hu, he⟩
    · exact inv.plain x hx
  · refine inv.tiles.perm ?_
    have hspan : ((c.filed i q' h).avail.map span).Perm ((o, p) :: c.avail.map span) := by
      rw [← f.span_eq]
      exact havail.map span
    exact List.perm_middle.trans (hspan.append_right held).symm
  · intro k x
    rw [hmap, havail.mem_iff, List.mem_cons]
    split_ifs with hend
    · constructor
      · intro hx
        obtain rfl := Option.some.inj hx
        exact ⟨.inl rfl, hend⟩
      · rintro ⟨rfl | hx, hxe⟩
        · rfl
        · exact absurd ⟨hheld k hend, (inv.isEnd_holds hx hxe).2⟩ (inv.apart_held hx _)
    · rw [inv.map k x]
      constructor
      · rintro ⟨hx, hxe⟩
        exact ⟨.inr hx, hxe⟩
      · rintro ⟨rfl | hx, hxe⟩
        · exact absurd hxe hend
        · exact ⟨hx, hxe⟩
  · intro j x y hj hy
    rw [filed_runsAvail, Int.toNat_natCast, List.getElem?_set] at hj
    split_ifs at hj with hij hlen
    · obtain rfl := Option.some.inj hj
      subst hij
      rcases List.mem_cons.mp (hperm.mem_iff.mp hy) with rfl | hy
      · rw [hpages]
        exact hidx
      · exact inv.filed i q y hq hy
    · exact inv.filed j x y hj hy

theorem Inv.take (inv : Inv s n c held) (hq : c.runsAvail[i]? = some q) (hq' : q'.Valid)
    (hperm : q.elems.Perm (h :: q'.elems)) :
    Inv s n (c.taken i q' h) (span h :: held) ∧ c.avail.Perm (h :: (c.taken i q' h).avail) := by
  have havail : c.avail.Perm (h :: (c.taken i q' h).avail) := by
    rw [avail, avail, taken_runsAvail]
    exact flatMap_set_uncons hq hperm
  have hmem : h ∈ c.avail := havail.mem_iff.mpr List.mem_cons_self
  have hsub : ∀ x ∈ (c.taken i q' h).avail, x ∈ c.avail := fun x hx =>
    havail.mem_iff.mpr (List.mem_cons_of_mem _ hx)
  have htiles : Tiles n (span h :: ((c.taken i q' h).avail.map span ++ held)) :=
    inv.tiles.perm ((havail.map span).append_right held)
  have hmap := taken_map (c := c) (i := i) (q := q') (h := h)
    (by rw [(inv.decode hmem).2]; have := (inv.span_le hmem).1; omega)
  refine ⟨⟨?_, ?_, ?_, ?_, ?_, ?_⟩, havail⟩
  · rw [taken_runsAvail, List.length_set]
    exact inv.queues
  · intro x hx
    rw [taken_runsAvail] at hx
    rcases mem_set_cases hx with hx | rfl
    · exact inv.valid x hx
    · exact hq'
  · exact fun x hx => inv.plain x (hsub x hx)
  · exact htiles.perm List.perm_middle.symm
  · intro k x
    rw [hmap]
    split_ifs with hend
    · constructor
      · intro hx
        cases hx
      · rintro ⟨hx, hxe⟩
        have hapart := htiles.apart (List.mem_append_left _ (List.mem_map_of_mem hx))
        exact absurd ⟨(inv.isEnd_holds hmem hend).2, (inv.isEnd_holds (hsub x hx) hxe).2⟩ (hapart _)
    · rw [inv.map k x, havail.mem_iff, List.mem_cons]
      constructor
      · rintro ⟨rfl | hx, hxe⟩
        · exact absurd hxe hend
        · exact ⟨hx, hxe⟩
      · rintro ⟨hx, hxe⟩
        exact ⟨.inr hx, hxe⟩
  · intro j x y hj hy
    rw [taken_runsAvail, Int.toNat_natCast, List.getElem?_set] at hj
    split_ifs at hj with hij hlen
    · obtain rfl := Option.some.inj hj
      subst hij
      exact inv.filed i q y hq (hperm.mem_iff.mpr (List.mem_cons_of_mem _ hy))
    · exact inv.filed j x y hj hy

/-! ### Operations on the free runs -/

theorem queueAt_eq (hq : c.runsAvail[i]? = some q) : c.queueAt i = .ok q := by
  rw [queueAt, if_pos (Int.natCast_nonneg i), Int.toNat_natCast, fetch_eq_ok]
  exact hq

theorem nonneg_ne_neg_one (hh : 0 ≤ h) : h ≠ -1 := by
  rintro rfl
  revert hh
  decide

structure Filed (s : SizeClasses) (n : ℕ) (c c' : Runs) (held : List Block) (h : Int64) : Prop where
  inv : Inv s n c' held
  avail : c'.avail.Perm (h :: c.avail)
  freeBytes : c'.freeBytes = c.freeBytes

structure Taken (s : SizeClasses) (n : ℕ) (c c' : Runs) (held : List Block) (h : Int64) : Prop where
  inv : Inv s n c' (span h :: held)
  avail : c.avail.Perm (h :: c'.avail)
  freeBytes : c'.freeBytes = c.freeBytes

theorem Inv.insertAvailRun (inv : Inv s g.pages c ((o, p) :: held)) (made : s.Made g)
    (f : Fields h o p false false low) :
    ∃ c', c.insertAvailRun s o p h = .ok c' ∧ Filed s g.pages c c' held h := by
  have hmem : (o, p) ∈ c.avail.map span ++ (o, p) :: held := by simp
  have hpos : 1 ≤ p := inv.tiles.pos _ hmem
  have hle : o + p ≤ g.pages := inv.tiles.stop_le hmem
  obtain ⟨i, hidx, -, hi⟩ := made.pages2pageIdxFloor hpos (by omega)
  have hlen : i < c.runsAvail.length := by rw [inv.queues]; exact hi
  have hq := List.getElem?_eq_getElem hlen
  obtain ⟨q', hins, hv, hperm⟩ := LongPriorityQueue.offer_spec
    (inv.valid _ (List.getElem_mem hlen)) (nonneg_ne_neg_one f.nonneg)
  refine ⟨c.filed i q' h, ?_, ?_⟩
  · rw [Runs.insertAvailRun, hidx]
    simp only [bind, Except.bind, queueAt_eq hq, hins, pure, Except.pure, Runs.filed, f.decode.1,
      f.decode.2.1]
  · obtain ⟨hinv, havail⟩ := inv.file f hq hv hperm hidx
    exact ⟨hinv, havail, filed_freeBytes _ _ _ _⟩

theorem mem_avail_iff : h ∈ c.avail ↔ ∃ (i : ℕ) (q : LongPriorityQueue),
    c.runsAvail[i]? = some q ∧ h ∈ q.elems := by
  rw [avail, List.mem_flatMap]
  constructor
  · rintro ⟨q, hq, hh⟩
    obtain ⟨i, hi⟩ := List.mem_iff_getElem?.mp hq
    exact ⟨i, q, hi, hh⟩
  · rintro ⟨i, q, hi, hh⟩
    exact ⟨q, List.mem_of_getElem? hi, hh⟩

theorem Inv.removeAvailRunFrom (inv : Inv s n c held) (hq : c.runsAvail[i]? = some q)
    (hh : h ∈ q.elems) :
    ∃ c', c.removeAvailRunFrom i h = .ok c' ∧ Taken s n c c' held h := by
  obtain ⟨q', hrem, hv, hperm⟩ := Heap.remove_spec (inv.valid q (List.mem_of_getElem? hq)) h
  refine ⟨c.taken i q' h, ?_, ?_⟩
  · simp only [Runs.removeAvailRunFrom, queueAt_eq hq, hrem, bind, Except.bind, pure, Except.pure,
      taken]
  · obtain ⟨hinv, havail⟩ := inv.take hq hv ((List.perm_cons_erase hh).trans (hperm.symm.cons h))
    exact ⟨hinv, havail, taken_freeBytes _ _ _ _⟩

theorem Inv.removeAvailRun (inv : Inv s n c held) (hh : h ∈ c.avail) :
    ∃ c', c.removeAvailRun s h = .ok c' ∧ Taken s n c c' held h := by
  obtain ⟨i, q, hq, hhq⟩ := mem_avail_iff.mp hh
  obtain ⟨c', hc', htaken⟩ := inv.removeAvailRunFrom hq hhq
  refine ⟨c', ?_, htaken⟩
  simp only [Runs.removeAvailRun, inv.filed i q h hq hhq, bind, Except.bind, hc']

/-- `poll`, and the removal after it, which finds the handle gone from its queue already. The
handle is the least of the queue. -/
theorem Inv.poll (inv : Inv s n c held) (hq : c.runsAvail[i]? = some q) (hne : 1 ≤ q.size) :
    ∃ h q' c', LongPriorityQueue.poll q = .ok (h, q') ∧
      (c.setQueue i q').removeAvailRunFrom i h = .ok c' ∧ Taken s n c c' held h ∧
      h ∈ q.elems ∧ ∀ x ∈ q.elems, h ≤ x := by
  have hvalid := inv.valid q (List.mem_of_getElem? hq)
  obtain ⟨h, q', hpoll, hv, hperm, hleast⟩ := LongPriorityQueue.poll_spec hvalid hne
  have hlen : i < c.runsAvail.length := (List.getElem?_eq_some_iff.mp hq).1
  have hgone : h ∉ q'.elems := by
    have hnd : q.elems.Nodup := (List.nodup_flatMap.mp inv.nodup).1 q (List.mem_of_getElem? hq)
    exact (List.nodup_cons.mp (hperm.nodup_iff.mp hnd)).1
  obtain ⟨q'', hrem, hv', hperm'⟩ := Heap.remove_spec hv h
  rw [List.erase_of_not_mem hgone] at hperm'
  have hq' : (c.setQueue i q').runsAvail[i]? = some q' := by
    simp [setQueue, hlen]
  refine ⟨h, q', c.taken i q'' h, hpoll, ?_, ?_, hleast.1, fun x hx => hleast.2 hx⟩
  · simp only [Runs.removeAvailRunFrom, queueAt_eq hq', hrem, bind, Except.bind, pure, Except.pure,
      taken]
    simp [setQueue]
  · obtain ⟨hinv, havail⟩ := inv.take hq hv' (hperm.trans (hperm'.symm.cons h))
    exact ⟨hinv, havail, taken_freeBytes _ _ _ _⟩

/-! ### Allocating a run -/

def pageCount (c : Runs) : ℤ := (c.avail.map calculateRunPages).sum

variable {c' : Runs}

theorem Filed.pageCount (hf : Filed s n c c' held h) :
    c'.pageCount = calculateRunPages h + c.pageCount := by
  rw [Runs.pageCount, (hf.avail.map _).sum_eq, List.map_cons, List.sum_cons]
  rfl

theorem Taken.pageCount (ht : Taken s n c c' held h) :
    c.pageCount = calculateRunPages h + c'.pageCount := by
  rw [Runs.pageCount, (ht.avail.map _).sum_eq, List.map_cons, List.sum_cons]
  rfl

theorem Inv.pageCount_cast (inv : Inv s n c held) :
    c.pageCount = ((c.avail.map (Prod.snd ∘ span)).sum : ℕ) := by
  have hcast : ∀ l : List Int64, (∀ h ∈ l, h ∈ c.avail) →
      (l.map calculateRunPages).sum = ((l.map (Prod.snd ∘ span)).sum : ℕ) := by
    intro l hl
    induction l with
    | nil => rfl
    | cons h l ih =>
      simp only [List.map_cons, List.sum_cons, Nat.cast_add, Function.comp_apply]
      rw [ih fun h' hh' => hl h' (List.mem_cons_of_mem _ hh'),
        (inv.decode (hl h List.mem_cons_self)).2]
  exact hcast c.avail fun h hh => hh

theorem Inv.pageCount_eq (inv : Inv s n c held) : c.pageCount + (held.map Prod.snd).sum = n := by
  have hsum := inv.tiles.sum_eq
  rw [List.map_append, List.sum_append, List.map_map] at hsum
  rw [inv.pageCount_cast]
  exact_mod_cast hsum

/-- The invariant depends on the held blocks through the tiling only. -/
theorem Inv.rehold {held' : List Block} (inv : Inv s n c held)
    (ht : Tiles n (c.avail.map span ++ held')) : Inv s n c held' :=
  { inv with tiles := ht }

theorem Inv.perm {held' : List Block} (inv : Inv s n c held) (hp : held.Perm held') :
    Inv s n c held' := inv.rehold (inv.tiles.perm (hp.append_left _))

theorem Inv.split {m : ℕ} (inv : Inv s n c ((o, p) :: held)) (h0 : 0 < m) (hm : m < p) :
    Inv s n c ((o + m, p - m) :: (o, m) :: held) := by
  refine inv.rehold (((tiles_split h0 hm).mp (inv.tiles.perm List.perm_middle)).perm ?_)
  calc ((o, m) :: (o + m, p - m) :: (c.avail.map span ++ held)).Perm
        ((o + m, p - m) :: (o, m) :: (c.avail.map span ++ held)) := .swap _ _ _
    _ |>.Perm ((o + m, p - m) :: (c.avail.map span ++ (o, m) :: held)) :=
        List.perm_middle.symm.cons _
    _ |>.Perm (c.avail.map span ++ (o + m, p - m) :: (o, m) :: held) := List.perm_middle.symm

theorem Inv.join {m : ℕ} (inv : Inv s n c ((o, p) :: (o + p, m) :: held)) :
    Inv s n c ((o, p + m) :: held) := by
  have ht : Tiles n ((o, p) :: (o + p, m) :: (c.avail.map span ++ held)) :=
    inv.tiles.perm (List.perm_middle.trans (List.perm_middle.cons _))
  exact inv.rehold (ht.join.perm List.perm_middle.symm)

/-- The run `h` of `m` pages at page `o` has been handed out. `rest` says where the free runs come
from: the last one cut may be a remainder, that begins right after `h`. -/
structure Allocated (s : SizeClasses) (n : ℕ) (c c' : Runs) (held : List Block) (h : Int64)
    (o m : ℕ) : Prop where
  fields : ∃ low, Fields h o m true false low
  inv : Inv s n c' ((o, m) :: held)
  pageCount : c'.pageCount = c.pageCount - m
  rest : ∀ x ∈ c'.avail, x ∈ c.avail ∨
    (span x).1 = o + m ∧ ∃ r ∈ c.avail, (span r).stop = (span x).stop

/-- `splitLargeRun` has cut `m` pages off the front of the run `h`, which is in no queue. What is
left of `h` is one free run. -/
structure Cut (s : SizeClasses) (n : ℕ) (c c' : Runs) (held : List Block) (h h' : Int64) (m : ℕ) :
    Prop where
  fields : ∃ low, Fields h' (span h).1 m true false low
  inv : Inv s n c' (((span h).1, m) :: held)
  freeBytes : c'.freeBytes = c.freeBytes
  avail : m = (span h).2 ∧ c'.avail.Perm c.avail ∨
    m < (span h).2 ∧ ∃ r, span r = ((span h).1 + m, (span h).2 - m) ∧ c'.avail.Perm (r :: c.avail)

theorem Inv.splitLargeRun_ok {m : ℕ} (inv : Inv s g.pages c (span h :: held)) (made : s.Made g)
    (hplain : 0 ≤ h ∧ isUsed h = false ∧ isSubpage h = false) (hpos : 0 < m)
    (hle : m ≤ (span h).2) :
    ∃ h' c', c.splitLargeRun s h m = .ok (h', c') ∧ Cut s g.pages c c' held h h' m := by
  obtain ⟨o, p, u, e, low, f⟩ := exists_fields hplain.1
  obtain ⟨hoff, hpages, hu, he, -⟩ := f.decode
  obtain rfl : u = false := hu.symm.trans hplain.2.1
  obtain rfl : e = false := he.symm.trans hplain.2.2
  have hspan := f.span_eq
  rw [hspan] at inv hle
  simp only at hle
  have hmem : (o, p) ∈ c.avail.map span ++ (o, p) :: held := by simp
  have hstop : o + p ≤ 2 ^ 13 := (inv.tiles.stop_le hmem).trans g.pages_le
  have hneed : (m : ℤ) > 0 := by omega
  have htot : (m : ℤ) ≤ calculateRunPages h := by omega
  simp only [Runs.splitLargeRun, require, if_pos hneed, if_pos htot, bind, Except.bind, pure,
    Except.pure]
  by_cases hrem : calculateRunPages h - (m : ℤ) > 0
  · have hlt : m < p := by omega
    have favail := toRunHandle_fields (o := o + m) (p := p - m) (by omega) (by omega) false
    obtain ⟨c', hc', hfiled⟩ := (inv.split (by omega) hlt).insertAvailRun made favail
    have hargs : toRunHandle (calculateRunOffset h + m) (calculateRunPages h - m) 0 =
        toRunHandle ((o + m : ℕ) : ℤ) ((p - m : ℕ) : ℤ) (false.toNat : ℕ) := by
      rw [hoff, hpages, Nat.cast_add, Nat.cast_sub hle]
      rfl
    have hcall : c.insertAvailRun s (calculateRunOffset h + m) (calculateRunPages h - m)
        (toRunHandle (calculateRunOffset h + m) (calculateRunPages h - m) 0) = .ok c' := by
      rw [hargs, hoff, hpages, ← hc', Nat.cast_add, Nat.cast_sub hle]
    refine ⟨toRunHandle o m 1, c', ?_, ?_⟩
    · rw [if_pos hrem, hcall, hoff]
    · refine ⟨⟨0, ?_⟩, ?_, hfiled.freeBytes, .inr ⟨by rw [hspan]; exact hlt, _, ?_, hfiled.avail⟩⟩
      · rw [hspan]
        exact toRunHandle_fields (o := o) (p := m) (by omega) (by omega) true
      · rw [hspan]
        exact hfiled.inv
      · rw [hspan]
        exact favail.span_eq
  · obtain rfl : m = p := by omega
    refine ⟨markUsed h, c, ?_, ?_⟩
    · rw [if_neg hrem]
    · rw [← hspan] at inv
      refine ⟨⟨low, ?_⟩, ?_, rfl, .inl ⟨by rw [hspan], .refl _⟩⟩
      · rw [hspan]
        exact f.markUsed
      · rwa [hspan] at inv ⊢

theorem Cut.pageCount {h' : Int64} {m : ℕ} (hc : Cut s n c c' held h h' m)
    (hpages : calculateRunPages h = (span h).2) :
    c'.pageCount = c.pageCount + calculateRunPages h - m := by
  unfold Runs.pageCount
  rcases hc.avail with ⟨rfl, hperm⟩ | ⟨hlt, r, hr, hperm⟩
  · rw [(hperm.map _).sum_eq, hpages]
    ring
  · have hrp : calculateRunPages r = ((span h).2 - m : ℕ) := by
      rw [(hc.inv.decode (hperm.mem_iff.mpr List.mem_cons_self)).2, hr]
    rw [(hperm.map _).sum_eq, List.map_cons, List.sum_cons, hrp, hpages, Nat.cast_sub hlt.le]
    ring

theorem Inv.splitLargeRun (inv : Inv s g.pages c (span h :: held)) (made : s.Made g)
    (hplain : 0 ≤ h ∧ isUsed h = false ∧ isSubpage h = false) (needPages : ℤ) :
    c.splitLargeRun s h needPages = .error .assertion ∨
      ∃ h' c', ∃ m : ℕ, c.splitLargeRun s h needPages = .ok (h', c') ∧ needPages = m ∧
        Cut s g.pages c c' held h h' m := by
  have hpages : calculateRunPages h = (span h).2 := by
    obtain ⟨o, p, u, e, low, f⟩ := exists_fields hplain.1
    rw [f.span_eq]
    exact f.decode.2.1
  by_cases hpos : needPages > 0
  swap
  · exact .inl (by simp [Runs.splitLargeRun, require, hpos, bind, Except.bind])
  by_cases htot : needPages ≤ calculateRunPages h
  swap
  · exact .inl (by simp [Runs.splitLargeRun, require, hpos, htot, bind, Except.bind])
  obtain ⟨m, rfl⟩ : ∃ m : ℕ, needPages = m := ⟨needPages.toNat, by omega⟩
  obtain ⟨h', c', hcall, hcut⟩ := inv.splitLargeRun_ok made hplain (m := m) (by omega) (by omega)
  exact .inr ⟨h', c', m, hcall, rfl, hcut⟩

theorem pages2pageIdx_nat (s : SizeClasses) (pages : ℤ) :
    ∃ k : ℕ, s.pages2pageIdx pages = .ok (k : ℤ) := by
  simp only [SizeClasses.pages2pageIdx, SizeClasses.pages2pageIdxCompute, Bool.false_eq_true, if_false]
  by_cases hbig : pages * 2 ^ s.pageShifts > s.chunkSize
  · rw [if_pos hbig]
    exact ⟨_, rfl⟩
  · rw [if_neg hbig]
    exact ⟨_, rfl⟩

def EmptyBetween (c : Runs) (i j : ℕ) : Prop :=
  ∀ (l : ℕ) q, i ≤ l → l < j → c.runsAvail[l]? = some q → LongPriorityQueue.isEmpty q = true

theorem firstNonEmpty_spec (c : Runs) (i n : ℕ) (hn : i + n ≤ c.runsAvail.length) :
    (c.firstNonEmpty i n = .ok (-1) ∧ c.EmptyBetween i (i + n)) ∨
      ∃ (k : ℕ) (q : LongPriorityQueue), c.firstNonEmpty i n = .ok (k : ℤ) ∧ i ≤ k ∧
        c.runsAvail[k]? = some q ∧ LongPriorityQueue.isEmpty q = false ∧ c.EmptyBetween i k := by
  induction n generalizing i with
  | zero => exact .inl ⟨rfl, fun l q h1 h2 => absurd h1 (by omega)⟩
  | succ n ih =>
    have hget := List.getElem?_eq_getElem (show i < c.runsAvail.length by omega)
    simp only [firstNonEmpty, queueAt_eq hget, bind, Except.bind]
    cases hempty : LongPriorityQueue.isEmpty c.runsAvail[i] with
    | false =>
      refine .inr ⟨i, c.runsAvail[i], rfl, le_rfl, hget, hempty, fun l q h1 h2 => ?_⟩
      exact absurd h1 (by omega)
    | true =>
      have hext : ∀ j, c.EmptyBetween (i + 1) j → c.EmptyBetween i j := by
        intro j hj l q h1 h2 hq
        rcases Nat.eq_or_lt_of_le h1 with rfl | h1
        · rw [hget] at hq
          exact Option.some.inj hq ▸ hempty
        · exact hj l q h1 h2 hq
      rw [if_pos rfl]
      rcases ih (i + 1) (by omega) with ⟨hnone, hall⟩ | ⟨k, q, hk, hik, hq, hne, hall⟩
      · exact .inl ⟨hnone, by rw [← Nat.add_assoc, Nat.add_right_comm]; exact hext _ hall⟩
      · exact .inr ⟨k, q, hk, by omega, hq, hne, hext _ hall⟩

/-- The plain scan of `runFirstBestFit`, when some bytes of the chunk are not free. -/
theorem Inv.runFirstBestFit_scan (inv : Inv s n c held) (hfree : c.freeBytes ≠ s.chunkSize) {k : ℕ}
    (hk : k ≤ s.nPSizes) :
    (c.runFirstBestFit s k = .ok (-1) ∧ c.EmptyBetween k s.nPSizes) ∨
      ∃ (i : ℕ) (q : LongPriorityQueue), c.runFirstBestFit s k = .ok (i : ℤ) ∧ k ≤ i ∧
        c.runsAvail[i]? = some q ∧ LongPriorityQueue.isEmpty q = false ∧ c.EmptyBetween k i := by
  rw [Runs.runFirstBestFit, if_neg hfree, show ((s.nPSizes : ℤ) - k).toNat = s.nPSizes - k by omega]
  have hspec := firstNonEmpty_spec c k (s.nPSizes - k) (by rw [inv.queues]; omega)
  rwa [Nat.add_sub_cancel' hk] at hspec

theorem runFirstBestFit_full (hpos : 0 < s.nPSizes) (hfree : c.freeBytes = s.chunkSize) (k : ℤ) :
    c.runFirstBestFit s k = .ok ((s.nPSizes - 1 : ℕ) : ℤ) := by
  rw [Runs.runFirstBestFit, if_pos hfree, Nat.cast_sub hpos]
  rfl

theorem Inv.runFirstBestFit (inv : Inv s n c held) (hpos : 0 < s.nPSizes) (k : ℕ) :
    c.runFirstBestFit s k = .ok (-1) ∨
      ∃ i : ℕ, c.runFirstBestFit s k = .ok (i : ℤ) ∧ i < c.runsAvail.length := by
  by_cases hfree : c.freeBytes = s.chunkSize
  · exact .inr ⟨_, runFirstBestFit_full hpos hfree k, by rw [inv.queues]; omega⟩
  by_cases hk : k ≤ s.nPSizes
  · rcases inv.runFirstBestFit_scan hfree hk with ⟨hnone, -⟩ | ⟨i, q, hi, -, hq, -⟩
    · exact .inl hnone
    · exact .inr ⟨i, hi, (List.getElem?_eq_some_iff.mp hq).1⟩
  · rw [Runs.runFirstBestFit, if_neg hfree, show ((s.nPSizes : ℤ) - k).toNat = 0 by omega]
    exact .inl rfl

/-- `allocateRun` once it has chosen queue `i`: it stops at an empty one, and cuts the least run of
another. -/
theorem Inv.allocateRun_queue (inv : Inv s n c held) {runSize : ℤ} {k : ℤ}
    (hk : s.pages2pageIdx (runSize / 2 ^ s.pageShifts) = .ok k)
    (hfit : c.runFirstBestFit s k = .ok (i : ℤ)) (hq : c.runsAvail[i]? = some q) :
    (LongPriorityQueue.isEmpty q = true ∧ c.allocateRun s runSize = .error .assertion) ∨
      ∃ h c₁, h ∈ q.elems ∧ (∀ x ∈ q.elems, h ≤ x) ∧ Taken s n c c₁ held h ∧
        c.allocateRun s runSize = c₁.splitLargeRun s h (runSize / 2 ^ s.pageShifts) >>= fun r =>
          .ok (r.1, { r.2 with freeBytes := r.2.freeBytes - Runs.runSize s r.1 }) := by
  unfold Runs.allocateRun
  simp only [hk, bind, Except.bind, hfit, show ¬ (i : ℤ) = -1 by omega, if_false, queueAt_eq hq,
    require]
  by_cases hempty : LongPriorityQueue.isEmpty q = false
  swap
  · exact .inl ⟨Bool.eq_true_of_not_eq_false hempty, by simp [hempty]⟩
  have hsize : 1 ≤ q.size := by
    simp only [LongPriorityQueue.isEmpty, decide_eq_false_iff_not] at hempty
    omega
  obtain ⟨h, q', c₁, hpoll, hrem, htaken, hmem, hleast⟩ := inv.poll hq hsize
  have hplain := inv.plain h (mem_avail_iff.mpr ⟨i, q, hq, hmem⟩)
  refine .inr ⟨h, c₁, hmem, hleast, htaken, ?_⟩
  simp only [if_pos hempty, hpoll, hplain.2.1, if_true, hrem, ne_eq, nonneg_ne_neg_one hplain.1,
    not_false_eq_true]
  rfl

theorem Taken.cut {c₁ : Runs} {h' : Int64} {m : ℕ} (inv : Inv s n c held)
    (htaken : Taken s n c c₁ held h) (hcut : Cut s n c₁ c' held h h' m) :
    Allocated s n c { c' with freeBytes := c'.freeBytes - Runs.runSize s h' } held h' (span h).1 m ∧
      c'.freeBytes - Runs.runSize s h' = c.freeBytes - m * 2 ^ s.pageShifts := by
  obtain ⟨low, f⟩ := hcut.fields
  have hmem : h ∈ c.avail := htaken.avail.mem_iff.mpr List.mem_cons_self
  have hinv := hcut.inv
  refine ⟨⟨⟨low, f⟩, ⟨hinv.queues, hinv.valid, hinv.plain, hinv.tiles, hinv.map, hinv.filed⟩, ?_, ?_⟩,
    ?_⟩
  · have h1 := htaken.pageCount
    have h2 := hcut.pageCount (inv.decode hmem).2
    show c'.pageCount = _
    omega
  · intro x hx
    have hold : ∀ y ∈ c₁.avail, y ∈ c.avail := fun y hy =>
      htaken.avail.mem_iff.mpr (List.mem_cons_of_mem _ hy)
    rcases hcut.avail with ⟨-, hperm⟩ | ⟨hlt, r, hr, hperm⟩
    · exact .inl (hold x (hperm.mem_iff.mp hx))
    · rcases List.mem_cons.mp (hperm.mem_iff.mp hx) with rfl | hx
      · refine .inr ⟨by rw [hr], h, hmem, ?_⟩
        rw [hr]
        simp only [Block.stop]
        omega
      · exact .inl (hold x hx)
  · rw [Runs.runSize, f.decode.2.1, hcut.freeBytes, htaken.freeBytes]

theorem Inv.allocateRun (inv : Inv s g.pages c held) (made : s.Made g) (runSize : ℤ) :
    c.allocateRun s runSize = .error .assertion ∨ c.allocateRun s runSize = .ok (-1, c) ∨
      ∃ h c' o, ∃ m : ℕ, c.allocateRun s runSize = .ok (h, c') ∧
        runSize / 2 ^ s.pageShifts = m ∧ Allocated s g.pages c c' held h o m ∧
        c'.freeBytes = c.freeBytes - m * 2 ^ s.pageShifts := by
  have hpos : 0 < s.nPSizes := by rw [made.nPSizes]; exact pageClasses_pos _
  obtain ⟨k, hk⟩ := pages2pageIdx_nat s (runSize / 2 ^ s.pageShifts)
  rcases inv.runFirstBestFit hpos k with hfit | ⟨i, hfit, hi⟩
  · exact .inr (.inl (by simp [Runs.allocateRun, hk, hfit, bind, Except.bind, pure, Except.pure]))
  have hq := List.getElem?_eq_getElem hi
  rcases inv.allocateRun_queue hk hfit hq with ⟨-, herr⟩ | ⟨h, c₁, hmem, -, htaken, hcall⟩
  · exact .inl herr
  have hplain := inv.plain h (mem_avail_iff.mpr ⟨i, _, hq, hmem⟩)
  rcases htaken.inv.splitLargeRun made hplain (runSize / 2 ^ s.pageShifts) with
    herr | ⟨h', c', m, hsplit, hm, hcut⟩
  · exact .inl (by rw [hcall, herr]; rfl)
  · obtain ⟨hall, hfree⟩ := htaken.cut inv hcut
    exact .inr (.inr ⟨h', _, (span h).1, m, by rw [hcall, hsplit]; rfl, hm, hall, hfree⟩)

/-! ### Freeing a run -/

/-- A run that is being freed, from page `o` on and of `p` pages: it is neither free nor counted. -/
structure Freeing (s : SizeClasses) (n : ℕ) (c : Runs) (held : List Block) (h : Int64) (o p : ℕ) :
    Prop where
  fields : ∃ u e low, Fields h o p u e low
  inv : Inv s n c ((o, p) :: held)

variable {c₀ : Runs}

theorem Freeing.span_eq (fr : Freeing s n c held h o p) : span h = (o, p) := by
  obtain ⟨u, e, low, f⟩ := fr.fields
  exact f.span_eq

theorem Freeing.decode (fr : Freeing s n c held h o p) :
    calculateRunOffset h = o ∧ calculateRunPages h = p := by
  obtain ⟨u, e, low, f⟩ := fr.fields
  exact ⟨f.decode.1, f.decode.2.1⟩

theorem Freeing.bounds (fr : Freeing s n c held h o p) : 0 < p ∧ o + p ≤ n := by
  have hmem : (o, p) ∈ c.avail.map span ++ (o, p) :: held := by simp
  exact ⟨fr.inv.tiles.pos _ hmem, fr.inv.tiles.stop_le hmem⟩

theorem Freeing.past {x : Int64} (fr : Freeing s n c held h o p) (hx : x ∈ c.avail)
    (hend : IsEnd x ((o : ℤ) - 1)) : (span x).stop = o := by
  have hbounds := fr.bounds
  obtain ⟨hnn, hholds⟩ := fr.inv.isEnd_holds hx hend
  obtain ⟨hoff, hpages⟩ := fr.inv.decode hx
  have hapart := fr.inv.apart_held hx o
  unfold Block.Holds Block.stop at *
  by_contra hne
  exact hapart ⟨⟨le_rfl, by simp only; omega⟩, by omega, by omega⟩

theorem Freeing.next {x : Int64} (fr : Freeing s n c held h o p) (hx : x ∈ c.avail)
    (hend : IsEnd x ((o : ℤ) + p)) : (span x).1 = o + p := by
  have hbounds := fr.bounds
  obtain ⟨hnn, hholds⟩ := fr.inv.isEnd_holds hx hend
  have hapart := fr.inv.apart_held hx (o + p - 1)
  unfold Block.Holds Block.stop at *
  by_contra hne
  exact hapart ⟨⟨by simp only; omega, by simp only; omega⟩, by omega, by omega⟩

theorem getAvailRunByOffset_cases (inv : Inv s n c held) (k : ℤ) :
    c.getAvailRunByOffset k = -1 ∧ (∀ x ∈ c.avail, ¬ IsEnd x k) ∨
      ∃ x ∈ c.avail, c.getAvailRunByOffset k = x ∧ IsEnd x k := by
  unfold getAvailRunByOffset
  cases hmap : c.runsAvailMap k with
  | none =>
    refine .inl ⟨rfl, fun x hx hend => ?_⟩
    rw [(inv.map k x).mpr ⟨hx, hend⟩] at hmap
    cases hmap
  | some x =>
    obtain ⟨hx, hend⟩ := (inv.map k x).mp hmap
    exact .inr ⟨x, hx, rfl, hend⟩

/-- The part of the free runs that a collapse has not joined yet. -/
structure Joined (c₀ c : Runs) (p₀ p : ℕ) : Prop where
  sub : ∀ x ∈ c.avail, x ∈ c₀.avail
  pageCount : c.pageCount + p = c₀.pageCount + p₀
  freeBytes : c.freeBytes = c₀.freeBytes

theorem Joined.refl : Joined c c p p := ⟨fun _ hx => hx, rfl, rfl⟩

theorem Joined.take {x : Int64} {p₀ : ℕ} (hj : Joined c₀ c p₀ p) (ht : Taken s n c c' held x)
    (hx : calculateRunPages x = (span x).2) : Joined c₀ c' p₀ ((span x).2 + p) := by
  refine ⟨fun y hy => hj.sub y (ht.avail.mem_iff.mpr (List.mem_cons_of_mem _ hy)), ?_,
    ht.freeBytes.trans hj.freeBytes⟩
  have h1 := ht.pageCount
  have h2 := hj.pageCount
  rw [hx] at h1
  push_cast
  omega

theorem Inv.isEnd_last (inv : Inv s n c held) {x : Int64} (hx : x ∈ c.avail) {k : ℤ}
    (hk : k + 1 = (span x).stop) : IsEnd x k := by
  obtain ⟨hoff, hpages⟩ := inv.decode hx
  refine .inr ?_
  rw [lastPage, hoff, hpages]
  unfold Block.stop at hk
  omega

theorem Inv.isEnd_first (inv : Inv s n c held) {x : Int64} (hx : x ∈ c.avail) {k : ℤ}
    (hk : k = (span x).1) : IsEnd x k := .inl (hk.trans (inv.decode hx).1.symm)

theorem joined_fields (hab : o + p ≤ g.pages) : Fields (toRunHandle o p 0) o p false false 0 := by
  have := g.pages_le
  exact toRunHandle_fields (by omega) (by omega) false

theorem Freeing.collapsePastBody (fr : Freeing s g.pages c held h o p) :
    (collapsePastBody s (c, h) = .ok (.inr (c, h)) ∧ ∀ x ∈ c.avail, (span x).stop ≠ o) ∨
      ∃ c' h', ∃ x ∈ c.avail, collapsePastBody s (c, h) = .ok (.inl (c', h')) ∧
        (span x).stop = o ∧ Taken s g.pages c c' ((o, p) :: held) x ∧
        Freeing s g.pages c' held h' (span x).1 ((span x).2 + p) := by
  obtain ⟨hoff, hpages⟩ := fr.decode
  have hbounds := fr.bounds
  simp only [Runs.collapsePastBody, hoff, hpages]
  rcases getAvailRunByOffset_cases fr.inv ((o : ℤ) - 1) with ⟨hnone, hno⟩ | ⟨x, hx, hget, hend⟩
  · refine .inl ⟨by rw [hnone, if_pos rfl], fun x hx hstop => hno x hx ?_⟩
    exact fr.inv.isEnd_last hx (by omega)
  · have hstop := fr.past hx hend
    obtain ⟨hxo, hxp⟩ := fr.inv.decode hx
    have hne : x ≠ h := by
      rintro rfl
      rw [fr.span_eq] at hstop
      unfold Block.stop at hstop
      simp only at hstop
      omega
    obtain ⟨c', hc', htaken⟩ := fr.inv.removeAvailRun hx
    have hsum : (span x).1 + (span x).2 = o := hstop
    have hjoin : Inv s g.pages c' (((span x).1, (span x).2 + p) :: held) := by
      have := htaken.inv
      rw [← hsum] at this
      exact this.join
    refine .inr ⟨c', toRunHandle (span x).1 ((span x).2 + p : ℕ) 0, x, hx, ?_, hstop, htaken,
      ⟨_, _, _, joined_fields (g := g) (by omega)⟩, hjoin⟩
    rw [hget, if_neg (nonneg_ne_neg_one (fr.inv.plain x hx).1), if_pos ⟨hne, by omega⟩, hc', hxo, hxp]
    rfl

/-- One round of `collapseNext`. A free run after the one being freed is joined only when its page
count equals its offset. -/
theorem Freeing.collapseNextBody (fr : Freeing s g.pages c held h o p) :
    (collapseNextBody s (c, h) = .ok (.inr (c, h)) ∧
        ∀ x ∈ c.avail, (span x).1 = o + p → (span x).2 ≠ o + p) ∨
      ∃ c' h', ∃ x ∈ c.avail, collapseNextBody s (c, h) = .ok (.inl (c', h')) ∧
        (span x).1 = o + p ∧ Taken s g.pages c c' ((o, p) :: held) x ∧
        Freeing s g.pages c' held h' o ((span x).2 + p) := by
  obtain ⟨hoff, hpages⟩ := fr.decode
  have hbounds := fr.bounds
  simp only [Runs.collapseNextBody, hoff, hpages]
  rcases getAvailRunByOffset_cases fr.inv ((o : ℤ) + p) with ⟨hnone, hno⟩ | ⟨x, hx, hget, hend⟩
  · refine .inl ⟨by rw [hnone, if_pos rfl], fun x hx hstart => absurd ?_ (hno x hx)⟩
    exact fr.inv.isEnd_first hx (by omega)
  · have hstart := fr.next hx hend
    obtain ⟨hxo, hxp⟩ := fr.inv.decode hx
    have hne : x ≠ h := by
      rintro rfl
      rw [fr.span_eq] at hstart
      simp only at hstart
      omega
    rw [hget, if_neg (nonneg_ne_neg_one (fr.inv.plain x hx).1)]
    by_cases heq : (span x).2 = o + p
    · obtain ⟨c', hc', htaken⟩ := fr.inv.removeAvailRun hx
      have hjoin : Inv s g.pages c' ((o, (span x).2 + p) :: held) := by
        have := htaken.inv.perm (List.Perm.swap _ _ _)
        rw [show span x = (o + p, (span x).2) from Prod.ext hstart rfl] at this
        rw [Nat.add_comm]
        exact this.join
      have hle := (fr.inv.span_le hx).2
      refine .inr ⟨c', toRunHandle o ((span x).2 + p : ℕ) 0, x, hx, ?_, hstart, htaken,
        ⟨_, _, _, joined_fields (g := g) (by omega)⟩, hjoin⟩
      rw [if_pos ⟨hne, by omega⟩, hc', hxp, Nat.cast_add, add_comm (p : ℤ)]
      rfl
    · refine .inl ⟨if_neg fun hc => heq (by omega), fun y hy hy1 hy2 => heq ?_⟩
      obtain rfl : y = x := by
        have h1 := (fr.inv.map (o + p) y).mpr ⟨hy, fr.inv.isEnd_first hy (by omega)⟩
        have h2 := (fr.inv.map (o + p) x).mpr ⟨hx, hend⟩
        exact Option.some.inj (h1.symm.trans h2)
      exact hy2

theorem rounds_eq (made : s.Made g) : rounds s = g.pages + 1 := by
  rw [rounds, made.chunkSize, made.pageShifts, g.chunkSize_eq, Nat.shiftRight_eq_div_pow,
    Nat.mul_div_cancel _ (Nat.two_pow_pos _)]

theorem collapsePast_spec {h₀ : Int64} {o₀ p₀ : ℕ} (made : s.Made g)
    (fr : Freeing s g.pages c₀ held h₀ o₀ p₀) :
    ∃ c h o p, c₀.collapsePast s h₀ = .ok (c, h) ∧ Freeing s g.pages c held h o p ∧
      Joined c₀ c p₀ p ∧ o + p = o₀ + p₀ ∧ ∀ x ∈ c.avail, (span x).stop ≠ o := by
  have hbounds := fr.bounds
  obtain ⟨⟨c, h⟩, hrun, o, p, hfr, hj, hstop, hpast⟩ := Loop.run_ok (Runs.collapsePastBody s)
    (μ := fun r : Runs × Int64 => (calculateRunOffset r.2).toNat)
    (I := fun r => ∃ o p, Freeing s g.pages r.1 held r.2 o p ∧ Joined c₀ r.1 p₀ p ∧
      o + p = o₀ + p₀)
    (Q := fun r => ∃ o p, Freeing s g.pages r.1 held r.2 o p ∧ Joined c₀ r.1 p₀ p ∧
      o + p = o₀ + p₀ ∧ ∀ x ∈ r.1.avail, (span x).stop ≠ o)
    (fun ⟨c, h⟩ ⟨o, p, hfr, hj, hstop⟩ => by
      rcases hfr.collapsePastBody with ⟨hbody, hno⟩ | ⟨c', h', x, hx, hbody, hx', ht, hfr'⟩
      · exact .inr ⟨_, hbody, o, p, hfr, hj, hstop, hno⟩
      · have hpos := (hfr.inv.span_le hx).1
        unfold Block.stop at hx'
        refine .inl ⟨_, hbody, ⟨_, _, hfr', hj.take ht (hfr.inv.decode hx).2, by omega⟩, ?_⟩
        simp only [hfr'.decode.1, hfr.decode.1]
        omega)
    (rounds s) (c₀, h₀) ⟨o₀, p₀, fr, .refl, rfl⟩
    (by simp only [fr.decode.1, rounds_eq made]; omega)
  exact ⟨c, h, o, p, hrun, hfr, hj, hstop, hpast⟩

/-- The run that `collapseNext` ends with stops where the run it started with stopped, or where a
free run did. -/
theorem collapseNext_spec {h₀ : Int64} {o₀ p₀ : ℕ} (made : s.Made g)
    (fr : Freeing s g.pages c₀ held h₀ o₀ p₀) :
    ∃ c h p, c₀.collapseNext s h₀ = .ok (c, h) ∧ Freeing s g.pages c held h o₀ p ∧
      Joined c₀ c p₀ p ∧ (p = p₀ ∨ ∃ x ∈ c₀.avail, (span x).stop = o₀ + p) ∧
      ∀ x ∈ c.avail, (span x).1 = o₀ + p → (span x).2 ≠ o₀ + p := by
  have hbounds := fr.bounds
  obtain ⟨⟨c, h⟩, hrun, p, hfr, hj, hstop, hnext⟩ := Loop.run_ok (Runs.collapseNextBody s)
    (μ := fun r : Runs × Int64 => g.pages - (calculateRunPages r.2).toNat)
    (I := fun r => ∃ p, Freeing s g.pages r.1 held r.2 o₀ p ∧ Joined c₀ r.1 p₀ p ∧
      (p = p₀ ∨ ∃ x ∈ c₀.avail, (span x).stop = o₀ + p))
    (Q := fun r => ∃ p, Freeing s g.pages r.1 held r.2 o₀ p ∧ Joined c₀ r.1 p₀ p ∧
      (p = p₀ ∨ ∃ x ∈ c₀.avail, (span x).stop = o₀ + p) ∧
      ∀ x ∈ r.1.avail, (span x).1 = o₀ + p → (span x).2 ≠ o₀ + p)
    (fun ⟨c, h⟩ ⟨p, hfr, hj, hstop⟩ => by
      rcases hfr.collapseNextBody with ⟨hbody, hno⟩ | ⟨c', h', x, hx, hbody, hx', ht, hfr'⟩
      · exact .inr ⟨_, hbody, p, hfr, hj, hstop, hno⟩
      · have hpos := (hfr.inv.span_le hx).1
        have hle := hfr'.bounds
        refine .inl ⟨_, hbody, ⟨_, hfr', hj.take ht (hfr.inv.decode hx).2,
          .inr ⟨x, hj.sub x hx, by unfold Block.stop; omega⟩⟩, ?_⟩
        simp only [hfr'.decode.2, hfr.decode.2]
        omega)
    (rounds s) (c₀, h₀) ⟨p₀, fr, .refl, .inl rfl⟩ (by simp only [rounds_eq made]; omega)
  exact ⟨c, h, p, hrun, hfr, hj, hstop, hnext⟩

/-- A run that stopped at page `e` has been freed: the new free run `(o, p)` holds it together with
the free runs joined to it, and `rest` are the others. -/
structure Freed (c₀ c : Runs) (e o p : ℕ) (rest : List Int64) : Prop where
  avail : ∃ h, span h = (o, p) ∧ c.avail.Perm (h :: rest)
  sub : ∀ x ∈ rest, x ∈ c₀.avail
  past : ∀ x ∈ rest, (span x).stop ≠ o
  stop : o + p = e ∨ ∃ x ∈ c₀.avail, (span x).stop = o + p
  next : ∀ x ∈ rest, (span x).1 = o + p → (span x).2 ≠ o + p

theorem Freeing.free {h₀ : Int64} {o₀ p₀ : ℕ} (fr : Freeing s g.pages c₀ held h₀ o₀ p₀)
    (made : s.Made g) :
    ∃ c o p rest, c₀.free s h₀ = .ok c ∧ Inv s g.pages c held ∧
      c.pageCount = c₀.pageCount + p₀ ∧ c.freeBytes = c₀.freeBytes + p₀ * 2 ^ s.pageShifts ∧
      Freed c₀ c (o₀ + p₀) o p rest := by
  obtain ⟨c₁, h₁, o, p₁, hpast, fr₁, hj₁, hstop₁, hno₁⟩ := collapsePast_spec made fr
  obtain ⟨c₂, h₂, p, hnext, fr₂, hj₂, hstop₂, hno₂⟩ := collapseNext_spec made fr₁
  obtain ⟨u, e, low, f₂⟩ := fr₂.fields
  have f := f₂.clearFlags
  obtain ⟨c₃, hins, hfiled⟩ := fr₂.inv.insertAvailRun made f
  refine ⟨{ c₃ with freeBytes := c₃.freeBytes + p₀ * 2 ^ s.pageShifts }, o, p, c₂.avail, ?_, ?_, ?_,
    ?_, ⟨_, f.span_eq, hfiled.avail⟩, ?_, ?_, ?_, hno₂⟩
  · simp only [Runs.free, collapseRuns, hpast, hnext, bind, Except.bind, f.decode.1, f.decode.2.1,
      hins, pure, Except.pure, fr.decode.2]
  · have hinv := hfiled.inv
    exact ⟨hinv.queues, hinv.valid, hinv.plain, hinv.tiles, hinv.map, hinv.filed⟩
  · have h1 := hj₁.pageCount
    have h2 := hj₂.pageCount
    have h3 := hfiled.pageCount
    rw [f.decode.2.1] at h3
    show c₃.pageCount = _
    omega
  · simp only [hfiled.freeBytes, hj₂.freeBytes, hj₁.freeBytes]
  · exact fun x hx => hj₁.sub x (hj₂.sub x hx)
  · exact fun x hx => hno₁ x (hj₂.sub x hx)
  · rcases hstop₂ with rfl | ⟨x, hx, hxs⟩
    · exact .inl hstop₁
    · exact .inr ⟨x, hj₁.sub x hx, hxs⟩

/-! ### A fresh chunk -/

theorem shiftLeft_eq_toRunHandle (p : ℤ) : Int64.ofInt p <<< 34 = toRunHandle 0 p 0 := by
  have h0 : Int64.ofInt 0 <<< 49 = 0 := by decide
  have h1 : Int64.ofInt 0 <<< 33 = 0 := by decide
  rw [toRunHandle, h0, h1]
  simp

theorem make_spec (made : s.Made g) :
    ∃ c h, Runs.make s = .ok c ∧ Inv s g.pages c [] ∧ c.avail = [h] ∧ span h = (0, g.pages) ∧
      c.freeBytes = g.chunkSize := by
  have hpages : s.chunkSize >>> s.pageShifts = g.pages := by
    have := rounds_eq made
    unfold rounds at this
    omega
  set c₀ : Runs := ⟨s.chunkSize, List.replicate s.nPSizes LongPriorityQueue.new, fun _ => none⟩
  have havail : c₀.avail = [] := by
    refine List.flatMap_eq_nil_iff.mpr fun q hq => ?_
    rw [List.eq_of_mem_replicate hq]
    rfl
  have hinv : Inv s g.pages c₀ [(0, g.pages)] := by
    refine ⟨List.length_replicate, fun q hq => ?_, ?_, ?_, fun k h => ?_, fun i q h hq hh => ?_⟩
    · rw [List.eq_of_mem_replicate hq]
      exact LongPriorityQueue.new_valid
    · rw [havail]
      exact fun h hh => absurd hh List.not_mem_nil
    · rw [havail]
      exact tiles_single g.pages_pos
    · rw [havail]
      simp [c₀]
    · rw [List.eq_of_mem_replicate (List.mem_of_getElem? hq)] at hh
      exact absurd hh List.not_mem_nil
  have f := joined_fields (g := g) (o := 0) (p := g.pages) (by omega)
  obtain ⟨c, hc, hfiled⟩ := hinv.insertAvailRun made f
  have hperm := hfiled.avail
  rw [havail] at hperm
  refine ⟨c, _, ?_, hfiled.inv, List.perm_singleton.mp hperm, f.span_eq, ?_⟩
  · unfold Runs.make
    simp only [hpages, shiftLeft_eq_toRunHandle]
    exact hc
  · rw [hfiled.freeBytes, ← made.chunkSize]

end Runs
end Mutty.Buffer
