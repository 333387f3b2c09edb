import Mutty.Lib.Links
import Mutty.Buffer.ChunkOps
import Mutty.Buffer.SubpageMachine

/-!
# The subpages of a size class

The head of a size class and the subpages of this class that have a free element are linked in a
ring. `Linked` says so about the links alone, for any set of members; a subpage is taken out of its
ring when its last free element goes or when it is given up, and put in front when it gets one back.
`Rings` is the same for the members that the code means, together with what the search for a free
element rests on.
-/

namespace Mutty.Buffer

open Mutty.Lib Prog

/-! ### Links -/

namespace RingLinks

variable {ring : Node → RingLinks} {n a b head m : Node}

theorem unlinked_next_eq (hm : m ≠ n) :
    (unlinked ring n a b m).next = if m = a then some b else (ring m).next := by
  simp only [unlinked, Function.update_apply, if_neg hm]
  split_ifs <;> simp_all

theorem unlinked_prev_eq (hm : m ≠ n) :
    (unlinked ring n a b m).prev = if m = b then some a else (ring m).prev := by
  simp only [unlinked, Function.update_apply, if_neg hm]
  split_ifs <;> simp_all

theorem inserted_next_eq (hm : m ≠ n) :
    (inserted ring n head b m).next = if m = head then some n else (ring m).next := by
  simp only [inserted, Function.update_apply, if_neg hm]
  split_ifs <;> simp_all

theorem inserted_prev_eq (hm : m ≠ n) :
    (inserted ring n head b m).prev = if m = b then some n else (ring m).prev := by
  simp only [inserted, Function.update_apply, if_neg hm]
  split_ifs <;> simp_all

theorem inserted_eq (hhead : n ≠ head) (hb : n ≠ b) :
    inserted ring n head b n = { prev := some head, next := some b } := by
  simp [inserted, Function.update_apply, hhead, hb]

end RingLinks

/-- The subpages `ss` are linked in a circle with the head of size class `i` of arena `a`. -/
def IsPool (ring : Node → RingLinks) (a : ArenaId) (i : ℕ) (ss : List SubpageId) : Prop :=
  LinkedRing (fun n => (ring n).prev) (fun n => (ring n).next) (.head a i) (ss.map Node.subpage)

/-- Each of the first `n` size classes of every arena has exactly the subpages in `U` in its ring,
and other subpages that are there are not linked. -/
structure Linked (n : ℕ) (known : SubpageId → Prop) (ring : Node → RingLinks)
    (U : ArenaId → ℕ → SubpageId → Prop) : Prop where
  pool : ∀ a i, i < n → ∃ ss, IsPool ring a i ss ∧ ∀ s, s ∈ ss ↔ U a i s
  one : ∀ a i a' i' s, U a i s → U a' i' s → a' = a ∧ i' = i
  unlinked : ∀ s, known s → (∀ a i, ¬ U a i s) → ring (.subpage s) = { prev := none, next := none }

namespace Linked

variable {n i : ℕ} {known : SubpageId → Prop} {ring ring' : Node → RingLinks} {a : ArenaId}
  {U : ArenaId → ℕ → SubpageId → Prop} {s : SubpageId}

def At (U : ArenaId → ℕ → SubpageId → Prop) (a : ArenaId) (i : ℕ) (m : Node) : Prop :=
  m = .head a i ∨ ∃ s, m = .subpage s ∧ U a i s

theorem at_iff {ss : List SubpageId} (hss : ∀ s, s ∈ ss ↔ U a i s) (m : Node) :
    m ∈ Node.head a i :: ss.map Node.subpage ↔ At U a i m := by
  rw [List.mem_cons, List.mem_map, At]
  refine or_congr Iff.rfl (exists_congr fun s => ?_)
  rw [hss s, eq_comm]
  exact and_comm

theorem At.unique (h : Linked n known ring U) {a' : ArenaId} {i' : ℕ} {m : Node}
    (hm : At U a i m) (hm' : At U a' i' m) : a' = a ∧ i' = i := by
  rcases hm with rfl | ⟨s, rfl, hs⟩
  · rcases hm' with heq | ⟨s, heq, -⟩
    · cases heq
      exact ⟨rfl, rfl⟩
    · cases heq
  · rcases hm' with heq | ⟨s', heq, hs'⟩
    · cases heq
    · cases heq
      exact h.one a i a' i' s hs hs'

/-- The rings of the other classes are as before when only nodes of one ring have changed. -/
theorem other (h : Linked n known ring U) (hi : i < n) {V : SubpageId → Prop}
    (hV : ∀ s, V s ↔ U a i s) (hring : ∀ m, At U a i m → ring' m = ring m) :
    ∃ ss, IsPool ring' a i ss ∧ ∀ s, s ∈ ss ↔ V s := by
  obtain ⟨ss, hpool, hss⟩ := h.pool a i hi
  have hsame : ∀ m ∈ Node.head a i :: ss.map Node.subpage, ring' m = ring m := fun m hm =>
    hring m ((at_iff hss m).mp hm)
  refine ⟨ss, hpool.congr (fun m hm => ?_) fun m hm => ?_, fun s => (hss s).trans (hV s).symm⟩
  · simp only [hsame m hm]
  · simp only [hsame m hm]

/-- A member is taken out of its ring. Its neighbours differ only when the ring has another one. -/
theorem unlink (h : Linked n known ring U) (hi : i < n) (hs : U a i s) :
    ∃ x y, (ring (.subpage s)).prev = some x ∧ (ring (.subpage s)).next = some y ∧
      (x ≠ y → ∃ s', s' ≠ s ∧ U a i s') ∧
      Linked n known (RingLinks.unlinked ring (.subpage s) x y)
        (fun a' i' s' => U a' i' s' ∧ s' ≠ s) := by
  obtain ⟨ss, hpool, hss⟩ := h.pool a i hi
  have hmem : Node.subpage s ∈ ss.map Node.subpage := List.mem_map_of_mem ((hss s).mpr hs)
  obtain ⟨x, hx, y, hy, hprev, hnext, hother⟩ := hpool.neighbours hmem
  refine ⟨x, y, hprev, hnext, fun hne => ?_, ⟨fun a' i' hi' => ?_, ?_, ?_⟩⟩
  · obtain ⟨d, hd, hds⟩ := hother hne
    obtain ⟨s', hs', rfl⟩ := List.mem_map.mp hd
    exact ⟨s', fun heq => hds (by rw [heq]), (hss s').mp hs'⟩
  · by_cases hat : a' = a ∧ i' = i
    · obtain ⟨rfl, rfl⟩ := hat
      have hnodup : ss.Nodup := (List.nodup_cons.mp hpool.nodup).2.of_map _
      refine ⟨ss.erase s, ?_, fun s' => ?_⟩
      · have hinj : Function.Injective Node.subpage := fun _ _ heq => Node.subpage.inj heq
        rw [IsPool, List.map_erase hinj]
        refine hpool.erase hmem (fun m hm => ?_) fun m hm => ?_
        · simp only [hprev, hnext, Option.some.injEq, eq_comm (a := x),
            RingLinks.unlinked_next_eq hm]
        · simp only [hprev, hnext, Option.some.injEq, eq_comm (a := y),
            RingLinks.unlinked_prev_eq hm]
      · rw [hnodup.mem_erase_iff, hss]
        exact and_comm
    · refine h.other hi' (fun s' => ?_) fun m hm => ?_
      · refine and_iff_left_of_imp fun hs' => ?_
        rintro rfl
        exact hat (h.one a i a' i' s' hs hs')
      · have haway : ∀ {z}, At U a i z → m ≠ z := by
          rintro z hz rfl
          exact hat (At.unique h hz hm)
        have hms : m ≠ .subpage s := haway (.inr ⟨s, rfl, hs⟩)
        have hmx := haway ((at_iff hss x).mp hx)
        have hmy := haway ((at_iff hss y).mp hy)
        simp only [RingLinks.unlinked, Function.update_of_ne hms, Function.update_of_ne hmx,
          Function.update_of_ne hmy]
  · exact fun a i a' i' s' hs' hs'' => h.one a i a' i' s' hs'.1 hs''.1
  · intro s' hknown hno
    by_cases heq : s' = s
    · rw [heq, RingLinks.unlinked_self]
    · have hold := h.unlinked s' hknown fun a' i' hs' => hno a' i' ⟨hs', heq⟩
      have hne : Node.subpage s' ≠ .subpage s := fun habs => heq (Node.subpage.inj habs)
      have haway : ∀ {z}, At U a i z → Node.subpage s' ≠ z := by
        rintro z (rfl | ⟨s'', rfl, hs''⟩) habs
        · cases habs
        · cases habs
          exact hno a i ⟨hs'', heq⟩
      simp only [RingLinks.unlinked, Function.update_of_ne hne,
        Function.update_of_ne (haway ((at_iff hss x).mp hx)),
        Function.update_of_ne (haway ((at_iff hss y).mp hy)), hold]

theorem link (h : Linked n known ring U) (hi : i < n) (hs : ∀ a i, ¬ U a i s) :
    ∃ b, (ring (.head a i)).next = some b ∧ b ≠ .subpage s ∧
      Linked n known (RingLinks.inserted ring (.subpage s) (.head a i) b)
        (fun a' i' s' => U a' i' s' ∨ a' = a ∧ i' = i ∧ s' = s) := by
  obtain ⟨ss, hpool, hss⟩ := h.pool a i hi
  have hfresh : ∀ {a' i' z}, At U a' i' z → z ≠ .subpage s := by
    rintro a' i' z (rfl | ⟨s', rfl, hs'⟩) habs
    · cases habs
    · cases habs
      exact hs a' i' hs'
  obtain ⟨b, hb, hbat⟩ : ∃ b, (ring (.head a i)).next = some b ∧ At U a i b := by
    have hfirst : (ring (.head a i)).next = (ss.map Node.subpage).head?.or (some (.head a i)) :=
      hpool.first
    rw [hfirst]
    cases ss with
    | nil => exact ⟨_, rfl, .inl rfl⟩
    | cons s' ss => exact ⟨_, rfl, .inr ⟨s', rfl, (hss s').mp List.mem_cons_self⟩⟩
  refine ⟨b, hb, hfresh hbat, ⟨fun a' i' hi' => ?_, ?_, ?_⟩⟩
  · by_cases hat : a' = a ∧ i' = i
    · obtain ⟨rfl, rfl⟩ := hat
      have hself : RingLinks.inserted ring (.subpage s) (.head a' i') b (.subpage s) =
          { prev := some (.head a' i'), next := some b } :=
        RingLinks.inserted_eq (fun habs => by cases habs) (hfresh hbat).symm
      refine ⟨s :: ss, ?_, fun s' => ?_⟩
      · rw [IsPool, List.map_cons]
        refine hpool.insert (fun hmem => ?_) ?_ ?_ (fun m hm => ?_) fun m hm => ?_
        · exact hfresh ((at_iff hss _).mp hmem) rfl
        · simp only [hself]
        · simp only [hself, hb]
        · simp only [RingLinks.inserted_next_eq hm]
        · simp only [hb, Option.some.injEq, eq_comm (a := b), RingLinks.inserted_prev_eq hm]
      · rw [List.mem_cons, hss]
        simp only [true_and]
        exact or_comm
    · refine h.other hi' (fun s' => ?_) fun m hm => ?_
      · exact or_iff_left fun hnew => hat ⟨hnew.1, hnew.2.1⟩
      · have haway : ∀ {z}, At U a i z → m ≠ z := by
          rintro z hz rfl
          exact hat (At.unique h hz hm)
        have hmh : m ≠ .head a i := haway (.inl rfl)
        simp only [RingLinks.inserted, Function.update_of_ne hmh, Function.update_of_ne (haway hbat),
          Function.update_of_ne (hfresh hm)]
  · rintro a₁ i₁ a₂ i₂ s' (hs₁ | ⟨rfl, rfl, heq₁⟩) (hs₂ | ⟨rfl, rfl, heq₂⟩)
    · exact h.one a₁ i₁ a₂ i₂ s' hs₁ hs₂
    · exact absurd (heq₂ ▸ hs₁) (hs a₁ i₁)
    · exact absurd (heq₁ ▸ hs₂) (hs a₂ i₂)
    · exact ⟨rfl, rfl⟩
  · intro s' hknown hno
    have hne : Node.subpage s' ≠ .subpage s := by
      intro habs
      exact hno a i (.inr ⟨rfl, rfl, Node.subpage.inj habs⟩)
    have hbne : Node.subpage s' ≠ b := by
      rintro rfl
      rcases hbat with habs | ⟨s'', habs, hs''⟩
      · cases habs
      · cases habs
        exact hno a i (.inl hs'')
    have hhne : Node.subpage s' ≠ .head a i := fun habs => by cases habs
    simp only [RingLinks.inserted, Function.update_of_ne hne, Function.update_of_ne hbne,
      Function.update_of_ne hhne]
    exact h.unlinked s' hknown fun a' i' hs' => hno a' i' (.inl hs')

theorem head_next (h : Linked n known ring U) (hi : i < n) (a : ArenaId) :
    ∃ b, (ring (.head a i)).next = some b := by
  obtain ⟨ss, hpool, -⟩ := h.pool a i hi
  have hfirst : (ring (.head a i)).next = (ss.map Node.subpage).head?.or (some (.head a i)) :=
    hpool.first
  rw [hfirst]
  cases ss with
  | nil => exact ⟨_, rfl⟩
  | cons s ss => exact ⟨_, rfl⟩

theorem fresh (h : Linked n known ring U) (hs : ∀ a i, ¬ U a i s) :
    Linked n (fun s' => known s' ∨ s' = s)
      (Function.update ring (.subpage s) { prev := none, next := none }) U where
  pool a i hi := by
    refine h.other hi (fun _ => Iff.rfl) fun m hm => Function.update_of_ne ?_ _ _
    rintro rfl
    rcases hm with habs | ⟨s', habs, hs'⟩
    · cases habs
    · cases habs
      exact hs a i hs'
  one := h.one
  unlinked s' hknown hno := by
    by_cases heq : s' = s
    · rw [heq, Function.update_self]
    · rw [Function.update_of_ne fun habs => heq (Node.subpage.inj habs)]
      exact h.unlinked s' (hknown.resolve_right heq) hno

theorem of_iff (h : Linked n known ring U) {known' : SubpageId → Prop}
    {V : ArenaId → ℕ → SubpageId → Prop} (hknown : ∀ s, known' s → known s)
    (hV : ∀ a i s, V a i s ↔ U a i s) : Linked n known' ring V where
  pool a i hi := h.other hi (hV a i) fun _ _ => rfl
  one a i a' i' s hs hs' := h.one a i a' i' s ((hV a i s).mp hs) ((hV a' i' s).mp hs')
  unlinked s hs hno := h.unlinked s (hknown s hs) fun a i hs' => hno a i ((hV a i s).mpr hs')

end Linked

/-! ### Members -/

variable {k : Config} {g : Geometry} {σ σ' : Pool} {T : List Token} {c : ChunkId}
  {x : PoolChunk} {s s' : SubpageId} {p p' : PoolSubpage} {a : ArenaId} {size : ℤ} {es : List ℕ}

/-- A subpage of arena `a` for elements of `size` bytes that can hand one out. -/
def Usable (σ : Pool) (a : ArenaId) (size : ℤ) (s : SubpageId) : Prop :=
  ∃ p x, σ.subpage s = some p ∧ σ.chunk p.chunk = some x ∧ x.arena = a ∧ p.doNotDestroy = true ∧
    0 < p.numAvail ∧ p.elemSize = size

theorem usable_iff (hp : σ.subpage s = some p) (hx : σ.chunk p.chunk = some x) :
    Usable σ a size s ↔ x.arena = a ∧ p.doNotDestroy = true ∧ 0 < p.numAvail ∧ p.elemSize = size := by
  constructor
  · rintro ⟨q, y, hq, hy, h⟩
    obtain rfl : p = q := Option.some.inj (hp.symm.trans hq)
    obtain rfl : x = y := Option.some.inj (hx.symm.trans hy)
    exact h
  · exact fun h => ⟨p, x, hp, hx, h⟩

theorem usable_congr (hsub : σ'.subpage s = σ.subpage s)
    (harena : ∀ p, σ.subpage s = some p → p.doNotDestroy = true →
      (σ'.chunk p.chunk).map PoolChunk.arena = (σ.chunk p.chunk).map PoolChunk.arena) :
    Usable σ' a size s ↔ Usable σ a size s := by
  have hchunk : ∀ p, σ.subpage s = some p → p.doNotDestroy = true →
      ((∃ x, σ'.chunk p.chunk = some x ∧ x.arena = a) ↔ ∃ x, σ.chunk p.chunk = some x ∧ x.arena = a) := by
    intro p hp hd
    rw [← Option.map_eq_some_iff, ← Option.map_eq_some_iff, harena p hp hd]
  constructor
  · rintro ⟨p, x, hp, hx, ha, hd, hrest⟩
    rw [hsub] at hp
    obtain ⟨y, hy, hya⟩ := (hchunk p hp hd).mp ⟨x, hx, ha⟩
    exact ⟨p, y, hp, hy, hya, hd, hrest⟩
  · rintro ⟨p, x, hp, hx, ha, hd, hrest⟩
    obtain ⟨y, hy, hya⟩ := (hchunk p hp hd).mpr ⟨x, hx, ha⟩
    exact ⟨p, y, hsub.trans hp, hy, hya, hd, hrest⟩

namespace PoolSubpage

/-- The bitmap has room, and the hint is not an element in use. -/
structure Sound (p : PoolSubpage) : Prop where
  roomy : Roomy p
  hint : p.nextAvail = -1 ∨ ∃ i : ℕ, p.nextAvail = i ∧ (i : ℤ) < p.maxNumElems ∧ p.bit i = false

theorem Tracks.sound (h : Tracks p es) : Sound p := by
  refine ⟨h.roomy, h.hint.imp_right fun ⟨i, hi, hlt, hfree⟩ => ⟨i, hi, hlt, ?_⟩⟩
  exact Bool.eq_false_of_not_eq_true fun hset => hfree ((h.elements.bits i).mp hset)

theorem Sound.tracks (h : Sound p) (he : Elements p es) : Tracks p es := by
  refine ⟨he, h.roomy, h.hint.imp_right fun ⟨i, hi, hlt, hfree⟩ => ⟨i, hi, hlt, fun hmem => ?_⟩⟩
  rw [(he.bits i).mpr hmem] at hfree
  cases hfree

end PoolSubpage

/-- The rings of all size classes have exactly their usable subpages. -/
structure Rings (k : Config) (σ : Pool) : Prop where
  linked : Linked k.sizes.nSubpages (fun s => (σ.subpage s).isSome) σ.ring
    fun a i => Usable σ a (sizeAt i)
  sound : ∀ s p, σ.subpage s = some p → p.doNotDestroy = true →
    p.Sound ∧ ∃ i < k.sizes.nSubpages, p.elemSize = sizeAt i

theorem Rings.frame (hr : Rings k σ) (hring : σ'.ring = σ.ring) (hsub : σ'.subpage = σ.subpage)
    (harena : ∀ s p, σ.subpage s = some p → p.doNotDestroy = true →
      (σ'.chunk p.chunk).map PoolChunk.arena = (σ.chunk p.chunk).map PoolChunk.arena) :
    Rings k σ' where
  linked := by
    rw [hring]
    refine hr.linked.of_iff (fun s hs => by rw [← hsub]; exact hs) fun a i s => ?_
    exact usable_congr (by rw [hsub]) (harena s)
  sound := by
    rw [hsub]
    exact hr.sound

theorem Rings.sameStore (hr : Rings k σ) (hring : σ'.ring = σ.ring) (hs : SameStore σ σ') :
    Rings k σ' := hr.frame hring hs.subpage fun _ _ _ _ => by rw [hs.chunk]

theorem map_arena_withChunk {y : PoolChunk} (hx : σ.chunk c = some x) (ha : y.arena = x.arena)
    (d : ChunkId) :
    ((σ.withChunk c y).chunk d).map PoolChunk.arena = (σ.chunk d).map PoolChunk.arena := by
  by_cases hd : d = c
  · rw [hd, Pool.withChunk_chunk, hx, Option.map_some, Option.map_some, ha]
  · rw [Pool.withChunk_of_ne hd]

theorem Rings.withChunk {y : PoolChunk} (hr : Rings k σ) (hx : σ.chunk c = some x)
    (ha : y.arena = x.arena) : Rings k (σ.withChunk c y) :=
  hr.frame rfl rfl fun _ p _ _ => map_arena_withChunk hx ha p.chunk

theorem Rings.destroyChunk (hr : Rings k σ) (hh : Held k g σ T) (hx : σ.chunk c = some x)
    (hslot : ∀ s, some s ∉ x.subpages) : Rings k { σ with
      chunk := Function.update σ.chunk c none
      subpage := fun s => if some s ∈ x.subpages then none else σ.subpage s } := by
  refine hr.frame rfl (funext fun s => if_neg (hslot s)) fun s p hp hd => ?_
  obtain ⟨y, hy, hs⟩ := hh.alive s p hp hd
  have hne : p.chunk ≠ c := by
    intro heq
    rw [heq, hx] at hy
    obtain rfl := Option.some.inj hy
    exact hslot s (List.mem_of_getElem? hs)
  exact congrArg _ (Function.update_of_ne hne _ _)

theorem isSome_of_update {f : SubpageId → Option PoolSubpage} (hp : f s = some p)
    (h : (Function.update f s (some p') s').isSome = true) : (f s').isSome = true := by
  by_cases heq : s' = s
  · rw [heq, hp]
    rfl
  · rwa [Function.update_of_ne heq] at h

theorem Rings.setSubpage (hr : Rings k σ) (p' : PoolSubpage) (hx : σ'.chunk p'.chunk = some x)
    (harena : ∀ d, (σ'.chunk d).map PoolChunk.arena = (σ.chunk d).map PoolChunk.arena)
    (hsub : σ'.subpage = Function.update σ.subpage s (some p')) {known : SubpageId → Prop}
    {V : ArenaId → ℕ → SubpageId → Prop} (hlinked : Linked k.sizes.nSubpages known σ'.ring V)
    (hknown : ∀ s', (Function.update σ.subpage s (some p') s').isSome = true → known s')
    (hV : ∀ a i, V a i s ↔
      x.arena = a ∧ p'.doNotDestroy = true ∧ 0 < p'.numAvail ∧ p'.elemSize = sizeAt i)
    (hother : ∀ a i s', s' ≠ s → (V a i s' ↔ Usable σ a (sizeAt i) s'))
    (hsound : p'.doNotDestroy = true → p'.Sound ∧ ∃ i < k.sizes.nSubpages, p'.elemSize = sizeAt i) :
    Rings k σ' where
  linked := by
    refine hlinked.of_iff (fun s' hs' => hknown s' (by rw [← hsub]; exact hs')) fun a i s' => ?_
    by_cases heq : s' = s
    · have hself : σ'.subpage s = some p' := by rw [hsub, Function.update_self]
      rw [heq, hV, usable_iff hself hx]
    · rw [hother a i s' heq]
      refine usable_congr ?_ fun q _ _ => harena q.chunk
      rw [hsub, Function.update_of_ne heq]
  sound s' q hq hd := by
    rw [hsub, Function.update_apply] at hq
    split_ifs at hq with heq
    · obtain rfl := Option.some.inj hq
      exact hsound hd
    · exact hr.sound s' q hq hd

theorem Rings.addSubpage (hr : Rings k σ) (hs : σ.subpage s = none) (hx : σ'.chunk p.chunk = some x)
    (harena : ∀ d, (σ'.chunk d).map PoolChunk.arena = (σ.chunk d).map PoolChunk.arena)
    (hsub : σ'.subpage = Function.update σ.subpage s (some p)) {b : Node} {i : ℕ}
    (hb : (σ.ring (.head x.arena i)).next = some b)
    (hring : σ'.ring = RingLinks.inserted
      (Function.update σ.ring (.subpage s) { prev := none, next := none }) (.subpage s)
      (.head x.arena i) b)
    (ht : p.Tracks []) (hd : p.doNotDestroy = true) (hi : i < k.sizes.nSubpages)
    (hsize : p.elemSize = sizeAt i) : Rings k σ' := by
  have hno : ∀ a j, ¬ Usable σ a (sizeAt j) s := by
    rintro a j ⟨q, y, hq, -⟩
    rw [hs] at hq
    cases hq
  obtain ⟨b', hb', -, hlinked⟩ := (hr.linked.fresh hno).link (a := x.arena) hi hno
  have hne : Node.head x.arena i ≠ .subpage s := nofun
  rw [Function.update_of_ne hne] at hb'
  obtain rfl : b = b' := Option.some.inj (hb.symm.trans hb')
  rw [← hring] at hlinked
  refine hr.setSubpage _ hx harena hsub hlinked (fun s' hs' => ?_) (fun a j => ?_) (fun a j s' hs' => ?_)
    fun _ => ⟨ht.sound, i, hi, hsize⟩
  · by_cases heq : s' = s
    · exact .inr heq
    · rw [Function.update_of_ne heq] at hs'
      exact .inl hs'
  · have hpos : 0 < p.numAvail := by
      have hcount := ht.elements.count
      have hroom := ht.roomy.some_elem
      rw [List.length_nil] at hcount
      omega
    have hinj : ((sizeAt i : ℕ) : ℤ) = sizeAt j ↔ j = i := by
      rw [Nat.cast_inj, sizeAt_strictMono.injective.eq_iff, eq_comm]
    simp only [hno, false_or, hd, hpos, true_and, and_true, hsize, hinj, eq_comm (a := x.arena)]
  · exact or_iff_left fun hnew => hs' hnew.2.2

/-! ### Elements -/

theorem Rings.allocateElement (hr : Rings k σ) (hp : σ.subpage s = some p) (hx : σ.chunk p.chunk = some x)
    (he : p.Elements es) (hd : p.doNotDestroy = true) (hn : 0 < p.numAvail) :
    ∃ h σ', PoolSubpage.allocate s σ = .ok (h, σ') ∧ Rings k σ' := by
  obtain ⟨hsound, i, hi, hsize⟩ := hr.sound s p hp hd
  obtain ⟨e, p', -, -, htracks, hsame, hd', havail, hcall⟩ :=
    PoolSubpage.allocate_eq hp (hsound.tracks he) hd hn
  have hsound' : p'.doNotDestroy = true → p'.Sound ∧ ∃ i < k.sizes.nSubpages, p'.elemSize = sizeAt i :=
    fun _ => ⟨htracks.sound, i, hi, hsame.elemSize.trans hsize⟩
  have husable : Usable σ x.arena (sizeAt i) s := (usable_iff hp hx).mpr ⟨rfl, hd, hn, hsize⟩
  have hx' : σ.chunk p'.chunk = some x := by rw [hsame.chunk, hx]
  by_cases hlast : p'.numAvail = 0
  · obtain ⟨y, z, hprev, hnext, -, hlinked⟩ := hr.linked.unlink hi husable
    have hrem := PoolSubpage.removeFromPool_eq (σ := PoolSubpage.withSubpage σ s p') hprev hnext
    rw [when, if_pos hlast, run_bind hrem] at hcall
    refine ⟨_, _, hcall, hr.setSubpage _ hx' (fun _ => rfl) rfl hlinked
      (fun _ => isSome_of_update hp) (fun a j => ?_) (fun a j s' hs' => and_iff_left hs') hsound'⟩
    exact iff_of_false (fun h => h.2 rfl) fun h => hlast.not_gt h.2.2.1
  · rw [when, if_neg hlast] at hcall
    refine ⟨_, _, hcall, hr.setSubpage _ hx' (fun _ => rfl) rfl hr.linked
      (fun _ => isSome_of_update hp) (fun a j => ?_) (fun a j s' hs' => Iff.rfl) hsound'⟩
    have hpos : 0 < p'.numAvail := by
      have := htracks.numAvail_nonneg
      omega
    rw [usable_iff hp hx, hsame.elemSize]
    simp only [hd, hd', hn, hpos]

theorem Rings.linkedWhenAvail (hr : Rings k σ) (hp : σ.subpage s = some p)
    (hx : σ.chunk p.chunk = some x) (hd : p.doNotDestroy = true) (hn : 0 ≤ p.numAvail) :
    PoolSubpage.LinkedWhenAvail σ s p := by
  obtain ⟨-, i, hi, hsize⟩ := hr.sound s p hp hd
  unfold PoolSubpage.LinkedWhenAvail
  split_ifs with hzero
  · have hnone := hr.linked.unlinked s (by rw [hp]; rfl) fun a j hs =>
      hzero.not_gt ((usable_iff hp hx).mp hs).2.2.1
    rw [hnone]
    exact ⟨rfl, rfl⟩
  · have husable : Usable σ x.arena (sizeAt i) s := (usable_iff hp hx).mpr ⟨rfl, hd, by omega, hsize⟩
    obtain ⟨y, z, hprev, hnext, -⟩ := hr.linked.unlink hi husable
    rw [hprev, hnext]
    exact ⟨rfl, rfl⟩

/-- The rings once the subpage of a freed element is in its ring, where it may have been before. -/
theorem Rings.ringFor (hr : Rings k σ) (hp : σ.subpage s = some p) (hx : σ.chunk p.chunk = some x)
    (hd : p.doNotDestroy = true) (hn : 0 ≤ p.numAvail) {i : ℕ} (hi : i < k.sizes.nSubpages)
    (hsize : p.elemSize = sizeAt i) :
    ∃ b, (σ.ring (.head x.arena i)).next = some b ∧
      Linked k.sizes.nSubpages (fun s => (σ.subpage s).isSome)
        (PoolSubpage.ringFor σ s p (.head x.arena i) b)
        (fun a j s' => Usable σ a (sizeAt j) s' ∨ a = x.arena ∧ j = i ∧ s' = s) := by
  unfold PoolSubpage.ringFor
  by_cases hzero : p.numAvail = 0
  · obtain ⟨b, hb, -, hlinked⟩ := hr.linked.link (s := s) (a := x.arena) hi fun a j hs =>
      hzero.not_gt ((usable_iff hp hx).mp hs).2.2.1
    exact ⟨b, hb, by rw [if_pos hzero]; exact hlinked⟩
  · obtain ⟨b, hb⟩ := hr.linked.head_next hi x.arena
    refine ⟨b, hb, ?_⟩
    rw [if_neg hzero]
    refine hr.linked.of_iff (fun _ hs => hs) fun a j s' => or_iff_left_of_imp ?_
    rintro ⟨rfl, rfl, rfl⟩
    exact (usable_iff hp hx).mpr ⟨rfl, hd, by omega, hsize⟩

/-- What a subpage that is given up leaves behind: none of its elements is in use, and another
subpage of its class is there. -/
structure GivenUp (σ' : Pool) (a : ArenaId) (size : ℤ) (s : SubpageId) : Prop where
  empty : ∃ q, σ'.subpage s = some q ∧ q.doNotDestroy = false ∧ q.numAvail = q.maxNumElems ∧
    ∀ j, q.bit j = false
  another : ∃ s', s' ≠ s ∧ Usable σ' a size s'

theorem Rings.freeElement (hr : Rings k σ) (hp : σ.subpage s = some p) (hx : σ.chunk p.chunk = some x)
    (hd : p.doNotDestroy = true) {e i : ℕ} (he : p.Elements (e :: es)) (hi : i < k.sizes.nSubpages)
    (hsize : p.elemSize = sizeAt i) :
    ∃ kept σ', PoolSubpage.free s (.head x.arena i) e σ = .ok (kept, σ') ∧ Rings k σ' ∧
      (kept = false → GivenUp σ' x.arena (sizeAt i) s) := by
  have htracks := (hr.sound s p hp hd).1.tracks he
  obtain ⟨b, hb, hlinked⟩ := hr.ringFor hp hx hd htracks.numAvail_nonneg hi hsize
  obtain ⟨p', y, z, htracks', hsame, hd', havail, hprev, hnext, hcall⟩ := PoolSubpage.free_eq hp
    htracks (hr.linkedWhenAvail hp hx hd htracks.numAvail_nonneg) hb nofun
  have hx' : σ.chunk p'.chunk = some x := by rw [hsame.chunk, hx]
  have hother : ∀ a j s', s' ≠ s → ((Usable σ a (sizeAt j) s' ∨ a = x.arena ∧ j = i ∧ s' = s) ↔
      Usable σ a (sizeAt j) s') := fun a j s' hs' => or_iff_left fun hnew => hs' hnew.2.2
  by_cases hretire : p'.numAvail = p'.maxNumElems ∧ y ≠ z
  · rw [if_pos hretire] at hcall
    obtain ⟨y', z', hprev', hnext', hanother, hunlinked⟩ := hlinked.unlink hi (.inr ⟨rfl, rfl, rfl⟩)
    obtain rfl : y = y' := Option.some.inj (hprev.symm.trans hprev')
    obtain rfl : z = z' := Option.some.inj (hnext.symm.trans hnext')
    refine ⟨false, _, hcall, hr.setSubpage { p' with doNotDestroy := false } hx'
      (fun _ => rfl) rfl hunlinked (fun _ => isSome_of_update hp) (fun a j => ?_)
      (fun a j s' hs' => ?_) nofun, fun _ => ⟨?_, ?_⟩⟩
    · exact iff_of_false (fun h => h.2 rfl) fun h => by cases h.2.1
    · exact (and_iff_left hs').trans (hother a j s' hs')
    · refine ⟨_, Function.update_self _ _ _, rfl, hretire.1, fun j => ?_⟩
      have hcount := htracks'.elements.count
      obtain rfl : es = [] := List.length_eq_zero_iff.mp (by omega)
      exact Bool.eq_false_of_not_eq_true fun hset =>
        absurd ((htracks'.elements.bits j).mp hset) List.not_mem_nil
    · obtain ⟨s', hs', husable⟩ := hanother hretire.2
      refine ⟨s', hs', (usable_congr (Function.update_of_ne hs' _ _) ?_).mpr
        ((hother _ _ s' hs').mp husable)⟩
      exact fun _ _ _ => rfl
  · rw [if_neg hretire] at hcall
    refine ⟨true, _, hcall, hr.setSubpage _ hx' (fun _ => rfl) rfl hlinked (fun _ => isSome_of_update hp)
      (fun a j => ?_) hother fun _ => ⟨htracks'.sound, i, hi, hsame.elemSize.trans hsize⟩, nofun⟩
    have hpos : 0 < p'.numAvail := by
      have := htracks.numAvail_nonneg
      omega
    rw [usable_iff hp hx, hsame.elemSize, hd', hsize]
    simp only [hd, hpos, true_and]
    constructor
    · rintro (⟨ha, -, hj⟩ | ⟨rfl, rfl, -⟩)
      · exact ⟨ha, hj⟩
      · exact ⟨rfl, rfl⟩
    · rintro ⟨ha, hj⟩
      refine .inr ⟨ha.symm, ?_, trivial⟩
      exact (sizeAt_strictMono.injective (by exact_mod_cast hj)).symm

end Mutty.Buffer
