import Mutty.Buffer.Bitmap
import Mutty.Buffer.PoolArena

/-!
# Allocating and freeing the elements of one subpage

`subpageMachine` is a subpage fresh from its constructor with any calls of `allocate` and `free`, in
any pool: between the calls the other subpages of its class may come and go, as long as they leave
this one linked or not as it is.
-/

namespace Mutty.Buffer

open Mutty.Lib Prog

/-! ### The links of a ring -/

namespace RingLinks

/-- The ring without the node `n`, which stands between `a` and `b`. -/
def unlinked (ring : Node → RingLinks) (n a b : Node) : Node → RingLinks :=
  let ring := Function.update ring a { ring a with next := some b }
  let ring := Function.update ring b { ring b with prev := some a }
  Function.update ring n { prev := none, next := none }

/-- The ring with the node `n` put between `head` and `b`. -/
def inserted (ring : Node → RingLinks) (n head b : Node) : Node → RingLinks :=
  let ring := Function.update ring n { prev := some head, next := some b }
  let ring := Function.update ring b { ring b with prev := some n }
  Function.update ring head { ring head with next := some n }

variable {ring : Node → RingLinks} {n a b head : Node}

theorem unlinked_self : unlinked ring n a b n = { prev := none, next := none } :=
  Function.update_self _ _ _

theorem unlinked_next {m : Node} (hm : m ≠ n) (h : (ring m).next.isSome = true) :
    (unlinked ring n a b m).next.isSome = true := by
  simp only [unlinked, Function.update_apply]
  split_ifs <;> simp_all

theorem inserted_self (hn : n ≠ head) : (inserted ring n head b n).prev.isSome = true ∧
    (inserted ring n head b n).next.isSome = true := by
  simp only [inserted, Function.update_of_ne hn]
  by_cases hb : n = b
  · subst hb
    simp
  · simp [Function.update_of_ne hb]

theorem inserted_head : (inserted ring n head b head).next = some n := by
  simp [inserted]

end RingLinks

namespace PoolSubpage

variable {σ : Pool} {s : SubpageId} {p : PoolSubpage} {a b head : Node} {es : List ℕ}

theorem removeFromPool_eq (hprev : (σ.ring (.subpage s)).prev = some a)
    (hnext : (σ.ring (.subpage s)).next = some b) : removeFromPool s σ =
      .ok ((), { σ with ring := RingLinks.unlinked σ.ring (.subpage s) a b }) := by
  have hlook : (look fun σ => σ.ring (.subpage s)) σ = .ok (⟨some a, some b⟩, σ) := by
    rw [← hprev, ← hnext]
    rfl
  exact run_bind hlook

theorem check_run {α : Type} {x : Checked α} {a : α} (h : x = .ok a) :
    (check x : PoolM α) σ = .ok (a, σ) := by
  rw [h]
  rfl

theorem addToPool_eq (hprev : (σ.ring (.subpage s)).prev = none)
    (hnext : (σ.ring (.subpage s)).next = none) (hhead : (σ.ring head).next = some b) :
    addToPool s head σ =
      .ok ((), { σ with ring := RingLinks.inserted σ.ring (.subpage s) head b }) := by
  have hassert : assert ((σ.ring (.subpage s)).prev = none ∧ (σ.ring (.subpage s)).next = none) σ =
      .ok ((), σ) := check_run (require_eq_ok.mpr ⟨hprev, hnext⟩)
  have hlook : (look fun σ => σ.ring head) σ = .ok (⟨(σ.ring head).prev, some b⟩, σ) := by
    rw [← hhead]
    rfl
  exact (run_bind rfl).trans ((run_bind hassert).trans (run_bind hlook))

theorem getSubpage_eq (hp : σ.subpage s = some p) : getSubpage s σ = .ok (p, σ) := by
  have hlook : (look fun σ => σ.subpage s) σ = .ok (some p, σ) := by
    rw [← hp]
    rfl
  exact run_bind hlook

def withSubpage (σ : Pool) (s : SubpageId) (p : PoolSubpage) : Pool :=
  { σ with subpage := Function.update σ.subpage s (some p) }

/-- `allocate` with a free element marks it, and unlinks the subpage when it was the last one. -/
theorem allocate_eq (hp : σ.subpage s = some p) (ht : Tracks p es) (hd : p.doNotDestroy = true)
    (hn : 0 < p.numAvail) :
    ∃ (i : ℕ) (p' : PoolSubpage), (i : ℤ) < p.maxNumElems ∧ i ∉ es ∧ Tracks p' (i :: es) ∧
      SameRun p p' ∧ p'.doNotDestroy = true ∧ p'.numAvail = p.numAvail - 1 ∧
      allocate s σ = (do
        when (p'.numAvail = 0) (removeFromPool s)
        return p'.handle i : PoolM Int64) (withSubpage σ s p') := by
  obtain ⟨i, p₁, p₂, hget, hset, hlt, hfree, htracks⟩ := ht.take hn
  obtain ⟨-, -, -, -, hsame, hd₂⟩ := ht.elements.take hn.ne' hget hset
  obtain ⟨-, hp₁, -⟩ := getNextAvail_eq_ok hn.ne' ht.elements hget
  obtain ⟨-, -, -, hp₂, -⟩ := setBit_eq_ok hset
  have havail : p₂.numAvail = p.numAvail := by rw [hp₂, hp₁]
  refine ⟨i, { p₂ with numAvail := p₂.numAvail - 1 }, hlt, hfree, htracks,
    ⟨hsame.chunk, hsame.pageShifts, hsame.runOffset, hsame.runSize, hsame.elemSize,
      hsame.maxNumElems⟩, hd₂.trans hd, by rw [← havail], ?_⟩
  rw [allocate, run_bind (getSubpage_eq hp), if_neg (by simp [hn.ne', hd]), run_bind (check_run hget)]
  exact run_bind (check_run hset)

theorem allocate_of_full (hp : σ.subpage s = some p) (hn : p.numAvail = 0) :
    allocate s σ = .ok (-1, σ) := by
  rw [allocate, run_bind (getSubpage_eq hp), if_pos (.inl hn)]
  rfl

theorem retire_eq (hprev : (σ.ring (.subpage s)).prev = some a)
    (hnext : (σ.ring (.subpage s)).next = some b) :
    retire s p σ = if p.numAvail = p.maxNumElems ∧ a ≠ b then
      .ok (false, { withSubpage σ s { p with doNotDestroy := false } with
        ring := RingLinks.unlinked σ.ring (.subpage s) a b })
      else .ok (true, σ) := by
  unfold retire
  by_cases hempty : p.numAvail = p.maxNumElems
  swap
  · rw [if_pos hempty, if_neg fun h => hempty h.1]
    rfl
  rw [if_neg (not_not.mpr hempty)]
  show (if (σ.ring (.subpage s)).prev = (σ.ring (.subpage s)).next then (pure true : PoolM Bool)
    else do
      setSubpage s { p with doNotDestroy := false }
      removeFromPool s
      return false) σ = _
  rw [hprev, hnext]
  by_cases hab : a = b
  · rw [if_pos (by rw [hab]), if_neg fun h => h.2 hab]
    rfl
  · rw [if_neg fun h => hab (Option.some.inj h), if_pos ⟨hempty, hab⟩]
    have hrem := removeFromPool_eq (σ := withSubpage σ s { p with doNotDestroy := false }) hprev hnext
    show (do
      removeFromPool s
      return false : PoolM Bool) (withSubpage σ s { p with doNotDestroy := false }) = _
    rw [run_bind hrem]
    rfl

/-- The ring when an element of a subpage is freed: a full subpage comes back to it. -/
def ringFor (σ : Pool) (s : SubpageId) (p : PoolSubpage) (head b : Node) : Node → RingLinks :=
  if p.numAvail = 0 then RingLinks.inserted σ.ring (.subpage s) head b else σ.ring

def LinkedWhenAvail (σ : Pool) (s : SubpageId) (p : PoolSubpage) : Prop :=
  if p.numAvail = 0 then (σ.ring (.subpage s)).prev = none ∧ (σ.ring (.subpage s)).next = none
  else (σ.ring (.subpage s)).prev.isSome = true ∧ (σ.ring (.subpage s)).next.isSome = true

/-- `free` of an element in use: the subpage stays, or it is given up when nothing of it is in use
and another one is in the ring. -/
theorem free_eq {i : ℕ} (hp : σ.subpage s = some p) (ht : Tracks p (i :: es))
    (hlink : LinkedWhenAvail σ s p) (hhead : (σ.ring head).next = some b)
    (hne : Node.subpage s ≠ head) :
    ∃ (p' : PoolSubpage) (x y : Node), Tracks p' es ∧ SameRun p p' ∧
      p'.doNotDestroy = p.doNotDestroy ∧ p'.numAvail = p.numAvail + 1 ∧
      (ringFor σ s p head b (.subpage s)).prev = some x ∧
      (ringFor σ s p head b (.subpage s)).next = some y ∧
      free s head i σ = if p'.numAvail = p'.maxNumElems ∧ x ≠ y then
        .ok (false, { withSubpage σ s { p' with doNotDestroy := false } with
          ring := RingLinks.unlinked (ringFor σ s p head b) (.subpage s) x y })
        else .ok (true, { withSubpage σ s p' with ring := ringFor σ s p head b }) := by
  obtain ⟨p₁, hclear, havail, htracks⟩ := ht.give
  obtain ⟨-, hsame, hd, -⟩ := ht.elements.give hclear
  set p' : PoolSubpage := { p₁ with nextAvail := i, numAvail := p₁.numAvail + 1 } with hp'
  have hsame' : SameRun p p' := ⟨hsame.chunk, hsame.pageShifts, hsame.runOffset, hsame.runSize,
    hsame.elemSize, hsame.maxNumElems⟩
  have hcount : p'.numAvail = p.numAvail + 1 := by rw [← havail]
  have hstart : free s head i σ = (if p.numAvail = 0 then do
        addToPool s head
        if p'.maxNumElems > 1 then return true else retire s p'
      else retire s p' : PoolM Bool) (withSubpage σ s p') := by
    rw [free, run_bind (getSubpage_eq hp), if_neg ht.roomy.pos.ne', run_bind (check_run hclear),
      ← havail]
    rfl
  obtain ⟨x, y, hx, hy⟩ : ∃ x y, (ringFor σ s p head b (.subpage s)).prev = some x ∧
      (ringFor σ s p head b (.subpage s)).next = some y := by
    unfold ringFor
    unfold LinkedWhenAvail at hlink
    split_ifs at hlink ⊢ with hzero
    · obtain ⟨hx, hy⟩ : (RingLinks.inserted σ.ring (.subpage s) head b (.subpage s)).prev.isSome = true ∧
          (RingLinks.inserted σ.ring (.subpage s) head b (.subpage s)).next.isSome = true :=
        RingLinks.inserted_self hne
      exact ⟨_, _, (Option.some_get hx).symm, (Option.some_get hy).symm⟩
    · exact ⟨_, _, (Option.some_get hlink.1).symm, (Option.some_get hlink.2).symm⟩
  refine ⟨p', x, y, htracks, hsame', hd, hcount, hx, hy, ?_⟩
  rw [hstart]
  unfold ringFor LinkedWhenAvail at *
  by_cases hzero : p.numAvail = 0
  · rw [if_pos hzero] at hlink hx hy
    rw [if_pos hzero, run_bind (addToPool_eq (σ := withSubpage σ s p') hlink.1 hlink.2 hhead),
      if_pos hzero]
    by_cases hmax : p'.maxNumElems > 1
    · rw [if_pos hmax, if_neg (by omega)]
      rfl
    · rw [if_neg hmax]
      refine (retire_eq (σ := { withSubpage σ s p' with
        ring := RingLinks.inserted σ.ring (.subpage s) head b }) hx hy).trans ?_
      rw [withSubpage, withSubpage, withSubpage, Function.update_idem]
  · rw [if_neg hzero] at hlink hx hy
    rw [if_neg hzero, if_neg hzero, retire_eq (σ := withSubpage σ s p') hx hy]
    rw [withSubpage, withSubpage, withSubpage, Function.update_idem]

end PoolSubpage

/-! ### The machine -/

/-- A subpage of a pool and the elements that `allocate` has handed out. -/
structure SubpageState where
  pool : Pool
  outstanding : List ℕ

inductive SubpageAction
  | allocate
  | free (bitmapIdx : ℕ)
  | others (pool : Pool)

def SameSubpage (s : SubpageId) (head : Node) (σ σ' : Pool) : Prop :=
  σ'.subpage s = σ.subpage s ∧
    (σ'.ring (.subpage s)).prev.isSome = (σ.ring (.subpage s)).prev.isSome ∧
    (σ'.ring (.subpage s)).next.isSome = (σ.ring (.subpage s)).next.isSome ∧
    (σ'.ring head).next.isSome = (σ.ring head).next.isSome

instance (s : SubpageId) (head : Node) (σ σ' : Pool) : Decidable (SameSubpage s head σ σ') :=
  inferInstanceAs (Decidable (_ ∧ _ ∧ _ ∧ _))

def SubpageState.alive (σ : SubpageState) (s : SubpageId) : Bool :=
  (σ.pool.subpage s).any (·.doNotDestroy)

/-- The constructor of `PoolSubpage`, in any pool that has the head of the ring. -/
def subpageMachine (s : SubpageId) (a : ArenaId) (sizeIdx : ℕ) (runSize elemSize : ℤ) :
    System SubpageState SubpageAction where
  init σ := σ.outstanding = [] ∧ ∃ σ₀ chunk pageShifts runOffset p,
    (σ₀.ring (.head a sizeIdx)).next.isSome = true ∧
    PoolSubpage.make chunk pageShifts runOffset runSize elemSize = .ok p ∧
    (do
      let s ← PoolChunk.newSubpage p
      PoolSubpage.addToPool s (.head a sizeIdx)
      return s : PoolM SubpageId) σ₀ = .ok (s, σ.pool)
  step σ
    | .allocate =>
      if σ.alive s then
        (PoolSubpage.allocate s σ.pool).toOption.map fun (r : Int64 × Pool) =>
          { pool := r.2
            outstanding := if r.1 = -1 then σ.outstanding
              else (calculateBitmapIdx r.1).toNat :: σ.outstanding }
      else none
    | .free bitmapIdx =>
      if σ.alive s ∧ bitmapIdx ∈ σ.outstanding then
        (PoolSubpage.free s (.head a sizeIdx) bitmapIdx σ.pool).toOption.map fun r =>
          { pool := r.2, outstanding := σ.outstanding.erase bitmapIdx }
      else none
    | .others pool =>
      if SameSubpage s (.head a sizeIdx) σ.pool pool then some { σ with pool := pool } else none

namespace SubpageState

variable {s : SubpageId} {a : ArenaId} {sizeIdx : ℕ} {runSize elemSize : ℤ} {σ σ' : SubpageState}

/-- The counter, the bitmap and the hint describe the outstanding elements; `allocate` hands out
another element as long as there is one, and all outstanding elements can be freed. -/
structure HandsOutOnce (s : SubpageId) (head : Node) (σ : SubpageState) (p : PoolSubpage) : Prop where
  count : p.numAvail = p.maxNumElems - p.setBits
  nodup : σ.outstanding.Nodup
  bits : ∀ i, p.bit i = true ↔ i ∈ σ.outstanding
  hint : p.nextAvail = -1 ∨
    ∃ i : ℕ, p.nextAvail = i ∧ (i : ℤ) < p.maxNumElems ∧ i ∉ σ.outstanding
  allocate : 0 < p.numAvail → ∃ h pool, PoolSubpage.allocate s σ.pool = .ok (h, pool) ∧
    ∃ i : ℕ, calculateBitmapIdx h = i ∧ (i : ℤ) < p.maxNumElems ∧ i ∉ σ.outstanding
  exhausted : (∃ pool, PoolSubpage.allocate s σ.pool = .ok (-1, pool)) ↔
    ∀ i : ℕ, (i : ℤ) < p.maxNumElems → i ∈ σ.outstanding
  free : ∀ i ∈ σ.outstanding, ∃ kept pool, PoolSubpage.free s head i σ.pool = .ok (kept, pool)

structure Intact (s : SubpageId) (head : Node) (σ : SubpageState) : Prop where
  head : (σ.pool.ring head).next.isSome = true
  subpage : ∃ p, σ.pool.subpage s = some p ∧ p.Tracks σ.outstanding ∧ p.maxNumElems < 2 ^ 31 ∧
    (p.doNotDestroy = true → PoolSubpage.LinkedWhenAvail σ.pool s p)

variable {head : Node} {p : PoolSubpage}

theorem handle_ne {i : ℕ} (hi : i < 2 ^ 31) (p : PoolSubpage) : p.handle i ≠ -1 := by
  intro heq
  have hidx : calculateBitmapIdx (p.handle i) = i := calculateBitmapIdx_toHandle _ _ hi
  rw [heq] at hidx
  have hneg : calculateBitmapIdx (-1) = -1 := by decide
  omega

theorem Intact.allocate (h : Intact s head σ) (hp : σ.pool.subpage s = some p)
    (hd : p.doNotDestroy = true) (hn : 0 < p.numAvail) (hne : head ≠ .subpage s) :
    ∃ (i : ℕ) (p' : PoolSubpage) (pool : Pool), PoolSubpage.allocate s σ.pool = .ok (p'.handle i, pool) ∧
      (i : ℤ) < p.maxNumElems ∧ i < 2 ^ 31 ∧ i ∉ σ.outstanding ∧
      Intact s head { pool := pool, outstanding := i :: σ.outstanding } := by
  obtain ⟨p₀, hp₀, htracks, hmax, hlink⟩ := h.subpage
  obtain rfl : p₀ = p := Option.some.inj (hp₀.symm.trans hp)
  obtain ⟨i, p', hlt, hfree, htracks', hsame, hd', havail, hcall⟩ :=
    PoolSubpage.allocate_eq hp htracks hd hn
  have hmax' : p'.maxNumElems < 2 ^ 31 := by rw [hsame.maxNumElems]; exact hmax
  have hlinked := hlink hd
  rw [PoolSubpage.LinkedWhenAvail, if_neg hn.ne'] at hlinked
  have hat : (PoolSubpage.withSubpage σ.pool s p').subpage s = some p' := Function.update_self _ _ _
  by_cases hlast : p'.numAvail = 0
  · obtain ⟨x, hx⟩ := Option.isSome_iff_exists.mp hlinked.1
    obtain ⟨y, hy⟩ := Option.isSome_iff_exists.mp hlinked.2
    have hrem := PoolSubpage.removeFromPool_eq (σ := PoolSubpage.withSubpage σ.pool s p') hx hy
    rw [when, if_pos hlast, run_bind hrem] at hcall
    refine ⟨i, p', _, hcall, hlt, by omega, hfree, ⟨?_, p', hat, htracks', hmax', fun _ => ?_⟩⟩
    · exact RingLinks.unlinked_next hne h.head
    · rw [PoolSubpage.LinkedWhenAvail, if_pos hlast]
      simp only
      rw [RingLinks.unlinked_self]
      exact ⟨rfl, rfl⟩
  · rw [when, if_neg hlast] at hcall
    refine ⟨i, p', _, hcall, hlt, by omega, hfree, ⟨h.head, p', hat, htracks', hmax', fun _ => ?_⟩⟩
    rw [PoolSubpage.LinkedWhenAvail, if_neg hlast]
    exact hlinked

theorem Intact.free (h : Intact s head σ) (hp : σ.pool.subpage s = some p)
    (hd : p.doNotDestroy = true) {i : ℕ} (hi : i ∈ σ.outstanding) (hne : head ≠ .subpage s) :
    ∃ kept pool, PoolSubpage.free s head i σ.pool = .ok (kept, pool) ∧
      Intact s head { pool := pool, outstanding := σ.outstanding.erase i } := by
  obtain ⟨p₀, hp₀, htracks, hmax, hlink⟩ := h.subpage
  obtain rfl : p₀ = p := Option.some.inj (hp₀.symm.trans hp)
  obtain ⟨b, hb⟩ := Option.isSome_iff_exists.mp h.head
  obtain ⟨p', x, y, htracks', hsame, hd', havail, hx, hy, hcall⟩ := PoolSubpage.free_eq hp
    (htracks.perm (List.perm_cons_erase hi)) (hlink hd) hb hne.symm
  have hpos : p'.numAvail ≠ 0 := by
    have := htracks.numAvail_nonneg
    omega
  have hmax' : p'.maxNumElems < 2 ^ 31 := by rw [hsame.maxNumElems]; exact hmax
  have hhead : (PoolSubpage.ringFor σ.pool s p₀ head b head).next.isSome = true := by
    unfold PoolSubpage.ringFor
    split_ifs
    · rw [RingLinks.inserted_head]
      rfl
    · exact h.head
  by_cases hretire : p'.numAvail = p'.maxNumElems ∧ x ≠ y
  · rw [if_pos hretire] at hcall
    refine ⟨false, _, hcall, ⟨RingLinks.unlinked_next hne hhead, { p' with doNotDestroy := false },
      Function.update_self _ _ _, ?_, hmax', fun habs => by cases habs⟩⟩
    obtain ⟨helems, hroomy, hhint⟩ := htracks'
    exact ⟨⟨helems.nodup, helems.lt, helems.bits, helems.count, helems.next⟩,
      ⟨hroomy.pos, hroomy.some_elem, hroomy.words, hroomy.last, hroomy.room⟩, hhint⟩
  · rw [if_neg hretire] at hcall
    refine ⟨true, _, hcall, ⟨hhead, p', Function.update_self _ _ _, htracks', hmax', fun _ => ?_⟩⟩
    rw [PoolSubpage.LinkedWhenAvail, if_neg hpos]
    simp only
    rw [hx, hy]
    exact ⟨rfl, rfl⟩

theorem Intact.handsOutOnce (h : Intact s head σ) (hp : σ.pool.subpage s = some p)
    (hd : p.doNotDestroy = true) (hne : head ≠ .subpage s) : HandsOutOnce s head σ p := by
  obtain ⟨p₀, hp₀, htracks, hmax, -⟩ := h.subpage
  obtain rfl : p₀ = p := Option.some.inj (hp₀.symm.trans hp)
  have hcount := htracks.elements.count
  refine ⟨?_, htracks.elements.nodup, htracks.elements.bits, htracks.hint, fun hn => ?_, ?_,
    fun i hi => ?_⟩
  · rw [htracks.elements.setBits_eq]
    omega
  · obtain ⟨i, p', pool, hcall, hlt, hsmall, hfree, -⟩ := h.allocate hp hd hn hne
    exact ⟨_, pool, hcall, i, calculateBitmapIdx_toHandle _ _ hsmall, hlt, hfree⟩
  · rcases htracks.numAvail_nonneg.eq_or_lt with hzero | hn
    · exact iff_of_true ⟨_, PoolSubpage.allocate_of_full hp hzero.symm⟩ fun i hi =>
        htracks.elements.mem_of_full hzero.symm hi
    · obtain ⟨i, p', pool, hcall, hlt, hsmall, hfree, -⟩ := h.allocate hp hd hn hne
      refine iff_of_false ?_ fun hall => hfree (hall i hlt)
      rintro ⟨pool', hnone⟩
      rw [hcall] at hnone
      exact handle_ne hsmall p' (Prod.mk.inj (Except.ok.inj hnone)).1
  · obtain ⟨kept, pool, hcall, -⟩ := h.free hp hd hi hne
    exact ⟨kept, pool, hcall⟩

/-! ### Runs -/

theorem Intact.init {pageShifts : ℕ} {chunk : ChunkId} {runOffset : ℤ} {σ₀ : Pool}
    (hpos : 0 < runSize) (hint : runSize < 2 ^ 31) (hdvd : 4096 ∣ runSize) (hmin : 16 ≤ elemSize)
    (hle : elemSize ≤ runSize) (hout : σ.outstanding = [])
    (hhead : (σ₀.ring (.head a sizeIdx)).next.isSome = true)
    (hmake : PoolSubpage.make chunk pageShifts runOffset runSize elemSize = .ok p)
    (hrun : (do
      let s ← PoolChunk.newSubpage p
      PoolSubpage.addToPool s (.head a sizeIdx)
      return s : PoolM SubpageId) σ₀ = .ok (s, σ.pool)) : Intact s (.head a sizeIdx) σ := by
  obtain ⟨p', hmake', htracks, hd, hmax⟩ :=
    PoolSubpage.make_tracks chunk pageShifts runOffset hpos hdvd hmin hle
  obtain rfl : p' = p := Except.ok.inj (hmake'.symm.trans hmake)
  obtain ⟨b, hb⟩ := Option.isSome_iff_exists.mp hhead
  set σ₁ : Pool := { σ₀ with
    subpage := Function.update σ₀.subpage σ₀.subpageCount (some p')
    subpageCount := σ₀.subpageCount + 1
    ring := Function.update σ₀.ring (.subpage σ₀.subpageCount) { prev := none, next := none } }
  have hring : σ₁.ring (.subpage σ₀.subpageCount) = { prev := none, next := none } :=
    Function.update_self _ _ _
  have hb₁ : (σ₁.ring (.head a sizeIdx)).next = some b := hb
  have hadd := PoolSubpage.addToPool_eq (σ := σ₁) (congrArg RingLinks.prev hring)
    (congrArg RingLinks.next hring) hb₁
  have hnew : PoolChunk.newSubpage p' σ₀ = .ok (σ₀.subpageCount, σ₁) := rfl
  rw [run_bind hnew, run_bind hadd] at hrun
  obtain ⟨rfl, hpool⟩ := pure_ok.mp hrun
  have hlarge : p'.maxNumElems < 2 ^ 31 := by
    rw [hmax]
    exact (Int.ediv_le_self _ hpos.le).trans_lt hint
  have hne : Node.subpage σ₀.subpageCount ≠ .head a sizeIdx := nofun
  have hself : (RingLinks.inserted σ₁.ring (.subpage σ₀.subpageCount) (.head a sizeIdx) b
      (.subpage σ₀.subpageCount)).prev.isSome = true ∧ (RingLinks.inserted σ₁.ring
      (.subpage σ₀.subpageCount) (.head a sizeIdx) b (.subpage σ₀.subpageCount)).next.isSome = true :=
    RingLinks.inserted_self hne
  refine ⟨?_, p', ?_, hout ▸ htracks, hlarge, fun _ => ?_⟩
  · rw [hpool]
    simp only
    rw [RingLinks.inserted_head]
    rfl
  · rw [hpool]
    exact Function.update_self _ _ _
  · have hcount := htracks.elements.count
    have havail := htracks.roomy.some_elem
    rw [List.length_nil] at hcount
    rw [PoolSubpage.LinkedWhenAvail, if_neg (by omega), hpool]
    exact hself

theorem Intact.others (h : Intact s head σ) {pool : Pool} (hsame : SameSubpage s head σ.pool pool) :
    Intact s head { σ with pool := pool } := by
  obtain ⟨hsub, hprev, hnext, hhead⟩ := hsame
  obtain ⟨p, hp, htracks, hmax, hlink⟩ := h.subpage
  refine ⟨hhead.trans h.head, p, hsub.trans hp, htracks, hmax, fun hd => ?_⟩
  have hlinked := hlink hd
  unfold PoolSubpage.LinkedWhenAvail at hlinked ⊢
  split_ifs at hlinked ⊢
  · rw [hlinked.1] at hprev
    rw [hlinked.2] at hnext
    exact ⟨Option.isSome_eq_false_iff.mp hprev |> Option.isNone_iff_eq_none.mp,
      Option.isSome_eq_false_iff.mp hnext |> Option.isNone_iff_eq_none.mp⟩
  · exact ⟨hprev.trans hlinked.1, hnext.trans hlinked.2⟩

theorem Intact.step {act : SubpageAction} (h : Intact s (.head a sizeIdx) σ)
    (hs : (subpageMachine s a sizeIdx runSize elemSize).step σ act = some σ') :
    Intact s (.head a sizeIdx) σ' := by
  have hne : Node.head a sizeIdx ≠ .subpage s := nofun
  have halive : σ.alive s = true → ∃ p, σ.pool.subpage s = some p ∧ p.doNotDestroy = true := by
    intro ha
    obtain ⟨p, hp, hd⟩ := (Option.any_eq_true _ _).mp ha
    exact ⟨p, hp, hd⟩
  cases act with
  | allocate =>
    simp only [subpageMachine] at hs
    split_ifs at hs with ha
    obtain ⟨p, hp, hd⟩ := halive ha
    obtain ⟨p₀, hp₀, htracks, -⟩ := h.subpage
    obtain rfl : p₀ = p := Option.some.inj (hp₀.symm.trans hp)
    rcases htracks.numAvail_nonneg.eq_or_lt with hzero | hn
    · rw [PoolSubpage.allocate_of_full hp hzero.symm] at hs
      obtain rfl := Option.some.inj hs
      exact h
    · obtain ⟨i, p', pool, hcall, -, hsmall, -, hinv⟩ := h.allocate hp hd hn hne
      rw [hcall] at hs
      obtain rfl := Option.some.inj hs
      have hidx : (calculateBitmapIdx (p'.handle i)).toNat = i := by
        rw [show calculateBitmapIdx (p'.handle i) = i from calculateBitmapIdx_toHandle _ _ hsmall,
          Int.toNat_natCast]
      simp only [if_neg (handle_ne hsmall p'), hidx]
      exact hinv
  | free i =>
    simp only [subpageMachine] at hs
    split_ifs at hs with ha
    obtain ⟨p, hp, hd⟩ := halive ha.1
    obtain ⟨kept, pool, hcall, hinv⟩ := h.free hp hd ha.2 hne
    rw [hcall] at hs
    obtain rfl := Option.some.inj hs
    exact hinv
  | others pool =>
    simp only [subpageMachine] at hs
    split_ifs at hs with hsame
    obtain rfl := Option.some.inj hs
    exact h.others hsame

end SubpageState

open SubpageState

/-- A subpage of any whole number of smallest pages, with elements of 16 bytes or more, hands out
each element once. -/
theorem hands_out_once (s : SubpageId) (a : ArenaId) (sizeIdx : ℕ) {runSize elemSize : ℤ}
    (hpos : 0 < runSize) (hint : runSize < 2 ^ 31) (hdvd : 4096 ∣ runSize) (hmin : 16 ≤ elemSize)
    (hle : elemSize ≤ runSize) {σ : SubpageState}
    (h : (subpageMachine s a sizeIdx runSize elemSize).Reach System.Free σ) :
    (∀ chunk pageShifts runOffset,
      ∃ p, PoolSubpage.make chunk pageShifts runOffset runSize elemSize = .ok p) ∧
    ∃ p, σ.pool.subpage s = some p ∧
      (p.doNotDestroy = true → HandsOutOnce s (.head a sizeIdx) σ p) := by
  have hinv : Intact s (.head a sizeIdx) σ := by
    refine h.invariant (I := Intact s (.head a sizeIdx)) ?_ fun σ act σ' hσ _ hs => hσ.step hs
    rintro σ ⟨hout, σ₀, chunk, pageShifts, runOffset, p, hhead, hmake, hrun⟩
    exact Intact.init hpos hint hdvd hmin hle hout hhead hmake hrun
  refine ⟨fun chunk pageShifts runOffset => ?_, ?_⟩
  · obtain ⟨p, hp, -⟩ := PoolSubpage.make_tracks chunk pageShifts runOffset hpos hdvd hmin hle
    exact ⟨p, hp⟩
  · obtain ⟨p, hp, -⟩ := hinv.subpage
    exact ⟨p, hp, fun hd => hinv.handsOutOnce hp hd nofun⟩

/-- A page of 170 elements of 48 bytes; two have been allocated, and the first one freed. -/
theorem hands_out_once_after_free : ∃ σ p,
    (subpageMachine 0 0 2 8192 48).Reach System.Free σ ∧ σ.outstanding = [1] ∧
    σ.pool.subpage 0 = some p ∧ p.doNotDestroy = true ∧ p.maxNumElems = 170 ∧
    HandsOutOnce 0 (.head 0 2) σ p := by
  have hstart : ∃ σ, (subpageMachine 0 0 2 8192 48).init σ ∧
      (((subpageMachine 0 0 2 8192 48).exec System.Free σ [.allocate, .allocate, .free 0]).any fun σ =>
        σ.outstanding = [1] ∧ (σ.pool.subpage 0).any fun p =>
          p.doNotDestroy = true ∧ p.maxNumElems = 170) = true := by
    let p : PoolSubpage :=
      { chunk := 0, pageShifts := 13, runOffset := 0, runSize := 8192, elemSize := 48,
        bitmap := List.replicate 8 0, maxNumElems := 170, bitmapLength := 3, nextAvail := 0,
        numAvail := 170, doNotDestroy := true }
    let pool : Pool := { Pool.initial with
      subpage := Function.update Pool.initial.subpage 0 (some p)
      subpageCount := 1
      ring := RingLinks.inserted
        (Function.update Pool.initial.ring (.subpage 0) { prev := none, next := none })
        (.subpage 0) (.head 0 2) (.head 0 2) }
    exact ⟨⟨pool, []⟩, ⟨rfl, Pool.initial, 0, 13, 0, p, rfl, rfl, rfl⟩, by decide +kernel⟩
  obtain ⟨σ₀, hinit, hp⟩ := hstart
  obtain ⟨σ, -, hr, hσ⟩ := System.exists_reach _ _ hinit hp
  obtain ⟨hout, hany⟩ := of_decide_eq_true hσ
  obtain ⟨p, hp, hprops⟩ := (Option.any_eq_true _ _).mp hany
  obtain ⟨hd, hmax⟩ := of_decide_eq_true hprops
  obtain ⟨-, p', hp', honce⟩ := hands_out_once 0 0 2 (show (0 : ℤ) < 8192 by decide)
    (by decide) (by decide) (show (16 : ℤ) ≤ 48 by decide) (by decide) hr
  obtain rfl : p = p' := Option.some.inj (hp.symm.trans hp')
  exact ⟨σ, p, hr, hout, hp, hd, hmax, honce hd⟩

end Mutty.Buffer
