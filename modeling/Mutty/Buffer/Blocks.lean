import Mutty.Buffer.ChunkOps

/-!
# Blocks of tokens

A token stands for a range of bytes of its chunk. Tokens that are held together have ranges apart:
runs and subpages tile the pages of their chunk, and the elements of a subpage have different
indices.
-/

namespace Mutty.Buffer

open Mutty.Lib Prog

variable {k : Config} {g : Geometry} {σ σ' : Pool} {T : List Token} {t u : Token}

theorem Tiles.apart_of_ne {n : ℕ} {bs : List Block} {a b : Block} (h : Tiles n bs) (ha : a ∈ bs)
    (hb : b ∈ bs) (hne : a ≠ b) : a.stop ≤ b.1 ∨ b.stop ≤ a.1 := by
  have hpos := h.pos a ha
  have hpos' := h.pos b hb
  have hapart := (h.perm (List.perm_cons_erase ha)).apart ((List.mem_erase_of_ne hne.symm).mpr hb)
  by_contra hmeet
  rw [not_or, not_le, not_le] at hmeet
  refine hapart (max a.1 b.1) ⟨⟨le_max_left _ _, ?_⟩, ⟨le_max_right _ _, ?_⟩⟩
  · exact max_lt (by unfold Block.stop; omega) hmeet.1
  · exact max_lt hmeet.2 (by unfold Block.stop; omega)

theorem Held.token_block (hh : Held k g σ T) (ht : t ∈ T) :
    ∃ x, σ.chunk t.chunk = some x ∧ span t.handle ∈ heldBlocks σ T t.chunk x ∧
      ((span t.handle).1 : ℤ) * 2 ^ k.sizes.pageShifts ≤ t.offset k ∧
      t.offset k + t.cap ≤ ((span t.handle).stop : ℤ) * 2 ^ k.sizes.pageShifts := by
  cases hh.tokens t ht with
  | run x o p low i hx f hcap =>
    have hsub : isSubpage t.handle = false := f.decode.2.2.2.1
    refine ⟨x, hx, List.mem_append_left _ (List.mem_map_of_mem (List.mem_filter.mpr ⟨ht, ?_⟩)), ?_⟩
    · simp [Token.isRunOf, hsub]
    · rw [f.span_eq, Token.offset, f.decode.1, if_neg (by simp [hsub]), hcap, Block.stop]
      push_cast
      exact ⟨by rw [add_zero], by rw [add_zero, add_mul]⟩
  | elem x o p i s q hx f hi hs hq helem hblock =>
    have hsub : isSubpage t.handle = true := f.decode.2.2.2.1
    have hinv := hh.subpageInv hx hs hq
    refine ⟨x, hx, List.mem_append_right _ (List.mem_flatMap.mpr
      ⟨some s, List.mem_of_getElem? hs, by simp [subBlock, hq, hblock, f.span_eq]⟩), ?_⟩
    obtain ⟨m, hblock', hm⟩ := hinv.block_eq
    obtain rfl : m = p := congrArg Prod.snd (hblock'.symm.trans hblock)
    have hmem : i ∈ elemsAt T t.chunk o := by
      refine List.mem_map.mpr ⟨t, List.mem_filter.mpr ⟨ht, ?_⟩, ?_⟩
      · simp [Token.isElemOf, hsub, f.decode.1]
      · exact elem_index f hi
    have hlt : (i : ℤ) < q.runSize / t.cap := by
      rw [← helem, ← hinv.maxNumElems]
      exact hinv.elements.lt i hmem
    have hpos : 0 < t.cap := helem ▸ hinv.elemSize
    have hfit : ((i : ℤ) + 1) * t.cap ≤ m * 2 ^ k.sizes.pageShifts := by
      rw [← hm]
      exact (mul_le_mul_of_nonneg_right hlt hpos.le).trans (Int.ediv_mul_le _ hpos.ne')
    rw [f.span_eq, Token.offset, f.decode.1, if_pos hsub, f.decode.2.2.2.2 hi, Block.stop]
    push_cast
    refine ⟨le_add_of_nonneg_right (by positivity), ?_⟩
    rw [add_mul, one_mul] at hfit
    rw [add_mul, add_assoc]
    exact add_le_add_right hfit _

theorem Held.span_ne (hh : Held k g σ (t :: u :: T)) (hc : u.chunk = t.chunk)
    (hs : isSubpage t.handle = false) : span u.handle ≠ span t.handle := by
  obtain ⟨x, hx, -⟩ := hh.token_block (t := t) List.mem_cons_self
  obtain ⟨y, hy, hmem, -⟩ := hh.token_block (t := u) (List.mem_cons_of_mem _ List.mem_cons_self)
  rw [hc] at hy hmem
  obtain rfl : x = y := Option.some.inj (hx.symm.trans hy)
  have hpool := hh.pooled_of_token (t := t) List.mem_cons_self hx
  have hnodup := (hh.chunks _ x hx hpool).runs.tiles.nodup.of_append_right
  rw [heldBlocks, filter_isRunOf_cons rfl hs, List.map_cons, List.cons_append,
    List.nodup_cons] at hnodup
  rw [heldBlocks, filter_isRunOf_cons rfl hs, List.map_cons, List.cons_append] at hmem
  -- the pages of `u` stand elsewhere in the list than those of `t`
  cases husub : isSubpage u.handle with
  | false =>
    intro heq
    refine hnodup.1 (List.mem_append_left _ ?_)
    rw [filter_isRunOf_cons hc husub, List.map_cons, heq]
    exact List.mem_cons_self
  | true =>
    intro heq
    obtain ⟨o, m, i, s, q, f, -, hs', hq, -, hblock⟩ :=
      (hh.perm (List.Perm.swap u t T)).elem_cases husub (hc ▸ hx)
    refine hnodup.1 (List.mem_append_right _ (List.mem_flatMap.mpr
      ⟨some s, List.mem_of_getElem? hs', ?_⟩))
    rw [← heq, f.span_eq, ← hblock]
    simp [subBlock, hq]

theorem Held.elem_apart (hh : Held k g σ (t :: u :: T)) (hc : u.chunk = t.chunk)
    (ht : isSubpage t.handle = true) (hu : isSubpage u.handle = true)
    (hspan : span u.handle = span t.handle) :
    u.cap = t.cap ∧ calculateRunOffset u.handle = calculateRunOffset t.handle ∧
      calculateBitmapIdx u.handle ≠ calculateBitmapIdx t.handle := by
  obtain ⟨x, hx, -⟩ := hh.token_block (t := t) List.mem_cons_self
  obtain ⟨o, m, i, s, p, f, hi, hs, hp, hcap, -⟩ := hh.elem_cases ht hx
  obtain ⟨o', m', i', s', p', f', hi', hs', hp', hcap', -⟩ :=
    (hh.perm (List.Perm.swap u t T)).elem_cases hu (hc ▸ hx)
  rw [f.span_eq, f'.span_eq] at hspan
  obtain ⟨rfl, rfl⟩ := Prod.mk.inj hspan
  rw [hs] at hs'
  obtain rfl : s = s' := Option.some.inj (Option.some.inj hs')
  obtain rfl : p = p' := Option.some.inj (hp.symm.trans hp')
  refine ⟨hcap'.symm.trans hcap, by rw [f.decode.1, f'.decode.1], ?_⟩
  have hnodup := (hh.subpageInv hx hs hp).elements.nodup
  rw [elemsAt, filter_isElemOf_cons rfl ht f.decode.1, filter_isElemOf_cons hc hu f'.decode.1,
    List.map_cons, List.map_cons, List.nodup_cons, List.mem_cons, not_or] at hnodup
  have hne := hnodup.1.1
  rw [elem_index f hi, elem_index f' hi'] at hne
  rw [f.decode.2.2.2.2 hi, f'.decode.2.2.2.2 hi']
  exact_mod_cast Ne.symm hne

structure Extent where
  chunk : ChunkId
  offset : ℤ
  size : ℤ
  deriving DecidableEq, Repr

def Extent.Apart (a b : Extent) : Prop :=
  a.chunk = b.chunk → a.offset + a.size ≤ b.offset ∨ b.offset + b.size ≤ a.offset

def Token.extent (k : Config) (t : Token) : Extent := ⟨t.chunk, t.offset k, t.cap⟩

theorem Held.apart (hh : Held k g σ (t :: u :: T)) : (t.extent k).Apart (u.extent k) := by
  intro hc
  have hc' : u.chunk = t.chunk := hc.symm
  obtain ⟨x, hx, htmem, htlo, hthi⟩ := hh.token_block (t := t) List.mem_cons_self
  obtain ⟨y, hy, humem, hulo, huhi⟩ := hh.token_block (t := u)
    (List.mem_cons_of_mem _ List.mem_cons_self)
  rw [hc'] at hy humem
  obtain rfl : x = y := Option.some.inj (hx.symm.trans hy)
  show t.offset k + t.cap ≤ u.offset k ∨ u.offset k + u.cap ≤ t.offset k
  have hpages : (0 : ℤ) ≤ 2 ^ k.sizes.pageShifts := by positivity
  by_cases hspan : span u.handle = span t.handle
  · have ht : isSubpage t.handle = true := by
      by_contra hsub
      exact hh.span_ne hc' (by simpa using hsub) hspan
    have hu : isSubpage u.handle = true := by
      by_contra hsub
      exact (hh.perm (List.Perm.swap u t T)).span_ne hc (by simpa using hsub) hspan.symm
    obtain ⟨hcap, hoff, hne⟩ := hh.elem_apart hc' ht hu hspan
    obtain ⟨o, m, i, s, p, f, hi, hs, hp, hsize, -⟩ := hh.elem_cases ht hx
    have hpos : 0 ≤ t.cap := hsize ▸ (hh.subpageInv hx hs hp).elemSize.le
    rw [Token.offset, Token.offset, if_pos ht, if_pos hu, hoff, hcap]
    -- the index of one element is at least one more than that of the other
    rcases lt_or_gt_of_ne hne with hlt | hlt
    · have hmul := mul_le_mul_of_nonneg_right (Int.add_one_le_of_lt hlt) hpos
      rw [add_mul, one_mul] at hmul
      exact .inr (by omega)
    · have hmul := mul_le_mul_of_nonneg_right (Int.add_one_le_of_lt hlt) hpos
      rw [add_mul, one_mul] at hmul
      exact .inl (by omega)
  · have htiles := (hh.chunks _ x hx (hh.pooled_of_token List.mem_cons_self hx)).runs.tiles
    rcases Tiles.apart_of_ne htiles (List.mem_append_right _ htmem) (List.mem_append_right _ humem)
      (Ne.symm hspan) with hle | hle
    · exact .inl (hthi.trans ((mul_le_mul_of_nonneg_right (by exact_mod_cast hle) hpages).trans hulo))
    · exact .inr (huhi.trans ((mul_le_mul_of_nonneg_right (by exact_mod_cast hle) hpages).trans htlo))

theorem Held.pairwise_apart (hh : Held k g σ T) : (T.map (Token.extent k)).Pairwise Extent.Apart := by
  rw [List.pairwise_map, List.pairwise_iff_forall_sublist]
  intro t u hsub
  obtain ⟨T', hperm⟩ := hsub.exists_perm_append
  exact (hh.perm hperm).apart

theorem Held.extent_le (made : k.sizes.Made g) (hh : Held k g σ T) (ht : t ∈ T) :
    0 ≤ t.offset k ∧ t.offset k + t.cap ≤ k.sizes.chunkSize := by
  obtain ⟨x, hx, hmem, hlo, hhi⟩ := hh.token_block ht
  have hstop := (hh.chunks _ x hx (hh.pooled_of_token ht hx)).runs.tiles.stop_le
    (List.mem_append_right _ hmem)
  refine ⟨le_trans (by positivity) hlo, hhi.trans ?_⟩
  rw [made.chunkSize, g.chunkSize_eq, made.pageShifts]
  push_cast
  exact mul_le_mul_of_nonneg_right (by exact_mod_cast hstop) (by positivity)

end Mutty.Buffer
