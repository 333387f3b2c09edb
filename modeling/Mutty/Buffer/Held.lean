import Mathlib.Algebra.Order.BigOperators.Group.List
import Mutty.Buffer.Runs
import Mutty.Buffer.Pool

/-!
# Who holds the memory of the chunks

A token stands for a block that is out of the hands of its chunk: a whole run, or one element of a
subpage. `Held k g σ T` says that the chunks and subpages of `σ` and the tokens `T` agree: in every
chunk the free runs, the runs of the tokens and the runs of the subpages tile the pages, and in
every subpage the elements of the tokens are exactly the ones in use. Each operation on a chunk
either adds a token or takes one back.
-/

namespace Mutty.Buffer

open Mutty.Lib

structure Token where
  chunk : ChunkId
  handle : Int64
  cap : ℤ
  deriving DecidableEq

namespace Token

def isRunOf (c : ChunkId) (t : Token) : Bool := t.chunk = c ∧ isSubpage t.handle = false

def isElemOf (c : ChunkId) (o : ℕ) (t : Token) : Bool :=
  t.chunk = c ∧ isSubpage t.handle = true ∧ calculateRunOffset t.handle = o

def index (t : Token) : ℕ := (calculateBitmapIdx t.handle).toNat

end Token

def PoolSubpage.block (p : PoolSubpage) : Block :=
  (p.runOffset.toNat, (p.runSize / 2 ^ p.pageShifts).toNat)

def subBlock (σ : Pool) : Option SubpageId → List Block
  | none => []
  | some s => (σ.subpage s).toList.map PoolSubpage.block

def heldBlocks (σ : Pool) (T : List Token) (c : ChunkId) (x : PoolChunk) : List Block :=
  (T.filter (Token.isRunOf c)).map (fun t => span t.handle) ++ x.subpages.flatMap (subBlock σ)

def elemsAt (T : List Token) (c : ChunkId) (o : ℕ) : List ℕ :=
  (T.filter (Token.isElemOf c o)).map Token.index

/-- A subpage at page `o` of chunk `c`, with the elements `es` in use. -/
structure SubpageInv (k : Config) (c : ChunkId) (o : ℕ) (es : List ℕ) (p : PoolSubpage) : Prop where
  chunk : p.chunk = c
  pageShifts : p.pageShifts = k.sizes.pageShifts
  runOffset : p.runOffset = o
  runSize : ∃ m : ℕ, p.runSize = m * 2 ^ k.sizes.pageShifts
  elemSize : 0 < p.elemSize
  elemClass : ∃ i < k.sizes.nSizes, p.elemSize = sizeAt i
  maxNumElems : p.maxNumElems = p.runSize / p.elemSize
  doNotDestroy : p.doNotDestroy = true
  elements : p.Elements es

structure ChunkInv (k : Config) (g : Geometry) (σ : Pool) (T : List Token) (c : ChunkId)
    (x : PoolChunk) : Prop where
  pooled : x.unpooled = false
  chunkSize : x.chunkSize = k.sizes.chunkSize
  memorySize : x.memorySize = k.sizes.chunkSize
  cached : x.cachedBuffers = []
  slots : x.subpages.length = g.pages
  runs : Runs.Inv k.sizes g.pages x.runs (heldBlocks σ T c x)
  bytes : x.runs.freeBytes = x.runs.pageCount * 2 ^ k.sizes.pageShifts
  subs : ∀ (o : ℕ) s, x.subpages[o]? = some (some s) →
    ∃ p, σ.subpage s = some p ∧ SubpageInv k c o (elemsAt T c o) p

/-- The token is a used run of the size of a class, or an element of a subpage of its chunk. -/
inductive TokenInv (k : Config) (σ : Pool) (t : Token) : Prop
  | run (x : PoolChunk) (o p low i : ℕ) : σ.chunk t.chunk = some x →
      Fields t.handle o p true false low → t.cap = p * 2 ^ k.sizes.pageShifts →
      i < k.sizes.nSizes → t.cap = sizeAt i → TokenInv k σ t
  | elem (x : PoolChunk) (o p i : ℕ) (s : SubpageId) (q : PoolSubpage) :
      σ.chunk t.chunk = some x → Fields t.handle o p true true i → i < 2 ^ 31 →
      x.subpages[o]? = some (some s) → σ.subpage s = some q → q.elemSize = t.cap →
      q.block = (o, p) → TokenInv k σ t

/-- A chunk of its own for one large buffer hands out nothing. -/
structure UnpooledInv (T : List Token) (c : ChunkId) (x : PoolChunk) : Prop where
  runs : x.runs.runsAvail = []
  subpages : x.subpages = []
  tokens : ∀ t ∈ T, t.chunk ≠ c

structure Held (k : Config) (g : Geometry) (σ : Pool) (T : List Token) : Prop where
  chunks : ∀ c x, σ.chunk c = some x → x.unpooled = false → ChunkInv k g σ T c x
  unpooled : ∀ c x, σ.chunk c = some x → x.unpooled = true → UnpooledInv T c x
  tokens : ∀ t ∈ T, TokenInv k σ t
  alive : ∀ s p, σ.subpage s = some p → p.doNotDestroy = true →
    ∃ x, σ.chunk p.chunk = some x ∧ x.subpages[p.runOffset.toNat]? = some (some s)
  freshChunk : ∀ c, σ.chunkCount ≤ c → σ.chunk c = none
  freshSubpage : ∀ s, σ.subpageCount ≤ s → σ.subpage s = none

variable {k : Config} {g : Geometry} {σ σ' : Pool} {T T' : List Token} {c : ChunkId}
  {x x' : PoolChunk} {s : SubpageId} {p p' : PoolSubpage} {t : Token} {o : ℕ} {es : List ℕ}

/-! ### Frames -/

theorem subBlock_congr {σ σ' : Pool} {s : Option SubpageId}
    (h : ∀ i, s = some i → ∀ p, σ.subpage i = some p → ∃ p', σ'.subpage i = some p' ∧ p'.block = p.block)
    (h' : ∀ i, s = some i → ∃ p, σ.subpage i = some p) : subBlock σ' s = subBlock σ s := by
  cases s with
  | none => rfl
  | some i =>
    obtain ⟨p, hp⟩ := h' i rfl
    obtain ⟨p', hp', hb⟩ := h i rfl p hp
    simp [subBlock, hp, hp', hb]

theorem PoolSubpage.SameRun.block (h : p.SameRun p') : p'.block = p.block := by
  simp only [PoolSubpage.block, h.runOffset, h.runSize, h.pageShifts]

theorem ChunkInv.congr (h : ChunkInv k g σ T c x)
    (hs : ∀ (o : ℕ) s, x.subpages[o]? = some (some s) → σ'.subpage s = σ.subpage s)
    (hr : (T'.filter (Token.isRunOf c)).Perm (T.filter (Token.isRunOf c)))
    (he : ∀ o, (T'.filter (Token.isElemOf c o)).Perm (T.filter (Token.isElemOf c o))) :
    ChunkInv k g σ' T' c x := by
  refine { h with runs := h.runs.perm ?_, subs := fun o s hx => ?_ }
  · refine List.Perm.append (hr.symm.map _) (List.Perm.of_eq ?_)
    refine List.flatMap_congr fun i hi => (subBlock_congr (fun s hs' p hp => ?_) fun s hs' => ?_).symm
    all_goals
      subst hs'
      obtain ⟨o, ho⟩ := List.mem_iff_getElem?.mp hi
    · exact ⟨p, (hs o s ho).trans hp, rfl⟩
    · obtain ⟨p, hp, -⟩ := h.subs o s ho
      exact ⟨p, hp⟩
  · obtain ⟨p, hp, hinv⟩ := h.subs o s hx
    exact ⟨p, (hs o s hx).trans hp,
      { hinv with elements := hinv.elements.perm ((he o).symm.map _) }⟩

theorem UnpooledInv.mono (h : UnpooledInv T c x) (hT : ∀ t ∈ T', t.chunk = c → t ∈ T) :
    UnpooledInv T' c x :=
  ⟨h.runs, h.subpages, fun t ht htc => h.tokens t (hT t ht htc) htc⟩

theorem UnpooledInv.no_slot (h : UnpooledInv T c x) (s : SubpageId) : some s ∉ x.subpages := by
  rw [h.subpages]
  exact List.not_mem_nil

theorem Held.perm (h : Held k g σ T) (hp : T.Perm T') : Held k g σ T' where
  chunks c x hx hpool := (h.chunks c x hx hpool).congr (fun _ _ _ => rfl) (hp.symm.filter _)
    fun _ => hp.symm.filter _
  unpooled c x hx hun := (h.unpooled c x hx hun).mono fun _ ht _ => hp.mem_iff.mpr ht
  tokens t ht := h.tokens t (hp.mem_iff.mpr ht)
  alive := h.alive
  freshChunk := h.freshChunk
  freshSubpage := h.freshSubpage

theorem TokenInv.mono (h : TokenInv k σ t)
    (hc : ∀ x, σ.chunk t.chunk = some x → ∃ x', σ'.chunk t.chunk = some x' ∧
      ∀ (o : ℕ) s q, Token.isElemOf t.chunk o t = true → x.subpages[o]? = some (some s) →
        σ.subpage s = some q → x'.subpages[o]? = some (some s) ∧
          ∃ q', σ'.subpage s = some q' ∧ q.SameRun q') : TokenInv k σ' t := by
  cases h with
  | run x o p low i hx f hcap hi hsize =>
    obtain ⟨x', hx', -⟩ := hc x hx
    exact .run x' o p low i hx' f hcap hi hsize
  | elem x o p i s q hx f hi hs hq helem hblock =>
    obtain ⟨x', hx', hsub⟩ := hc x hx
    have helemOf : Token.isElemOf t.chunk o t = true := by
      simp [Token.isElemOf, f.decode.2.2.2.1, f.decode.1]
    obtain ⟨hs', q', hq', hsame⟩ := hsub o s q helemOf hs hq
    exact .elem x' o p i s q' hx' f hi hs' hq' (hsame.elemSize.trans helem) (hsame.block.trans hblock)

/-! ### Tokens of one chunk -/

section

theorem filter_of_away {f : Token → Bool} (hf : ∀ t, f t = true → t.chunk ≠ c)
    (h : T'.filter (·.chunk ≠ c) = T.filter (·.chunk ≠ c)) : T'.filter f = T.filter f := by
  have hsplit : ∀ L : List Token, L.filter f = (L.filter (·.chunk ≠ c)).filter f := by
    intro L
    rw [List.filter_filter]
    refine List.filter_congr fun t _ => ?_
    cases hft : f t
    · rfl
    · simpa using hf t hft
  rw [hsplit T', hsplit T, h]

theorem filter_away_cons (hc : t.chunk = c) :
    (t :: T).filter (·.chunk ≠ c) = T.filter (·.chunk ≠ c) := by
  simp [hc]

theorem mem_of_away (h : T'.filter (·.chunk ≠ c) = T.filter (·.chunk ≠ c)) (ht : t ∈ T')
    (hc : t.chunk ≠ c) : t ∈ T := by
  have hmem : t ∈ T'.filter (·.chunk ≠ c) := List.mem_filter.mpr ⟨ht, by simpa using hc⟩
  rw [h] at hmem
  exact (List.mem_filter.mp hmem).1

theorem filter_isRunOf_cons (hc : t.chunk = c) (hs : isSubpage t.handle = false) :
    (t :: T).filter (Token.isRunOf c) = t :: T.filter (Token.isRunOf c) :=
  List.filter_cons_of_pos (by simp [Token.isRunOf, hc, hs])

theorem filter_isElemOf_run (hs : isSubpage t.handle = false) :
    (t :: T).filter (Token.isElemOf c o) = T.filter (Token.isElemOf c o) :=
  List.filter_cons_of_neg (by simp [Token.isElemOf, hs])

theorem filter_isRunOf_elem (hs : isSubpage t.handle = true) :
    (t :: T).filter (Token.isRunOf c) = T.filter (Token.isRunOf c) :=
  List.filter_cons_of_neg (by simp [Token.isRunOf, hs])

theorem filter_isElemOf_cons (hc : t.chunk = c) (hs : isSubpage t.handle = true)
    (ho : calculateRunOffset t.handle = o) :
    (t :: T).filter (Token.isElemOf c o) = t :: T.filter (Token.isElemOf c o) :=
  List.filter_cons_of_pos (by simp [Token.isElemOf, hc, hs, ho])

theorem filter_isElemOf_other (ho : calculateRunOffset t.handle ≠ o) :
    (t :: T).filter (Token.isElemOf c o) = T.filter (Token.isElemOf c o) :=
  List.filter_cons_of_neg (by simp [Token.isElemOf, ho])

end

theorem Held.pooled_of_slot (h : Held k g σ T) (hx : σ.chunk c = some x)
    (hs : x.subpages[o]? = some (some s)) : x.unpooled = false := by
  by_contra hun
  rw [(h.unpooled c x hx (by simpa using hun)).subpages] at hs
  cases hs

theorem Held.pooled_of_token (h : Held k g σ T) (ht : t ∈ T) (hx : σ.chunk t.chunk = some x) :
    x.unpooled = false := by
  by_contra hun
  exact (h.unpooled _ x hx (by simpa using hun)).tokens t ht rfl

/-- A change of one chunk, of its subpages and of its tokens leaves the others as they are. -/
theorem Held.update (h : Held k g σ T) (hchunk : σ'.chunk = Function.update σ.chunk c (some x'))
    (hsub : ∀ s q, q.chunk ≠ c → (σ'.subpage s = some q ↔ σ.subpage s = some q))
    (hT : T'.filter (·.chunk ≠ c) = T.filter (·.chunk ≠ c))
    (hc : ChunkInv k g σ' T' c x') (htok : ∀ t ∈ T', t.chunk = c → TokenInv k σ' t)
    (halive : ∀ s q, σ'.subpage s = some q → q.doNotDestroy = true → q.chunk = c →
      x'.subpages[q.runOffset.toNat]? = some (some s))
    (hcount : ∀ d, σ'.chunkCount ≤ d → σ.chunk d = none ∧ d ≠ c)
    (hcount' : ∀ s, σ'.subpageCount ≤ s → σ'.subpage s = none) : Held k g σ' T' := by
  have hother : ∀ d ≠ c, σ'.chunk d = σ.chunk d := fun d hd => by
    rw [hchunk, Function.update_of_ne hd]
  have hself : σ'.chunk c = some x' := by rw [hchunk, Function.update_self]
  have hsame : ∀ d x, d ≠ c → σ.chunk d = some x → ∀ (o : ℕ) s, x.subpages[o]? = some (some s) →
      ∃ q, σ.subpage s = some q ∧ σ'.subpage s = some q := fun d x hd hx o s hs => by
    obtain ⟨q, hq, hinv⟩ := (h.chunks d x hx (h.pooled_of_slot hx hs)).subs o s hs
    exact ⟨q, hq, (hsub s q (by rw [hinv.chunk]; exact hd)).mpr hq⟩
  refine ⟨fun d y hy hpool => ?_, fun d y hy hun => ?_, fun t ht => ?_, fun s q hq hd => ?_,
    fun d hd => ?_, hcount'⟩
  · by_cases hdc : d = c
    · subst hdc
      obtain rfl := Option.some.inj (hself.symm.trans hy)
      exact hc
    · rw [hother d hdc] at hy
      refine (h.chunks d y hy hpool).congr (fun o s hs => ?_) (List.Perm.of_eq ?_)
        fun o => List.Perm.of_eq ?_
      · obtain ⟨q, hq, hq'⟩ := hsame d y hdc hy o s hs
        rw [hq, hq']
      · refine filter_of_away (fun t ht => ?_) hT
        rw [of_decide_eq_true ht |>.1]
        exact hdc
      · refine filter_of_away (fun t ht => ?_) hT
        rw [of_decide_eq_true ht |>.1]
        exact hdc
  · by_cases hdc : d = c
    · subst hdc
      obtain rfl := Option.some.inj (hself.symm.trans hy)
      rw [hc.pooled] at hun
      cases hun
    · rw [hother d hdc] at hy
      refine (h.unpooled d y hy hun).mono fun t ht htd => mem_of_away hT ht ?_
      rw [htd]
      exact hdc
  · by_cases htc : t.chunk = c
    · exact htok t ht htc
    · refine (h.tokens t (mem_of_away hT ht htc)).mono fun y hy => ⟨y, (hother _ htc).trans hy, ?_⟩
      intro o s q _ hs hq
      obtain ⟨q₁, hq₁, hq'⟩ := hsame _ y htc hy o s hs
      obtain rfl := Option.some.inj (hq₁.symm.trans hq)
      exact ⟨hs, _, hq', ⟨rfl, rfl, rfl, rfl, rfl, rfl⟩⟩
  · by_cases hqc : q.chunk = c
    · exact ⟨x', by rw [hqc]; exact hself, halive s q hq hd hqc⟩
    · obtain ⟨y, hy, hs⟩ := h.alive s q ((hsub s q hqc).mp hq) hd
      exact ⟨y, (hother _ hqc).trans hy, hs⟩
  · rw [hother d (hcount d hd).2]
    exact (hcount d hd).1

/-! ### Runs -/

section

variable {runs : Runs} {h h' : Int64} {m low i : ℕ}

theorem ChunkInv.allocateRun (made : k.sizes.Made g) (hc : ChunkInv k g σ T c x) {runSize : ℤ}
    (hr : x.runs.allocateRun k.sizes runSize = .ok (h, runs)) :
    h = -1 ∧ runs = x.runs ∨ ∃ o m low : ℕ, Fields h o m true false low ∧
      Runs.Inv k.sizes g.pages runs ((o, m) :: heldBlocks σ T c x) ∧
      runs.freeBytes = runs.pageCount * 2 ^ k.sizes.pageShifts ∧
      runs.freeBytes ≤ x.runs.freeBytes ∧ runSize / 2 ^ k.sizes.pageShifts = m := by
  rcases hc.runs.allocateRun made runSize with herr | hnone | ⟨h', runs', o, m, hok, hm, hall, hfree⟩
  · rw [herr] at hr
    cases hr
  · rw [hnone] at hr
    obtain ⟨rfl, rfl⟩ := Prod.mk.inj (Except.ok.inj hr)
    exact .inl ⟨rfl, rfl⟩
  · rw [hok] at hr
    obtain ⟨rfl, rfl⟩ := Prod.mk.inj (Except.ok.inj hr)
    obtain ⟨low, f⟩ := hall.fields
    have hsize : (0 : ℤ) ≤ m * 2 ^ k.sizes.pageShifts := by positivity
    refine .inr ⟨o, m, low, f, hall.inv, ?_, by omega, hm⟩
    rw [hfree, hc.bytes, hall.pageCount]
    ring

theorem Runs.allocateRun_of_nil {z : SizeClasses} {r : Runs} (hr : r.runsAvail = []) {runSize : ℤ}
    (hok : r.allocateRun z runSize = .ok (h, runs)) : h = -1 ∧ runs = r := by
  have hqueue : ∀ i, r.queueAt i = .error .range := by
    intro i
    rw [Runs.queueAt, hr]
    split_ifs <;> rfl
  obtain ⟨pageIdx, -, hok⟩ := bind_eq_ok.mp hok
  obtain ⟨queueIdx, -, hok⟩ := bind_eq_ok.mp hok
  split_ifs at hok
  · obtain ⟨rfl, rfl⟩ := Prod.mk.inj (Except.ok.inj hok)
    exact ⟨rfl, rfl⟩
  · rw [hqueue] at hok
    cases hok

def Pool.withChunk (σ : Pool) (c : ChunkId) (x : PoolChunk) : Pool :=
  { σ with chunk := Function.update σ.chunk c (some x) }

theorem Held.chunk_lt (hh : Held k g σ T) (hx : σ.chunk c = some x) {d : ChunkId}
    (hd : σ.chunkCount ≤ d) : σ.chunk d = none ∧ d ≠ c := by
  refine ⟨hh.freshChunk d hd, ?_⟩
  rintro rfl
  rw [hh.freshChunk d hd] at hx
  cases hx

theorem Held.alive_at (hh : Held k g σ T) (hx : σ.chunk c = some x) (hp : σ.subpage s = some p)
    (hd : p.doNotDestroy = true) (hc : p.chunk = c) :
    x.subpages[p.runOffset.toNat]? = some (some s) := by
  obtain ⟨y, hy, hs⟩ := hh.alive s p hp hd
  rw [hc, hx] at hy
  rw [Option.some.inj hy]
  exact hs

theorem Held.addRun (hh : Held k g σ T) (hx : σ.chunk c = some x)
    (f : Fields h o m true false low)
    (hinv : Runs.Inv k.sizes g.pages runs ((o, m) :: heldBlocks σ T c x))
    (hbytes : runs.freeBytes = runs.pageCount * 2 ^ k.sizes.pageShifts)
    (hi : i < k.sizes.nSizes) (hsize : (m : ℤ) * 2 ^ k.sizes.pageShifts = sizeAt i)
    (hpool : x.unpooled = false) :
    Held k g (σ.withChunk c { x with runs := runs })
      (⟨c, h, m * 2 ^ k.sizes.pageShifts⟩ :: T) := by
  have hc := hh.chunks c x hx hpool
  have hsub : isSubpage h = false := f.decode.2.2.2.1
  have hself : (σ.withChunk c { x with runs := runs }).chunk c = some { x with runs := runs } :=
    Function.update_self c _ _
  set t : Token := ⟨c, h, m * 2 ^ k.sizes.pageShifts⟩ with ht₀
  have haway : (t :: T).filter (·.chunk ≠ c) = T.filter (·.chunk ≠ c) := filter_away_cons rfl
  have hinv' : ChunkInv k g (σ.withChunk c { x with runs := runs }) (t :: T) c
      { x with runs := runs } := by
    refine ⟨hc.pooled, hc.chunkSize, hc.memorySize, hc.cached, hc.slots, ?_, hbytes, ?_⟩
    · rw [heldBlocks, filter_isRunOf_cons (t := t) rfl hsub, List.map_cons, f.span_eq]
      exact hinv
    · intro o' s hs
      rw [elemsAt, filter_isElemOf_run (t := t) hsub]
      exact hc.subs o' s hs
  refine hh.update rfl (fun _ _ _ => Iff.rfl) haway hinv' ?_ ?_ ?_ hh.freshSubpage
  · intro u hu huc
    rcases List.mem_cons.mp hu with rfl | hu
    · exact .run _ o m low i hself f rfl hi hsize
    · refine (hh.tokens u hu).mono fun y hy => ⟨_, by rw [huc]; exact hself, ?_⟩
      intro o' s q _ hs hq
      rw [huc, hx] at hy
      obtain rfl := Option.some.inj hy
      exact ⟨hs, q, hq, ⟨rfl, rfl, rfl, rfl, rfl, rfl⟩⟩
  · intro s q hq hd hqc
    exact hh.alive_at (x := x) hx hq hd hqc
  · exact fun d hd => hh.chunk_lt hx hd

theorem TokenInv.run_fields (ht : TokenInv k σ t) (hs : isSubpage t.handle = false) :
    ∃ o p low : ℕ, Fields t.handle o p true false low ∧ t.cap = p * 2 ^ k.sizes.pageShifts := by
  cases ht with
  | run x o p low i hx f hcap hi hsize => exact ⟨o, p, low, f, hcap⟩
  | elem x o p i s q hx f => rw [f.decode.2.2.2.1] at hs; cases hs

theorem ChunkInv.freeRun (made : k.sizes.Made g) (hc : ChunkInv k g σ T c x) {held : List Block}
    {u e : Bool} (f : Fields h o m u e low)
    (hheld : (heldBlocks σ T c x).Perm ((o, m) :: held))
    (hr : x.runs.free k.sizes h = .ok runs) :
    Runs.Inv k.sizes g.pages runs held ∧
      runs.freeBytes = runs.pageCount * 2 ^ k.sizes.pageShifts ∧
      x.runs.freeBytes ≤ runs.freeBytes := by
  have hfr : Runs.Freeing k.sizes g.pages x.runs held h o m := ⟨⟨u, e, low, f⟩, hc.runs.perm hheld⟩
  obtain ⟨runs', o', p', rest, hok, hinv, hcount, hfree, -⟩ := hfr.free made
  rw [hok] at hr
  obtain rfl := Except.ok.inj hr
  have hsize : (0 : ℤ) ≤ m * 2 ^ k.sizes.pageShifts := by positivity
  refine ⟨hinv, ?_, by omega⟩
  rw [hfree, hcount, hc.bytes]
  ring

theorem Held.freeRun (made : k.sizes.Made g) (hh : Held k g σ (t :: T))
    (hx : σ.chunk t.chunk = some x) (hs : isSubpage t.handle = false)
    (hr : x.runs.free k.sizes t.handle = .ok runs) :
    Held k g (σ.withChunk t.chunk { x with runs := runs }) T ∧
      x.runs.freeBytes ≤ runs.freeBytes := by
  have hc := hh.chunks _ x hx (hh.pooled_of_token List.mem_cons_self hx)
  obtain ⟨o, p, low, f, -⟩ := (hh.tokens t List.mem_cons_self).run_fields hs
  have hheld : heldBlocks σ (t :: T) t.chunk x = (o, p) :: heldBlocks σ T t.chunk x := by
    rw [heldBlocks, filter_isRunOf_cons rfl hs, List.map_cons, f.span_eq]
    rfl
  obtain ⟨hinv, hbytes, hle⟩ := hc.freeRun made f (List.Perm.of_eq hheld) hr
  have hself : (σ.withChunk t.chunk { x with runs := runs }).chunk t.chunk =
      some { x with runs := runs } := Function.update_self _ _ _
  have haway : T.filter (·.chunk ≠ t.chunk) = (t :: T).filter (·.chunk ≠ t.chunk) :=
    (filter_away_cons rfl).symm
  have hinv' : ChunkInv k g (σ.withChunk t.chunk { x with runs := runs }) T t.chunk
      { x with runs := runs } := by
    refine ⟨hc.pooled, hc.chunkSize, hc.memorySize, hc.cached, hc.slots, hinv, hbytes, ?_⟩
    intro o' s hs'
    have hsubs := hc.subs o' s hs'
    rw [elemsAt, filter_isElemOf_run hs] at hsubs
    exact hsubs
  refine ⟨hh.update rfl (fun _ _ _ => Iff.rfl) haway hinv' ?_ ?_ ?_ hh.freshSubpage, hle⟩
  · intro u hu huc
    refine (hh.tokens u (List.mem_cons_of_mem _ hu)).mono fun y hy => ⟨_, by rw [huc]; exact hself, ?_⟩
    intro o' s q _ hs' hq
    rw [huc, hx] at hy
    obtain rfl := Option.some.inj hy
    exact ⟨hs', q, hq, ⟨rfl, rfl, rfl, rfl, rfl, rfl⟩⟩
  · intro s q hq hd hqc
    exact hh.alive_at (x := x) hx hq hd hqc
  · exact fun d hd => hh.chunk_lt hx hd

end

/-! ### Subpages -/

section

variable {runs : Runs} {h : Int64} {m low i : ℕ}

theorem Held.elemsAt_eq_nil (hh : Held k g σ T) (hx : σ.chunk c = some x)
    (hslot : x.subpages[o]? = some none) : elemsAt T c o = [] := by
  rw [elemsAt, List.map_eq_nil_iff, List.filter_eq_nil_iff]
  intro t ht hto
  obtain ⟨hc, hs, ho⟩ := of_decide_eq_true hto
  cases hh.tokens t ht with
  | run x' o' p low i hx' f =>
    rw [f.decode.2.2.2.1] at hs
    cases hs
  | elem x' o' p i s q hx' f hi hsub =>
    rw [hc, hx] at hx'
    obtain rfl := Option.some.inj hx'
    obtain rfl : o' = o := by exact_mod_cast f.decode.1.symm.trans ho
    rw [hslot] at hsub
    cases hsub

theorem SubpageInv.block_eq (hp : SubpageInv k c o es p) :
    ∃ m : ℕ, p.block = (o, m) ∧ p.runSize = m * 2 ^ k.sizes.pageShifts := by
  obtain ⟨m, hm⟩ := hp.runSize
  refine ⟨m, ?_, hm⟩
  have hpos : (0 : ℤ) < 2 ^ k.sizes.pageShifts := by positivity
  rw [PoolSubpage.block, hp.runOffset, hp.pageShifts, hm, Int.mul_ediv_cancel _ hpos.ne']
  simp

theorem Held.subpageInv (hh : Held k g σ T) (hx : σ.chunk c = some x)
    (hs : x.subpages[o]? = some (some s)) (hp : σ.subpage s = some p) :
    SubpageInv k c o (elemsAt T c o) p := by
  obtain ⟨q, hq, hinv⟩ := (hh.chunks c x hx (hh.pooled_of_slot hx hs)).subs o s hs
  rw [hq] at hp
  rw [← Option.some.inj hp]
  exact hinv

theorem Held.cap_class (hh : Held k g σ T) (ht : t ∈ T) :
    ∃ i < k.sizes.nSizes, t.cap = sizeAt i := by
  cases hh.tokens t ht with
  | run x o p low i hx f hcap hi hsize => exact ⟨i, hi, hsize⟩
  | elem x o p i s q hx f hi hs hq helem =>
    rw [← helem]
    exact (hh.subpageInv hx hs hq).elemClass

theorem Held.slot_unique (hh : Held k g σ T) (hx : σ.chunk c = some x) {o' : ℕ}
    (hs : x.subpages[o]? = some (some s)) (hs' : x.subpages[o']? = some (some s)) : o = o' := by
  obtain ⟨q, hq, hinv⟩ := (hh.chunks c x hx (hh.pooled_of_slot hx hs)).subs o s hs
  have h1 := hinv.runOffset
  have h2 := (hh.subpageInv hx hs' hq).runOffset
  omega

theorem ChunkInv.exists_subpage (hc : ChunkInv k g σ T c x) (hs : some s ∈ x.subpages) :
    ∃ q, σ.subpage s = some q := by
  obtain ⟨o, ho⟩ := List.mem_iff_getElem?.mp hs
  obtain ⟨q, hq, -⟩ := hc.subs o s ho
  exact ⟨q, hq⟩

theorem SubpageInv.sameRun {z : PoolSubpage} {es es' : List ℕ} (hp : SubpageInv k c o es p)
    (hsame : p.SameRun z) (hd : z.doNotDestroy = true) (helems : z.Elements es') :
    SubpageInv k c o es' z where
  chunk := hsame.chunk.trans hp.chunk
  pageShifts := hsame.pageShifts.trans hp.pageShifts
  runOffset := hsame.runOffset.trans hp.runOffset
  runSize := by rw [hsame.runSize]; exact hp.runSize
  elemSize := by rw [hsame.elemSize]; exact hp.elemSize
  elemClass := by rw [hsame.elemSize]; exact hp.elemClass
  maxNumElems := by rw [hsame.maxNumElems, hsame.runSize, hsame.elemSize]; exact hp.maxNumElems
  doNotDestroy := hd
  elements := helems

theorem subpage_update_iff {z q : PoolSubpage} {r : SubpageId} (hp : σ.subpage s = some p)
    (hsub : σ'.subpage = Function.update σ.subpage s (some z)) (hpc : p.chunk = c) (hzc : z.chunk = c)
    (hq : q.chunk ≠ c) : σ'.subpage r = some q ↔ σ.subpage r = some q := by
  by_cases hrs : r = s
  · subst hrs
    rw [hsub, Function.update_self, hp]
    constructor
    · rintro ⟨⟩
      exact absurd hzc hq
    · rintro ⟨⟩
      exact absurd hpc hq
  · rw [hsub, Function.update_of_ne hrs]

theorem Held.freshSubpage_update {z : PoolSubpage} {r : SubpageId} (hh : Held k g σ T)
    (hp : σ.subpage s = some p) (hsub : σ'.subpage = Function.update σ.subpage s (some z))
    (hr : σ.subpageCount ≤ r) : σ'.subpage r = none := by
  have hrs : r ≠ s := by
    rintro rfl
    rw [hh.freshSubpage r hr] at hp
    cases hp
  rw [hsub, Function.update_of_ne hrs]
  exact hh.freshSubpage r hr

theorem Held.addSubpage (hh : Held k g σ T) (hx : σ.chunk c = some x)
    (f : Fields h o m true false low)
    (hinv : Runs.Inv k.sizes g.pages runs ((o, m) :: heldBlocks σ T c x))
    (hbytes : runs.freeBytes = runs.pageCount * 2 ^ k.sizes.pageShifts)
    (hslot : x.subpages[o]? = some none) (hsz : p.runSize = m * 2 ^ k.sizes.pageShifts)
    (hp : SubpageInv k c o [] p) (hs : σ.subpageCount = s)
    (hchunk : σ'.chunk = Function.update σ.chunk c
      (some { x with runs := runs, subpages := x.subpages.set o (some s) }))
    (hsub : σ'.subpage = Function.update σ.subpage s (some p))
    (hcount : σ'.chunkCount = σ.chunkCount) (hcount' : σ'.subpageCount = s + 1)
    (hpool : x.unpooled = false) : Held k g σ' T := by
  have hc := hh.chunks c x hx hpool
  have hlen : o < x.subpages.length := (List.getElem?_eq_some_iff.mp hslot).1
  have hfresh : σ.subpage s = none := hh.freshSubpage s hs.le
  have hold : ∀ r q, σ.subpage r = some q → σ'.subpage r = some q := by
    intro r q hr
    have hrs : r ≠ s := by
      rintro rfl
      rw [hfresh] at hr
      cases hr
    rw [hsub, Function.update_of_ne hrs, hr]
  have hself : σ'.subpage s = some p := by rw [hsub, Function.update_self]
  set x' : PoolChunk := { x with runs := runs, subpages := x.subpages.set o (some s) } with hx'
  have hslots : ∀ o', x'.subpages[o']? = if o = o' then some (some s) else x.subpages[o']? := by
    intro o'
    rw [hx', List.getElem?_set]
    split_ifs <;> rfl
  have hxself : σ'.chunk c = some x' := by rw [hchunk, Function.update_self]
  have hblocks : (heldBlocks σ' T c x').Perm ((o, m) :: heldBlocks σ T c x) := by
    obtain ⟨m', hblock, hm'⟩ := hp.block_eq
    have hmm : m' = m := by
      have hpos : (0 : ℤ) < 2 ^ k.sizes.pageShifts := by positivity
      exact_mod_cast mul_right_cancel₀ hpos.ne' (hm'.symm.trans hsz)
    have hset := flatMap_set_cons (f := subBlock σ') (x := some s) (h := (o, m)) hslot
      (by simp [subBlock, hself, hblock, hmm])
    have hsame : x.subpages.flatMap (subBlock σ') = x.subpages.flatMap (subBlock σ) := by
      refine List.flatMap_congr fun r hr => subBlock_congr (fun j hj q hq => ?_) fun j hj => ?_
      · exact ⟨q, hold j q hq, rfl⟩
      · exact hc.exists_subpage (hj ▸ hr)
    rw [hsame] at hset
    exact (hset.append_left _).trans List.perm_middle
  refine hh.update hchunk ?_ rfl ⟨hc.pooled, hc.chunkSize, hc.memorySize, hc.cached, ?_, ?_, hbytes, ?_⟩ ?_ ?_ ?_ ?_
  · intro r q hq
    constructor
    · intro hr
      by_cases hrs : r = s
      · subst hrs
        rw [hself] at hr
        obtain rfl := Option.some.inj hr
        exact absurd hp.chunk hq
      · rwa [hsub, Function.update_of_ne hrs] at hr
    · exact hold r q
  · rw [hx', List.length_set]
    exact hc.slots
  · exact hinv.perm hblocks.symm
  · intro o' r hr
    rw [hslots] at hr
    split_ifs at hr with ho
    · subst ho
      obtain rfl := Option.some.inj (Option.some.inj hr)
      refine ⟨p, hself, ?_⟩
      rw [hh.elemsAt_eq_nil hx hslot]
      exact hp
    · obtain ⟨q, hq, hqinv⟩ := hc.subs o' r hr
      exact ⟨q, hold r q hq, hqinv⟩
  · intro t ht htc
    refine (hh.tokens t ht).mono fun y hy => ⟨x', by rw [htc]; exact hxself, ?_⟩
    intro o' r q _ hr hq
    rw [htc, hx] at hy
    obtain rfl := Option.some.inj hy
    refine ⟨?_, q, hold r q hq, ⟨rfl, rfl, rfl, rfl, rfl, rfl⟩⟩
    rw [hslots, if_neg]
    · exact hr
    · rintro rfl
      rw [hslot] at hr
      cases hr
  · intro r q hr hd hqc
    rw [hslots]
    by_cases hrs : r = s
    · subst hrs
      rw [hself] at hr
      obtain rfl := Option.some.inj hr
      rw [if_pos (by rw [hp.runOffset]; rfl)]
    · rw [hsub, Function.update_of_ne hrs] at hr
      have hat := hh.alive_at hx hr hd hqc
      rw [if_neg]
      · exact hat
      · rintro rfl
        rw [hslot] at hat
        cases hat
  · intro d hd
    exact hh.chunk_lt hx (by omega)
  · intro r hr
    have hlt : σ.subpageCount < r := by rw [hs]; omega
    rw [hsub, Function.update_of_ne (by rintro rfl; exact hlt.ne hs)]
    exact hh.freshSubpage r hlt.le

/-- Another record for a registered subpage, with the tokens of its elements changed to match. -/
theorem Held.setSubpage {z : PoolSubpage} (hh : Held k g σ T) (hx : σ.chunk c = some x)
    (hs : x.subpages[o]? = some (some s)) (hp : σ.subpage s = some p) (hsame : p.SameRun z)
    (hd : z.doNotDestroy = true) (helems : z.Elements (elemsAt T' c o))
    (hT : T'.filter (·.chunk ≠ c) = T.filter (·.chunk ≠ c))
    (hruns : T'.filter (Token.isRunOf c) = T.filter (Token.isRunOf c))
    (hothers : ∀ o' ≠ o, T'.filter (Token.isElemOf c o') = T.filter (Token.isElemOf c o'))
    (htok : ∀ t ∈ T', t.chunk = c → t ∈ T ∨ TokenInv k σ' t) (hchunk : σ'.chunk = σ.chunk)
    (hsub : σ'.subpage = Function.update σ.subpage s (some z))
    (hcount : σ'.chunkCount = σ.chunkCount) (hcount' : σ'.subpageCount = σ.subpageCount) :
    Held k g σ' T' := by
  have hc := hh.chunks c x hx (hh.pooled_of_slot hx hs)
  have hpinv := hh.subpageInv hx hs hp
  have hself : σ'.subpage s = some z := by rw [hsub, Function.update_self]
  have hother : ∀ r ≠ s, σ'.subpage r = σ.subpage r := fun r hr => by
    rw [hsub, Function.update_of_ne hr]
  have hstay : ∀ r q, σ.subpage r = some q → ∃ q', σ'.subpage r = some q' ∧ q.SameRun q' := by
    intro r q hq
    by_cases hrs : r = s
    · subst hrs
      obtain rfl := Option.some.inj (hp.symm.trans hq)
      exact ⟨z, hself, hsame⟩
    · exact ⟨q, (hother r hrs).trans hq, ⟨rfl, rfl, rfl, rfl, rfl, rfl⟩⟩
  have hchunk' : σ'.chunk = Function.update σ.chunk c (some x) := by
    rw [hchunk, ← hx, Function.update_eq_self]
  refine hh.update hchunk' ?_ hT ⟨hc.pooled, hc.chunkSize, hc.memorySize, hc.cached, hc.slots, ?_, hc.bytes, ?_⟩ ?_ ?_ ?_ ?_
  · exact fun r q => subpage_update_iff hp hsub hpinv.chunk (hsame.chunk.trans hpinv.chunk)
  · refine hc.runs.perm (List.Perm.of_eq ?_)
    rw [heldBlocks, heldBlocks, hruns]
    refine congrArg _ (List.flatMap_congr fun r hr => (subBlock_congr (fun j hj q hq => ?_)
      fun j hj => ?_).symm)
    · obtain ⟨q', hq', hqq⟩ := hstay j q hq
      exact ⟨q', hq', hqq.block⟩
    · exact hc.exists_subpage (hj ▸ hr)
  · intro o' r hr
    by_cases hrs : r = s
    · subst hrs
      obtain rfl := hh.slot_unique hx hs hr
      exact ⟨z, hself, hpinv.sameRun hsame hd helems⟩
    · have hne : o' ≠ o := by
        rintro rfl
        rw [hs] at hr
        exact hrs (Option.some.inj (Option.some.inj hr)).symm
      obtain ⟨q, hq, hqinv⟩ := hc.subs o' r hr
      rw [elemsAt, hothers o' hne]
      exact ⟨q, (hother r hrs).trans hq, hqinv⟩
  · intro t ht htc
    rcases htok t ht htc with ht | ht
    · refine (hh.tokens t ht).mono fun y hy => ⟨y, by rw [hchunk]; exact hy, ?_⟩
      exact fun o' r q _ hr hq => ⟨hr, hstay r q hq⟩
    · exact ht
  · intro r q hq hqd hqc
    by_cases hrs : r = s
    · subst hrs
      obtain rfl := Option.some.inj (hself.symm.trans hq)
      rw [hsame.runOffset, hpinv.runOffset]
      exact hs
    · rw [hother r hrs] at hq
      exact hh.alive_at hx hq hqd hqc
  · intro d hd'
    exact hh.chunk_lt hx (hcount ▸ hd')
  · exact fun r hr => hh.freshSubpage_update hp hsub (hcount' ▸ hr)

theorem elem_index (f : Fields t.handle o m true true i) (hi : i < 2 ^ 31) : t.index = i := by
  rw [Token.index, f.decode.2.2.2.2 hi, Int.toNat_natCast]

theorem Held.block_le (hh : Held k g σ T) (hx : σ.chunk c = some x)
    (hs : x.subpages[o]? = some (some s)) (hp : σ.subpage s = some p) (hb : p.block = (o, m)) :
    0 < m ∧ o + m ≤ g.pages := by
  have hmem : (o, m) ∈ x.runs.avail.map span ++ heldBlocks σ T c x := by
    refine List.mem_append_right _ (List.mem_append_right _ (List.mem_flatMap.mpr ?_))
    exact ⟨some s, List.mem_of_getElem? hs, by simp [subBlock, hp, hb]⟩
  have htiles := (hh.chunks c x hx (hh.pooled_of_slot hx hs)).runs.tiles
  exact ⟨htiles.pos _ hmem, htiles.stop_le hmem⟩

theorem SubpageInv.maxNumElems_le (made : k.sizes.Made g) (hp : SubpageInv k c o es p)
    (hm : p.runSize = m * 2 ^ k.sizes.pageShifts) (hle : m ≤ g.pages) :
    p.maxNumElems ≤ 2 ^ 30 := by
  have hsize : p.runSize ≤ 2 ^ 30 := by
    rw [hm, made.pageShifts]
    calc (m : ℤ) * 2 ^ g.pageShifts ≤ (g.pages : ℤ) * 2 ^ g.pageShifts := by gcongr
      _ = (g.chunkSize : ℤ) := by rw [g.chunkSize_eq]; push_cast; rfl
      _ ≤ 2 ^ 30 := by exact_mod_cast g.chunkSize_le
  rw [hp.maxNumElems]
  refine le_trans (Int.ediv_le_self _ ?_) hsize
  rw [hm]
  positivity

theorem Held.takeElement (made : k.sizes.Made g) (hh : Held k g σ T) (hp : σ.subpage s = some p)
    (hd : p.doNotDestroy = true) (hn : p.numAvail ≠ 0) {j : ℤ} {p₁ p₂ : PoolSubpage}
    (hg : p.getNextAvail = .ok (j, p₁)) (hb : p₁.setBit j = .ok p₂) (hchunk : σ'.chunk = σ.chunk)
    (hsub : σ'.subpage = Function.update σ.subpage s (some { p₂ with numAvail := p₂.numAvail - 1 }))
    (hcount : σ'.chunkCount = σ.chunkCount) (hcount' : σ'.subpageCount = σ.subpageCount) :
    Held k g σ' (⟨p.chunk, p₂.handle j, p.elemSize⟩ :: T) ∧ 0 ≤ p₂.handle j ∧
      isSubpage (p₂.handle j) = true := by
  obtain ⟨x, hx, hs⟩ := hh.alive s p hp hd
  have hpinv := hh.subpageInv hx hs hp
  have hoff : p.runOffset = (p.runOffset.toNat : ℕ) := hpinv.runOffset
  set o := p.runOffset.toNat
  obtain ⟨m, hblock, hm⟩ := hpinv.block_eq
  obtain ⟨hmpos, hmle⟩ := hh.block_le hx hs hp hblock
  obtain ⟨i, rfl, hlt, helems, hsame, hd₂⟩ := hpinv.elements.take hn hg hb
  have hmax := hpinv.maxNumElems_le made hm (by omega)
  have hpages := g.pages_le
  have hi : i < 2 ^ 31 := by omega
  have hhandle : p₂.handle i = toHandle o m i := by
    have hdiv : p.runSize / 2 ^ p.pageShifts = m := by
      have hpos : (0 : ℤ) < 2 ^ k.sizes.pageShifts := by positivity
      rw [hpinv.pageShifts, hm, Int.mul_ediv_cancel _ hpos.ne']
    rw [PoolSubpage.handle, hsame.runOffset, hsame.runSize, hsame.pageShifts, hdiv, hoff]
  have f : Fields (p₂.handle i) o m true true i := by
    rw [hhandle]
    exact toHandle_fields (by omega) (by omega) (by omega)
  refine ⟨?_, f.nonneg, f.decode.2.2.2.1⟩
  set t : Token := ⟨p.chunk, p₂.handle i, p.elemSize⟩
  have hts : isSubpage t.handle = true := f.decode.2.2.2.1
  have hto : calculateRunOffset t.handle = o := f.decode.1
  have helemsAt : elemsAt (t :: T) p.chunk o = i :: elemsAt T p.chunk o := by
    rw [elemsAt, filter_isElemOf_cons rfl hts hto, List.map_cons, elem_index f hi]
    rfl
  refine hh.setSubpage hx hs hp (z := { p₂ with numAvail := p₂.numAvail - 1 })
    ⟨hsame.chunk, hsame.pageShifts, hsame.runOffset, hsame.runSize, hsame.elemSize,
      hsame.maxNumElems⟩ (hd₂.trans hd) ?_ (filter_away_cons rfl) (filter_isRunOf_elem hts) ?_ ?_
    hchunk hsub hcount hcount'
  · rw [helemsAt]
    exact helems
  · intro o' ho'
    refine filter_isElemOf_other ?_
    rw [hto]
    exact_mod_cast ho'.symm
  · intro u hu _
    rcases List.mem_cons.mp hu with rfl | hu
    · refine .inr (.elem x o m i s { p₂ with numAvail := p₂.numAvail - 1 } (by rw [hchunk]; exact hx)
        f hi hs (by rw [hsub, Function.update_self]) hsame.elemSize ?_)
      exact hsame.block.trans hblock
    · exact .inl hu

theorem Held.elem_cases (hh : Held k g σ (t :: T)) (hs : isSubpage t.handle = true)
    (hx : σ.chunk t.chunk = some x) : ∃ (o m i : ℕ) (s : SubpageId) (p : PoolSubpage),
      Fields t.handle o m true true i ∧ i < 2 ^ 31 ∧ x.subpages[o]? = some (some s) ∧
      σ.subpage s = some p ∧ p.elemSize = t.cap ∧ p.block = (o, m) := by
  cases hh.tokens t List.mem_cons_self with
  | run x' o p low i hx' f =>
    rw [f.decode.2.2.2.1] at hs
    cases hs
  | elem x' o p i s q hx' f hi hsub hq helem hblock =>
    rw [hx] at hx'
    obtain rfl := Option.some.inj hx'
    exact ⟨o, p, i, s, q, f, hi, hsub, hq, helem, hblock⟩

theorem Held.giveElement (hh : Held k g σ (t :: T)) (hx : σ.chunk t.chunk = some x)
    (f : Fields t.handle o m true true i) (hi : i < 2 ^ 31)
    (hs : x.subpages[o]? = some (some s)) (hp : σ.subpage s = some p)
    (hb : p.clearBit i = .ok p') (hchunk : σ'.chunk = σ.chunk)
    (hsub : σ'.subpage = Function.update σ.subpage s
      (some { p' with nextAvail := i, numAvail := p'.numAvail + 1 }))
    (hcount : σ'.chunkCount = σ.chunkCount) (hcount' : σ'.subpageCount = σ.subpageCount) :
    Held k g σ' T := by
  have hpinv := hh.subpageInv hx hs hp
  have hts : isSubpage t.handle = true := f.decode.2.2.2.1
  have hto : calculateRunOffset t.handle = o := f.decode.1
  have helemsAt : elemsAt (t :: T) t.chunk o = i :: elemsAt T t.chunk o := by
    rw [elemsAt, filter_isElemOf_cons rfl hts hto, List.map_cons,
      elem_index f hi]
    rfl
  have helems := hpinv.elements
  rw [helemsAt] at helems
  obtain ⟨helems', hsame, hd, -⟩ := helems.give hb
  refine hh.setSubpage hx hs hp
    (z := { p' with nextAvail := i, numAvail := p'.numAvail + 1 })
    ⟨hsame.chunk, hsame.pageShifts, hsame.runOffset, hsame.runSize, hsame.elemSize,
      hsame.maxNumElems⟩ (hd.trans hpinv.doNotDestroy) helems' (filter_away_cons rfl).symm
    (filter_isRunOf_elem hts).symm ?_ ?_ hchunk hsub hcount hcount'
  · intro o' ho'
    refine (filter_isElemOf_other ?_).symm
    rw [hto]
    exact_mod_cast ho'.symm
  · exact fun u hu _ => .inl (List.mem_cons_of_mem _ hu)

theorem Held.retire (made : k.sizes.Made g) (hh : Held k g σ T) (hx : σ.chunk c = some x)
    (hs : x.subpages[o]? = some (some s)) (hp : σ.subpage s = some p)
    (hempty : p.numAvail = p.maxNumElems) {u e : Bool} (f : Fields h o m u e low)
    (hblock : p.block = (o, m)) (hr : x.runs.free k.sizes h = .ok runs)
    (hchunk : σ'.chunk = Function.update σ.chunk c
      (some { x with runs := runs, subpages := x.subpages.set o none }))
    (hsub : σ'.subpage = Function.update σ.subpage s (some { p with doNotDestroy := false }))
    (hcount : σ'.chunkCount = σ.chunkCount) (hcount' : σ'.subpageCount = σ.subpageCount) :
    Held k g σ' T ∧ x.runs.freeBytes ≤ runs.freeBytes := by
  have hc := hh.chunks c x hx (hh.pooled_of_slot hx hs)
  have hpinv := hh.subpageInv hx hs hp
  have hlen : o < x.subpages.length := (List.getElem?_eq_some_iff.mp hs).1
  have hnil : elemsAt T c o = [] := by
    have := hpinv.elements.count
    exact List.length_eq_zero_iff.mp (by omega)
  set x' : PoolChunk := { x with runs := runs, subpages := x.subpages.set o none } with hx'
  have hslots : ∀ o', x'.subpages[o']? = if o = o' then some none else x.subpages[o']? := by
    intro o'
    rw [hx', List.getElem?_set]
    split_ifs <;> rfl
  have hxself : σ'.chunk c = some x' := by rw [hchunk, Function.update_self]
  have hself : σ'.subpage s = some { p with doNotDestroy := false } := by
    rw [hsub, Function.update_self]
  have hother : ∀ r ≠ s, σ'.subpage r = σ.subpage r := fun r hr => by
    rw [hsub, Function.update_of_ne hr]
  have hsame : ∀ r, subBlock σ' r = subBlock σ r := by
    intro r
    cases r with
    | none => rfl
    | some r =>
      by_cases hrs : r = s
      · subst hrs
        simp [subBlock, hself, hp, PoolSubpage.block]
      · simp [subBlock, hother r hrs]
  have hblocks : (heldBlocks σ T c x).Perm ((o, m) :: heldBlocks σ' T c x') := by
    have hset := flatMap_set_uncons (f := subBlock σ) (x := none) (h := (o, m)) hs
      (by simp [subBlock, hp, hblock])
    have hfun : x'.subpages.flatMap (subBlock σ') = x'.subpages.flatMap (subBlock σ) :=
      List.flatMap_congr fun r _ => hsame r
    rw [heldBlocks, heldBlocks, hfun]
    exact (hset.append_left _).trans List.perm_middle
  obtain ⟨hinv, hbytes, hle⟩ := hc.freeRun made f hblocks hr
  refine ⟨hh.update hchunk ?_ rfl ⟨hc.pooled, hc.chunkSize, hc.memorySize, hc.cached, ?_, hinv, hbytes, ?_⟩
    ?_ ?_ ?_ ?_, hle⟩
  · exact fun r q => subpage_update_iff hp hsub hpinv.chunk hpinv.chunk
  · rw [hx', List.length_set]
    exact hc.slots
  · intro o' r hr'
    rw [hslots] at hr'
    split_ifs at hr' with ho
    · cases Option.some.inj hr'
    · obtain ⟨q, hq, hqinv⟩ := hc.subs o' r hr'
      have hrs : r ≠ s := by
        rintro rfl
        exact ho (hh.slot_unique hx hs hr')
      exact ⟨q, (hother r hrs).trans hq, hqinv⟩
  · intro t ht htc
    refine (hh.tokens t ht).mono fun y hy => ⟨x', by rw [htc]; exact hxself, ?_⟩
    intro o' r q hto hr' hq
    rw [htc, hx] at hy
    obtain rfl := Option.some.inj hy
    have hne : o ≠ o' := by
      rintro rfl
      have hmem : t.index ∈ elemsAt T c o :=
        List.mem_map_of_mem (List.mem_filter.mpr ⟨ht, htc ▸ hto⟩)
      rw [hnil] at hmem
      cases hmem
    have hrs : r ≠ s := by
      rintro rfl
      exact hne (hh.slot_unique hx hs hr')
    refine ⟨?_, q, (hother r hrs).trans hq, ⟨rfl, rfl, rfl, rfl, rfl, rfl⟩⟩
    rw [hslots, if_neg hne]
    exact hr'
  · intro r q hq hqd hqc
    by_cases hrs : r = s
    · subst hrs
      obtain rfl := Option.some.inj (hself.symm.trans hq)
      cases hqd
    · rw [hother r hrs] at hq
      have hat := hh.alive_at hx hq hqd hqc
      rw [hslots, if_neg]
      · exact hat
      · rintro rfl
        rw [hs] at hat
        exact hrs (Option.some.inj (Option.some.inj hat)).symm
  · exact fun d hd => hh.chunk_lt hx (hcount ▸ hd)
  · exact fun r hr' => hh.freshSubpage_update hp hsub (hcount' ▸ hr')

end

/-! ### Chunks -/

/-- The fields that the invariant does not read may change. -/
theorem Held.sameChunk (hh : Held k g σ T) (hx : σ.chunk c = some x)
    (hpooled : x'.unpooled = x.unpooled) (hsize : x'.chunkSize = x.chunkSize)
    (hmemory : x'.memorySize = x.memorySize) (hcached : x'.cachedBuffers = x.cachedBuffers) (hruns : x'.runs = x.runs)
    (hsubs : x'.subpages = x.subpages) : Held k g (σ.withChunk c x') T := by
  have hself : (σ.withChunk c x').chunk c = some x' := Function.update_self c _ _
  have hother : ∀ d ≠ c, (σ.withChunk c x').chunk d = σ.chunk d :=
    fun d hd => Function.update_of_ne hd _ _
  refine ⟨fun d y hy hpool => ?_, fun d y hy hun => ?_, fun t ht => ?_, fun s q hq hd => ?_,
    fun d hd => ?_, hh.freshSubpage⟩
  · by_cases hdc : d = c
    · subst hdc
      obtain rfl := Option.some.inj (hself.symm.trans hy)
      have hc := hh.chunks d x hx (hpooled.symm.trans hpool)
      refine ⟨hpool, hsize.trans hc.chunkSize, hmemory.trans hc.memorySize, hcached.trans hc.cached,
        by rw [hsubs]; exact hc.slots, ?_, by rw [hruns]; exact hc.bytes,
        by rw [hsubs]; exact hc.subs⟩
      rw [hruns, heldBlocks, hsubs]
      exact hc.runs
    · rw [hother d hdc] at hy
      exact (hh.chunks d y hy hpool).congr (fun _ _ _ => rfl) (.refl _) fun _ => .refl _
  · by_cases hdc : d = c
    · subst hdc
      obtain rfl := Option.some.inj (hself.symm.trans hy)
      have hu := hh.unpooled d x hx (hpooled.symm.trans hun)
      exact ⟨by rw [hruns]; exact hu.runs, by rw [hsubs]; exact hu.subpages, hu.tokens⟩
    · rw [hother d hdc] at hy
      exact hh.unpooled d y hy hun
  · refine (hh.tokens t ht).mono fun y hy => ?_
    by_cases htc : t.chunk = c
    · rw [htc, hx] at hy
      obtain rfl := Option.some.inj hy
      refine ⟨x', by rw [htc]; exact hself, fun o s q _ hs hq => ?_⟩
      exact ⟨by rw [hsubs]; exact hs, q, hq, ⟨rfl, rfl, rfl, rfl, rfl, rfl⟩⟩
    · exact ⟨y, (hother _ htc).trans hy, fun o s q _ hs hq =>
        ⟨hs, q, hq, ⟨rfl, rfl, rfl, rfl, rfl, rfl⟩⟩⟩
  · by_cases hqc : q.chunk = c
    · refine ⟨x', by rw [hqc]; exact hself, ?_⟩
      rw [hsubs]
      exact hh.alive_at hx hq hd hqc
    · obtain ⟨y, hy, hs⟩ := hh.alive s q hq hd
      exact ⟨y, (hother _ hqc).trans hy, hs⟩
  · obtain ⟨hnone, hdc⟩ := hh.chunk_lt hx hd
    exact (hother d hdc).trans hnone

theorem TokenInv.exists_chunk (ht : TokenInv k σ t) : ∃ x, σ.chunk t.chunk = some x := by
  cases ht with
  | run x o p low i hx => exact ⟨x, hx⟩
  | elem x o p i s q hx => exact ⟨x, hx⟩

theorem Held.newChunk (made : k.sizes.Made g) (hh : Held k g σ T) {runs : Runs}
    (hr : Runs.make k.sizes = .ok runs) (hpooled : x.unpooled = false)
    (hsize : x.chunkSize = k.sizes.chunkSize) (hmemory : x.memorySize = k.sizes.chunkSize)
    (hcached : x.cachedBuffers = []) (hruns : x.runs = runs)
    (hsubs : x.subpages = List.replicate (k.sizes.chunkSize >>> k.sizes.pageShifts) none)
    (hchunk : σ'.chunk = Function.update σ.chunk σ.chunkCount (some x))
    (hsub : σ'.subpage = σ.subpage) (hcount : σ'.chunkCount = σ.chunkCount + 1)
    (hcount' : σ'.subpageCount = σ.subpageCount) : Held k g σ' T := by
  have hfresh := hh.freshChunk σ.chunkCount le_rfl
  have hnone : ∀ t ∈ T, t.chunk ≠ σ.chunkCount := by
    intro t ht htc
    obtain ⟨y, hy⟩ := (hh.tokens t ht).exists_chunk
    rw [htc, hfresh] at hy
    cases hy
  have hslot : ∀ (o : ℕ) s, x.subpages[o]? ≠ some (some s) := by
    intro o s hs
    rw [hsubs] at hs
    cases List.eq_of_mem_replicate (List.mem_of_getElem? hs)
  obtain ⟨runs', h₀, hmk, hinv, havail, hspan, hfree⟩ := Runs.make_spec made
  obtain rfl := Except.ok.inj (hr.symm.trans hmk)
  have hblocks : heldBlocks σ' T σ.chunkCount x = [] := by
    rw [heldBlocks, List.filter_eq_nil_iff.mpr, List.map_nil, List.nil_append,
      List.flatMap_eq_nil_iff]
    · intro r hr
      rw [hsubs] at hr
      rw [List.eq_of_mem_replicate hr]
      rfl
    · intro t ht htc
      exact hnone t ht (of_decide_eq_true htc).1
  have hpages : k.sizes.chunkSize >>> k.sizes.pageShifts = g.pages := by
    have := Runs.rounds_eq made
    unfold Runs.rounds at this
    omega
  refine hh.update hchunk (fun s q _ => by rw [hsub]) rfl
    ⟨hpooled, hsize, hmemory, hcached, by rw [hsubs, List.length_replicate, hpages], ?_, ?_,
      fun o s hs => absurd hs (hslot o s)⟩ ?_ ?_ ?_ ?_
  · rw [hruns, hblocks]
    exact hinv
  · have hpages' : calculateRunPages h₀ = g.pages := by
      rw [(hinv.decode (by rw [havail]; exact List.mem_singleton_self h₀)).2, hspan]
    rw [hruns, hfree, Runs.pageCount, havail, made.pageShifts, g.chunkSize_eq]
    simp [hpages']
  · exact fun t ht htc => absurd htc (hnone t ht)
  · intro s q hq hd hqc
    rw [hsub] at hq
    obtain ⟨y, hy, -⟩ := hh.alive s q hq hd
    rw [hqc, hfresh] at hy
    cases hy
  · intro d hd
    rw [hcount] at hd
    exact ⟨hh.freshChunk d (by omega), by rintro rfl; omega⟩
  · intro s hs
    rw [hcount'] at hs
    rw [hsub]
    exact hh.freshSubpage s hs

theorem ChunkInv.heldBlocks_eq_nil (made : k.sizes.Made g) (hc : ChunkInv k g σ T c x)
    (hu : x.usage = 0) : heldBlocks σ T c x = [] := by
  have hsum := hc.runs.pageCount_eq
  have hcs : x.chunkSize = (g.pages : ℤ) * 2 ^ k.sizes.pageShifts := by
    rw [hc.chunkSize, made.chunkSize, made.pageShifts, g.chunkSize_eq]
    push_cast
    rfl
  have hpos : (0 : ℤ) < 2 ^ k.sizes.pageShifts := by positivity
  have hcspos : 0 < x.chunkSize := by
    have := g.pages_pos
    rw [hcs]
    positivity
  have hcount : 0 ≤ x.runs.pageCount := by
    rw [hc.runs.pageCount_cast]
    exact Int.natCast_nonneg _
  have hfree : 0 ≤ x.runs.freeBytes := by
    rw [hc.bytes]
    positivity
  have hfull : x.chunkSize ≤ x.runs.freeBytes := by
    simp only [PoolChunk.usage] at hu
    rw [Int.tdiv_eq_ediv_of_nonneg (by omega)] at hu
    have hdiv : x.runs.freeBytes * 100 / x.chunkSize = 100 := by
      split_ifs at hu <;> omega
    have hmul := Int.ediv_mul_le (x.runs.freeBytes * 100) hcspos.ne'
    rw [hdiv] at hmul
    omega
  rw [hcs, hc.bytes] at hfull
  have hle : (g.pages : ℤ) ≤ x.runs.pageCount := le_of_mul_le_mul_right hfull hpos
  have hzero : ((heldBlocks σ T c x).map Prod.snd).sum = 0 := by omega
  rw [List.eq_nil_iff_forall_not_mem]
  intro b hb
  have hbpos := hc.runs.tiles.pos b (List.mem_append_right _ hb)
  have hble := List.single_le_sum (fun y _ => Nat.zero_le y) b.2
    (List.mem_map_of_mem (f := Prod.snd) hb)
  omega

theorem Held.unused (made : k.sizes.Made g) (hh : Held k g σ T) (hx : σ.chunk c = some x)
    (hpool : x.unpooled = false) (hu : x.usage = 0) :
    (∀ s, some s ∉ x.subpages) ∧ ∀ t ∈ T, t.chunk ≠ c := by
  have hc := hh.chunks c x hx hpool
  obtain ⟨hruns, hsubs⟩ := List.append_eq_nil_iff.mp (hc.heldBlocks_eq_nil made hu)
  have hslot : ∀ s, some s ∉ x.subpages := by
    intro s hs
    obtain ⟨o, ho⟩ := List.mem_iff_getElem?.mp hs
    obtain ⟨p, hp, -⟩ := hc.subs o s ho
    have := List.flatMap_eq_nil_iff.mp hsubs (some s) hs
    simp [subBlock, hp] at this
  refine ⟨hslot, fun t ht htc => ?_⟩
  cases hh.tokens t ht with
  | run y o p low i hy f =>
    have hmem : t ∈ T.filter (Token.isRunOf c) :=
      List.mem_filter.mpr ⟨ht, by simp [Token.isRunOf, htc, f.decode.2.2.2.1]⟩
    rw [List.map_eq_nil_iff.mp hruns] at hmem
    cases hmem
  | elem y o p i s q hy f hi hs =>
    rw [htc, hx] at hy
    obtain rfl := Option.some.inj hy
    exact hslot s (List.mem_of_getElem? hs)

theorem Held.destroyChunk (hh : Held k g σ T) (hx : σ.chunk c = some x)
    (hslot : ∀ s, some s ∉ x.subpages) (htok : ∀ t ∈ T, t.chunk ≠ c)
    (hchunk : σ'.chunk = Function.update σ.chunk c none)
    (hsub : σ'.subpage = fun s => if some s ∈ x.subpages then none else σ.subpage s)
    (hcount : σ'.chunkCount = σ.chunkCount) (hcount' : σ'.subpageCount = σ.subpageCount) :
    Held k g σ' T := by
  have hsame : σ'.subpage = σ.subpage := by
    rw [hsub]
    funext s
    rw [if_neg (hslot s)]
  have hother : ∀ d ≠ c, σ'.chunk d = σ.chunk d := fun d hd => by
    rw [hchunk, Function.update_of_ne hd]
  have hold : ∀ {d y}, σ'.chunk d = some y → σ.chunk d = some y := by
    intro d y hy
    by_cases hdc : d = c
    · rw [hdc, hchunk, Function.update_self] at hy
      cases hy
    · rwa [hother d hdc] at hy
  refine ⟨fun d y hy hpool => ?_, fun d y hy hun => hh.unpooled d y (hold hy) hun, fun t ht => ?_,
    fun s q hq hd => ?_, fun d hd => ?_, fun s hs => ?_⟩
  · exact (hh.chunks d y (hold hy) hpool).congr (fun _ _ _ => by rw [hsame]) (.refl _)
      fun _ => .refl _
  · refine (hh.tokens t ht).mono fun y hy => ⟨y, (hother _ (htok t ht)).trans hy, ?_⟩
    exact fun o s q _ hs hq => ⟨hs, q, by rw [hsame]; exact hq, ⟨rfl, rfl, rfl, rfl, rfl, rfl⟩⟩
  · rw [hsame] at hq
    obtain ⟨y, hy, hs⟩ := hh.alive s q hq hd
    have hqc : q.chunk ≠ c := by
      intro hqc
      rw [hqc, hx] at hy
      obtain rfl := Option.some.inj hy
      exact hslot s (List.mem_of_getElem? hs)
    exact ⟨y, (hother _ hqc).trans hy, hs⟩
  · rw [hcount] at hd
    by_cases hdc : d = c
    · rw [hdc, hchunk, Function.update_self]
    · rw [hother d hdc]
      exact hh.freshChunk d hd
  · rw [hcount'] at hs
    rw [hsame]
    exact hh.freshSubpage s hs

end Mutty.Buffer
