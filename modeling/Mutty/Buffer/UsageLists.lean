import Mutty.Buffer.ArenaOps

/-!
# The usage lists of an arena

A chunk is on the list of its parent, linked to the chunks before and after it, and its free bytes
are within the window of the list. `Listed` says so about the links alone, for any set of members;
`Placed` is the same for the pooled chunks of a pool, with exceptions, since a chunk is on no list
while it is moved. The lists a chunk is moved through are those whose windows do not have it, and
the windows overlap, so that there is always one that does.
-/

namespace Mutty.Buffer

open Mutty.Lib Prog

/-! ### Links -/

namespace ChunkLinks

variable {links links' : ChunkId → ChunkLinks} {head : Option ChunkId} {l : ListKind}
  {cs : List ChunkId} {c d : ChunkId}

def unlinked (links : ChunkId → ChunkLinks) (c d : ChunkId) : ChunkLinks where
  prev := if (links c).next = some d then (links c).prev else (links d).prev
  next := if (links c).prev = some d then (links c).next else (links d).next
  parent := (links d).parent

def pushed (links : ChunkId → ChunkLinks) (head : Option ChunkId) (l : ListKind) (c d : ChunkId) :
    ChunkLinks :=
  if d = c then { prev := none, next := head, parent := some l }
  else { links d with prev := if head = some d then some c else (links d).prev }

/-- The chunks `cs` are on list `l`, from its head on. -/
structure IsList (links : ChunkId → ChunkLinks) (head : Option ChunkId) (l : ListKind)
    (cs : List ChunkId) : Prop where
  nodup : cs.Nodup
  chain : Chain (fun c => (links c).prev) (fun c => (links c).next) none cs none
  first : head = cs.head?
  parent : ∀ c ∈ cs, (links c).parent = some l

namespace IsList

theorem congr (h : IsList links head l cs) (hlinks : ∀ c ∈ cs, links' c = links c) :
    IsList links' head l cs where
  nodup := h.nodup
  chain := h.chain.congr (fun c hc => by simp only [hlinks c hc]) fun c hc => by simp only [hlinks c hc]
  first := h.first
  parent c hc := by
    rw [hlinks c hc]
    exact h.parent c hc

/-- The neighbours of a chunk are on the same list, and it has one before it unless it is the head. -/
theorem neighbours (h : IsList links head l cs) (hc : c ∈ cs) :
    ((links c).prev = none ↔ head = some c) ∧ (∀ d, (links c).prev = some d → d ∈ cs) ∧
      ∀ d, (links c).next = some d → d ∈ cs := by
  obtain ⟨ys, zs, rfl⟩ := List.append_of_mem hc
  obtain ⟨hp, hn⟩ := h.chain.links
  simp only [Option.or_none] at hp hn
  refine ⟨?_, fun d hd => ?_, fun d hd => ?_⟩
  · rw [hp, h.first, List.getLast?_eq_none_iff]
    constructor
    · rintro rfl
      rfl
    · intro hhead
      cases ys with
      | nil => rfl
      | cons y ys =>
        obtain rfl : y = c := Option.some.inj hhead
        exact absurd (List.mem_append_right ys List.mem_cons_self) (List.nodup_cons.mp h.nodup).1
  · exact List.mem_append_left _ (List.mem_of_getLast? (hp.symm.trans hd))
  · exact List.mem_append_right _ (List.mem_cons_of_mem _ (List.mem_of_head? (hn.symm.trans hd)))

theorem erase (h : IsList links head l cs) (hc : c ∈ cs) :
    IsList (unlinked links c) (if head = some c then (links c).next else head) l (cs.erase c) := by
  obtain ⟨ys, zs, rfl⟩ := List.append_of_mem hc
  obtain ⟨hp, hn⟩ := h.chain.links
  obtain ⟨-, -, hdisj⟩ := List.nodup_append.mp h.nodup
  have hys : c ∉ ys := fun hmem => hdisj c hmem c List.mem_cons_self rfl
  rw [List.erase_append_right _ hys, List.erase_cons_head]
  refine ⟨?_, ?_, ?_, ?_⟩
  · exact h.nodup.sublist ((List.sublist_cons_self c zs).append_left ys)
  · refine h.chain.erase h.nodup ?_ ?_ (fun _ _ => rfl) fun _ _ => rfl
    · intro x _ hx
      cases hx
    · intro x _ hx
      cases hx
  · cases ys with
    | nil =>
      have hhead : head = some c := h.first
      rw [if_pos hhead, hn, Option.or_none, List.nil_append]
    | cons y ys =>
      rw [if_neg, h.first]
      · rfl
      · rw [h.first]
        intro hhead
        exact hys (Option.some.inj hhead ▸ List.mem_cons_self)
  · intro d hd
    refine h.parent d ?_
    rcases List.mem_append.mp hd with hd | hd
    · exact List.mem_append_left _ hd
    · exact List.mem_append_right _ (List.mem_cons_of_mem _ hd)

theorem push (h : IsList links head l cs) (hc : c ∉ cs) :
    IsList (pushed links head l c) (some c) l (c :: cs) := by
  have hne : ∀ d ∈ cs, d ≠ c := by
    rintro d hd rfl
    exact hc hd
  refine ⟨List.nodup_cons.mpr ⟨hc, h.nodup⟩, ?_, rfl, fun d hd => ?_⟩
  · refine h.chain.push h.nodup ?_ ?_ (fun d hd => ?_) fun d hd => ?_
    · simp only [pushed, if_pos]
    · simp only [pushed, if_pos, h.first, Option.or_none]
    · simp only [pushed, if_neg (hne d hd), h.first, Option.or_none]
    · simp only [pushed, if_neg (hne d hd)]
  · rcases List.mem_cons.mp hd with rfl | hd
    · simp only [pushed, if_pos]
    · simp only [pushed, if_neg (hne d hd)]
      exact h.parent d hd

end IsList

end ChunkLinks

open ChunkLinks

/-- Each usage list of every arena has exactly the chunks in `U`. -/
structure Listed (links : ChunkId → ChunkLinks) (listHead : ArenaId → ListKind → Option ChunkId)
    (U : ArenaId → ListKind → ChunkId → Prop) : Prop where
  list : ∀ a l, ∃ cs, IsList links (listHead a l) l cs ∧ ∀ c, c ∈ cs ↔ U a l c
  one : ∀ a l a' l' c, U a l c → U a' l' c → a' = a ∧ l' = l

def withHead (listHead : ArenaId → ListKind → Option ChunkId) (a : ArenaId) (l : ListKind)
    (head : Option ChunkId) : ArenaId → ListKind → Option ChunkId :=
  Function.update listHead a (Function.update (listHead a) l head)

theorem withHead_self {listHead : ArenaId → ListKind → Option ChunkId} {a : ArenaId} {l : ListKind}
    {head : Option ChunkId} : withHead listHead a l head a l = head := by
  rw [withHead, Function.update_self, Function.update_self]

theorem withHead_of_ne {listHead : ArenaId → ListKind → Option ChunkId} {a a' : ArenaId}
    {l l' : ListKind} {head : Option ChunkId} (h : ¬ (a' = a ∧ l' = l)) :
    withHead listHead a l head a' l' = listHead a' l' := by
  by_cases ha : a' = a
  · subst ha
    rw [withHead, Function.update_self, Function.update_of_ne fun hl => h ⟨rfl, hl⟩]
  · rw [withHead, Function.update_of_ne ha]

namespace Listed

variable {links links' : ChunkId → ChunkLinks} {listHead : ArenaId → ListKind → Option ChunkId}
  {U V : ArenaId → ListKind → ChunkId → Prop} {a : ArenaId} {l : ListKind} {c : ChunkId}

theorem of_iff (h : Listed links listHead U) (hV : ∀ a l c, V a l c ↔ U a l c)
    (hlinks : ∀ a l c, U a l c → links' c = links c) : Listed links' listHead V where
  list a l := by
    obtain ⟨cs, hlist, hcs⟩ := h.list a l
    exact ⟨cs, hlist.congr fun c hc => hlinks a l c ((hcs c).mp hc), fun c =>
      (hcs c).trans (hV a l c).symm⟩
  one a l a' l' c hc hc' := h.one a l a' l' c ((hV a l c).mp hc) ((hV a' l' c).mp hc')

theorem erase (h : Listed links listHead U) (hc : U a l c) :
    Listed (unlinked links c) (withHead listHead a l
      (if listHead a l = some c then (links c).next else listHead a l))
      (fun a' l' d => U a' l' d ∧ d ≠ c) where
  list a' l' := by
    obtain ⟨cs, hlist, hcs⟩ := h.list a l
    by_cases hat : a' = a ∧ l' = l
    · obtain ⟨rfl, rfl⟩ := hat
      refine ⟨cs.erase c, ?_, fun d => ?_⟩
      · rw [withHead_self]
        exact hlist.erase ((hcs c).mpr hc)
      · rw [hlist.nodup.mem_erase_iff, hcs]
        exact and_comm
    · -- the chunks of another list are no neighbours of `c`
      obtain ⟨ds, hlist', hds⟩ := h.list a' l'
      obtain ⟨-, hprev, hnext⟩ := hlist.neighbours ((hcs c).mpr hc)
      have haway : ∀ d ∈ ds, d ∉ cs := fun d hd hd' =>
        hat (h.one a l a' l' d ((hcs d).mp hd') ((hds d).mp hd))
      refine ⟨ds, ?_, fun d => ?_⟩
      · rw [withHead_of_ne hat]
        refine hlist'.congr fun d hd => ?_
        rw [unlinked, if_neg fun heq => haway d hd (hnext d heq),
          if_neg fun heq => haway d hd (hprev d heq)]
      · rw [hds]
        refine (and_iff_left_of_imp fun hd => ?_).symm
        rintro rfl
        exact hat (h.one a l a' l' d hc hd)
  one a l a' l' d hd hd' := h.one a l a' l' d hd.1 hd'.1

theorem push (h : Listed links listHead U) (hc : ∀ a l, ¬ U a l c) (a : ArenaId) (l : ListKind) :
    Listed (pushed links (listHead a l) l c) (withHead listHead a l (some c))
      (fun a' l' d => U a' l' d ∨ a' = a ∧ l' = l ∧ d = c) where
  list a' l' := by
    obtain ⟨cs, hlist, hcs⟩ := h.list a l
    by_cases hat : a' = a ∧ l' = l
    · obtain ⟨rfl, rfl⟩ := hat
      refine ⟨c :: cs, ?_, fun d => ?_⟩
      · rw [withHead_self]
        exact hlist.push fun hmem => hc a' l' ((hcs c).mp hmem)
      · rw [List.mem_cons, hcs]
        simp only [true_and]
        exact or_comm
    · obtain ⟨ds, hlist', hds⟩ := h.list a' l'
      refine ⟨ds, ?_, fun d => ?_⟩
      · rw [withHead_of_ne hat]
        refine hlist'.congr fun d hd => ?_
        have hdc : d ≠ c := by
          rintro rfl
          exact hc a' l' ((hds d).mp hd)
        have hhead : listHead a l ≠ some d := by
          intro heq
          rw [hlist.first] at heq
          exact hat (h.one a l a' l' d ((hcs d).mp (List.mem_of_head? heq)) ((hds d).mp hd))
        rw [pushed, if_neg hdc, if_neg hhead]
      · rw [hds]
        exact (or_iff_left fun hnew => hat ⟨hnew.1, hnew.2.1⟩).symm
  one := by
    rintro a₁ l₁ a₂ l₂ d (hd₁ | ⟨rfl, rfl, heq₁⟩) (hd₂ | ⟨rfl, rfl, heq₂⟩)
    · exact h.one a₁ l₁ a₂ l₂ d hd₁ hd₂
    · exact absurd (heq₂ ▸ hd₁) (hc a₁ l₁)
    · exact absurd (heq₁ ▸ hd₂) (hc a₂ l₂)
    · exact ⟨rfl, rfl⟩

end Listed

/-! ### The code for one list -/

variable {k : Config} {g : Geometry} {σ σ' : Pool} {T : List Token} {c d : ChunkId} {x : PoolChunk}
  {a : ArenaId} {l : ListKind} {U : ArenaId → ListKind → ChunkId → Prop}

def Pool.withList (σ : Pool) (links : ChunkId → ChunkLinks) (a : ArenaId) (l : ListKind)
    (head : Option ChunkId) : Pool :=
  { σ with chunkLinks := links, listHead := withHead σ.listHead a l head }

theorem Pool.withList_onLists {links : ChunkId → ChunkLinks} {head : Option ChunkId} :
    OnLists σ (σ.withList links a l head) := ⟨_, _, rfl⟩

theorem getLinks_eq (hx : σ.chunk c = some x) :
    PoolChunkList.getLinks c σ = .ok (σ.chunkLinks c, σ) := by
  rw [PoolChunkList.getLinks, run_bind (getChunk_eq hx)]
  rfl

theorem modifyLinks_eq (hx : σ.chunk c = some x) (f : ChunkLinks → ChunkLinks) :
    PoolChunkList.modifyLinks c f σ =
      .ok ((), { σ with chunkLinks := Function.update σ.chunkLinks c (f (σ.chunkLinks c)) }) := by
  rw [PoolChunkList.modifyLinks, run_bind (getChunk_eq hx)]
  rfl

theorem setHead_eq (head : Option ChunkId) :
    PoolChunkList.setHead a l head σ = .ok ((), σ.withList σ.chunkLinks a l head) := rfl

theorem remove_eq (hx : σ.chunk c = some x)
    (hfirst : (σ.chunkLinks c).prev = none ↔ σ.listHead a l = some c)
    (hprev : ∀ d, (σ.chunkLinks c).prev = some d → ∃ y, σ.chunk d = some y)
    (hnext : ∀ d, (σ.chunkLinks c).next = some d → ∃ y, σ.chunk d = some y) :
    PoolChunkList.remove a l c σ = .ok ((), σ.withList (unlinked σ.chunkLinks c) a l
      (if σ.listHead a l = some c then (σ.chunkLinks c).next else σ.listHead a l)) := by
  have hlook : (look fun σ => σ.listHead a l : PoolM (Option ChunkId)) σ = .ok (σ.listHead a l, σ) := rfl
  rw [PoolChunkList.remove, run_bind hlook, run_bind (getLinks_eq hx)]
  by_cases hhead : σ.listHead a l = some c
  · have hnone := hfirst.mpr hhead
    rw [if_pos hhead, if_pos hhead, run_bind (setHead_eq _)]
    cases hn : (σ.chunkLinks c).next with
    | none =>
      have hsame : unlinked σ.chunkLinks c = σ.chunkLinks := by
        funext d
        simp only [unlinked, hn, hnone, reduceCtorEq, if_false]
      rw [hsame]
      rfl
    | some n =>
      obtain ⟨y, hy⟩ := hnext n hn
      have hlinks : unlinked σ.chunkLinks c =
          Function.update σ.chunkLinks n { σ.chunkLinks n with prev := none } := by
        funext d
        rw [Function.update_apply]
        simp only [unlinked, hn, hnone, Option.some.injEq, reduceCtorEq, if_false, eq_comm (a := n)]
        split_ifs with hd
        · rw [hd]
        · rfl
      have hy' : (σ.withList σ.chunkLinks a l (some n)).chunk n = some y := hy
      simp only
      rw [modifyLinks_eq hy', hlinks]
      rfl
  · rw [if_neg hhead, if_neg hhead]
    have hkeep : withHead σ.listHead a l (σ.listHead a l) = σ.listHead := by
      rw [withHead, Function.update_eq_self, Function.update_eq_self]
    cases hp : (σ.chunkLinks c).prev with
    | none => exact absurd (hfirst.mp hp) hhead
    | some p =>
      obtain ⟨y, hy⟩ := hprev p hp
      simp only
      rw [run_bind (modifyLinks_eq hy _)]
      cases hn : (σ.chunkLinks c).next with
      | none =>
        have hlinks : unlinked σ.chunkLinks c =
            Function.update σ.chunkLinks p { σ.chunkLinks p with next := none } := by
          funext d
          rw [Function.update_apply]
          simp only [unlinked, hn, hp, Option.some.injEq, reduceCtorEq, if_false, eq_comm (a := p)]
          split_ifs with hd
          · rw [hd]
          · rfl
        rw [hlinks, Pool.withList, hkeep]
        rfl
      | some n =>
        obtain ⟨z, hz⟩ := hnext n hn
        set links₁ := Function.update σ.chunkLinks p { σ.chunkLinks p with next := some n } with hlinks₁
        have hlinks : unlinked σ.chunkLinks c =
            Function.update links₁ n { links₁ n with prev := some p } := by
          funext d
          simp only [hlinks₁, Function.update_apply, unlinked, hn, hp, Option.some.injEq,
            eq_comm (a := p) (b := d), eq_comm (a := n) (b := d)]
          split_ifs <;> simp_all
        have hz' : ({ σ with chunkLinks := links₁ } : Pool).chunk n = some z := hz
        simp only
        rw [modifyLinks_eq hz', hlinks, Pool.withList, hkeep]

theorem add0_eq (hx : σ.chunk c = some x) (hhead : ∀ d, σ.listHead a l = some d → d ≠ c ∧
      ∃ y, σ.chunk d = some y) :
    PoolChunkList.add0 a l c σ =
      .ok ((), σ.withList (pushed σ.chunkLinks (σ.listHead a l) l c) a l (some c)) := by
  have hlook : (look fun σ => σ.listHead a l : PoolM (Option ChunkId)) σ = .ok (σ.listHead a l, σ) := rfl
  rw [PoolChunkList.add0, run_bind hlook]
  cases hh : σ.listHead a l with
  | none =>
    have hlinks : pushed σ.chunkLinks none l c =
        Function.update σ.chunkLinks c { prev := none, next := none, parent := some l } := by
      funext d
      rw [Function.update_apply, pushed]
      simp only [reduceCtorEq, if_false]
    simp only
    rw [run_bind (modifyLinks_eq hx _), hlinks]
    rfl
  | some d =>
    obtain ⟨hdc, y, hy⟩ := hhead d hh
    set links₁ := Function.update σ.chunkLinks c { prev := none, next := some d, parent := some l }
      with hlinks₁
    have hlinks : pushed σ.chunkLinks (some d) l c =
        Function.update links₁ d { links₁ d with prev := some c } := by
      funext e
      simp only [hlinks₁, Function.update_apply, pushed, Option.some.injEq, eq_comm (a := d)]
      split_ifs <;> simp_all
    have hy' : ({ σ with chunkLinks := links₁ } : Pool).chunk d = some y := hy
    simp only
    rw [run_bind (modifyLinks_eq hx _), run_bind (modifyLinks_eq hy' _), hlinks]
    rfl

/-! ### Chunks on their lists -/

/-- A pooled chunk of arena `a` whose parent is list `l`. -/
def BelongsTo (σ : Pool) (a : ArenaId) (l : ListKind) (c : ChunkId) : Prop :=
  ∃ x, σ.chunk c = some x ∧ x.unpooled = false ∧ x.arena = a ∧ (σ.chunkLinks c).parent = some l

def Window (k : Config) (l : ListKind) (freeBytes : ℤ) : Prop :=
  k.freeMinThreshold l < freeBytes ∧ freeBytes ≤ k.freeMaxThreshold l

/-- The pooled chunks in `L` are on the list of their parent, and those in `W` within its window. -/
structure Placed (k : Config) (L W : ChunkId → Prop) (σ : Pool) : Prop where
  listed : Listed σ.chunkLinks σ.listHead fun a l c => L c ∧ BelongsTo σ a l c
  window : ∀ c x, W c → σ.chunk c = some x → x.unpooled = false →
    ∃ l, (σ.chunkLinks c).parent = some l ∧ Window k l x.runs.freeBytes

def Resident (k : Config) (σ : Pool) : Prop := Placed k (fun _ => True) (fun _ => True) σ

/-- Every pooled chunk but `c`, which is on no list. -/
def Moving (k : Config) (c : ChunkId) (σ : Pool) : Prop := Placed k (· ≠ c) (· ≠ c) σ

variable {L W W' : ChunkId → Prop}

theorem belongsTo_congr (hlinks : (σ'.chunkLinks c).parent = (σ.chunkLinks c).parent)
    (hchunk : (σ'.chunk c).map (fun x => (x.unpooled, x.arena)) =
      (σ.chunk c).map fun x => (x.unpooled, x.arena)) :
    BelongsTo σ' a l c ↔ BelongsTo σ a l c := by
  have hiff : ∀ σ : Pool, BelongsTo σ a l c ↔
      (σ.chunk c).map (fun x => (x.unpooled, x.arena)) = some (false, a) ∧
        (σ.chunkLinks c).parent = some l := by
    intro σ
    simp only [BelongsTo, Option.map_eq_some_iff, Prod.mk.injEq]
    constructor
    · rintro ⟨x, hx, hpool, ha, hl⟩
      exact ⟨⟨x, hx, hpool, ha⟩, hl⟩
    · rintro ⟨⟨x, hx, hpool, ha⟩, hl⟩
      exact ⟨x, hx, hpool, ha, hl⟩
  rw [hiff, hiff, hlinks, hchunk]

/-- A chunk that hands out memory or gets some back may leave its window. -/
theorem Placed.works {R : ℤ → ℤ → Prop} (h : Placed k L W σ) (hw : Works R c σ σ')
    (hW : ∀ d, W' d → W d ∧ d ≠ c) : Placed k L W' σ' where
  listed := by
    rw [hw.chunkLinks, hw.listHead]
    refine h.listed.of_iff (fun a l d => and_congr_right fun _ => belongsTo_congr ?_ ?_) fun _ _ _ _ => rfl
    · rw [hw.chunkLinks]
    · by_cases hd : d = c
      · subst hd
        obtain ⟨x, y, hx, hy, ha, hu, -⟩ := hw.chunk
        rw [hx, hy, Option.map_some, Option.map_some, ha, hu]
      · rw [hw.others d hd]
  window d y hd hy hpool := by
    obtain ⟨hWd, hdc⟩ := hW d hd
    rw [hw.others d hdc] at hy
    rw [hw.chunkLinks]
    exact h.window d y hWd hy hpool

theorem Placed.settle (h : Placed k L (· ≠ c) σ) (hx : σ.chunk c = some x)
    (hl : (σ.chunkLinks c).parent = some l) (hwin : Window k l x.runs.freeBytes) :
    Placed k L (fun _ => True) σ where
  listed := h.listed
  window d y _ hy hpool := by
    by_cases hd : d = c
    · subst hd
      obtain rfl : x = y := Option.some.inj (hx.symm.trans hy)
      exact ⟨l, hl, hwin⟩
    · exact h.window d y hd hy hpool

theorem Placed.remove (h : Placed k (fun _ => True) (· ≠ c) σ) (hx : σ.chunk c = some x)
    (hpool : x.unpooled = false) (hl : (σ.chunkLinks c).parent = some l) :
    ∃ σ₁, PoolChunkList.remove x.arena l c σ = .ok ((), σ₁) ∧ OnLists σ σ₁ ∧ Moving k c σ₁ := by
  have hc : True ∧ BelongsTo σ x.arena l c := ⟨trivial, x, hx, hpool, rfl, hl⟩
  obtain ⟨cs, hlist, hcs⟩ := h.listed.list x.arena l
  obtain ⟨hfirst, hprev, hnext⟩ := hlist.neighbours ((hcs c).mpr hc)
  have hthere : ∀ d ∈ cs, ∃ y, σ.chunk d = some y := fun d hd => by
    obtain ⟨-, y, hy, -⟩ := (hcs d).mp hd
    exact ⟨y, hy⟩
  refine ⟨_, remove_eq hx hfirst (fun d hd => hthere d (hprev d hd)) fun d hd => hthere d (hnext d hd),
    Pool.withList_onLists, ?_, h.window⟩
  refine (h.listed.erase hc).of_iff (fun a l d => ?_) fun _ _ _ _ => rfl
  rw [true_and, and_comm]
  rfl

theorem Moving.add0 (h : Moving k c σ) (hx : σ.chunk c = some x) (hpool : x.unpooled = false)
    (hwin : Window k l x.runs.freeBytes) :
    ∃ σ₁, PoolChunkList.add0 x.arena l c σ = .ok ((), σ₁) ∧ OnLists σ σ₁ ∧ Resident k σ₁ := by
  have hhead : ∀ d, σ.listHead x.arena l = some d → d ≠ c ∧ ∃ y, σ.chunk d = some y := by
    intro d hd
    obtain ⟨cs, hlist, hcs⟩ := h.listed.list x.arena l
    rw [hlist.first] at hd
    obtain ⟨hdc, y, hy, -⟩ := (hcs d).mp (List.mem_of_head? hd)
    exact ⟨hdc, y, hy⟩
  have hself : pushed σ.chunkLinks (σ.listHead x.arena l) l c c =
      { prev := none, next := σ.listHead x.arena l, parent := some l } := if_pos rfl
  have hother : ∀ d ≠ c, (pushed σ.chunkLinks (σ.listHead x.arena l) l c d).parent =
      (σ.chunkLinks d).parent := fun d hd => by rw [pushed, if_neg hd]
  refine ⟨_, add0_eq hx hhead, Pool.withList_onLists, ?_, fun d y _ hy hpool' => ?_⟩
  · refine (h.listed.push (fun a' l' hmem => hmem.1 rfl) x.arena l).of_iff (fun a' l' d => ?_)
      fun _ _ _ _ => rfl
    rw [true_and]
    by_cases hd : d = c
    · subst hd
      simp only [ne_eq, not_true_eq_false, false_and, false_or, and_true]
      constructor
      · rintro ⟨y, hy, -, ha, hl'⟩
        obtain rfl : x = y := Option.some.inj (hx.symm.trans hy)
        have hl'' := congrArg ChunkLinks.parent hself
        exact ⟨ha.symm, Option.some.inj (hl'.symm.trans hl'')⟩
      · rintro ⟨rfl, rfl⟩
        exact ⟨x, hx, hpool, rfl, congrArg ChunkLinks.parent hself⟩
    · simp only [ne_eq, hd, not_false_eq_true, true_and, and_false, or_false]
      exact belongsTo_congr (hother d hd) rfl
  · by_cases hd : d = c
    · subst hd
      obtain rfl : x = y := Option.some.inj (hx.symm.trans hy)
      exact ⟨l, congrArg ChunkLinks.parent hself, hwin⟩
    · obtain ⟨l', hl', hwin'⟩ := h.window d y hd hy hpool'
      exact ⟨l', (hother d hd).trans hl', hwin'⟩

/-! ### Moves between the lists -/

def ListKind.rank : ListKind → ℕ
  | qInit => 0
  | q000 => 1
  | q025 => 2
  | q050 => 3
  | q075 => 4
  | q100 => 5

theorem ListKind.rank_next {l l' : ListKind} (h : l.nextList = some l') : l'.rank = l.rank + 1 := by
  cases l <;> cases h <;> rfl

theorem ListKind.rank_prev {l l' : ListKind} (h : l.prevList = some l') (hl : l ≠ .qInit) :
    l.rank = l'.rank + 1 := by
  cases l <;> cases h <;> first | rfl | exact absurd rfl hl

/-- The windows of neighbouring lists overlap, the first is open above and the last below, and a
chunk that has become too empty for a list is not too full for the one before. -/
structure Windows (k : Config) : Prop where
  next : ∀ l l', l.nextList = some l' → k.freeMinThreshold l ≤ k.freeMaxThreshold l'
  prev : ∀ l l', l.prevList = some l' → k.freeMinThreshold l' ≤ k.freeMaxThreshold l
  first : k.sizes.chunkSize ≤ k.freeMaxThreshold .qInit
  last : k.freeMinThreshold .q100 < 0
  emptied : k.sizes.chunkSize ≤ k.freeMaxThreshold .q000 + 1
  usage : ∀ l l', l.prevList = some l' → ∀ x : PoolChunk, x.chunkSize = k.sizes.chunkSize →
    k.freeMaxThreshold l < x.runs.freeBytes → x.runs.freeBytes ≤ k.sizes.chunkSize →
    x.usage < l'.maxUsage

structure Movable (k : Config) (σ : Pool) (c : ChunkId) (x : PoolChunk) : Prop where
  chunk : σ.chunk c = some x
  pooled : x.unpooled = false
  chunkSize : x.chunkSize = k.sizes.chunkSize
  nonneg : 0 ≤ x.runs.freeBytes
  le : x.runs.freeBytes ≤ k.sizes.chunkSize
  pos : 0 < x.chunkSize

theorem Movable.of_onLists (h : Movable k σ c x) (ho : OnLists σ σ') : Movable k σ' c x :=
  { h with chunk := by rw [ho.sameStore.chunk]; exact h.chunk }

theorem usage_eq_zero (hpos : 0 < x.chunkSize) (hfree : x.runs.freeBytes = x.chunkSize) :
    x.usage = 0 := by
  have hdiv : Int.tdiv (x.chunkSize * 100) x.chunkSize = 100 := by
    rw [mul_comm]
    exact Int.mul_tdiv_cancel 100 hpos.ne'
  simp only [PoolChunk.usage, hfree, hdiv, if_neg hpos.ne']
  norm_num

/-- `add` goes up the lists and finds one. -/
theorem Moving.addFrom (hw : Windows k) (h : Moving k c σ) (hx : Movable k σ c x) (n : ℕ)
    (hl : x.runs.freeBytes ≤ k.freeMaxThreshold l) (hn : 6 ≤ n + l.rank) :
    ∃ σ₁, PoolChunkList.addFrom k x.arena c n l σ = .ok ((), σ₁) ∧ OnLists σ σ₁ ∧
      Resident k σ₁ := by
  induction n generalizing l with
  | zero =>
    exfalso
    cases l <;> simp [ListKind.rank] at hn
  | succ n ih =>
    rw [PoolChunkList.addFrom, run_bind (getChunk_eq hx.chunk)]
    by_cases hfull : x.runs.freeBytes ≤ k.freeMinThreshold l
    · rw [if_pos hfull]
      cases hnext : l.nextList with
      | none =>
        obtain rfl : l = .q100 := by cases l <;> first | rfl | cases hnext
        exact absurd (hx.nonneg.trans hfull) (not_le.mpr hw.last)
      | some next =>
        have hrank := ListKind.rank_next hnext
        exact ih (hfull.trans (hw.next l next hnext)) (by omega)
    · rw [if_neg hfull]
      exact h.add0 hx.chunk hx.pooled ⟨not_le.mp hfull, hl⟩

/-- `move0` goes down the lists until one has the chunk, or it is empty. -/
theorem Moving.move0 (hw : Windows k) (h : Moving k c σ) (hx : Movable k σ c x) (n : ℕ)
    (hl : k.freeMaxThreshold l < x.runs.freeBytes) (hn : l.rank ≤ n) :
    ∃ kept σ₁, PoolChunkList.move0 k x.arena c n l σ = .ok (kept, σ₁) ∧ OnLists σ σ₁ ∧
      (kept = true ∧ Resident k σ₁ ∨ kept = false ∧ σ₁ = σ) := by
  have hinit : l ≠ .qInit := by
    rintro rfl
    exact absurd (hl.trans_le (hx.le.trans hw.first)) (lt_irrefl _)
  induction n generalizing l with
  | zero => cases l <;> simp_all [ListKind.rank]
  | succ n ih =>
    rw [PoolChunkList.move0]
    cases hprev : l.prevList with
    | none =>
      obtain rfl : l = .q000 := by cases l <;> first | rfl | cases hprev
      have hempty : x.usage = 0 := by
        have := hw.emptied
        have := hx.le
        refine usage_eq_zero hx.pos ?_
        rw [hx.chunkSize]
        omega
      have hassert : (assert (x.usage = 0) : PoolM Unit) σ = .ok ((), σ) := assert_ok.mpr ⟨hempty, rfl⟩
      simp only
      rw [run_bind (getChunk_eq hx.chunk), run_bind hassert]
      exact ⟨false, σ, rfl, refl_of OnLists σ, .inr ⟨rfl, rfl⟩⟩
    | some prev =>
      have hassert : (assert (x.usage < prev.maxUsage) : PoolM Unit) σ = .ok ((), σ) :=
        assert_ok.mpr ⟨hw.usage l prev hprev x hx.chunkSize hl hx.le, rfl⟩
      simp only
      rw [PoolChunkList.move, run_bind (getChunk_eq hx.chunk), run_bind hassert]
      by_cases hmore : x.runs.freeBytes > k.freeMaxThreshold prev
      · rw [if_pos hmore]
        have hrank := ListKind.rank_prev hprev hinit
        refine ih hmore (by omega) ?_
        rintro rfl
        exact absurd (hmore.lt.trans_le (hx.le.trans hw.first)) (lt_irrefl _)
      · rw [if_neg hmore]
        obtain ⟨σ₁, hadd, ho, hres⟩ := h.add0 hx.chunk hx.pooled
          ⟨(hw.prev l prev hprev).trans_lt hl, not_lt.mp hmore⟩
        rw [run_bind hadd]
        exact ⟨true, σ₁, rfl, ho, .inl ⟨rfl, hres⟩⟩

theorem Placed.leave (hw : Windows k) (h : Placed k (fun _ => True) (· ≠ c) σ)
    (hx : Movable k σ c x) (hl : (σ.chunkLinks c).parent = some l)
    (hle : x.runs.freeBytes ≤ k.freeMaxThreshold l) :
    ∃ σ₁, (when (x.runs.freeBytes ≤ k.freeMinThreshold l) do
        PoolChunkList.remove x.arena l c
        match l.nextList with
        | none => fail .null
        | some next => PoolChunkList.add k x.arena next c : PoolM Unit) σ = .ok ((), σ₁) ∧
      Resident k σ₁ := by
  by_cases hfull : x.runs.freeBytes ≤ k.freeMinThreshold l
  · rw [when, if_pos hfull]
    obtain ⟨σ₁, hrem, ho, hmov⟩ := h.remove hx.chunk hx.pooled hl
    rw [run_bind hrem]
    cases hnext : l.nextList with
    | none =>
      obtain rfl : l = .q100 := by cases l <;> first | rfl | cases hnext
      exact absurd (hx.nonneg.trans hfull) (not_le.mpr hw.last)
    | some next =>
      obtain ⟨σ₂, hadd, -, hres⟩ := hmov.addFrom hw (hx.of_onLists ho) 6
        (hfull.trans (hw.next l next hnext)) (Nat.le_add_right _ _)
      exact ⟨σ₂, hadd, hres⟩
  · rw [when, if_neg hfull]
    exact ⟨σ, rfl, h.settle hx.chunk hl ⟨not_le.mp hfull, hle⟩⟩

/-! ### Windows of exact thresholds -/

theorem exactThreshold_eq {chunkSize usage : ℤ} (h : 0 ≤ chunkSize) (hu : usage < 100) :
    ListKind.exactThreshold chunkSize usage =
      chunkSize * (10 ^ 10 - usage * 10 ^ 8 + 99999999) / 10 ^ 10 := by
  rw [ListKind.exactThreshold, if_neg hu.ne, Int.tdiv_eq_ediv_of_nonneg]
  exact mul_nonneg h (by omega)

theorem ListKind.exactThreshold_minUsage {chunkSize : ℤ} (h : 0 ≤ chunkSize) (l : ListKind) :
    exactThreshold chunkSize l.minUsage =
      match l with
      | .qInit => chunkSize * 829299999999 / 10000000000
      | .q000 => chunkSize * 9999999999 / 10000000000
      | .q025 => chunkSize * 7599999999 / 10000000000
      | .q050 => chunkSize * 5099999999 / 10000000000
      | .q075 => chunkSize * 2599999999 / 10000000000
      | .q100 => 0 := by
  cases l with
  | q100 => rfl
  | _ =>
    rw [exactThreshold_eq h (by decide)]
    rfl

theorem ListKind.exactThreshold_maxUsage {chunkSize : ℤ} (h : 0 ≤ chunkSize) (l : ListKind) :
    exactThreshold chunkSize l.maxUsage =
      match l with
      | .qInit => chunkSize * 7599999999 / 10000000000
      | .q000 => chunkSize * 5099999999 / 10000000000
      | .q025 => chunkSize * 2599999999 / 10000000000
      | .q050 => 0
      | .q075 => 0
      | .q100 => -(chunkSize * 809100000001 / 10000000000) := by
  cases l with
  | q050 => rfl
  | q075 => rfl
  | q100 =>
    have hneg : chunkSize * (10 ^ 10 - 8192 * 10 ^ 8 + 99999999) = -(chunkSize * 809100000001) := by ring
    rw [exactThreshold, if_neg (by decide)]
    change Int.tdiv (chunkSize * (10 ^ 10 - 8192 * 10 ^ 8 + 99999999)) _ = _
    rw [hneg, Int.neg_tdiv, Int.tdiv_eq_ediv_of_nonneg (by positivity)]
    rfl
  | _ =>
    rw [exactThreshold_eq h (by decide)]
    rfl

theorem usage_le {u : ℤ} (hpos : 0 < x.chunkSize) (hu : u < 100)
    (h : (100 - u) * x.chunkSize ≤ x.runs.freeBytes * 100) : x.usage ≤ u := by
  have hfree : 0 < x.runs.freeBytes := by nlinarith
  have hpercent : 100 - u ≤ Int.tdiv (x.runs.freeBytes * 100) x.chunkSize := by
    rw [Int.tdiv_eq_ediv_of_nonneg (by omega)]
    exact (Int.le_ediv_iff_mul_le hpos).mpr h
  have hne : Int.tdiv (x.runs.freeBytes * 100) x.chunkSize ≠ 0 := by omega
  simp only [PoolChunk.usage, if_neg hfree.ne', if_neg hne]
  omega

theorem usage_lt_hundred (hpos : 0 < x.chunkSize) (hfree : 0 < x.runs.freeBytes) : x.usage < 100 := by
  have hnonneg : 0 ≤ Int.tdiv (x.runs.freeBytes * 100) x.chunkSize := Int.tdiv_nonneg (by omega) hpos.le
  simp only [PoolChunk.usage, if_neg hfree.ne']
  split_ifs with hzero
  · norm_num
  · omega

/-- The thresholds have no rounding error. -/
structure Config.Exact (k : Config) : Prop where
  freeMinThreshold : ∀ l, k.freeMinThreshold l = ListKind.exactThreshold k.sizes.chunkSize l.maxUsage
  freeMaxThreshold : ∀ l, k.freeMaxThreshold l = ListKind.exactThreshold k.sizes.chunkSize l.minUsage

/-- Exact thresholds make windows that fit together, for chunks of any size. -/
theorem Config.Exact.windows (h : k.Exact) (hpos : 0 < k.sizes.chunkSize)
    (hle : k.sizes.chunkSize ≤ 2 ^ 30) : Windows k := by
  have hS : (0 : ℤ) < k.sizes.chunkSize := by exact_mod_cast hpos
  have hmin : ∀ l, k.freeMinThreshold l = _ := fun l =>
    (h.freeMinThreshold l).trans (ListKind.exactThreshold_maxUsage hS.le l)
  have hmax : ∀ l, k.freeMaxThreshold l = _ := fun l =>
    (h.freeMaxThreshold l).trans (ListKind.exactThreshold_minUsage hS.le l)
  constructor
  case next =>
    intro l l' hl
    cases l <;> cases hl <;> simp only [hmin, hmax] <;> omega
  case prev =>
    intro l l' hl
    cases l <;> cases hl <;> simp only [hmin, hmax] <;> omega
  case first =>
    simp only [hmax]
    omega
  case last =>
    simp only [hmin]
    omega
  case emptied =>
    simp only [hmax]
    omega
  case usage =>
    intro l l' hl x hsize hlt hle
    have hx : 0 < x.chunkSize := by rw [hsize]; exact hS
    cases l <;> cases hl <;> simp only [hmax] at hlt <;> simp only [ListKind.maxUsage]
    · omega
    · have := usage_le (u := 25) hx (by norm_num) (by rw [hsize]; omega)
      omega
    · have := usage_le (u := 50) hx (by norm_num) (by rw [hsize]; omega)
      omega
    · have := usage_le (u := 75) hx (by norm_num) (by rw [hsize]; omega)
      omega
    · exact usage_lt_hundred hx hlt

end Mutty.Buffer
