import Mathlib.Data.List.Nodup
import Mutty.Lib.Checked
import Mutty.Lib.Transition

/-!
# The queue of many producers and one consumer

A linked list of nodes behind a node whose data is gone. `enqueue` swaps `head_` and then stores
the link from the node it got; until that store the list is broken there, and any number of links
may be missing at once. `Chain` describes the list by the addresses of its nodes in the order of
the exchanges and by the set of links still to be stored. A node address is reused as soon as the
node was deleted; following a pointer to a deleted node is a fault.
-/

namespace Mutty.Net

open Mutty.Lib

structure BufferNode (α : Type) where
  /-- `dataPtr_`; `none` in a node whose data was never set or was deleted -/
  dataPtr : Option α
  next : Option ℕ

structure MpscQueue (α : Type) where
  node : ℕ → Option (BufferNode α)
  head : ℕ
  tail : ℕ

namespace MpscQueue

variable {α : Type}

def new (address : ℕ) : MpscQueue α where
  node := Function.update (fun _ => none) address (some ⟨none, none⟩)
  head := address
  tail := address

def deref (q : MpscQueue α) (address : ℕ) : Checked (BufferNode α) :=
  match q.node address with
  | some n => .ok n
  | none => .error .null

def setNode (q : MpscQueue α) (address : ℕ) (n : Option (BufferNode α)) : MpscQueue α :=
  { q with node := Function.update q.node address n }

/-- The first step of `enqueue`: a new node at a free address, and `head_.exchange`. Returns
`prevhead`. -/
def exchange (q : MpscQueue α) (address : ℕ) (input : α) : ℕ × MpscQueue α :=
  (q.head, { q.setNode address (some ⟨some input, none⟩) with head := address })

/-- The second step of `enqueue`: `prevhead->next_.store(node)`. -/
def store (q : MpscQueue α) (prevhead node : ℕ) : Checked (MpscQueue α) := do
  let n ← q.deref prevhead
  return q.setNode prevhead (some { n with next := some node })

/-- `tail_->next_.load`, on which both `dequeue` and `empty` decide. -/
def loadNext (q : MpscQueue α) : Checked (Option ℕ) := do
  let tail ← q.deref q.tail
  return tail.next

/-- `dequeue` once `next` was found: the data is moved out and deleted, `next` becomes the tail
and the old tail is deleted. -/
def take (q : MpscQueue α) (next : ℕ) : Checked (α × MpscQueue α) := do
  let n ← q.deref next
  match n.dataPtr with
  | none => .error .null
  | some output =>
    return (output,
      { (q.setNode next (some { n with dataPtr := none })).setNode q.tail none with tail := next })

theorem deref_eq_ok {q : MpscQueue α} {a : ℕ} {n : BufferNode α} :
    q.deref a = .ok n ↔ q.node a = some n := by
  unfold deref
  cases q.node a <;> simp

/-- The list from the tail on. `k` values have been taken out, the values in the order of their
exchanges are `exchanged`, and `Unlinked j` says that the store of exchange `j` is still to come. -/
structure Chain (q : MpscQueue α) (exchanged : List α) (k : ℕ) (Unlinked : ℕ → Prop)
    (chain : List ℕ) : Prop where
  first : chain[0]? = some q.tail
  last : chain[exchanged.length - k]? = some q.head
  nodup : chain.Nodup
  length : chain.length + k = exchanged.length + 1
  unlinked : ∀ j, Unlinked j → k ≤ j ∧ j < exchanged.length
  value : ∀ i a, chain[i + 1]? = some a →
    ∃ n v, q.node a = some n ∧ n.dataPtr = some v ∧ exchanged[k + i]? = some v
  next : ∀ i a, chain[i]? = some a → ∃ n, q.node a = some n ∧
    (Unlinked (k + i) → n.next = none) ∧ (¬ Unlinked (k + i) → n.next = chain[i + 1]?)

namespace Chain

variable {q : MpscQueue α} {exchanged : List α} {k : ℕ} {Unlinked : ℕ → Prop} {chain : List ℕ}

theorem new (address : ℕ) :
    Chain (MpscQueue.new address : MpscQueue α) [] 0 (fun _ => False) [address] where
  first := rfl
  last := rfl
  nodup := by simp
  length := rfl
  unlinked := by simp
  value := by simp
  next := by
    intro i a ha
    cases i with
    | zero =>
      obtain rfl : address = a := by simpa using ha
      exact ⟨⟨none, none⟩, by simp [MpscQueue.new], by simp, by simp⟩
    | succ i => simp at ha

theorem congr {Unlinked' : ℕ → Prop} (h : Chain q exchanged k Unlinked chain)
    (hu : ∀ j, Unlinked' j ↔ Unlinked j) : Chain q exchanged k Unlinked' chain := by
  rw [show Unlinked' = Unlinked from funext fun j => propext (hu j)]
  exact h

theorem le (h : Chain q exchanged k Unlinked chain) : k ≤ exchanged.length := by
  have hpos : 0 < chain.length := (List.getElem?_eq_some_iff.mp h.first).1
  have := h.length
  omega

theorem notMem (h : Chain q exchanged k Unlinked chain) {a : ℕ} (ha : q.node a = none) :
    a ∉ chain := by
  intro hmem
  obtain ⟨i, hi⟩ := List.mem_iff_getElem?.mp hmem
  obtain ⟨n, hn, -⟩ := h.next i a hi
  rw [ha] at hn
  cases hn

theorem index_inj (h : Chain q exchanged k Unlinked chain) {i j a : ℕ}
    (hi : chain[i]? = some a) (hj : chain[j]? = some a) : i = j := by
  obtain ⟨hi', -⟩ := List.getElem?_eq_some_iff.mp hi
  exact (List.getElem?_inj hi' h.nodup).mp (hi.trans hj.symm)

theorem exchange (h : Chain q exchanged k Unlinked chain) {a : ℕ} (ha : q.node a = none) (v : α) :
    Chain (q.exchange a v).2 (exchanged ++ [v]) k (fun j => Unlinked j ∨ j = exchanged.length)
      (chain ++ [a]) ∧
    (chain ++ [a])[exchanged.length - k]? = some q.head ∧
      (chain ++ [a])[exchanged.length - k + 1]? = some a := by
  have hlen := h.length
  have hk := h.le
  have hold : ∀ {i b : ℕ}, chain[i]? = some b → (chain ++ [a])[i]? = some b := by
    intro i b hb
    rw [List.getElem?_append_left (List.getElem?_eq_some_iff.mp hb).1, hb]
  have hnew : (chain ++ [a])[exchanged.length - k + 1]? = some a := by
    rw [List.getElem?_append_right (by omega), show exchanged.length - k + 1 - chain.length = 0 by
      omega]
    rfl
  have hnode : ∀ b ∈ chain, (q.exchange a v).2.node b = q.node b := by
    intro b hb
    have hne : b ≠ a := fun he => h.notMem ha (he ▸ hb)
    simp [MpscQueue.exchange, setNode, hne]
  have hself : (q.exchange a v).2.node a = some ⟨some v, none⟩ := by
    simp [MpscQueue.exchange, setNode]
  refine ⟨?_, hold h.last, hnew⟩
  refine ⟨hold h.first, ?_, ?_, ?_, ?_, ?_, ?_⟩
  · rw [List.length_append, List.length_singleton, Nat.sub_add_comm hk]
    exact hnew
  · rw [List.nodup_append]
    exact ⟨h.nodup, by simp, by simpa using fun b hb (he : b = a) => h.notMem ha (he ▸ hb)⟩
  · simp only [List.length_append, List.length_cons, List.length_nil]
    omega
  · intro j hj
    simp only [List.length_append, List.length_cons, List.length_nil]
    rcases hj with hj | rfl
    · have := h.unlinked j hj
      omega
    · omega
  · intro i b hb
    rcases getElem?_concat_eq_some.mp hb with hin | ⟨hi, rfl⟩
    · obtain ⟨n, w, hn, hw, hex⟩ := h.value i b hin
      refine ⟨n, w, by rw [hnode b (List.mem_of_getElem? hin), hn], hw, ?_⟩
      rw [List.getElem?_append_left (List.getElem?_eq_some_iff.mp hex).1, hex]
    · refine ⟨_, v, hself, rfl, ?_⟩
      rw [show k + i = exchanged.length by omega, List.getElem?_concat_length]
  · intro i b hb
    rcases getElem?_concat_eq_some.mp hb with hin | ⟨hi, rfl⟩
    · obtain ⟨n, hn, hmiss, hlink⟩ := h.next i b hin
      refine ⟨n, by rw [hnode b (List.mem_of_getElem? hin), hn], ?_, ?_⟩
      · rintro (hu | hlast)
        · exact hmiss hu
        · -- the old head has no link yet
          have hnone : chain[i + 1]? = none := List.getElem?_eq_none (by omega)
          rw [hlink fun hu => by have := h.unlinked _ hu; omega, hnone]
      · intro hu
        rw [not_or] at hu
        have hlt := (List.getElem?_eq_some_iff.mp hin).1
        rw [hlink hu.1, List.getElem?_append_left (by omega)]
    · refine ⟨_, hself, fun _ => rfl, fun _ => ?_⟩
      exact (List.getElem?_eq_none (by simp [hi])).symm

theorem store (h : Chain q exchanged k Unlinked chain) {j prevhead node : ℕ} (hj : Unlinked j)
    (hp : chain[j - k]? = some prevhead) (hn : chain[j - k + 1]? = some node) :
    ∃ q', q.store prevhead node = .ok q' ∧
      Chain q' exchanged k (fun i => Unlinked i ∧ i ≠ j) chain := by
  have hkj := (h.unlinked j hj).1
  obtain ⟨n, hnode, -, -⟩ := h.next _ _ hp
  refine ⟨q.setNode prevhead (some { n with next := some node }), ?_, ?_⟩
  · simp [MpscQueue.store, deref_eq_ok.mpr hnode, bind, Except.bind, pure, Except.pure]
  have hself : (q.setNode prevhead (some { n with next := some node })).node prevhead =
      some { n with next := some node } := by
    simp [setNode]
  have hother : ∀ b, b ≠ prevhead →
      (q.setNode prevhead (some { n with next := some node })).node b = q.node b := by
    intro b hb
    simp [setNode, hb]
  refine ⟨h.first, h.last, h.nodup, h.length, fun i hi => h.unlinked i hi.1, ?_, ?_⟩
  · intro i b hb
    obtain ⟨m, v, hm, hv, hex⟩ := h.value i b hb
    by_cases he : b = prevhead
    · subst he
      rw [hnode] at hm
      cases hm
      exact ⟨_, v, hself, hv, hex⟩
    · exact ⟨m, v, by rw [hother b he, hm], hv, hex⟩
  · intro i b hb
    obtain ⟨m, hm, hmiss, hlink⟩ := h.next i b hb
    by_cases he : b = prevhead
    · subst he
      have hi : i = j - k := h.index_inj hb hp
      refine ⟨_, hself, ?_, fun _ => ?_⟩
      · rintro ⟨-, hne⟩
        exact absurd (by omega) hne
      · rw [hi, hn]
    · refine ⟨m, by rw [hother b he, hm], fun hu => hmiss hu.1, fun hu => hlink fun hu' => ?_⟩
      refine hu ⟨hu', fun hij => he ?_⟩
      have hi : i = j - k := by omega
      rw [hi, hp] at hb
      exact (Option.some.inj hb).symm

/-- `dequeue` and `empty` see nothing exactly when the link to the next value is missing or there
is no such value. -/
theorem loadNext (h : Chain q exchanged k Unlinked chain) :
    ∃ next, q.loadNext = .ok next ∧ (Unlinked k → next = none) ∧
      (¬ Unlinked k → next = chain[1]?) := by
  obtain ⟨n, hn, hmiss, hlink⟩ := h.next 0 q.tail h.first
  refine ⟨n.next, ?_, hmiss, hlink⟩
  simp [MpscQueue.loadNext, deref_eq_ok.mpr hn, bind, Except.bind, pure, Except.pure]

theorem unlinked_of_loadNext (h : Chain q exchanged k Unlinked chain)
    (hnone : q.loadNext = .ok none) (hk : k < exchanged.length) : Unlinked k := by
  obtain ⟨next, hnext, -, hlink⟩ := h.loadNext
  obtain rfl : next = none := by simpa [hnext] using hnone
  by_contra hu
  have hlen := h.length
  have := hlink hu
  rw [eq_comm, List.getElem?_eq_none_iff] at this
  omega

theorem loadNext_eq_some (h : Chain q exchanged k Unlinked chain) {a : ℕ} :
    q.loadNext = .ok (some a) ↔ ¬ Unlinked k ∧ chain[1]? = some a := by
  obtain ⟨next, hnext, hmiss, hlink⟩ := h.loadNext
  rw [hnext, Except.ok.injEq]
  constructor
  · rintro rfl
    have hu : ¬ Unlinked k := fun hu => by simpa using hmiss hu
    exact ⟨hu, (hlink hu).symm⟩
  · rintro ⟨hu, ha⟩
    rw [hlink hu, ha]

/-- The consumer takes the next value and deletes the old tail, which no link store needs any
more. -/
theorem take (h : Chain q exchanged k Unlinked chain) {a : ℕ} (hu : ¬ Unlinked k)
    (ha : chain[1]? = some a) :
    ∃ v q', q.take a = .ok (v, q') ∧ exchanged[k]? = some v ∧
      Chain q' exchanged (k + 1) Unlinked chain.tail := by
  obtain ⟨n, v, hn, hv, hex⟩ := h.value 0 a ha
  have hlen := h.length
  have hk : k < exchanged.length := (List.getElem?_eq_some_iff.mp hex).1
  have htail : ∀ i, chain.tail[i]? = chain[i + 1]? := fun i => List.getElem?_tail
  have hne : a ≠ q.tail := by
    rintro rfl
    exact absurd (h.index_inj ha h.first) (by decide)
  set q' : MpscQueue α :=
    { (q.setNode a (some { n with dataPtr := none })).setNode q.tail none with tail := a } with hq'
  have hself : q'.node a = some { n with dataPtr := none } := by
    simp [hq', setNode, hne]
  have hother : ∀ b, b ≠ a → b ≠ q.tail → q'.node b = q.node b := by
    intro b hb hb'
    simp [hq', setNode, hb, hb']
  have hnetail : ∀ {i b : ℕ}, chain[i + 1]? = some b → b ≠ q.tail := by
    rintro i b hb rfl
    exact absurd (h.index_inj hb h.first) (by omega)
  refine ⟨v, q', ?_, hex, ?_⟩
  · simp [MpscQueue.take, deref_eq_ok.mpr hn, hv, bind, Except.bind, pure, Except.pure, hq']
  refine ⟨by rw [htail, ha], ?_, h.nodup.tail, ?_, ?_, ?_, ?_⟩
  · rw [htail, show exchanged.length - (k + 1) + 1 = exchanged.length - k by omega]
    exact h.last
  · rw [List.length_tail]
    omega
  · intro j hj
    have := h.unlinked j hj
    have hjk : j ≠ k := fun he => hu (he ▸ hj)
    omega
  · intro i b hb
    rw [htail] at hb
    obtain ⟨m, w, hm, hw, hexw⟩ := h.value (i + 1) b hb
    have hba : b ≠ a := by
      rintro rfl
      exact absurd (h.index_inj hb ha) (by omega)
    exact ⟨m, w, by rw [hother b hba (hnetail hb), hm], hw, by rw [← hexw]; congr 1; omega⟩
  · intro i b hb
    rw [htail] at hb
    obtain ⟨m, hm, hmiss, hlink⟩ := h.next (i + 1) b hb
    rw [htail, show k + 1 + i = k + (i + 1) by omega]
    by_cases hba : b = a
    · subst hba
      rw [hn] at hm
      cases hm
      exact ⟨_, hself, hmiss, hlink⟩
    · exact ⟨m, by rw [hother b hba (hnetail hb), hm], hmiss, hlink⟩

end Chain
end MpscQueue

theorem prefix_concat {α : Type} {l m : List α} {v : α} (h : l <+: m)
    (hv : m[l.length]? = some v) : l ++ [v] <+: m := by
  obtain ⟨rest, rfl⟩ := h
  rw [List.getElem?_append_right (Nat.le_refl _), Nat.sub_self] at hv
  cases rest with
  | nil => simp at hv
  | cons w rest =>
    obtain rfl : w = v := by simpa using hv
    exact ⟨rest, by simp⟩

/-! ## Producers and the consumer -/

/-- A producer between the two steps of `enqueue`; `index` is the number of its exchange. -/
structure Pending where
  prevhead : ℕ
  node : ℕ
  index : ℕ
  deriving DecidableEq

/-- The store of a pending exchange is the missing link of the chain at its index. -/
def Pending.At (e : Pending) (k : ℕ) (chain : List ℕ) : Prop :=
  chain[e.index - k]? = some e.prevhead ∧ chain[e.index - k + 1]? = some e.node

theorem Pending.At.append {e : Pending} {k : ℕ} {chain : List ℕ} (h : e.At k chain) (a : ℕ) :
    e.At k (chain ++ [a]) := by
  have hold : ∀ {i b : ℕ}, chain[i]? = some b → (chain ++ [a])[i]? = some b := by
    intro i b hb
    rw [List.getElem?_append_left (List.getElem?_eq_some_iff.mp hb).1, hb]
  exact ⟨hold h.1, hold h.2⟩

theorem Pending.At.tail {e : Pending} {k : ℕ} {chain : List ℕ} (h : e.At k chain)
    (hk : k + 1 ≤ e.index) : e.At (k + 1) chain.tail := by
  have hsub : e.index - (k + 1) + 1 = e.index - k := by omega
  exact ⟨by rw [List.getElem?_tail, hsub]; exact h.1, by rw [List.getElem?_tail, hsub]; exact h.2⟩

/-- The chain of a queue whose missing links are those of the producers between their two steps.
`exchanged` lists the exchanges with their producers. -/
structure Enqueues {α : Type} (q : MpscQueue α) (exchanged : List (ℕ × α)) (k : ℕ)
    (producer : ℕ → Option Pending) (chain : List ℕ) : Prop where
  linked : q.Chain (exchanged.map Prod.snd) k (fun j => ∃ p e, producer p = some e ∧ e.index = j)
    chain
  pending : ∀ p e, producer p = some e →
    e.At k chain ∧ ∃ v, exchanged[e.index]? = some (p, v)

namespace Enqueues

variable {α : Type} {q : MpscQueue α} {exchanged : List (ℕ × α)} {k : ℕ}
  {producer : ℕ → Option Pending} {chain : List ℕ}

theorem new (address : ℕ) :
    Enqueues (MpscQueue.new address : MpscQueue α) [] 0 (fun _ => none) [address] :=
  ⟨(MpscQueue.Chain.new address).congr (by simp), by simp⟩

theorem exchange (h : Enqueues q exchanged k producer chain) {p a : ℕ} (hp : producer p = none)
    (ha : q.node a = none) (v : α) :
    Enqueues (q.exchange a v).2 (exchanged ++ [(p, v)]) k
      (Function.update producer p (some ⟨q.head, a, exchanged.length⟩)) (chain ++ [a]) := by
  obtain ⟨hchain, hhead, hnew⟩ := h.linked.exchange ha v
  rw [List.length_map] at hchain hhead hnew
  constructor
  · rw [List.map_append, List.map_singleton]
    refine hchain.congr fun j => ?_
    constructor
    · rintro ⟨r, e, hr, rfl⟩
      by_cases hrp : r = p
      · subst hrp
        obtain rfl : _ = e := by simpa using hr
        exact Or.inr rfl
      · exact Or.inl ⟨r, e, by simpa [hrp] using hr, rfl⟩
    · rintro (⟨r, e, hr, rfl⟩ | rfl)
      · have hrp : r ≠ p := by
          rintro rfl
          simp [hp] at hr
        exact ⟨r, e, by simpa [hrp] using hr, rfl⟩
      · exact ⟨p, ⟨q.head, a, exchanged.length⟩, by simp, rfl⟩
  · intro r e hr
    by_cases hrp : r = p
    · subst hrp
      obtain rfl : _ = e := by simpa using hr
      exact ⟨⟨hhead, hnew⟩, v, by simp⟩
    · obtain ⟨hat, w, hw⟩ := h.pending r e (by simpa [hrp] using hr)
      refine ⟨hat.append a, w, ?_⟩
      rw [List.getElem?_append_left (List.getElem?_eq_some_iff.mp hw).1, hw]

theorem index_inj (h : Enqueues q exchanged k producer chain) {p r : ℕ} {e f : Pending}
    (hp : producer p = some e) (hr : producer r = some f) (hi : e.index = f.index) : p = r := by
  obtain ⟨-, v, hv⟩ := h.pending p e hp
  obtain ⟨-, w, hw⟩ := h.pending r f hr
  rw [hi, hw] at hv
  simpa using (congrArg (Option.map Prod.fst) hv).symm

theorem store (h : Enqueues q exchanged k producer chain) {p : ℕ} {e : Pending}
    (hp : producer p = some e) :
    ∃ q', q.store e.prevhead e.node = .ok q' ∧
      Enqueues q' exchanged k (Function.update producer p none) chain := by
  obtain ⟨⟨hprev, hnode⟩, -⟩ := h.pending p e hp
  obtain ⟨q', hq', hchain⟩ := h.linked.store ⟨p, e, hp, rfl⟩ hprev hnode
  refine ⟨q', hq', ?_, ?_⟩
  · refine hchain.congr fun j => ?_
    constructor
    · rintro ⟨r, f, hr, rfl⟩
      by_cases hrp : r = p
      · simp [hrp] at hr
      · rw [Function.update_of_ne hrp] at hr
        exact ⟨⟨r, f, hr, rfl⟩, fun hi => hrp (h.index_inj hr hp hi)⟩
    · rintro ⟨⟨r, f, hr, rfl⟩, hne⟩
      have hrp : r ≠ p := by
        rintro rfl
        rw [hp] at hr
        cases hr
        exact hne rfl
      exact ⟨r, f, by rwa [Function.update_of_ne hrp], rfl⟩
  · intro r f hr
    by_cases hrp : r = p
    · simp [hrp] at hr
    · exact h.pending r f (by rwa [Function.update_of_ne hrp] at hr)

theorem take (h : Enqueues q exchanged k producer chain) {a : ℕ}
    (hload : q.loadNext = .ok (some a)) :
    ∃ v q', q.take a = .ok (v, q') ∧ (exchanged.map Prod.snd)[k]? = some v ∧
      Enqueues q' exchanged (k + 1) producer chain.tail := by
  obtain ⟨hu, ha⟩ := h.linked.loadNext_eq_some.mp hload
  obtain ⟨v, q', hq', hv, hchain⟩ := h.linked.take hu ha
  refine ⟨v, q', hq', hv, hchain, fun p e hp => ?_⟩
  obtain ⟨hat, hex⟩ := h.pending p e hp
  have hk := hchain.unlinked e.index ⟨p, e, hp, rfl⟩
  exact ⟨hat.tail hk.1, hex⟩

/-- The consumer sees no value although there is one: the producer of that very value is between
its two steps. -/
theorem blocked (h : Enqueues q exchanged k producer chain) (hload : q.loadNext = .ok none)
    (hk : k < exchanged.length) :
    ∃ p v e, exchanged[k]? = some (p, v) ∧ producer p = some e ∧ e.index = k := by
  obtain ⟨p, e, hp, rfl⟩ := h.linked.unlinked_of_loadNext hload (by simpa using hk)
  obtain ⟨-, v, hv⟩ := h.pending p e hp
  exact ⟨p, v, e, hv, hp, rfl⟩

/-- Neither step of a producer changes what the consumer has loaded. -/
theorem loadNext_exchange (h : Enqueues q exchanged k producer chain) {p a b : ℕ} {v : α}
    (hp : producer p = none) (ha : q.node a = none) (hload : q.loadNext = .ok (some b)) :
    (q.exchange a v).2.loadNext = .ok (some b) := by
  obtain ⟨hu, hb⟩ := h.linked.loadNext_eq_some.mp hload
  have hlen := h.linked.length
  have hone := (List.getElem?_eq_some_iff.mp hb).1
  rw [List.length_map] at hlen
  refine (h.exchange hp ha v).linked.loadNext_eq_some.mpr ⟨?_, ?_⟩
  · rintro ⟨r, e, hr, hi⟩
    by_cases hrp : r = p
    · subst hrp
      obtain rfl : _ = e := by simpa using hr
      dsimp only at hi
      omega
    · exact hu ⟨r, e, by simpa [hrp] using hr, hi⟩
  · rw [List.getElem?_append_left hone, hb]

theorem loadNext_store (h : Enqueues q exchanged k producer chain) {p b : ℕ} {e : Pending}
    {q' : MpscQueue α} (hp : producer p = some e) (hq' : q.store e.prevhead e.node = .ok q')
    (hload : q.loadNext = .ok (some b)) : q'.loadNext = .ok (some b) := by
  obtain ⟨hu, hb⟩ := h.linked.loadNext_eq_some.mp hload
  obtain ⟨q'', hq'', hnext⟩ := h.store hp
  obtain rfl : q'' = q' := by simpa [hq'] using hq''.symm
  refine hnext.linked.loadNext_eq_some.mpr ⟨?_, hb⟩
  rintro ⟨r, f, hr, hi⟩
  by_cases hrp : r = p
  · simp [hrp] at hr
  · exact hu ⟨r, f, by rwa [Function.update_of_ne hrp] at hr, hi⟩

end Enqueues

/-! ## Runs -/

/-- One queue, any number of producers, one consumer. The two lists are the record of the run: who
exchanged which value, in order, and what was dequeued. -/
structure QueueState (α : Type) where
  queue : MpscQueue α
  producer : ℕ → Option Pending
  /-- the `next` that `dequeue` has loaded and not yet acted on -/
  consumer : Option ℕ
  exchanged : List (ℕ × α)
  delivered : List α

inductive QueueAction (α : Type)
  | exchange (producer address : ℕ) (input : α)
  | store (producer : ℕ)
  | load
  | take
  | empty

namespace QueueState

variable {α : Type}

/-- One atomic step; `none` when the program of the producer or the consumer is not there. -/
def run (σ : QueueState α) : QueueAction α → Option (Checked (QueueState α))
  | .exchange p address input =>
    if σ.producer p = none ∧ (σ.queue.node address).isNone then
      let (prevhead, queue) := σ.queue.exchange address input
      some (.ok { σ with
        queue
        producer := Function.update σ.producer p (some ⟨prevhead, address, σ.exchanged.length⟩)
        exchanged := σ.exchanged ++ [(p, input)] })
    else none
  | .store p =>
    (σ.producer p).map fun e => do
      let queue ← σ.queue.store e.prevhead e.node
      return { σ with queue, producer := Function.update σ.producer p none }
  | .load =>
    if σ.consumer = none then
      some do
        let next ← σ.queue.loadNext
        -- `dequeue` returns false when there is no next node
        return { σ with consumer := next }
    else none
  | .take =>
    σ.consumer.map fun next => do
      let (output, queue) ← σ.queue.take next
      return { σ with queue, consumer := none, delivered := σ.delivered ++ [output] }
  | .empty =>
    if σ.consumer = none then
      some do
        let _ ← σ.queue.loadNext
        return σ
    else none

/-- `dequeue`, called now, returns false. -/
def DequeueFails (σ : QueueState α) : Prop := σ.consumer = none ∧ σ.queue.loadNext = .ok none

end QueueState

def queueMachine (α : Type) : System (QueueState α) (QueueAction α) where
  init σ := ∃ address, σ = ⟨.new address, fun _ => none, none, [], []⟩
  step σ a := (σ.run a).bind Except.toOption

structure QueueInv {α : Type} (σ : QueueState α) (chain : List ℕ) : Prop where
  enqueues : Enqueues σ.queue σ.exchanged σ.delivered.length σ.producer chain
  taking : ∀ next, σ.consumer = some next → σ.queue.loadNext = .ok (some next)
  delivered : σ.delivered <+: σ.exchanged.map Prod.snd

namespace QueueInv

variable {α : Type} {σ : QueueState α} {chain : List ℕ}

theorem run (h : QueueInv σ chain) {a : QueueAction α} {r : Checked (QueueState α)}
    (hr : σ.run a = some r) : ∃ σ' chain', r = .ok σ' ∧ QueueInv σ' chain' := by
  cases a with
  | exchange p address input =>
    simp only [QueueState.run] at hr
    split_ifs at hr with hfree
    obtain rfl := Option.some.inj hr
    have ha : σ.queue.node address = none := by simpa using hfree.2
    refine ⟨_, _, rfl, h.enqueues.exchange hfree.1 ha input, fun next hnext => ?_, ?_⟩
    · exact h.enqueues.loadNext_exchange hfree.1 ha (h.taking next hnext)
    · rw [List.map_append]
      exact h.delivered.trans (List.prefix_append _ _)
  | store p =>
    obtain ⟨e, he, rfl⟩ := Option.map_eq_some_iff.mp hr
    obtain ⟨q', hq', hnext⟩ := h.enqueues.store he
    refine ⟨{ σ with queue := q', producer := Function.update σ.producer p none }, chain, ?_, hnext,
      fun next hn => h.enqueues.loadNext_store he hq' (h.taking next hn), h.delivered⟩
    simp [hq', bind, Except.bind, pure, Except.pure]
  | load =>
    simp only [QueueState.run] at hr
    split_ifs at hr with hc
    obtain ⟨next, hnext, -⟩ := h.enqueues.linked.loadNext
    refine ⟨{ σ with consumer := next }, chain, ?_, h.enqueues, ?_, h.delivered⟩
    · rw [← Option.some.inj hr]
      simp [hnext, bind, Except.bind, pure, Except.pure]
    · intro b hb
      obtain rfl : next = some b := hb
      exact hnext
  | take =>
    obtain ⟨next, hnext, rfl⟩ := Option.map_eq_some_iff.mp hr
    obtain ⟨v, q', hq', hv, htake⟩ := h.enqueues.take (h.taking next hnext)
    refine ⟨{ σ with queue := q', consumer := none, delivered := σ.delivered ++ [v] }, chain.tail,
      ?_, ?_, by simp, ?_⟩
    · simp [hq', bind, Except.bind, pure, Except.pure]
    · simpa using htake
    · exact prefix_concat h.delivered hv
  | empty =>
    simp only [QueueState.run] at hr
    split_ifs at hr with hc
    obtain ⟨next, hnext, -⟩ := h.enqueues.linked.loadNext
    refine ⟨σ, chain, ?_, h⟩
    rw [← Option.some.inj hr]
    simp [hnext, bind, Except.bind, pure, Except.pure]

theorem reach (h : System.Reach (queueMachine α) System.Free σ) : ∃ chain, QueueInv σ chain := by
  refine System.Reach.invariant (I := fun σ => ∃ chain, QueueInv σ chain) ?_ ?_ h
  · rintro σ ⟨address, rfl⟩
    exact ⟨[address], Enqueues.new address, by simp, by simp⟩
  · rintro σ a σ' ⟨chain, hinv⟩ - hstep
    obtain ⟨r, hr, hok⟩ := Option.bind_eq_some_iff.mp hstep
    obtain ⟨σ₁, chain', rfl, hinv'⟩ := hinv.run hr
    obtain rfl : σ₁ = σ' := by simpa using hok
    exact ⟨chain', hinv'⟩

end QueueInv

/-- In every run, what was dequeued is a prefix of the values in the order of their exchanges, and
no step follows a pointer to a deleted node. While values are left, `dequeue` returns false only
when the producer of the next one is between its two steps. -/
theorem queue_fifo {α : Type} {σ : QueueState α}
    (h : System.Reach (queueMachine α) System.Free σ) :
    σ.delivered <+: σ.exchanged.map Prod.snd ∧
      (∀ a r, σ.run a = some r → ∃ σ', r = .ok σ') ∧
      (σ.DequeueFails → σ.delivered.length < σ.exchanged.length →
        ∃ p v e, σ.exchanged[σ.delivered.length]? = some (p, v) ∧ σ.producer p = some e ∧
          e.index = σ.delivered.length) := by
  obtain ⟨chain, hinv⟩ := QueueInv.reach h
  refine ⟨hinv.delivered, fun a r hr => ?_, fun hfail hleft => ?_⟩
  · obtain ⟨σ', -, hok, -⟩ := hinv.run hr
    exact ⟨σ', hok⟩
  · exact hinv.enqueues.blocked hfail.2 hleft

/-- Three exchanges, the second of which is not linked yet: one value is out, and `dequeue` waits
for producer 2 although the third value is linked behind. -/
theorem queue_fifo_with_missing_link :
    ∃ σ : QueueState ℕ, System.Reach (queueMachine ℕ) System.Free σ ∧
      σ.exchanged = [(1, 10), (2, 20), (3, 30)] ∧ σ.delivered = [10] ∧ σ.DequeueFails ∧
      ∃ p v e, σ.exchanged[σ.delivered.length]? = some (p, v) ∧ σ.producer p = some e ∧
        e.index = σ.delivered.length := by
  obtain ⟨σ, -, hreach, hp⟩ := System.exists_reach (M := queueMachine ℕ) (G := System.Free)
    [.exchange 1 1 10, .store 1, .exchange 2 2 20, .exchange 3 3 30, .store 3, .load, .take]
    (fun σ => σ.exchanged = [(1, 10), (2, 20), (3, 30)] ∧ σ.delivered = [10] ∧
      σ.consumer = none ∧ σ.queue.loadNext = .ok none)
    ⟨0, rfl⟩ (by decide)
  obtain ⟨hexchanged, hdelivered, hfail⟩ := of_decide_eq_true hp
  refine ⟨σ, hreach, hexchanged, hdelivered, hfail, (queue_fifo hreach).2.2 hfail ?_⟩
  rw [hexchanged, hdelivered]
  decide

end Mutty.Net
