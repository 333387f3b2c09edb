import Mutty.Lib.Loop
import Mutty.Net.MpscQueue

/-!
# The destructor of the queue

It dequeues until `dequeue` returns false, and deletes the node `head_` points to. A link that a
producer has not stored yet ends the loop before the head is reached; the nodes from there on are
never deleted.
-/

namespace Mutty.Net

open Mutty.Lib

namespace MpscQueue

variable {α : Type}

def dequeue (q : MpscQueue α) : Checked (Option (α × MpscQueue α)) := do
  match ← q.loadNext with
  | none => return none
  | some next =>
    let taken ← q.take next
    return some taken

/-- One round of `while (this->dequeue(output))`; the outputs are kept as a record. -/
def destroyBody (s : MpscQueue α × List α) :
    Checked ((MpscQueue α × List α) ⊕ (MpscQueue α × List α)) := do
  match ← s.1.dequeue with
  | none => return .inr s
  | some (output, queue) => return .inl (queue, s.2 ++ [output])

/-- The destructor. Deleting `head_` is a fault when that node is gone already. -/
def destroy (q : MpscQueue α) (budget : ℕ) : Checked (MpscQueue α × List α) := do
  let (queue, outputs) ← Loop.run destroyBody budget (q, [])
  let _ ← queue.deref queue.head
  return (queue.setNode queue.head none, outputs)

/-- Every node that is allocated stands in the chain. -/
def Owned (q : MpscQueue α) (chain : List ℕ) : Prop := ∀ a, q.node a ≠ none → a ∈ chain

variable {q q' : MpscQueue α} {chain : List ℕ}

theorem Owned.exchange (h : q.Owned chain) (a : ℕ) (v : α) :
    (q.exchange a v).2.Owned (chain ++ [a]) := by
  intro b hb
  by_cases hba : b = a
  · simp [hba]
  · refine List.mem_append_left _ (h b ?_)
    simpa [MpscQueue.exchange, setNode, Function.update_of_ne hba] using hb

theorem Owned.store (h : q.Owned chain) {prevhead node : ℕ}
    (hstore : q.store prevhead node = .ok q') : q'.Owned chain := by
  obtain ⟨n, hn, hq⟩ := bind_eq_ok.mp hstore
  rw [← Except.ok.inj hq]
  intro b hb
  by_cases hbp : b = prevhead
  · apply h
    rw [hbp, deref_eq_ok.mp hn]
    simp
  · apply h
    simpa [setNode, Function.update_of_ne hbp] using hb

theorem Owned.take (h : q.Owned chain) (hfirst : chain[0]? = some q.tail) {a : ℕ} {v : α}
    (htake : q.take a = .ok (v, q')) : q'.Owned chain.tail := by
  obtain ⟨n, hn, hq⟩ := bind_eq_ok.mp htake
  have hmem : a ∈ chain := h a (by rw [deref_eq_ok.mp hn]; simp)
  cases hdata : n.dataPtr with
  | none =>
    rw [hdata] at hq
    cases hq
  | some output =>
    rw [hdata] at hq
    obtain ⟨-, hq⟩ := Prod.mk.inj (Except.ok.inj hq)
    rw [← hq]
    intro b hb
    have hbt : b ≠ q.tail := by
      rintro rfl
      simp [setNode] at hb
    have hb' : b ∈ chain := by
      by_cases hba : b = a
      · rw [hba]
        exact hmem
      · apply h
        simpa [setNode, Function.update_of_ne hba, Function.update_of_ne hbt] using hb
    cases chain with
    | nil => cases hfirst
    | cons c rest =>
      obtain rfl : c = q.tail := by simpa using hfirst
      exact (List.mem_cons.mp hb').resolve_left hbt

end MpscQueue

namespace QueueInv

variable {α : Type} {σ σ' : QueueState α} {chain : List ℕ}

/-- A step allocates at most the node it appends and deletes the one it takes off. -/
theorem step_owned (h : QueueInv σ chain) (ho : σ.queue.Owned chain) {a : QueueAction α}
    (hstep : σ.run a = some (.ok σ')) : ∃ chain', QueueInv σ' chain' ∧ σ'.queue.Owned chain' := by
  cases a with
  | exchange p address input =>
    simp only [QueueState.run] at hstep
    split_ifs at hstep with hfree
    rw [← Except.ok.inj (Option.some.inj hstep)]
    have ha : σ.queue.node address = none := by simpa using hfree.2
    refine ⟨_, ⟨h.enqueues.exchange hfree.1 ha input, fun next hnext => ?_, ?_⟩,
      ho.exchange address input⟩
    · exact h.enqueues.loadNext_exchange hfree.1 ha (h.taking next hnext)
    · rw [List.map_append]
      exact h.delivered.trans (List.prefix_append _ _)
  | store p =>
    obtain ⟨e, he, hok⟩ := Option.map_eq_some_iff.mp hstep
    obtain ⟨q', hq', hok⟩ := bind_eq_ok.mp hok
    rw [← Except.ok.inj hok]
    obtain ⟨q'', hq'', hnext⟩ := h.enqueues.store he
    obtain rfl : q'' = q' := Except.ok.inj (hq''.symm.trans hq')
    exact ⟨chain, ⟨hnext, fun next hn => h.enqueues.loadNext_store he hq' (h.taking next hn),
      h.delivered⟩, ho.store hq'⟩
  | load =>
    simp only [QueueState.run] at hstep
    split_ifs at hstep
    obtain ⟨next, hnext, hok⟩ := bind_eq_ok.mp (Option.some.inj hstep)
    rw [← Except.ok.inj hok]
    refine ⟨chain, ⟨h.enqueues, ?_, h.delivered⟩, ho⟩
    intro b hb
    rw [hnext, show next = some b from hb]
  | take =>
    obtain ⟨next, hnext, hok⟩ := Option.map_eq_some_iff.mp hstep
    obtain ⟨⟨v, q'⟩, hq', hok⟩ := bind_eq_ok.mp hok
    rw [← Except.ok.inj hok]
    obtain ⟨w, q'', hq'', hw, htake⟩ := h.enqueues.take (h.taking next hnext)
    obtain ⟨rfl, rfl⟩ := Prod.mk.inj (Except.ok.inj (hq''.symm.trans hq'))
    refine ⟨chain.tail, ⟨?_, by simp, prefix_concat h.delivered hw⟩,
      ho.take h.enqueues.linked.first hq'⟩
    simpa using htake
  | empty =>
    simp only [QueueState.run] at hstep
    split_ifs at hstep
    obtain ⟨next, hnext, hok⟩ := bind_eq_ok.mp (Option.some.inj hstep)
    rw [← Except.ok.inj hok]
    exact ⟨chain, h, ho⟩

theorem reach_owned (h : System.Reach (queueMachine α) System.Free σ) :
    ∃ chain, QueueInv σ chain ∧ σ.queue.Owned chain := by
  induction h with
  | init hinit =>
    obtain ⟨address, rfl⟩ := hinit
    refine ⟨[address], ⟨Enqueues.new address, by simp, by simp⟩, ?_⟩
    intro b hb
    by_contra hne
    simp only [List.mem_singleton] at hne
    simp [MpscQueue.new, Function.update_of_ne hne] at hb
  | step _ _ hstep ih =>
    obtain ⟨chain, hinv, howned⟩ := ih
    obtain ⟨r, hr, hok⟩ := Option.bind_eq_some_iff.mp hstep
    rw [toOption_eq_some.mp hok] at hr
    exact hinv.step_owned howned hr

end QueueInv

namespace Enqueues

variable {α : Type} {q : MpscQueue α} {exchanged : List (ℕ × α)} {k : ℕ}
  {producer : ℕ → Option Pending} {chain : List ℕ}

/-- Where the loop of the destructor ends: the values before the first missing link are out. -/
structure Emptied (exchanged : List (ℕ × α)) (k : ℕ) (producer : ℕ → Option Pending)
    (s : MpscQueue α × List α) : Prop where
  stopped : s.1.loadNext = .ok none
  outputs : s.2 = ((exchanged.map Prod.snd).drop k).take s.2.length
  rest : ∃ chain, Enqueues s.1 exchanged (k + s.2.length) producer chain ∧ s.1.Owned chain

theorem destroyBody_none {s : MpscQueue α × List α} (hload : s.1.loadNext = .ok none) :
    MpscQueue.destroyBody s = .ok (.inr s) := by
  simp [MpscQueue.destroyBody, MpscQueue.dequeue, hload, bind, Except.bind, pure, Except.pure]

theorem destroyBody_some {s : MpscQueue α × List α} {next : ℕ} {v : α} {q' : MpscQueue α}
    (hload : s.1.loadNext = .ok (some next)) (htake : s.1.take next = .ok (v, q')) :
    MpscQueue.destroyBody s = .ok (.inl (q', s.2 ++ [v])) := by
  simp [MpscQueue.destroyBody, MpscQueue.dequeue, hload, htake, bind, Except.bind, pure, Except.pure]

theorem run_destroyBody (h : Enqueues q exchanged k producer chain) (ho : q.Owned chain) {n : ℕ}
    (hn : exchanged.length - k < n) :
    ∃ s, Loop.run MpscQueue.destroyBody n (q, []) = .ok s ∧ Emptied exchanged k producer s := by
  refine Loop.run_ok MpscQueue.destroyBody
    (I := fun s => s.2 = ((exchanged.map Prod.snd).drop k).take s.2.length ∧
      ∃ chain, Enqueues s.1 exchanged (k + s.2.length) producer chain ∧ s.1.Owned chain)
    (μ := fun s => exchanged.length - (k + s.2.length)) ?_ n (q, []) ⟨by simp, chain, h, ho⟩ hn
  rintro ⟨q, outputs⟩ ⟨houtputs, chain, h, ho⟩
  obtain ⟨next, hload, -⟩ := h.linked.loadNext
  cases next with
  | none => exact Or.inr ⟨_, destroyBody_none hload, hload, houtputs, chain, h, ho⟩
  | some next =>
    obtain ⟨v, q', htake, hv, hnext⟩ := h.take hload
    have hlt := (List.getElem?_eq_some_iff.mp hv).1
    rw [List.length_map] at hlt
    have hlen : (outputs ++ [v]).length = outputs.length + 1 := by simp
    refine Or.inl ⟨_, destroyBody_some hload htake, ⟨?_, chain.tail, ?_, ?_⟩, ?_⟩
    · rw [hlen, List.take_add_one, ← houtputs, List.getElem?_drop, hv]
      rfl
    · rwa [hlen, ← Nat.add_assoc]
    · exact ho.take h.linked.first htake
    · dsimp only at hlt ⊢
      omega

/-- The node at which a pending store writes is not the head, which the destructor deletes. -/
theorem pending_alive (h : Enqueues q exchanged k producer chain) {p : ℕ} {e : Pending}
    (hp : producer p = some e) : (q.setNode q.head none).node e.prevhead ≠ none := by
  have hlast := h.linked.last
  obtain ⟨⟨hprev, -⟩, -⟩ := h.pending p e hp
  have hindex := h.linked.unlinked e.index ⟨p, e, hp, rfl⟩
  have hne : e.prevhead ≠ q.head := by
    intro heq
    rw [heq] at hprev
    have := h.linked.index_inj hprev hlast
    omega
  obtain ⟨m, hm, -⟩ := h.linked.next _ _ hprev
  simp [MpscQueue.setNode, Function.update_of_ne hne, hm]

/-- With all values out the head is the only node of the chain. -/
theorem all_deleted (h : Enqueues q exchanged k producer chain) (ho : q.Owned chain)
    (hk : k = exchanged.length) (a : ℕ) : (q.setNode q.head none).node a = none := by
  have hlast := h.linked.last
  have hlen := h.linked.length
  rw [List.length_map] at hlast hlen
  by_cases ha : a = q.head
  · simp [MpscQueue.setNode, ha]
  · by_contra hnode
    have hmem : a ∈ chain := by
      apply ho
      simpa [MpscQueue.setNode, Function.update_of_ne ha] using hnode
    obtain ⟨i, hi⟩ := List.mem_iff_getElem?.mp hmem
    have hlt := (List.getElem?_eq_some_iff.mp hi).1
    obtain rfl : i = exchanged.length - k := by omega
    rw [hlast] at hi
    exact ha (Option.some.inj hi).symm

end Enqueues

/-- The link to the `m`-th value exchanged is the first one that a producer has still to store, or `m` is
the number of all values and no link is missing. -/
structure FirstMissing {α : Type} (σ : QueueState α) (m : ℕ) : Prop where
  le : m ≤ σ.exchanged.length
  before : ∀ p e, σ.producer p = some e → m ≤ e.index
  missing : m < σ.exchanged.length → ∃ p e, σ.producer p = some e ∧ e.index = m

theorem FirstMissing.eq_length {α : Type} {σ : QueueState α} {m : ℕ} (h : FirstMissing σ m)
    (hnone : ∀ p, σ.producer p = none) : m = σ.exchanged.length := by
  by_contra hne
  obtain ⟨p, e, hp, -⟩ := h.missing (Nat.lt_of_le_of_ne h.le hne)
  rw [hnone p] at hp
  cases hp

theorem FirstMissing.of_emptied {α : Type} {σ : QueueState α} {k : ℕ} {s : MpscQueue α × List α}
    (h : Enqueues.Emptied σ.exchanged k σ.producer s) : FirstMissing σ (k + s.2.length) := by
  obtain ⟨chain, hq, -⟩ := h.rest
  have hle := hq.linked.le
  rw [List.length_map] at hle
  refine ⟨hle, fun p e hp => (hq.linked.unlinked e.index ⟨p, e, hp, rfl⟩).1, fun hlt => ?_⟩
  obtain ⟨p, v, e, -, hp, hindex⟩ := hq.blocked h.stopped hlt
  exact ⟨p, e, hp, hindex⟩

/-- The destructor on any state of any run: with what was dequeued before, it hands out exactly the
values before the first missing link, each once, and never deletes the node of a pending store. It
deletes every node, and every value is handed out, exactly when no producer is between its two steps. -/
theorem destroy_frees_iff {α : Type} {σ : QueueState α}
    (h : System.Reach (queueMachine α) System.Free σ) {n : ℕ} (hn : σ.exchanged.length < n) :
    ∃ queue outputs m, σ.queue.destroy n = .ok (queue, outputs) ∧ FirstMissing σ m ∧
      σ.delivered ++ outputs = (σ.exchanged.map Prod.snd).take m ∧
      (∀ p e, σ.producer p = some e → queue.node e.prevhead ≠ none) ∧
      ((∀ a, queue.node a = none) ↔ ∀ p, σ.producer p = none) ∧
      ((∀ p, σ.producer p = none) → σ.delivered ++ outputs = σ.exchanged.map Prod.snd) := by
  obtain ⟨chain₀, hinv, howned⟩ := QueueInv.reach_owned h
  obtain ⟨⟨q, outputs⟩, hrun, hemptied⟩ :=
    hinv.enqueues.run_destroyBody howned (Nat.lt_of_le_of_lt (Nat.sub_le _ _) hn)
  obtain ⟨chain, hq, ho⟩ := hemptied.rest
  have hfirst : FirstMissing σ (σ.delivered.length + outputs.length) := .of_emptied hemptied
  -- the values of the prefix that is out
  have hout : σ.delivered ++ outputs =
      (σ.exchanged.map Prod.snd).take (σ.delivered.length + outputs.length) := by
    have houtputs := hemptied.outputs
    obtain ⟨later, hlater⟩ := hinv.delivered
    rw [← hlater, List.drop_left] at houtputs
    rw [← hlater, List.take_length_add_append, ← houtputs]
  refine ⟨q.setNode q.head none, outputs, _, ?_, hfirst, hout, fun p e hp => hq.pending_alive hp,
    ⟨fun hfree p => ?_, fun hnone => hq.all_deleted ho (hfirst.eq_length hnone)⟩, fun hnone => ?_⟩
  · obtain ⟨head, hhead, -⟩ := hq.linked.next _ _ hq.linked.last
    simp [MpscQueue.destroy, hrun, MpscQueue.deref_eq_ok.mpr hhead, bind, Except.bind, pure,
      Except.pure]
  · cases hp : σ.producer p with
    | none => rfl
    | some e => exact absurd (hfree e.prevhead) (hq.pending_alive hp)
  · rw [hout, hfirst.eq_length hnone]
    exact List.take_of_length_le (by simp)

/-- Three exchanges, the second of which is not linked yet: one value is handed out. -/
theorem destroy_frees_iff_missing_link :
    ∃ (σ : QueueState ℕ) (queue : MpscQueue ℕ) (outputs : List ℕ),
      System.Reach (queueMachine ℕ) System.Free σ ∧ σ.queue.destroy 4 = .ok (queue, outputs) ∧
      outputs = [7] ∧ σ.producer 1 ≠ none ∧ ¬ ∀ a, queue.node a = none := by
  obtain ⟨σ, -, hreach, hp⟩ := System.exists_reach (M := queueMachine ℕ) (G := System.Free)
    [.exchange 0 1 7, .store 0, .exchange 1 2 8, .exchange 2 3 9, .store 2]
    (fun σ => σ.exchanged = [(0, 7), (1, 8), (2, 9)] ∧ σ.delivered = [] ∧ σ.producer 0 = none ∧
      (σ.producer 1).map Pending.index = some 1) ⟨0, rfl⟩ (by decide)
  obtain ⟨hexchanged, hdelivered, hzero, hpending⟩ := of_decide_eq_true hp
  obtain ⟨e, he, hindex⟩ := Option.map_eq_some_iff.mp hpending
  have hblocked : σ.producer 1 ≠ none := by simp [he]
  obtain ⟨queue, outputs, m, hdestroy, hfirst, hout, -, hfree, -⟩ :=
    destroy_frees_iff hreach (n := 4) (by simp [hexchanged])
  -- the first link that is missing is that of producer 1
  obtain ⟨chain, hinv⟩ := QueueInv.reach hreach
  have hlen : σ.exchanged.length = 3 := by rw [hexchanged]; rfl
  have hle := hfirst.before 1 e he
  obtain ⟨p, e', hp, hm⟩ := hfirst.missing (by omega)
  obtain ⟨-, v, hv⟩ := hinv.enqueues.pending p e' hp
  have hpos : m ≠ 0 := by
    rintro rfl
    rw [hm, hexchanged] at hv
    obtain ⟨rfl, -⟩ : 0 = p ∧ 7 = v := by simpa using hv
    rw [hzero] at hp
    cases hp
  obtain rfl : m = 1 := by omega
  rw [hexchanged, hdelivered] at hout
  exact ⟨σ, queue, outputs, hreach, hdestroy, hout, hblocked, fun h => hblocked (hfree.mp h 1)⟩

end Mutty.Net
