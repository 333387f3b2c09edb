import Mutty.Timing.Safety

/-!
# Late firing

A bucket is queued under the expiration of the first entry put into it. An entry that lands later
in the same bucket with an earlier expiration waits for that key. `Prompt` asks of every landing
in a queued bucket that the key is at most one tick after the entry; under it every linked entry
is within a tick of its bucket's key, and when `advanceClock` returns every task that expired a
tick ago has been handed over.
-/

namespace Mutty.Timing

open Mutty.Lib

/-- If an entry of expiration `e` lands in a queued bucket, the bucket's key is at most a tick
after `e`. -/
def PromptFor (g : Geometry) (s : Timer) (e : ℤ) : Prop :=
  clock s + g.tick ≤ e → ∀ q ∈ s.queue, g.Lands (clock s) e q.bucket.1 →
    q.bucket.2 = slot (g.T q.bucket.1) g.size e → q.expiration ≤ e + g.tick

def Phase.head : Phase → Option EntryId
  | .reinserting _ x => some x
  | _ => none

/-- Whole calls, and every insertion is prompt. -/
def Prompt (g : Geometry) (s : Timer) (a : Act) : Prop :=
  Sequential s a ∧
    match a with
    | .add e => PromptFor g s e
    | .reinsert => ∀ x ∈ s.phase.head, PromptFor g s (expiration s x)
    | _ => True

instance (g : Geometry) (s : Timer) (e : ℤ) : Decidable (PromptFor g s e) :=
  inferInstanceAs (Decidable (_ → ∀ q ∈ s.queue, _ → _ → _))

instance (g : Geometry) (s : Timer) (a : Act) : Decidable (Prompt g s a) :=
  match a with
  | .add e => inferInstanceAs (Decidable (_ ∧ PromptFor g s e))
  | .reinsert => inferInstanceAs (Decidable (_ ∧ ∀ x ∈ s.phase.head, _))
  | .clock _ | .poll _ | .advance | .take | .endFlush => inferInstanceAs (Decidable (_ ∧ True))

def OnTime (g : Geometry) (s : Timer) : Prop :=
  ∀ x b, (s.entry x).list = some b → ∀ q ∈ s.queue, q.bucket = b →
    q.expiration ≤ expiration s x + g.tick

/-- Every task that expired at least a tick ago has been handed over. -/
def NoneLate (g : Geometry) (s : Timer) : Prop :=
  ∀ x < s.count, (s.entry x).expiration ≤ s.now - g.tick → HandedOver s x

section

variable {g : Geometry} {ins : Option EntryId} {s s' : Timer} {x : EntryId}

theorem landed_onTime {m : ℕ} (l : Landed g s x m s') (h : Inv g ins s) (ht : OnTime g s)
    (hdue : clock s + g.tick ≤ expiration s x) (hm : g.Lands (clock s) (expiration s x) m)
    (hp : PromptFor g s (expiration s x)) : OnTime g s' := by
  have htick := g.tick_pos
  -- an entry that was queued before meets only keys that were queued before
  have hold : ∀ y b, (s'.entry y).list = some b → ∀ q ∈ s.queue, q.bucket = b →
      q.expiration ≤ expiration s y + g.tick := by
    intro y b hy q hq hqb
    rw [l.list] at hy
    split_ifs at hy with hyx
    · subst hyx
      obtain rfl := Option.some.inj hy
      exact hp hdue q hq (by rw [hqb]; exact hm) (by rw [hqb])
    · exact ht y b hy q hq hqb
  intro y b hy q hq hqb
  rw [l.expiration]
  rcases l.queue with hqueue | ⟨hqueue, hnl⟩
  · exact hold y b hy q (hqueue ▸ hq) hqb
  · rw [hqueue] at hq
    rcases List.mem_append.mp hq with hq | hq
    · exact hold y b hy q hq hqb
    · obtain rfl := List.mem_singleton.mp hq
      rw [l.list] at hy
      split_ifs at hy with hyx
      · subst hyx
        show expiration s y ≤ _
        omega
      · subst hqb
        exact absurd (h.seats y _ hy).live hnl

theorem Inserted.onTime (i : Inserted g s x s') (h : Inv g ins s)
    (hins : ∀ y, ins = some y → y = x) (hx : x < s.count) (hxd : x ∉ s.deleted)
    (ht : OnTime g s) (hp : PromptFor g s (expiration s x)) : OnTime g s' := by
  obtain ⟨_, rfl⟩ | ⟨hdue, m, hm, hl⟩ := i.landed h hins hx hxd
  · exact ht
  · exact landed_onTime hl h ht hdue hm hp

theorem newEntry_onTime (ht : OnTime g s) (e : ℤ) : OnTime g (newEntry s e) := by
  intro y b hy q hq hqb
  have hne : y ≠ s.count := by
    rintro rfl
    rw [newEntry_eq] at hy
    simp at hy
  rw [newEntry_eq] at hy hq ⊢
  simp only [Function.update_of_ne hne] at hy
  have hle := ht y b hy q hq hqb
  simpa only [expiration, Function.update_of_ne hne] using hle

theorem Stepped.onTime {a : Act} (st : Stepped g s a s') (h : Good g s) (ht : OnTime g s)
    (hp : Prompt g s a) : OnTime g s' := by
  cases st with
  | clock _ _ => exact ht
  | add _ hins =>
    have hinv := h.inv_none (by rw [show s.phase = .idle from hp.1]; rfl)
    obtain ⟨hlt, hnd⟩ := (newEntry_inv hinv _).owned.held s.count rfl
    refine hins.onTime (newEntry_inv hinv _) (fun y hy => (Option.some.inj hy).symm) hlt hnd
      (newEntry_onTime ht _) ?_
    rw [newEntry_expiration, newEntry_eq]
    exact hp.2
  | pollNone _ _ => exact ht
  | pollSome _ _ _ _ => exact fun y b hy q hq => ht y b hy q (List.mem_of_mem_eraseIdx hq)
  | @advance _ b hph _ =>
    have hadv := advanceClock_advanced g.num s.levels s 0 (bucketExpiration s b)
    intro y b hy q hq hqb
    rw [hadv.rest] at hy hq ⊢
    exact ht y b hy q hq hqb
  | takeOwn _ _ _ hu =>
    intro y b hy q hq hqb
    have hq' : q ∈ s.queue := hu.queue ▸ hq
    have hle := ht y b (hu.list_eq hy).2 q hq' hqb
    rw [← hu.expiration] at hle
    exact hle
  | takeOther _ _ _ _ _ => exact ht
  | reinsert hph hins =>
    have hinv := h.inv_some hph
    obtain ⟨hlt, hnd⟩ := hinv.owned.held _ rfl
    exact hins.onTime hinv (fun y hy => (Option.some.inj hy).symm) hlt hnd ht
      (hp.2 _ (by rw [hph]; rfl))
  | endFlush hph _ =>
    have hinv := h.inv_none (by rw [hph]; rfl)
    have hflag := (hinv.clocks.shape _ (hinv.working _ (by rw [hph]; rfl)).level).setFlag
    intro y b hy q hq hqb
    rw [clearExpiration_eq hflag] at hy hq ⊢
    exact ht y b hy q hq hqb

theorem reach_onTime (h : (system g.num g.tick g.size).Reach (InRange g (Prompt g)) s) :
    Good g s ∧ OnTime g s := by
  refine h.invariant (I := fun s => Good g s ∧ OnTime g s) ?_ ?_
  · rintro s ⟨startMs, hh, rfl⟩
    exact ⟨new_good g startMs hh, fun x b hx => by simp [new] at hx⟩
  · rintro s a s' ⟨hs, ht⟩ ⟨hp, hf⟩ hstep
    have st := step_stepped hs hf hstep
    exact ⟨st.good hs (Ordered.of_sequential s a hp.1), st.onTime hs ht hp⟩

theorem noneLate_of_polled (h : Inv g none s) (ht : OnTime g s) (hact : s.phase.active = none)
    (hlate : ∀ q ∈ s.queue, s.now < q.expiration) : NoneLate g s := by
  intro x hx he
  rw [h.handedOver_iff hx]
  rcases h.owned.linked_or_deleted x hx (by simp) with hl | hd
  · obtain ⟨b, hb⟩ := Option.ne_none_iff_exists'.mp hl
    rcases (h.seats x b hb).live with ⟨q, hq, hqb⟩ | hb'
    · have h1 := hlate q hq
      have h2 := ht x b hb q hq hqb
      unfold expiration at h2
      omega
    · rw [hact] at hb'
      cases hb'
  · exact hd

end

/-! ## Main result -/

theorem none_late_of_prompt (g : Geometry) (s s' : Timer) (i : ℕ)
    (h : (system g.num g.tick g.size).Reach (InRange g (Prompt g)) s)
    (hs : step g.num s (.poll i) = some s') (hret : s'.phase = .idle) : NoneLate g s' := by
  obtain ⟨hg, ht⟩ := reach_onTime h
  cases step_stepped hg (a := .poll i) trivial hs with
  | pollNone hph hlate =>
    have hinv : Inv g none s := by
      rcases hph with hph | hph <;> exact hg.inv_none (by rw [hph]; rfl)
    have hact : s.phase.active = none := by rcases hph with hph | hph <;> rw [hph] <;> rfl
    have hl : NoneLate g s := noneLate_of_polled hinv ht hact hlate
    exact hl
  | pollSome _ _ _ _ => cases hret

theorem none_late_after_cascade :
    ∃ s s', (system .long 1 3).exec (InRange unitWheel (Prompt unitWheel)) (new .long 1 3 0)
        [.add 3, .add 5, .clock 4, .poll 0, .advance, .take, .reinsert, .take, .reinsert,
          .endFlush] = some s ∧
      step .long s (.poll 0) = some s' ∧ NoneLate unitWheel s' := by
  obtain ⟨s, hs, hreach, hp⟩ := System.exists_reach (M := system .long 1 3)
    (G := InRange unitWheel (Prompt unitWheel))
    [.add 3, .add 5, .clock 4, .poll 0, .advance, .take, .reinsert, .take, .reinsert, .endFlush]
    (fun s => (step .long s (.poll 0)).any fun s' => s'.phase = .idle) ⟨0, rfl, rfl⟩ (by decide)
  obtain ⟨s', hs', hidle⟩ := (Option.any_eq_true _ _).mp hp
  exact ⟨s, s', hs, hs', none_late_of_prompt unitWheel s s' 0 hreach hs' (of_decide_eq_true hidle)⟩

/-- Tasks 5 and 3 share a bucket of the second wheel that is queued under 5: at time 4 the poll
finds nothing and task 3 waits. -/
theorem late_in_shared_bucket :
    ∃ s s', (system .long 1 3).exec Sequential (new .long 1 3 0) [.add 5, .add 3, .clock 4] = some s ∧
      (system .long 1 3).Reach Sequential s ∧ step .long s (.poll 0) = some s' ∧
      s'.phase = .idle ∧ ¬ NoneLate unitWheel s' := by
  obtain ⟨s, hs, hreach, hp⟩ := System.exists_reach (M := system .long 1 3) (G := Sequential)
    [.add 5, .add 3, .clock 4]
    (fun s => (step .long s (.poll 0)).any fun s' => s'.phase = .idle ∧ 1 < s'.count ∧
      (s'.entry 1).expiration = 3 ∧ s'.now = 4 ∧ s'.handed = []) ⟨0, rfl, rfl⟩ (by decide)
  obtain ⟨s', hs', hp'⟩ := (Option.any_eq_true _ _).mp hp
  obtain ⟨hidle, hcount, hexp, hnow, hnil⟩ := of_decide_eq_true hp'
  refine ⟨s, s', hs, hreach, hs', hidle, ?_⟩
  intro hl
  have h1 := hl 1 hcount (by rw [hexp, hnow]; decide)
  unfold HandedOver at h1
  rw [hnil] at h1
  cases h1

end Mutty.Timing
