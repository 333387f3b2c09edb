import Mutty.Net.TcpConnection

/-!
# The poller and the kernel's interest list

The registration of a channel is kept three times: in its `index_`, in the poller's map
`channels_`, and in the kernel. Channels are named by `ι` and `fd` gives their file descriptors.
`epollCtl` is the kernel's side: adding a registered descriptor, or changing an unregistered one,
fails and leaves the list as it is. The code ignores the failure; `refused` records it.
-/

namespace Mutty.Net

open Mutty.Lib

def Channel.disableReading (ch : Channel) : Channel := ⟨ch.events &&& ~~~ kReadEvent⟩

inductive ChannelIndex
  | kNew | kAdded | kDeleted
  deriving DecidableEq, Repr

inductive EpollOp
  | EPOLL_CTL_ADD | EPOLL_CTL_MOD | EPOLL_CTL_DEL
  deriving DecidableEq, Repr

structure EpollEvent (ι : Type) where
  events : BitVec 32
  ptr : ι

structure EPollPoller (ι : Type) where
  channel : ι → Channel := fun _ => {}
  index : ι → ChannelIndex := fun _ => .kNew
  channels : ℤ → Option ι := fun _ => none
  interest : ℤ → Option (EpollEvent ι) := fun _ => none
  refused : List (EpollOp × ℤ) := []

inductive ChannelCall
  | enableReading | disableReading | enableWriting | disableWriting | disableAll | remove
  deriving DecidableEq, Repr

section

variable {ι : Type}

def epollCtl (interest : ℤ → Option (EpollEvent ι)) (operation : EpollOp) (fd : ℤ)
    (event : EpollEvent ι) : Option (ℤ → Option (EpollEvent ι)) :=
  match operation, interest fd with
  | .EPOLL_CTL_ADD, none => some (Function.update interest fd (some event))
  | .EPOLL_CTL_MOD, some _ => some (Function.update interest fd (some event))
  | .EPOLL_CTL_DEL, some _ => some (Function.update interest fd none)
  | _, _ => none

namespace EPollPoller

variable (fd : ι → ℤ) (s : EPollPoller ι)

def update (operation : EpollOp) (c : ι) : EPollPoller ι :=
  match epollCtl s.interest operation (fd c) ⟨(s.channel c).events, c⟩ with
  | some interest => { s with interest := interest }
  | none => { s with refused := s.refused ++ [(operation, fd c)] }

variable [DecidableEq ι]

def setIndex (c : ι) (idx : ChannelIndex) : EPollPoller ι :=
  { s with index := Function.update s.index c idx }

/-- The two asserts on the map, that it has the descriptor and has it for `c`, are one here. -/
def updateChannel (c : ι) : Checked (EPollPoller ι) :=
  match s.index c with
  | .kNew => do
    require (s.channels (fd c) = none)
    let s := { s with channels := Function.update s.channels (fd c) (some c) }
    return update fd (setIndex s c .kAdded) .EPOLL_CTL_ADD c
  | .kDeleted => do
    require (s.channels (fd c) = some c)
    return update fd (setIndex s c .kAdded) .EPOLL_CTL_ADD c
  | .kAdded => do
    require (s.channels (fd c) = some c)
    if (s.channel c).isNoneEvent then return setIndex (update fd s .EPOLL_CTL_DEL c) c .kDeleted
    else return update fd s .EPOLL_CTL_MOD c

def removeChannel (c : ι) : Checked (EPollPoller ι) := do
  require (s.channels (fd c) = some c)
  require (s.channel c).isNoneEvent
  require (s.index c = .kAdded ∨ s.index c = .kDeleted)
  let index := s.index c
  let s := { s with channels := Function.update s.channels (fd c) none }
  let s := if index = .kAdded then update fd s .EPOLL_CTL_DEL c else s
  return setIndex s c .kNew

/-- Writing `events_`, then `Channel::update`. -/
def setChannel (c : ι) (ch : Channel) : Checked (EPollPoller ι) :=
  updateChannel fd { s with channel := Function.update s.channel c ch } c

def call (c : ι) : ChannelCall → Checked (EPollPoller ι)
  | .enableReading => s.setChannel fd c (s.channel c).enableReading
  | .disableReading => s.setChannel fd c (s.channel c).disableReading
  | .enableWriting => s.setChannel fd c (s.channel c).enableWriting
  | .disableWriting => s.setChannel fd c (s.channel c).disableWriting
  | .disableAll => s.setChannel fd c (s.channel c).disableAll
  | .remove => do
    require (s.channel c).isNoneEvent
    s.removeChannel fd c

end EPollPoller

/-- The runs without a failed assert. -/
def pollerMachine [DecidableEq ι] (fd : ι → ℤ) : System (EPollPoller ι) (ι × ChannelCall) where
  init s := s = {}
  step s a := (s.call fd a.1 a.2).toOption

/-- The map and the interest list agree with the indices, and no `epoll_ctl` call was refused. -/
structure Mirrors (fd : ι → ℤ) (s : EPollPoller ι) : Prop where
  channels : ∀ f c, s.channels f = some c ↔ fd c = f ∧ s.index c ≠ .kNew
  interest : ∀ f e, s.interest f = some e ↔
    fd e.ptr = f ∧ s.index e.ptr = .kAdded ∧ e.events = (s.channel e.ptr).events
  refused : s.refused = []

namespace EPollPoller

variable {fd : ι → ℤ} {s s' : EPollPoller ι} {c : ι}

theorem update_add (h : s.interest (fd c) = none) : update fd s .EPOLL_CTL_ADD c =
    { s with interest := Function.update s.interest (fd c) (some ⟨(s.channel c).events, c⟩) } := by
  simp [update, epollCtl, h]

theorem update_mod {e : EpollEvent ι} (h : s.interest (fd c) = some e) :
    update fd s .EPOLL_CTL_MOD c =
      { s with interest := Function.update s.interest (fd c) (some ⟨(s.channel c).events, c⟩) } := by
  simp [update, epollCtl, h]

theorem update_del {e : EpollEvent ι} (h : s.interest (fd c) = some e) :
    update fd s .EPOLL_CTL_DEL c =
      { s with interest := Function.update s.interest (fd c) none } := by
  simp [update, epollCtl, h]

/-- The poller with the events and the index of `c` as given, and map and list to match. -/
def rewritten [DecidableEq ι] (fd : ι → ℤ) (s : EPollPoller ι) (c : ι) (ch : Channel)
    (idx : ChannelIndex) : EPollPoller ι where
  channel := Function.update s.channel c ch
  index := Function.update s.index c idx
  channels := Function.update s.channels (fd c) (if idx = .kNew then none else some c)
  interest := Function.update s.interest (fd c) (if idx = .kAdded then some ⟨ch.events, c⟩ else none)
  refused := s.refused

end EPollPoller

namespace Mirrors

variable {fd : ι → ℤ} {s s' : EPollPoller ι} {c : ι}

theorem init : Mirrors fd ({} : EPollPoller ι) where
  channels := by simp
  interest := by simp
  refused := rfl

theorem interest_self (h : Mirrors fd s) (hc : s.index c = .kAdded) :
    s.interest (fd c) = some ⟨(s.channel c).events, c⟩ :=
  (h.interest _ _).mpr ⟨rfl, hc, rfl⟩

theorem interest_none (h : Mirrors fd s) (hfd : Function.Injective fd) (hc : s.index c ≠ .kAdded) :
    s.interest (fd c) = none := by
  cases he : s.interest (fd c) with
  | none => rfl
  | some e =>
    obtain ⟨h1, h2, -⟩ := (h.interest _ _).mp he
    rw [hfd h1] at h2
    exact absurd h2 hc

theorem channels_none (h : Mirrors fd s) (hfd : Function.Injective fd) (hc : s.index c = .kNew) :
    s.channels (fd c) = none := by
  cases hd : s.channels (fd c) with
  | none => rfl
  | some d =>
    obtain ⟨h1, h2⟩ := (h.channels _ _).mp hd
    rw [hfd h1] at h2
    exact absurd hc h2

variable [DecidableEq ι]

theorem rewritten (h : Mirrors fd s) (hfd : Function.Injective fd) (c : ι) (ch : Channel)
    (idx : ChannelIndex) : Mirrors fd (s.rewritten fd c ch idx) where
  channels := by
    intro f d
    simp only [EPollPoller.rewritten, Function.update_apply]
    by_cases hd : d = c
    · subst hd
      by_cases hf : f = fd d
      · simp [hf]
      · have hn : s.channels f ≠ some d := fun he => hf ((h.channels f d).mp he).1.symm
        simp [hf, hn, Ne.symm hf]
    · by_cases hf : f = fd c
      · have hne : fd d ≠ fd c := fun he => hd (hfd he)
        simp only [hf, hne, if_true, false_and, iff_false]
        split_ifs <;> simp [Ne.symm hd]
      · simp only [hf, hd, if_false]
        exact h.channels f d
  interest := by
    intro f e
    simp only [EPollPoller.rewritten, Function.update_apply]
    by_cases hd : e.ptr = c
    · subst hd
      by_cases hf : f = fd e.ptr
      · simp only [hf, if_true, true_and]
        split_ifs with hadded
        · rw [Option.some.injEq]
          exact ⟨fun he => ⟨hadded, he ▸ rfl⟩, fun he => by rw [← he.2]⟩
        · simp [hadded]
      · have hn : s.interest f ≠ some e := fun he => hf ((h.interest f e).mp he).1.symm
        simp [hf, hn, Ne.symm hf]
    · by_cases hf : f = fd c
      · have hne : fd e.ptr ≠ fd c := fun he => hd (hfd he)
        simp only [hf, hne, if_true, false_and, iff_false]
        split_ifs
        · intro he
          exact hd (Option.some.inj he ▸ rfl)
        · simp
      · simp only [hf, hd, if_false]
        exact h.interest f e
  refused := h.refused

theorem setChannel_eq (h : Mirrors fd s) (hfd : Function.Injective fd) (c : ι) (ch : Channel) :
    ∃ idx, s.setChannel fd c ch = .ok (s.rewritten fd c ch idx) := by
  unfold EPollPoller.setChannel EPollPoller.updateChannel
  cases hidx : s.index c with
  | kNew =>
    have hmap := h.channels_none hfd hidx
    have hlist := h.interest_none hfd (c := c) (by rw [hidx]; decide)
    refine ⟨.kAdded, ?_⟩
    simp only [require, hmap, if_true, bind, Except.bind, pure, Except.pure]
    rw [EPollPoller.update_add (by exact hlist)]
    simp [EPollPoller.setIndex, EPollPoller.rewritten]
  | kDeleted =>
    have hmap := (h.channels (fd c) c).mpr ⟨rfl, by rw [hidx]; decide⟩
    have hlist := h.interest_none hfd (c := c) (by rw [hidx]; decide)
    refine ⟨.kAdded, ?_⟩
    simp only [require, hmap, if_true, bind, Except.bind, pure, Except.pure]
    rw [EPollPoller.update_add (by exact hlist)]
    simp [EPollPoller.setIndex, EPollPoller.rewritten, hmap]
  | kAdded =>
    have hmap := (h.channels (fd c) c).mpr ⟨rfl, by rw [hidx]; decide⟩
    have hlist := h.interest_self hidx
    simp only [require, hmap, if_true, bind, Except.bind, pure, Except.pure]
    split_ifs with hnone
    · refine ⟨.kDeleted, ?_⟩
      rw [EPollPoller.update_del (by exact hlist)]
      simp [EPollPoller.setIndex, EPollPoller.rewritten, hmap]
    · refine ⟨.kAdded, ?_⟩
      rw [EPollPoller.update_mod (by exact hlist)]
      simp [EPollPoller.rewritten, hmap, hidx]

theorem removeChannel_eq (h : Mirrors fd s) (hfd : Function.Injective fd)
    (hs : s.removeChannel fd c = .ok s') : s' = s.rewritten fd c (s.channel c) .kNew := by
  obtain ⟨_, -, hs⟩ := bind_eq_ok.mp hs
  obtain ⟨_, -, hs⟩ := bind_eq_ok.mp hs
  obtain ⟨_, hidx, hs⟩ := bind_eq_ok.mp hs
  obtain rfl := Except.ok.inj hs
  rcases require_eq_ok.mp hidx with hadded | hdeleted
  · rw [if_pos hadded, EPollPoller.update_del (by exact h.interest_self hadded)]
    simp [EPollPoller.setIndex, EPollPoller.rewritten]
  · have hlist := h.interest_none hfd (c := c) (by rw [hdeleted]; decide)
    rw [if_neg (by rw [hdeleted]; decide)]
    simp [EPollPoller.setIndex, EPollPoller.rewritten, hlist]

theorem call_eq (h : Mirrors fd s) (hfd : Function.Injective fd) (a : ChannelCall)
    (hs : s.call fd c a = .ok s') : ∃ ch idx, s' = s.rewritten fd c ch idx := by
  have hset : ∀ ch, s.setChannel fd c ch = .ok s' → ∃ ch idx, s' = s.rewritten fd c ch idx := by
    intro ch hch
    obtain ⟨idx, heq⟩ := h.setChannel_eq hfd c ch
    exact ⟨ch, idx, (Except.ok.inj (heq.symm.trans hch)).symm⟩
  cases a with
  | remove =>
    obtain ⟨_, -, hs⟩ := bind_eq_ok.mp hs
    exact ⟨_, _, h.removeChannel_eq hfd hs⟩
  | enableReading => exact hset _ hs
  | disableReading => exact hset _ hs
  | enableWriting => exact hset _ hs
  | disableWriting => exact hset _ hs
  | disableAll => exact hset _ hs

theorem call (h : Mirrors fd s) (hfd : Function.Injective fd) (a : ChannelCall)
    (hs : s.call fd c a = .ok s') : Mirrors fd s' := by
  obtain ⟨ch, idx, rfl⟩ := h.call_eq hfd a hs
  exact h.rewritten hfd c ch idx

theorem reach (hfd : Function.Injective fd) (h : System.Reach (pollerMachine fd) System.Free s) :
    Mirrors fd s := by
  refine h.invariant (fun s hs => ?_) fun s a s' hi _ hs => ?_
  · obtain rfl := hs
    exact init
  · exact hi.call hfd a.2 (toOption_eq_some.mp hs)

end Mirrors

end

theorem poller_mirrors_kernel {ι : Type} [DecidableEq ι] (fd : ι → ℤ) (hfd : Function.Injective fd)
    (s : EPollPoller ι) (h : System.Reach (pollerMachine fd) System.Free s) :
    (∀ c, s.channels (fd c) = some c ↔ s.index c = .kAdded ∨ s.index c = .kDeleted) ∧
      (∀ f c, s.channels f = some c → f = fd c) ∧
      (∀ c, s.interest (fd c) =
        if s.index c = .kAdded then some ⟨(s.channel c).events, c⟩ else none) ∧
      s.refused = [] := by
  have hm := Mirrors.reach hfd h
  refine ⟨fun c => ?_, fun f c hc => ((hm.channels f c).mp hc).1.symm, fun c => ?_, hm.refused⟩
  · rw [hm.channels]
    cases s.index c <;> simp
  · split_ifs with hadded
    · exact hm.interest_self hadded
    · exact hm.interest_none hfd hadded

/-- A channel that is enabled, disabled and enabled again, and another that is removed. -/
theorem poller_mirrors_kernel_after_remove :
    ∃ s : EPollPoller ℕ, System.Reach (pollerMachine fun n : ℕ => (n : ℤ)) System.Free s ∧
      s.index 0 = .kAdded ∧ s.index 1 = .kNew ∧
      s.interest 0 = some ⟨(s.channel 0).events, 0⟩ ∧ s.interest 1 = none ∧ s.refused = [] := by
  obtain ⟨s, -, hreach, hp⟩ := System.exists_reach (G := System.Free)
    (M := pollerMachine fun n : ℕ => (n : ℤ)) (s := {})
    [(0, .enableReading), (1, .enableWriting), (0, .disableAll), (0, .enableWriting), (1, .disableAll),
      (1, .remove)] (fun s => decide (s.index 0 = .kAdded ∧ s.index 1 = .kNew)) rfl (by decide)
  obtain ⟨h0, h1⟩ := of_decide_eq_true hp
  obtain ⟨-, -, hlist, hrefused⟩ := poller_mirrors_kernel _ (fun _ _ h => Int.ofNat.inj h) s hreach
  have hl0 := hlist 0
  have hl1 := hlist 1
  rw [if_pos h0] at hl0
  rw [if_neg (by rw [h1]; decide)] at hl1
  exact ⟨s, hreach, h0, h1, hl0, hl1, hrefused⟩

end Mutty.Net
