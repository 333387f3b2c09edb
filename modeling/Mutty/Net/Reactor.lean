import Mutty.Net.EPollPoller

/-!
# Handling the events of one poll

`loop` polls, then handles the channels that `poll` reported one after the other. A handler may
change and remove channels, its own and others. `fillActiveChannels` asserts that the kernel
reports registered channels only, and `removeChannel` that no channel is removed while it waits for
its turn; a `Reactor` is the poller with what `loop` keeps between these. `Reports` is what
`epoll_wait` promises.
-/

namespace Mutty.Net

open Mutty.Lib

def POLLIN : BitVec 32 := 0x1
def POLLPRI : BitVec 32 := 0x2
def POLLOUT : BitVec 32 := 0x4
def POLLERR : BitVec 32 := 0x8
def POLLHUP : BitVec 32 := 0x10
def POLLNVAL : BitVec 32 := 0x20
def POLLRDHUP : BitVec 32 := 0x2000

def kInitEventListSize : ℕ := 16

/-- How far the loop is with the events of the last `poll`. -/
structure Dispatch (ι : Type) where
  eventHandling : Bool := false
  currentActiveChannel : Option ι := none
  activeChannels : List ι := []
  deriving DecidableEq, Repr

/-- The assert of `EventLoop::removeChannel`. -/
def Dispatch.AllowsRemoval {ι : Type} (d : Dispatch ι) (c : ι) : Prop :=
  d.eventHandling = true → d.currentActiveChannel = some c ∨ c ∉ d.activeChannels

instance {ι : Type} [DecidableEq ι] (d : Dispatch ι) (c : ι) : Decidable (d.AllowsRemoval c) :=
  inferInstanceAs (Decidable (_ → _))

structure Reactor (ι : Type) extends Dispatch ι where
  poller : EPollPoller ι := {}
  revents : ι → BitVec 32 := fun _ => 0
  events : ℕ := kInitEventListSize
  /-- how many of the active channels have had their turn -/
  turn : ℕ := 0
  /-- what the last `poll` reported, and the events with which channels were handled since -/
  reported : List (EpollEvent ι) := []
  handled : List (EpollEvent ι) := []

inductive ReactorAction (ι : Type)
  | call (c : ι) (call : ChannelCall)
  | poll (report : List (EpollEvent ι))
  | handleEvent
  | handled

section

variable {ι : Type} [DecidableEq ι]

namespace Reactor

variable (fd : ι → ℤ) (s : Reactor ι)

/-- One iteration of the loop of `fillActiveChannels`; the two asserts on the map are one here. -/
def fillActiveChannel (e : EpollEvent ι) : Checked (Reactor ι) := do
  require (s.poller.channels (fd e.ptr) = some e.ptr)
  return { s with
    revents := Function.update s.revents e.ptr e.events
    activeChannels := s.activeChannels ++ [e.ptr] }

def fillActiveChannels (report : List (EpollEvent ι)) : Checked (Reactor ι) := do
  require (report.length ≤ s.events)
  report.foldlM (fillActiveChannel fd) s

/-- `EPollPoller::poll` for what `epoll_wait` has reported. -/
def pollReport (report : List (EpollEvent ι)) : Checked (Reactor ι) :=
  if report.length > 0 then do
    let s ← s.fillActiveChannels fd report
    return if report.length = s.events then { s with events := s.events * 2 } else s
  else return s

def call (c : ι) (a : ChannelCall) : Checked (Reactor ι) := do
  if a = .remove then require (s.AllowsRemoval c)
  let poller ← s.poller.call fd c a
  return { s with poller }

/-- One step of `loop`; channels may be changed before, between and in the turns. -/
def run : ReactorAction ι → Option (Checked (Reactor ι))
  | .call c a => some (s.call fd c a)
  | .poll report =>
    if s.eventHandling then none
    else some do
      let s ← { s with activeChannels := [] }.pollReport fd report
      return { s with eventHandling := true, turn := 0, reported := report, handled := [] }
  | .handleEvent =>
    if s.eventHandling then
      s.activeChannels[s.turn]?.map fun c => .ok { s with
        currentActiveChannel := some c
        turn := s.turn + 1
        handled := s.handled ++ [⟨s.revents c, c⟩] }
    else none
  | .handled =>
    if s.eventHandling ∧ s.turn = s.activeChannels.length then
      some (.ok { s with currentActiveChannel := none, eventHandling := false })
    else none

end Reactor

def reactorMachine (fd : ι → ℤ) : System (Reactor ι) (ReactorAction ι) where
  init s := s = {}
  step s a := (s.run fd a).bind Except.toOption

/-- `epoll_wait` reports at most as many events as there is room for, each descriptor once, with
the pointer it was registered with. -/
structure Reports (fd : ι → ℤ) (s : Reactor ι) (report : List (EpollEvent ι)) : Prop where
  length : report.length ≤ s.events
  once : (report.map fun e => e.ptr).Nodup
  registered : ∀ e ∈ report, (s.poller.interest (fd e.ptr)).map (fun r => r.ptr) = some e.ptr

instance (fd : ι → ℤ) (s : Reactor ι) (report : List (EpollEvent ι)) :
    Decidable (Reports fd s report) :=
  decidable_of_iff (report.length ≤ s.events ∧ (report.map fun e => e.ptr).Nodup ∧
      ∀ e ∈ report, (s.poller.interest (fd e.ptr)).map (fun r => r.ptr) = some e.ptr)
    ⟨fun h => ⟨h.1, h.2.1, h.2.2⟩, fun h => ⟨h.length, h.once, h.registered⟩⟩

/-- The runs over a kernel that keeps that promise. -/
def Kernel (fd : ι → ℤ) (s : Reactor ι) : ReactorAction ι → Prop
  | .poll report => Reports fd s report
  | _ => True

instance (fd : ι → ℤ) (s : Reactor ι) (a : ReactorAction ι) : Decidable (Kernel fd s a) :=
  match a with
  | .poll report => inferInstanceAs (Decidable (Reports fd s report))
  | .call _ _ => isTrue trivial
  | .handleEvent => isTrue trivial
  | .handled => isTrue trivial

namespace EPollPoller

variable {fd : ι → ℤ} {s s' : EPollPoller ι} {c d : ι}

omit [DecidableEq ι] in
@[simp] theorem update_index (op : EpollOp) : (update fd s op c).index = s.index := by
  unfold update
  split <;> rfl

theorem setChannel_index {ch : Channel} (h : s.setChannel fd c ch = .ok s')
    (hd : s.index d ≠ .kNew) : s'.index d ≠ .kNew := by
  have hset : ∀ {t : EPollPoller ι} {idx : ChannelIndex}, t.index = s.index → idx ≠ .kNew →
      (t.setIndex c idx).index d ≠ .kNew := by
    intro t idx ht hidx
    simp only [setIndex, Function.update_apply, ht]
    split_ifs
    · exact hidx
    · exact hd
  unfold setChannel updateChannel at h
  cases hc : s.index c with
  | kNew =>
    simp only [hc, bind_eq_ok] at h
    obtain ⟨-, -, h⟩ := h
    rw [← Except.ok.inj h, update_index]
    exact hset rfl (by decide)
  | kDeleted =>
    simp only [hc, bind_eq_ok] at h
    obtain ⟨-, -, h⟩ := h
    rw [← Except.ok.inj h, update_index]
    exact hset rfl (by decide)
  | kAdded =>
    simp only [hc, bind_eq_ok] at h
    obtain ⟨-, -, h⟩ := h
    split_ifs at h
    · rw [← Except.ok.inj h]
      exact hset (by simp) (by decide)
    · rw [← Except.ok.inj h, update_index]
      exact hd

/-- Only `remove` takes a channel out of the map, and only that channel. -/
theorem call_index {a : ChannelCall} (hm : Mirrors fd s) (hfd : Function.Injective fd)
    (h : s.call fd c a = .ok s') (hd : s.index d ≠ .kNew) (hne : a = .remove → d ≠ c) :
    s'.index d ≠ .kNew := by
  cases a with
  | remove =>
    obtain ⟨_, -, h⟩ := bind_eq_ok.mp h
    rw [hm.removeChannel_eq hfd h]
    simpa [rewritten, hne rfl] using hd
  | enableReading => exact setChannel_index h hd
  | disableReading => exact setChannel_index h hd
  | enableWriting => exact setChannel_index h hd
  | disableWriting => exact setChannel_index h hd
  | disableAll => exact setChannel_index h hd

end EPollPoller

/-! ## Turns -/

def reventsAfter (revents : ι → BitVec 32) (report : List (EpollEvent ι)) : ι → BitVec 32 :=
  report.foldl (fun revents e => Function.update revents e.ptr e.events) revents

theorem reventsAfter_of_notMem {revents : ι → BitVec 32} {report : List (EpollEvent ι)} {c : ι}
    (h : ∀ e ∈ report, e.ptr ≠ c) : reventsAfter revents report c = revents c := by
  induction report generalizing revents with
  | nil => rfl
  | cons e report ih =>
    have hstep : reventsAfter revents (e :: report) =
        reventsAfter (Function.update revents e.ptr e.events) report := rfl
    rw [hstep, ih fun d hd => h d (by simp [hd])]
    exact Function.update_of_ne (h e (by simp)).symm _ _

theorem reventsAfter_of_mem {revents : ι → BitVec 32} {report : List (EpollEvent ι)}
    (honce : (report.map fun e => e.ptr).Nodup) {e : EpollEvent ι} (he : e ∈ report) :
    reventsAfter revents report e.ptr = e.events := by
  induction report generalizing revents with
  | nil => cases he
  | cons d report ih =>
    have hstep : reventsAfter revents (d :: report) =
        reventsAfter (Function.update revents d.ptr d.events) report := rfl
    obtain ⟨hd, hrest⟩ := List.nodup_cons.mp honce
    rw [hstep]
    rcases List.mem_cons.mp he with rfl | he
    · rw [reventsAfter_of_notMem]
      · simp
      · intro f hf heq
        exact hd (List.mem_map.mpr ⟨f, hf, heq⟩)
    · exact ih hrest he

namespace Reactor

variable {fd : ι → ℤ} {s s' : Reactor ι}

theorem foldlM_fill {report : List (EpollEvent ι)}
    (h : ∀ e ∈ report, s.poller.channels (fd e.ptr) = some e.ptr) :
    report.foldlM (fillActiveChannel fd) s = .ok { s with
      revents := reventsAfter s.revents report
      activeChannels := s.activeChannels ++ report.map fun e => e.ptr } := by
  induction report generalizing s with
  | nil => simp [reventsAfter, pure, Except.pure]
  | cons e report ih =>
    have hfirst : fillActiveChannel fd s e = .ok { s with
        revents := Function.update s.revents e.ptr e.events
        activeChannels := s.activeChannels ++ [e.ptr] } := by
      simp [fillActiveChannel, require, h e (by simp), bind, Except.bind, pure, Except.pure]
    have hrest : ∀ t : Reactor ι, t.poller = s.poller →
        report.foldlM (fillActiveChannel fd) t = .ok { t with
          revents := reventsAfter t.revents report
          activeChannels := t.activeChannels ++ report.map fun e => e.ptr } := by
      intro t ht
      exact ih fun d hd => by
        rw [ht]
        exact h d (by simp [hd])
    have hafter := hrest { s with
      revents := Function.update s.revents e.ptr e.events
      activeChannels := s.activeChannels ++ [e.ptr] } rfl
    rw [List.foldlM_cons, hfirst]
    refine hafter.trans ?_
    simp [reventsAfter]

theorem pollReport_eq (hm : Mirrors fd s.poller) {report : List (EpollEvent ι)}
    (hr : Reports fd s report) : { s with activeChannels := [] }.pollReport fd report = .ok { s with
      revents := reventsAfter s.revents report
      activeChannels := report.map fun e => e.ptr
      events := if report.length > 0 ∧ report.length = s.events then s.events * 2 else s.events } := by
  have hknown : ∀ e ∈ report, s.poller.channels (fd e.ptr) = some e.ptr := by
    intro e he
    obtain ⟨r, hinterest, hptr⟩ := Option.map_eq_some_iff.mp (hr.registered e he)
    obtain ⟨-, hadded, -⟩ := (hm.interest _ _).mp hinterest
    rw [hptr] at hadded
    exact (hm.channels _ _).mpr ⟨rfl, by rw [hadded]; decide⟩
  unfold pollReport
  by_cases hpos : report.length > 0
  · have hfill := foldlM_fill (s := { s with activeChannels := [] }) hknown
    rw [if_pos hpos, fillActiveChannels, require, if_pos hr.length]
    simp only [bind, Except.bind, pure, Except.pure] at hfill ⊢
    rw [hfill]
    by_cases hfull : report.length = s.events
    · simp [hfull, hfull ▸ hpos]
    · simp [hfull]
  · have hnil : report = [] := List.eq_nil_of_length_eq_zero (by omega)
    subst hnil
    simp [reventsAfter, pure, Except.pure]

end Reactor

/-- The invariant of a run: the channels that wait for their turn are still registered. -/
structure InTurn (fd : ι → ℤ) (s : Reactor ι) : Prop where
  mirrors : Mirrors fd s.poller
  room : ∃ k, s.events = kInitEventListSize * Nat.pow 2 k
  idle : s.eventHandling = false → s.currentActiveChannel = none
  current : ∀ c, s.currentActiveChannel = some c → c ∈ s.activeChannels.take s.turn
  active : s.eventHandling = true → s.activeChannels = s.reported.map fun e => e.ptr
  once : s.eventHandling = true → s.activeChannels.Nodup
  revents : s.eventHandling = true → ∀ e ∈ s.reported, s.revents e.ptr = e.events
  handled : s.eventHandling = true → s.handled = s.reported.take s.turn
  waiting : s.eventHandling = true → ∀ c ∈ s.activeChannels.drop s.turn, s.poller.index c ≠ .kNew

namespace InTurn

variable {fd : ι → ℤ} {s s' : Reactor ι}

theorem call {c : ι} {a : ChannelCall} (hs : InTurn fd s) (hfd : Function.Injective fd)
    (h : s.call fd c a = .ok s') : InTurn fd s' := by
  have hallowed : a = .remove → s.AllowsRemoval c := by
    rintro rfl
    simp only [Reactor.call, if_true, bind_eq_ok, require_eq_ok] at h
    obtain ⟨-, hallowed, -⟩ := h
    exact hallowed
  obtain ⟨poller, hcall, rfl⟩ : ∃ poller, s.poller.call fd c a = .ok poller ∧
      s' = { s with poller } := by
    unfold Reactor.call at h
    split_ifs at h
    · simp only [bind_eq_ok] at h
      obtain ⟨-, -, poller, hcall, h⟩ := h
      exact ⟨poller, hcall, (Except.ok.inj h).symm⟩
    · simp only [bind_eq_ok] at h
      obtain ⟨poller, hcall, h⟩ := h
      exact ⟨poller, hcall, (Except.ok.inj h).symm⟩
  refine ⟨hs.mirrors.call hfd a hcall, hs.room, hs.idle, hs.current, hs.active, hs.once, hs.revents,
    hs.handled, ?_⟩
  intro hhandling d hd
  apply EPollPoller.call_index hs.mirrors hfd hcall (hs.waiting hhandling d hd)
  rintro hremove rfl
  -- the channel that has its turn does not wait for another one
  rcases hallowed hremove hhandling with hcurrent | hno
  · exact (List.disjoint_take_drop (hs.once hhandling) (Nat.le_refl s.turn))
      (hs.current d hcurrent) hd
  · exact hno (List.mem_of_mem_drop hd)

def polled (s : Reactor ι) (report : List (EpollEvent ι)) : Reactor ι :=
  { s with
    revents := reventsAfter s.revents report
    activeChannels := report.map fun e => e.ptr
    events := if report.length > 0 ∧ report.length = s.events then s.events * 2 else s.events
    eventHandling := true
    turn := 0
    reported := report
    handled := [] }

theorem run_poll {report : List (EpollEvent ι)} (hs : InTurn fd s) (hr : Reports fd s report)
    (hidle : s.eventHandling = false) :
    (reactorMachine fd).step s (.poll report) = some (polled s report) := by
  have hreport := Reactor.pollReport_eq hs.mirrors hr
  simp only [hidle] at hreport
  simp only [reactorMachine, Reactor.run, hidle, Bool.false_eq_true, if_false, hreport]
  rfl

theorem poll {report : List (EpollEvent ι)} (hs : InTurn fd s) (hr : Reports fd s report)
    (hidle : s.eventHandling = false) : InTurn fd (polled s report) where
  mirrors := hs.mirrors
  room := by
    obtain ⟨k, hk⟩ := hs.room
    simp only [polled]
    split_ifs
    · exact ⟨k + 1, by rw [hk, Nat.mul_assoc]; rfl⟩
    · exact ⟨k, hk⟩
  idle := by simp [polled]
  current := by simp [polled, hs.idle hidle]
  active := fun _ => rfl
  once := fun _ => hr.once
  revents := fun _ e he => reventsAfter_of_mem hr.once he
  handled := fun _ => rfl
  waiting := by
    intro _ c hc
    obtain ⟨e, he, rfl⟩ := List.mem_map.mp (List.mem_of_mem_drop hc)
    obtain ⟨r, hinterest, hptr⟩ := Option.map_eq_some_iff.mp (hr.registered e he)
    obtain ⟨-, hadded, -⟩ := (hs.mirrors.interest _ _).mp hinterest
    rw [hptr] at hadded
    simp [polled, hadded]

omit [DecidableEq ι] in
theorem turn {c : ι} (hs : InTurn fd s) (hhandling : s.eventHandling = true)
    (hc : s.activeChannels[s.turn]? = some c) : InTurn fd { s with
      currentActiveChannel := some c
      turn := s.turn + 1
      handled := s.handled ++ [⟨s.revents c, c⟩] } where
  mirrors := hs.mirrors
  room := hs.room
  idle := by simp [hhandling]
  current := by
    rintro d ⟨⟩
    rw [List.take_add_one, hc]
    simp
  active := hs.active
  once := hs.once
  revents := hs.revents
  handled := by
    intro _
    have hactive := hs.active hhandling
    rw [hactive, List.getElem?_map] at hc
    obtain ⟨e, he, rfl⟩ := Option.map_eq_some_iff.mp hc
    simp only [hs.handled hhandling, hs.revents hhandling e (List.mem_of_getElem? he),
      List.take_add_one, he, Option.toList_some]
  waiting := by
    intro _ d hd
    exact hs.waiting hhandling d (List.drop_subset_drop_left _ (Nat.le_succ _) hd)

theorem step {a : ReactorAction ι} (hs : InTurn fd s) (hfd : Function.Injective fd)
    (hk : Kernel fd s a) (h : (reactorMachine fd).step s a = some s') : InTurn fd s' := by
  cases a with
  | call c a => exact hs.call hfd (toOption_eq_some.mp h)
  | poll report =>
    by_cases hhandling : s.eventHandling = true
    · simp only [reactorMachine, Reactor.run, if_pos hhandling] at h
      cases h
    · have hidle : s.eventHandling = false := by simpa using hhandling
      rw [hs.run_poll hk hidle] at h
      obtain rfl := Option.some.inj h
      exact hs.poll hk hidle
  | handleEvent =>
    by_cases hhandling : s.eventHandling = true
    · simp only [reactorMachine, Reactor.run, if_pos hhandling] at h
      obtain ⟨r, hr, h⟩ := Option.bind_eq_some_iff.mp h
      obtain ⟨c, hc, rfl⟩ := Option.map_eq_some_iff.mp hr
      obtain rfl := Option.some.inj h
      exact hs.turn hhandling hc
    · simp only [reactorMachine, Reactor.run, if_neg hhandling] at h
      cases h
  | handled =>
    simp only [reactorMachine, Reactor.run] at h
    split_ifs at h with hdone
    · obtain rfl := Option.some.inj h
      exact ⟨hs.mirrors, hs.room, fun _ => rfl, by simp, by simp, by simp, by simp, by simp, by simp⟩
    · cases h

theorem reach (hfd : Function.Injective fd)
    (h : System.Reach (reactorMachine fd) (Kernel fd) s) : InTurn fd s := by
  refine System.Reach.invariant (I := InTurn fd) ?_ ?_ h
  · rintro t rfl
    exact ⟨Mirrors.init, ⟨0, rfl⟩, fun _ => rfl, by simp, by simp, by simp, by simp, by simp, by simp⟩
  · intro t a t' ht hk hstep
    exact ht.step hfd hk hstep

end InTurn

/-- Over every run: a poll trips no assert; in each round the channels are handled one by one in
the order reported, with the events reported for them, and a channel is still registered when its
turn comes, whatever the handlers before it have changed or removed. -/
theorem handled_in_turn (fd : ι → ℤ) (hfd : Function.Injective fd) (s : Reactor ι)
    (h : System.Reach (reactorMachine fd) (Kernel fd) s) :
    (∃ k, s.events = kInitEventListSize * Nat.pow 2 k) ∧
    (s.eventHandling = false → ∀ report, Reports fd s report →
      ∃ s', s.run fd (.poll report) = some (.ok s')) ∧
    (s.eventHandling = true →
      s.activeChannels = s.reported.map (fun e => e.ptr) ∧
      s.handled = s.reported.take s.turn ∧
      ∀ e ∈ s.reported.drop s.turn,
        s.poller.channels (fd e.ptr) = some e.ptr ∧ s.revents e.ptr = e.events) := by
  have hs := InTurn.reach hfd h
  refine ⟨hs.room, ?_, ?_⟩
  · intro hidle report hr
    have hstep := hs.run_poll hr hidle
    obtain ⟨r, hrun, hr⟩ := Option.bind_eq_some_iff.mp hstep
    exact ⟨_, hrun.trans (congrArg some (toOption_eq_some.mp hr))⟩
  · intro hhandling
    refine ⟨hs.active hhandling, hs.handled hhandling, ?_⟩
    intro e he
    refine ⟨(hs.mirrors.channels _ _).mpr ⟨rfl, hs.waiting hhandling e.ptr ?_⟩,
      hs.revents hhandling e (List.mem_of_mem_drop he)⟩
    rw [hs.active hhandling, ← List.map_drop]
    exact List.mem_map_of_mem he

end

/-- The first of two reported channels removes itself and takes the interest of the second. -/
theorem handled_in_turn_after_remove :
    ∃ s : Reactor ℕ, s.poller.interest 1 = none ∧ s.poller.channels 1 = some 1 ∧
      s.revents 1 = POLLOUT := by
  obtain ⟨s, -, hreach, hp⟩ := System.exists_reach (M := reactorMachine fun n : ℕ => (n : ℤ))
    (G := Kernel fun n : ℕ => (n : ℤ)) (s := {})
    [.call 0 .enableReading, .call 1 .enableWriting, .poll [⟨POLLIN, 0⟩, ⟨POLLOUT, 1⟩], .handleEvent,
      .call 0 .disableAll, .call 0 .remove, .call 1 .disableAll]
    (fun s => s.eventHandling = true ∧ s.poller.interest 1 = none ∧
      (s.reported.drop s.turn).map (fun e => (e.events, e.ptr)) = [(POLLOUT, 1)])
    rfl (by decide)
  obtain ⟨hhandling, hinterest, hwaiting⟩ := of_decide_eq_true hp
  obtain ⟨-, -, hround⟩ := handled_in_turn _ (fun _ _ h => Int.ofNat.inj h) s hreach
  obtain ⟨-, -, hregistered⟩ := hround hhandling
  obtain ⟨e, he, heq⟩ := List.mem_map.mp (hwaiting ▸ List.mem_singleton_self (POLLOUT, 1))
  obtain ⟨hevents, hptr⟩ := Prod.mk.inj heq
  obtain ⟨hchannels, hrevents⟩ := hregistered e he
  rw [hptr] at hchannels hrevents
  exact ⟨s, hinterest, hchannels, hrevents.trans hevents⟩

end Mutty.Net
