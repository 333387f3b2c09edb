import Mutty.Lib.Transition

/-!
# The timer that all event loops hold

`Timer::newTimer` makes one timer for the process and returns it to every caller, and each event loop
keeps the pointer in a `unique_ptr`. A constructor on a thread that has a loop, and a destructor on
a thread that is not the loop's own, end the process, so they have no next state here. `destroyed`
counts how often `~Timer` has run on the one timer, and `ended` the event loops that are gone.
-/

namespace Mutty.Net

open Mutty.Lib

structure HeldLoop where
  loop : ℕ
  thread : ℕ
  deriving DecidableEq, Repr

structure SharedTimer where
  destroyed : ℕ := 0
  loops : List HeldLoop := []
  ended : ℕ := 0
  count : ℕ := 0
  loopInThread : ℕ → Option ℕ := fun _ => none

inductive LoopCall
  | construct (thread : ℕ)
  | destruct (loop thread : ℕ)
  deriving DecidableEq, Repr

namespace SharedTimer

def construct (s : SharedTimer) (thread : ℕ) : Option SharedTimer :=
  match s.loopInThread thread with
  | some _ => none
  | none => some { s with
      loops := s.loops ++ [⟨s.count, thread⟩]
      count := s.count + 1
      loopInThread := Function.update s.loopInThread thread (some s.count) }

/-- `EventLoop::~EventLoop` and the destructor of its member `timer_`. -/
def destruct (s : SharedTimer) (loop thread : ℕ) : Option SharedTimer :=
  if (⟨loop, thread⟩ : HeldLoop) ∈ s.loops then
    some { s with
      loopInThread := Function.update s.loopInThread thread none
      loops := s.loops.erase ⟨loop, thread⟩
      ended := s.ended + 1
      destroyed := s.destroyed + 1 }
  else none

def step (s : SharedTimer) : LoopCall → Option SharedTimer
  | .construct thread => s.construct thread
  | .destruct loop thread => s.destruct loop thread

/-- The timer was destroyed at most once, and no loop holds it after that. -/
def Outlives (s : SharedTimer) : Prop := s.destroyed ≤ 1 ∧ (0 < s.destroyed → s.loops = [])

/-- A loop is destroyed when it is the only one, and none is constructed afterwards. -/
def OneAtTheEnd (s : SharedTimer) : LoopCall → Prop
  | .construct _ => s.ended = 0
  | .destruct loop thread => s.loops = [⟨loop, thread⟩]

end SharedTimer

def timerMachine : System SharedTimer LoopCall where
  init s := s = {}
  step := SharedTimer.step

namespace SharedTimer

structure Fine (s : SharedTimer) : Prop where
  outlives : s.Outlives
  ended : s.ended = s.destroyed

variable {s s' : SharedTimer}

theorem construct_eq {thread : ℕ} (hs : s.construct thread = some s') :
    s'.destroyed = s.destroyed ∧ s'.ended = s.ended ∧ s'.loops ≠ [] := by
  unfold construct at hs
  split at hs
  · cases hs
  · obtain rfl := Option.some.inj hs
    exact ⟨rfl, rfl, by simp⟩

theorem destruct_eq {loop thread : ℕ} (hs : s.destruct loop thread = some s') :
    (⟨loop, thread⟩ : HeldLoop) ∈ s.loops ∧ s'.destroyed = s.destroyed + 1 ∧ s'.ended = s.ended + 1 ∧
      s'.loops = s.loops.erase ⟨loop, thread⟩ := by
  unfold destruct at hs
  split_ifs at hs with hmem
  obtain rfl := Option.some.inj hs
  exact ⟨hmem, rfl, rfl, rfl⟩

theorem Fine.construct_iff (h : s.Fine) {thread : ℕ} (hs : s.construct thread = some s') :
    s'.Outlives ↔ s.ended = 0 := by
  obtain ⟨hd, -, hl⟩ := construct_eq hs
  rw [h.ended, Outlives, hd]
  constructor
  · intro ho
    by_contra hne
    exact hl (ho.2 (Nat.pos_of_ne_zero hne))
  · intro h0
    exact ⟨by omega, fun hpos => by omega⟩

theorem Fine.destruct_iff (h : s.Fine) {loop thread : ℕ} (hs : s.destruct loop thread = some s') :
    s'.Outlives ↔ s.loops = [⟨loop, thread⟩] := by
  obtain ⟨hmem, hd, -, hl⟩ := destruct_eq hs
  have h0 : s.destroyed = 0 := by
    by_contra hne
    have hnil := h.outlives.2 (Nat.pos_of_ne_zero hne)
    rw [hnil] at hmem
    cases hmem
  have herase : s.loops.erase ⟨loop, thread⟩ = [] ↔ s.loops = [⟨loop, thread⟩] := by
    rw [List.erase_eq_nil_iff]
    constructor
    · rintro (hnil | hone)
      · rw [hnil] at hmem
        cases hmem
      · exact hone
    · exact .inr
  rw [Outlives, hd, hl, herase, h0]
  exact ⟨fun ho => ho.2 Nat.one_pos, fun ho => ⟨Nat.le_refl 1, fun _ => ho⟩⟩

theorem Fine.step_iff (h : s.Fine) {a : LoopCall} (hs : s.step a = some s') :
    s'.Outlives ↔ s.OneAtTheEnd a := by
  cases a with
  | construct thread => exact h.construct_iff hs
  | destruct loop thread => exact h.destruct_iff hs

theorem Fine.step (h : s.Fine) {a : LoopCall} (hg : s.OneAtTheEnd a) (hs : s.step a = some s') :
    s'.Fine := by
  refine ⟨(h.step_iff hs).mpr hg, ?_⟩
  have hended := h.ended
  cases a with
  | construct thread =>
    obtain ⟨h1, h2, -⟩ := construct_eq hs
    omega
  | destruct loop thread =>
    obtain ⟨-, h1, h2, -⟩ := destruct_eq hs
    omega

theorem fine_init : ({} : SharedTimer).Fine := ⟨⟨Nat.zero_le 1, nofun⟩, rfl⟩

end SharedTimer

theorem timer_outlives_iff (calls : List LoopCall) :
    timerMachine.Along (fun _ _ s' => s'.Outlives) {} calls ↔
      timerMachine.Along (fun s a _ => s.OneAtTheEnd a) {} calls :=
  System.along_iff (fun _ _ _ h hs => h.step_iff hs) (fun _ _ _ h hg hs => h.step hg hs) calls
    SharedTimer.fine_init

/-- A base loop and one I/O loop, which is destroyed first. -/
theorem timer_destroyed_while_held :
    ¬ timerMachine.Along (fun _ _ s' => s'.Outlives) {}
      [.construct 0, .construct 1, .destruct 1 1, .destruct 0 0] := by
  intro h
  obtain ⟨-, h⟩ := h _ rfl
  obtain ⟨-, h⟩ := h _ rfl
  obtain ⟨ho, -⟩ := h _ rfl
  exact absurd (ho.2 (by decide)) (by decide)

end Mutty.Net
