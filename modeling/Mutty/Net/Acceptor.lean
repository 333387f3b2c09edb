import Mutty.Lib.Transition

/-!
# Accepting when the process is out of descriptors

The acceptor keeps one descriptor in reserve. When `accept` fails with `EMFILE`, it closes the
reserve, accepts the waiting peer on the descriptor this frees, closes that and opens the reserve
again. The listening socket stays readable as long as a peer waits, so a pass that serves nobody is
repeated at once. Other threads open and close descriptors between any two of these calls.
-/

namespace Mutty.Net

open Mutty.Lib

/-- The calls of `Acceptor::handleRead` after `accept` has failed with `EMFILE`. -/
inductive AcceptPc
  | idle | closeIdle | acceptIdle | closeAccepted | openIdle
  deriving DecidableEq, Repr

structure Acceptor where
  free : ℕ
  /-- `idleFd_ >= 0` -/
  idleFd : Bool := true
  backlog : ℕ := 0
  pc : AcceptPc := .idle
  /-- the record: peers handed to `newConnection`, peers turned away, peers that have come -/
  accepted : ℕ := 0
  dropped : ℕ := 0
  connected : ℕ := 0
  /-- whether a peer was waiting when the last pass began, and how many had been served by then -/
  waiting : Bool := false
  before : ℕ := 0
  deriving DecidableEq, Repr

inductive AcceptAction
  | connect
  | handleRead
  | next
  | open
  | close
  deriving DecidableEq, Repr

namespace Acceptor

/-- `accept` of the pass; a full table is found first, then an empty backlog. -/
def handleRead (s : Acceptor) : Acceptor :=
  let s := { s with waiting := s.backlog > 0, before := s.accepted + s.dropped }
  if s.free = 0 then { s with pc := .closeIdle }
  else if s.backlog = 0 then s
  else { s with free := s.free - 1, backlog := s.backlog - 1, accepted := s.accepted + 1 }

/-- Closing `-1` does nothing. -/
def close (s : Acceptor) (pc : AcceptPc) : Acceptor :=
  { s with free := if s.idleFd then s.free + 1 else s.free, idleFd := false, pc }

def next (s : Acceptor) : Option Acceptor :=
  match s.pc with
  | .idle => none
  | .closeIdle => some (s.close .acceptIdle)
  | .acceptIdle =>
    -- `idleFd_ = ::accept(...)`
    if s.free > 0 ∧ s.backlog > 0 then
      some { s with
        free := s.free - 1
        idleFd := true
        backlog := s.backlog - 1
        dropped := s.dropped + 1
        pc := .closeAccepted }
    else some { s with pc := .closeAccepted }
  | .closeAccepted => some (s.close .openIdle)
  | .openIdle =>
    -- `idleFd_ = ::open("/dev/null")`
    if s.free > 0 then some { s with free := s.free - 1, idleFd := true, pc := .idle }
    else some { s with pc := .idle }

def run (s : Acceptor) : AcceptAction → Option Acceptor
  | .connect => some { s with backlog := s.backlog + 1, connected := s.connected + 1 }
  | .handleRead => if s.pc = .idle then some s.handleRead else none
  | .next => s.next
  | .open => if s.free > 0 then some { s with free := s.free - 1 } else none
  | .close => some { s with free := s.free + 1 }

end Acceptor

/-- The constructor has opened the reserve. -/
def acceptorMachine : System Acceptor AcceptAction where
  init s := ∃ free, s = { free }
  step := Acceptor.run

/-- While the reserve is not held, another thread opens a descriptor only when it leaves one. -/
def LeavesReserve (s : Acceptor) (a : AcceptAction) : Prop :=
  a = .open → s.idleFd = false → 2 ≤ s.free

instance (s : Acceptor) (a : AcceptAction) : Decidable (LeavesReserve s a) :=
  inferInstanceAs (Decidable (_ → _ → _))

structure Reserved (s : Acceptor) : Prop where
  reserve : s.idleFd = true ∨ 0 < s.free
  held : s.pc = .idle ∨ s.pc = .closeIdle → s.idleFd = true
  out : s.pc = .acceptIdle ∨ s.pc = .openIdle → s.idleFd = false
  serving : s.pc = .closeIdle ∨ s.pc = .acceptIdle →
    s.accepted + s.dropped = s.before ∧ (s.waiting = true → 0 < s.backlog)
  served : s.pc = .idle ∨ s.pc = .closeAccepted ∨ s.pc = .openIdle →
    s.waiting = true → s.accepted + s.dropped = s.before + 1
  all : s.accepted + s.dropped + s.backlog = s.connected

namespace Reserved

variable {s s' : Acceptor}

theorem handleRead (h : Reserved s) (hpc : s.pc = .idle) : Reserved s.handleRead := by
  have hheld := h.held (Or.inl hpc)
  have hall := h.all
  unfold Acceptor.handleRead
  dsimp only
  split_ifs with hfree hempty
  · refine ⟨Or.inl hheld, fun _ => hheld, by simp, fun _ => ⟨rfl, ?_⟩, by simp, hall⟩
    simp
  · refine ⟨Or.inl hheld, fun _ => hheld, by simp [hpc], by simp [hpc], fun _ => ?_, hall⟩
    simp [hempty]
  · refine ⟨Or.inl hheld, fun _ => hheld, by simp [hpc], by simp [hpc], fun _ _ => ?_, ?_⟩
    · dsimp only
      omega
    · dsimp only
      omega

theorem next (h : Reserved s) (hstep : s.next = some s') : Reserved s' := by
  have hall := h.all
  unfold Acceptor.next at hstep
  cases hpc : s.pc with
  | idle =>
    rw [hpc] at hstep
    cases hstep
  | closeIdle =>
    have hheld := h.held (Or.inr hpc)
    have hserving := h.serving (Or.inl hpc)
    rw [hpc] at hstep
    rw [← Option.some.inj hstep]
    exact ⟨Or.inr (by simp [Acceptor.close, hheld]), by simp [Acceptor.close],
      by simp [Acceptor.close], fun _ => hserving, by simp [Acceptor.close], hall⟩
  | acceptIdle =>
    have hout := h.out (Or.inl hpc)
    have hserving := h.serving (Or.inr hpc)
    have hfree : 0 < s.free := h.reserve.resolve_left (by simp [hout])
    rw [hpc] at hstep
    dsimp only at hstep
    split_ifs at hstep with hpeer
    · rw [← Option.some.inj hstep]
      refine ⟨Or.inl rfl, by simp, by simp, by simp, fun _ _ => ?_, ?_⟩
      · dsimp only
        omega
      · dsimp only
        omega
    · -- there is a descriptor, so no peer waits, and none did when the pass began
      rw [← Option.some.inj hstep]
      exact ⟨h.reserve, by simp, by simp, by simp,
        fun _ hwaiting => absurd ⟨hfree, hserving.2 hwaiting⟩ hpeer, hall⟩
  | closeAccepted =>
    have hserved := h.served (Or.inr (Or.inl hpc))
    have hreserve := h.reserve
    rw [hpc] at hstep
    rw [← Option.some.inj hstep]
    refine ⟨Or.inr ?_, by simp [Acceptor.close], by simp [Acceptor.close], by simp [Acceptor.close],
      fun _ => hserved, hall⟩
    simp only [Acceptor.close]
    split_ifs with hheld
    · omega
    · exact hreserve.resolve_left hheld
  | openIdle =>
    have hout := h.out (Or.inr hpc)
    have hserved := h.served (Or.inr (Or.inr hpc))
    have hfree : 0 < s.free := h.reserve.resolve_left (by simp [hout])
    rw [hpc] at hstep
    dsimp only at hstep
    rw [if_pos hfree] at hstep
    rw [← Option.some.inj hstep]
    exact ⟨Or.inl rfl, fun _ => rfl, by simp, by simp, fun _ => hserved, hall⟩

theorem step {a : AcceptAction} (h : Reserved s) (hg : LeavesReserve s a)
    (hstep : s.run a = some s') : Reserved s' := by
  cases a with
  | connect =>
    have hall := h.all
    rw [← Option.some.inj hstep]
    refine ⟨h.reserve, h.held, h.out, ?_, h.served, ?_⟩
    · exact fun hpc => ⟨(h.serving hpc).1, fun _ => Nat.succ_pos _⟩
    · dsimp only
      omega
  | handleRead =>
    simp only [Acceptor.run] at hstep
    split_ifs at hstep with hpc
    rw [← Option.some.inj hstep]
    exact h.handleRead hpc
  | next => exact h.next hstep
  | «open» =>
    simp only [Acceptor.run] at hstep
    split_ifs at hstep with hfree
    rw [← Option.some.inj hstep]
    refine ⟨?_, h.held, h.out, h.serving, h.served, h.all⟩
    cases hheld : s.idleFd with
    | true => exact Or.inl rfl
    | false =>
      have hleaves := hg rfl hheld
      dsimp only
      omega
  | close =>
    rw [← Option.some.inj hstep]
    exact ⟨Or.inr (Nat.succ_pos _), h.held, h.out, h.serving, h.served, h.all⟩

theorem reach (h : System.Reach acceptorMachine LeavesReserve s) : Reserved s := by
  induction h with
  | init hinit =>
    obtain ⟨free, rfl⟩ := hinit
    exact ⟨Or.inl rfl, fun _ => rfl, by simp, by simp, by simp, rfl⟩
  | step _ hg hstep ih => exact ih.step hg hstep

end Reserved

/-- As long as the other threads leave the reserve alone: between two passes it is held, the pass before,
if a peer was waiting when it began, has accepted one or turned one away, and no peer is lost. -/
theorem reserve_kept {s : Acceptor} (h : System.Reach acceptorMachine LeavesReserve s) :
    s.accepted + s.dropped + s.backlog = s.connected ∧
      (s.pc = .idle → s.idleFd = true ∧
        (s.waiting = true → s.accepted + s.dropped = s.before + 1)) := by
  have hs := Reserved.reach h
  exact ⟨hs.all, fun hpc => ⟨hs.held (Or.inl hpc), hs.served (Or.inl hpc)⟩⟩

theorem reserve_kept_when_full :
    ∃ s : Acceptor, System.Reach acceptorMachine LeavesReserve s ∧ s.free = 0 ∧ s.before = 1 ∧
      s.accepted + s.dropped = 1 + 1 ∧ s.idleFd = true := by
  obtain ⟨s, -, hreach, hp⟩ := System.exists_reach (M := acceptorMachine) (G := LeavesReserve)
    [.connect, .connect, .handleRead, .handleRead, .next, .next, .next, .next]
    (fun s => s.pc = .idle ∧ s.free = 0 ∧ s.before = 1 ∧ s.waiting = true) ⟨1, rfl⟩ (by decide)
  obtain ⟨hpc, hfree, hbefore, hwaiting⟩ := of_decide_eq_true hp
  obtain ⟨hheld, hserved⟩ := (reserve_kept hreach).2 hpc
  exact ⟨s, hreach, hfree, hbefore, hbefore ▸ hserved hwaiting, hheld⟩

def Acceptor.pass (s : Acceptor) : Option Acceptor :=
  if s.handleRead.pc = .idle then some s.handleRead
  else do
    let s ← s.handleRead.next
    let s ← s.next
    let s ← s.next
    s.next

/-- Without the reserve a full table makes every pass end where it began, with nobody served. -/
theorem Acceptor.pass_eq_self {s : Acceptor} (hpc : s.pc = .idle) (hfree : s.free = 0)
    (hlost : s.idleFd = false) (hpeer : 0 < s.backlog) :
    s.pass = some { s with waiting := true, before := s.accepted + s.dropped } := by
  simp [pass, handleRead, next, close, hpc, hfree, hlost, hpeer]

/-- One descriptor opened by another thread at the wrong moment, and the acceptor spins. -/
theorem reserve_lost :
    ∃ s : Acceptor, System.Reach acceptorMachine System.Free s ∧ 0 < s.backlog ∧
      s.pass = some { s with waiting := true, before := s.accepted + s.dropped } := by
  obtain ⟨s, -, hreach, hp⟩ := System.exists_reach (M := acceptorMachine) (G := System.Free)
    [.connect, .connect, .handleRead, .next, .next, .next, .open, .next]
    (fun s => s.pc = .idle ∧ s.free = 0 ∧ s.idleFd = false ∧ 0 < s.backlog) ⟨0, rfl⟩ (by decide)
  obtain ⟨hpc, hfree, hlost, hpeer⟩ := of_decide_eq_true hp
  exact ⟨s, hreach, hpeer, Acceptor.pass_eq_self hpc hfree hlost hpeer⟩

end Mutty.Net
