import Mutty.Net.TcpServer

/-!
# Every connection is torn down once

A `View` gathers what there is of one connection in the system: its part of the functors queued on
its loop, the messages to the base loop that will erase its name, its entry in `connections_`, the
close its loop is handling, and whether the destructor still has to visit it. `View.Ok` says how
these belong together; each step changes the view of one connection, or of all of them in the same
way.
-/

namespace Mutty.Net

open Mutty.Lib

/-- The destructor and the closes of connections keep out of each other's way: it begins when every
connection whose close was handled has been erased, no close is handled from then on, its
`connectDestroyed` meets no half-closed connection, and a loop stops with none left to run. -/
def orderly (s : ServerState) : ServerAction → Bool
  | .destroy _ => s.connections.all fun id =>
      s.conns[id]?.all fun k => k.polled.connection.state ≠ .kDisconnected
  | .peerClose _ _ => s.phase = .alive
  | .runFunctor l =>
    match s.queue l with
    | .forceCloseInLoop id :: _ =>
      s.phase = .alive || s.conns[id]?.all fun k => k.polled.connection.state = .kDisconnected
    | .connectDestroyed id :: _ =>
      s.conns[id]?.all fun k => k.polled.connection.state ≠ .kDisconnecting
    | _ => true
  | .destroyNext =>
    match s.phase with
    | .destroying (id :: _) d => s.conns[id]?.all fun k =>
        k.loop ≠ baseLoop || (k.polled.connection.state ≠ .kDisconnecting &&
          d.AllowsRemoval k.polled.self)
    | _ => true
  | .exitLoop l => (s.queue l).all fun t =>
      match t with
      | .connectDestroyed _ => false
      | _ => true
  | _ => true

def Orderly (s : ServerState) (a : ServerAction) : Prop := orderly s a = true

instance (s : ServerState) (a : ServerAction) : Decidable (Orderly s a) :=
  inferInstanceAs (Decidable (_ = true))

/-- Nothing was torn down twice, and nothing is left when the server is gone. -/
def TornDownOnce (s : ServerState) : Prop :=
  (∀ k ∈ s.conns, k.destroyedRuns ≤ 1 ∧ k.erasures ≤ 1) ∧
    (s.phase = .gone → ∀ k ∈ s.conns, k.destroyedRuns = 1)

/-- The peer closes, and the server is destroyed before the base loop has seen the message. -/
theorem torn_down_twice :
    ¬ ∀ s, serverMachine.Reach System.Free s → TornDownOnce s := by
  intro h
  obtain ⟨s, -, hreach, hp⟩ := System.exists_reach (M := serverMachine) (G := System.Free)
    [.newConnection, .runFunctor 1, .peerClose 0 [0], .proceed 1, .proceed 1, .destroy {},
      .destroyNext, .runFunctor 1]
    (fun s => s.conns.any fun k => k.destroyedRuns = 2) (s := { ioLoops := 1 }) ⟨1, rfl⟩ (by decide)
  obtain ⟨k, hk, hruns⟩ := List.any_eq_true.mp hp
  have hle := ((h s hreach).1 k hk).1
  rw [of_decide_eq_true hruns] at hle
  omega


/-! ## What there is of one connection -/

def Task.posts (id : ConnId) : Task → Bool
  | .connectEstablished j => j = id
  | .connectDestroyed j => j = id
  | _ => false

def Task.id : Task → ConnId
  | .connectEstablished id => id
  | .connectDestroyed id => id
  | .forceCloseInLoop id => id
  | .removeConnectionInLoop id => id

def Task.loop (l : LoopId) : Task → LoopId
  | .removeConnectionInLoop _ => baseLoop
  | _ => l

/-- The close of the connection, if the loop is handling that one. -/
def ClosePc.on (id : ConnId) : ClosePc → ClosePc
  | .idle => .idle
  | .removing j d => if j = id then .removing j d else .idle
  | .destroying j d => if j = id then .destroying j d else .idle

def ClosePc.conn : ClosePc → Option ConnId
  | .idle => none
  | .removing id _ => some id
  | .destroying id _ => some id

def ClosePc.isRemoving : ClosePc → Bool
  | .removing _ _ => true
  | _ => false

def ServerPhase.items : ServerPhase → List ConnId
  | .destroying items _ => items
  | _ => []

structure View where
  polled : Polled
  runs : ℕ
  erasures : ℕ
  posts : List Task
  removals : ℕ
  keys : ℕ
  pc : ClosePc
  alive : Bool
  pending : Bool
  exited : Bool
  base : Bool

def ServerState.view (s : ServerState) (id : ConnId) (k : Served) : View where
  polled := k.polled
  runs := k.destroyedRuns
  erasures := k.erasures
  posts := (s.queue k.loop).filter (Task.posts id)
  removals := (s.queue baseLoop).count (.removeConnectionInLoop id)
  keys := s.connections.count id
  pc := (s.pc k.loop).on id
  alive := s.phase = .alive
  pending := id ∈ s.phase.items
  exited := s.exited k.loop
  base := k.loop = baseLoop

structure Disconnected (p : Polled) : Prop where
  state : p.connection.state = .kDisconnected
  events : p.connection.channel.isNoneEvent = true
  registration : p.registration = ⟨.kDeleted, some p.self, none⟩

namespace View

def state (v : View) : StateE := v.polled.connection.state

structure Ok (id : ConnId) (v : View) : Prop where
  self : v.polled.self = id
  connecting : v.state = .kConnecting → v.polled.registration = {}
  live : v.state = .kConnected ∨ v.state = .kDisconnecting → Live v.polled
  unwatched : v.state = .kDisconnected → v.polled.registration.interest = none
  closing : ∀ d, v.pc = .removing id d ∨ v.pc = .destroying id d →
    Disconnected v.polled ∧ d.AllowsRemoval id
  runs : v.runs = if v.state = .kDisconnected ∧ v.pc = .idle then 1 else 0
  posts : v.posts = (if v.state = .kConnecting then [.connectEstablished id] else []) ++
    if v.alive = false ∧ v.state ≠ .kDisconnected ∧ v.pending = false then [.connectDestroyed id]
    else []
  base : v.base = true → v.posts = []
  exited : v.exited = true → v.posts = []
  pending : v.pending = true → v.alive = false ∧ v.state ≠ .kDisconnected
  keys : v.keys + v.erasures = 1
  removal : v.alive = true → v.removals + (if v.pc.isRemoving then 1 else 0) + v.erasures =
    if v.state = .kDisconnected then 1 else 0
  noRemoval : v.alive = false → v.removals = 0 ∧ v.pc.isRemoving = false

end View

/-- What holds between the parts of the system, whatever the connections are doing. -/
structure Wired (s : ServerState) : Prop where
  loops : ∀ (id : ConnId) (k : Served), s.conns[id]? = some k → k.loop ≤ s.ioLoops
  tasks : ∀ l, ∀ t ∈ s.queue l, ∃ k : Served, s.conns[t.id]? = some k ∧ t.loop k.loop = l
  closing : ∀ l id, (s.pc l).conn = some id →
    ∃ k : Served, s.conns[id]? = some k ∧ k.loop = l
  keys : ∀ id ∈ s.connections, id < s.conns.length
  items : s.phase.items.Nodup ∧ ∀ id ∈ s.phase.items, id < s.conns.length
  base : s.phase ≠ .alive → s.pc baseLoop = .idle
  stopped : ∀ l, s.exited l = true → s.pc l = .idle ∧ (s.phase = .joining ∨ s.phase = .gone)
  gone : s.phase = .gone → ∀ l < s.ioLoops, s.exited (l + 1) = true
  next : s.ioLoops = 0 ∨ s.next < s.ioLoops

structure ServerInv (s : ServerState) : Prop where
  running : s.aborted = false
  wired : Wired s
  views : ∀ (id : ConnId) (k : Served), s.conns[id]? = some k → (s.view id k).Ok id

/-! ## Operations of one connection -/

namespace Polled

theorem connectDestroyed_self {p p' : Polled} {d : Dispatch ℕ} (h : p.connectDestroyed d = .ok p') :
    p'.self = p.self := by
  simp only [connectDestroyed, bind_eq_ok, require_eq_ok] at h
  obtain ⟨c, -, q, hq, -, -, r, -, h⟩ := h
  rw [← Except.ok.inj h]
  exact (become_connection hq).2

theorem connectEstablished_ok {p : Polled} (hs : p.connection.state = .kConnecting)
    (hr : p.registration = {}) :
    ∃ p', p.connectEstablished = .ok p' ∧ Live p' ∧ p'.connection.state = .kConnected ∧
      p'.self = p.self := by
  let c : TcpConnection :=
    { p.connection with state := .kConnected, channel := p.connection.channel.enableReading }
  have hconnection : p.connection.connectEstablished = .ok c := by
    simp only [TcpConnection.connectEstablished, require, if_pos hs]
    rfl
  have hbecome : p.become c true =
      .ok ⟨c, p.self, ⟨.kAdded, some p.self, some c.channel.events⟩⟩ := by
    simp [become, hr, Registration.updateChannel, Registration.add, require, bind, Except.bind, pure,
      Except.pure]
  refine ⟨⟨c, p.self, ⟨.kAdded, some p.self, some c.channel.events⟩⟩, ?_, ?_, rfl, rfl⟩
  · simp only [connectEstablished, hconnection, bind, Except.bind, hbecome]
  · exact ⟨Or.inl rfl, Channel.reading_enableReading _, rfl, rfl⟩

end Polled

theorem Live.disconnect {p : Polled} (hl : Live p) :
    ∃ p', p.disconnect = .ok p' ∧ Disconnected p' ∧ p'.self = p.self := by
  let c : TcpConnection :=
    { p.connection with state := .kDisconnected, channel := p.connection.channel.disableAll }
  have hnone : c.channel.isNoneEvent = true := rfl
  have hconnection : p.connection.handleClose = .ok c := by
    simp only [TcpConnection.handleClose, require, if_pos hl.state]
    rfl
  have hbecome : p.become c true = .ok ⟨c, p.self, ⟨.kDeleted, some p.self, none⟩⟩ := by
    simp [Polled.become, Registration.updateChannel, hl.index, hl.entry, require, hnone,
      Registration.delete, bind, Except.bind, pure, Except.pure]
  refine ⟨⟨c, p.self, ⟨.kDeleted, some p.self, none⟩⟩, ?_, ⟨rfl, hnone, rfl⟩, rfl⟩
  simp only [Polled.disconnect, hconnection, bind, Except.bind, hbecome]

theorem Disconnected.connectDestroyed {p : Polled} (h : Disconnected p) {d : Dispatch ℕ}
    (hd : d.AllowsRemoval p.self) :
    ∃ p', p.connectDestroyed d = .ok p' ∧ p'.connection.state = .kDisconnected ∧
      p'.registration = {} := by
  have hconnection : p.connection.connectDestroyed = .ok p.connection := by
    simp [TcpConnection.connectDestroyed, h.state, require, h.events, bind, Except.bind, pure,
      Except.pure]
  have hbecome : p.become p.connection (decide (p.connection.state = .kConnected)) = .ok p := by
    rw [h.state]
    rfl
  have hremove : p.registration.removeChannel p.self p.connection.channel = .ok {} := by
    simp [h.registration, Registration.removeChannel, require, h.events, bind, Except.bind, pure,
      Except.pure]
  refine ⟨{ p with registration := {} }, ?_, h.state, rfl⟩
  simp only [Polled.connectDestroyed, hconnection, hbecome, hremove, require, if_pos hd, bind,
    Except.bind, pure, Except.pure]

/-! ## How the steps change a view -/

section

variable {s : ServerState} {id : ConnId} {k : Served} {l : LoopId} {t : Task} {rest : List Task}

theorem Task.not_posts_of_ne (h : t.id ≠ id) :
    t.posts id = false ∧ t ≠ .removeConnectionInLoop id := by
  cases t <;> simp_all [Task.posts, Task.id]

theorem view_queueInLoop_of_other (hp : t.posts id = false) (hr : t ≠ .removeConnectionInLoop id) :
    (s.queueInLoop l t).view id k = s.view id k := by
  have hposts : ((s.queueInLoop l t).queue k.loop).filter (Task.posts id) =
      (s.queue k.loop).filter (Task.posts id) := by
    by_cases hl : k.loop = l
    · subst hl
      simp [ServerState.queueInLoop, hp]
    · simp [ServerState.queueInLoop, Function.update_of_ne hl]
  have hcount : ((s.queueInLoop l t).queue baseLoop).count (.removeConnectionInLoop id) =
      (s.queue baseLoop).count (.removeConnectionInLoop id) := by
    by_cases hl : baseLoop = l
    · subst hl
      simp [ServerState.queueInLoop, List.count_append, hr]
    · simp [ServerState.queueInLoop, Function.update_of_ne hl]
  unfold ServerState.view
  rw [hposts, hcount]
  rfl

theorem view_queueInLoop_of_ne (h : t.id ≠ id) : (s.queueInLoop l t).view id k = s.view id k := by
  obtain ⟨hp, hr⟩ := Task.not_posts_of_ne h
  exact view_queueInLoop_of_other hp hr

theorem view_queueInLoop_post (hp : t.posts id = true) :
    (s.queueInLoop k.loop t).view id k =
      { s.view id k with posts := (s.view id k).posts ++ [t] } := by
  have hr : t ≠ .removeConnectionInLoop id := by
    rintro rfl
    cases hp
  have hcount : ((s.queueInLoop k.loop t).queue baseLoop).count (.removeConnectionInLoop id) =
      (s.queue baseLoop).count (.removeConnectionInLoop id) := by
    by_cases hl : baseLoop = k.loop
    · rw [hl]
      simp [ServerState.queueInLoop, List.count_append, hr]
    · simp [ServerState.queueInLoop, Function.update_of_ne hl]
  have hposts : ((s.queueInLoop k.loop t).queue k.loop).filter (Task.posts id) =
      (s.queue k.loop).filter (Task.posts id) ++ [t] := by
    simp [ServerState.queueInLoop, hp]
  unfold ServerState.view
  rw [hcount, hposts]
  rfl

theorem view_queueInLoop_removal :
    (s.queueInLoop baseLoop (.removeConnectionInLoop id)).view id k =
      { s.view id k with removals := (s.view id k).removals + 1 } := by
  have hposts : ((s.queueInLoop baseLoop (.removeConnectionInLoop id)).queue k.loop).filter
      (Task.posts id) = (s.queue k.loop).filter (Task.posts id) := by
    by_cases hl : k.loop = baseLoop
    · simp [ServerState.queueInLoop, hl, Task.posts]
    · simp [ServerState.queueInLoop, Function.update_of_ne hl]
  have hcount : ((s.queueInLoop baseLoop (.removeConnectionInLoop id)).queue baseLoop).count
      (.removeConnectionInLoop id) =
        (s.queue baseLoop).count (.removeConnectionInLoop id) + 1 := by
    simp [ServerState.queueInLoop, List.count_append]
  unfold ServerState.view
  rw [hposts, hcount]
  rfl

def ServerState.pop (s : ServerState) (l : LoopId) (rest : List Task) : ServerState :=
  { s with queue := Function.update s.queue l rest }

theorem view_pop_of_other (hq : s.queue l = t :: rest) (hp : t.posts id = false)
    (hr : t ≠ .removeConnectionInLoop id) : (s.pop l rest).view id k = s.view id k := by
  have hposts : ((s.pop l rest).queue k.loop).filter (Task.posts id) =
      (s.queue k.loop).filter (Task.posts id) := by
    by_cases hl : k.loop = l
    · subst hl
      simp [ServerState.pop, hq, hp]
    · simp [ServerState.pop, Function.update_of_ne hl]
  have hcount : ((s.pop l rest).queue baseLoop).count (.removeConnectionInLoop id) =
      (s.queue baseLoop).count (.removeConnectionInLoop id) := by
    by_cases hl : baseLoop = l
    · subst hl
      simp [ServerState.pop, hq, hr]
    · simp [ServerState.pop, Function.update_of_ne hl]
  unfold ServerState.view
  rw [hposts, hcount]
  rfl

theorem view_pop_post (hq : s.queue k.loop = t :: rest) (hp : t.posts id = true) :
    (s.view id k).posts = t :: ((s.pop k.loop rest).view id k).posts ∧
      (s.pop k.loop rest).view id k =
        { s.view id k with posts := ((s.pop k.loop rest).view id k).posts } := by
  have hr : t ≠ .removeConnectionInLoop id := by
    rintro rfl
    cases hp
  have hcount : ((s.pop k.loop rest).queue baseLoop).count (.removeConnectionInLoop id) =
      (s.queue baseLoop).count (.removeConnectionInLoop id) := by
    by_cases hl : baseLoop = k.loop
    · rw [hl]
      simp [ServerState.pop, hq, hr]
    · simp [ServerState.pop, Function.update_of_ne hl]
  constructor
  · simp [ServerState.view, ServerState.pop, hq, hp]
  · unfold ServerState.view
    rw [hcount]
    rfl

theorem view_pop_removal (hq : s.queue baseLoop = .removeConnectionInLoop id :: rest) :
    (s.view id k).removals = ((s.pop baseLoop rest).view id k).removals + 1 ∧
      (s.pop baseLoop rest).view id k =
        { s.view id k with removals := ((s.pop baseLoop rest).view id k).removals } := by
  have hposts : ((s.pop baseLoop rest).queue k.loop).filter (Task.posts id) =
      (s.queue k.loop).filter (Task.posts id) := by
    by_cases hl : k.loop = baseLoop
    · simp [ServerState.pop, hl, hq, Task.posts]
    · simp [ServerState.pop, Function.update_of_ne hl]
  constructor
  · simp [ServerState.view, ServerState.pop, hq]
  · unfold ServerState.view
    rw [hposts]
    rfl

theorem view_setPc (pc : ClosePc) :
    (s.setPc l pc).view id k =
      { s.view id k with pc := if k.loop = l then pc.on id else (s.view id k).pc } := by
  have hpc : (s.setPc l pc).pc k.loop = if k.loop = l then pc else s.pc k.loop :=
    Function.update_apply s.pc l pc k.loop
  unfold ServerState.view
  rw [hpc]
  split_ifs <;> rfl

/-- A connection that the loop is not busy with looks the same while it handles others. -/
theorem view_setPc_of_other {pc : ClosePc} (hold : (s.pc l).conn ≠ some id)
    (hnew : pc.conn ≠ some id) : (s.setPc l pc).view id k = s.view id k := by
  have hon : ∀ pc : ClosePc, pc.conn ≠ some id → pc.on id = .idle := by
    intro pc h
    cases pc <;> simp_all [ClosePc.on, ClosePc.conn]
  rw [view_setPc]
  by_cases hl : k.loop = l
  · subst hl
    rw [if_pos rfl, hon pc hnew, ← hon (s.pc k.loop) hold]
    rfl
  · rw [if_neg hl]

end

/-! ## The wiring -/

section

variable {s : ServerState} {id : ConnId} {k k' : Served} {l : LoopId} {t : Task} {rest : List Task}

theorem getElem?_set_of_loop (hk : s.conns[id]? = some k) (hl : k'.loop = k.loop) {j : ConnId}
    {q : Served} (hq : s.conns[j]? = some q) :
    ∃ q' : Served, (s.conns.set id k')[j]? = some q' ∧ q'.loop = q.loop := by
  by_cases hj : id = j
  · subst hj
    have hlt := (List.getElem?_eq_some_iff.mp hk).1
    refine ⟨k', List.getElem?_set_self hlt, ?_⟩
    rw [hk] at hq
    rw [hl, Option.some.inj hq]
  · exact ⟨q, by rw [List.getElem?_set_ne hj, hq], rfl⟩

theorem Wired.setConn (h : Wired s) (hk : s.conns[id]? = some k) (hl : k'.loop = k.loop) :
    Wired (s.setConn id k') where
  loops := by
    intro j q hq
    have hlt := (List.getElem?_eq_some_iff.mp hk).1
    by_cases hj : id = j
    · subst hj
      have hq' : (s.conns.set id k')[id]? = some q := hq
      rw [List.getElem?_set_self hlt] at hq'
      rw [← Option.some.inj hq', hl]
      exact h.loops id k hk
    · have hq' : (s.conns.set id k')[j]? = some q := hq
      rw [List.getElem?_set_ne hj] at hq'
      exact h.loops j q hq'
  tasks := by
    intro l t ht
    obtain ⟨q, hq, hloop⟩ := h.tasks l t ht
    obtain ⟨q', hq', hsame⟩ := getElem?_set_of_loop hk hl hq
    exact ⟨q', hq', by rw [hsame, hloop]⟩
  closing := by
    intro l j hj
    obtain ⟨q, hq, hloop⟩ := h.closing l j hj
    obtain ⟨q', hq', hsame⟩ := getElem?_set_of_loop hk hl hq
    exact ⟨q', hq', by rw [hsame, hloop]⟩
  keys := by
    intro j hj
    have := h.keys j hj
    simpa [ServerState.setConn] using this
  items := by
    refine ⟨h.items.1, fun j hj => ?_⟩
    have := h.items.2 j hj
    simpa [ServerState.setConn] using this
  base := h.base
  stopped := h.stopped
  gone := h.gone
  next := h.next

theorem Wired.queueInLoop (h : Wired s) (hk : s.conns[t.id]? = some k) (hl : t.loop k.loop = l) :
    Wired (s.queueInLoop l t) where
  loops := h.loops
  tasks := by
    intro l' t' ht'
    by_cases hll : l' = l
    · subst hll
      have hmem : t' ∈ s.queue l' ++ [t] := by
        simpa [ServerState.queueInLoop] using ht'
      rcases List.mem_append.mp hmem with hmem | hmem
      · exact h.tasks l' t' hmem
      · obtain rfl := List.mem_singleton.mp hmem
        exact ⟨k, hk, hl⟩
    · have hmem : t' ∈ s.queue l' := by
        simpa [ServerState.queueInLoop, Function.update_of_ne hll] using ht'
      exact h.tasks l' t' hmem
  closing := h.closing
  keys := h.keys
  items := h.items
  base := h.base
  stopped := h.stopped
  gone := h.gone
  next := h.next

theorem Wired.pop (h : Wired s) (hq : s.queue l = t :: rest) : Wired (s.pop l rest) where
  loops := h.loops
  tasks := by
    intro l' t' ht'
    by_cases hll : l' = l
    · subst hll
      have hmem : t' ∈ rest := by simpa [ServerState.pop] using ht'
      exact h.tasks l' t' (by rw [hq]; exact List.mem_cons_of_mem _ hmem)
    · have hmem : t' ∈ s.queue l' := by
        simpa [ServerState.pop, Function.update_of_ne hll] using ht'
      exact h.tasks l' t' hmem
  closing := h.closing
  keys := h.keys
  items := h.items
  base := h.base
  stopped := h.stopped
  gone := h.gone
  next := h.next

theorem Wired.setPc (h : Wired s) {pc : ClosePc}
    (hpc : ∀ id, pc.conn = some id → ∃ k : Served, s.conns[id]? = some k ∧ k.loop = l)
    (hbase : l = baseLoop → s.phase = .alive ∨ pc = .idle) (hrun : s.exited l = false ∨ pc = .idle) :
    Wired (s.setPc l pc) where
  loops := h.loops
  tasks := h.tasks
  closing := by
    intro l' j hj
    by_cases hll : l' = l
    · subst hll
      exact hpc j (by simpa [ServerState.setPc] using hj)
    · exact h.closing l' j (by simpa [ServerState.setPc, Function.update_of_ne hll] using hj)
  keys := h.keys
  items := h.items
  base := by
    intro hphase
    by_cases hll : baseLoop = l
    · subst hll
      have hidle := (hbase rfl).resolve_left hphase
      simp [ServerState.setPc, hidle]
    · simpa [ServerState.setPc, Function.update_of_ne hll] using h.base hphase
  stopped := by
    intro l' hl'
    obtain ⟨hidle, hphase⟩ := h.stopped l' hl'
    refine ⟨?_, hphase⟩
    by_cases hll : l' = l
    · subst hll
      rcases hrun with hrun | hrun
      · have hexited : s.exited l' = true := hl'
        rw [hrun] at hexited
        cases hexited
      · simp [ServerState.setPc, hrun]
    · simpa [ServerState.setPc, Function.update_of_ne hll] using hidle
  gone := h.gone
  next := h.next

end

/-- A step that changes one connection and leaves the views of the others alone. -/
theorem ServerInv.replace {s s' : ServerState} (h : ServerInv s) {id : ConnId} {k k' : Served}
    (hk : s.conns[id]? = some k) (hconns : s'.conns = s.conns.set id k')
    (hrun : s'.aborted = false) (hwired : Wired s') (hown : (s'.view id k').Ok id)
    (hother : ∀ j q, j ≠ id → s.conns[j]? = some q → s'.view j q = s.view j q) : ServerInv s' where
  running := hrun
  wired := hwired
  views := by
    intro j q hq
    rw [hconns] at hq
    by_cases hj : id = j
    · subst hj
      rw [List.getElem?_set_self (List.getElem?_eq_some_iff.mp hk).1] at hq
      rw [← Option.some.inj hq]
      exact hown
    · rw [List.getElem?_set_ne hj] at hq
      rw [hother j q (fun h => hj h.symm) hq]
      exact h.views j q hq

/-- A step that leaves the connections as they are. -/
theorem ServerInv.rewire {s s' : ServerState} (h : ServerInv s) (hconns : s'.conns = s.conns)
    (hrun : s'.aborted = false) (hwired : Wired s')
    (hviews : ∀ j q, s.conns[j]? = some q → (s.view j q).Ok j → (s'.view j q).Ok j) :
    ServerInv s' where
  running := hrun
  wired := hwired
  views := by
    intro j q hq
    rw [hconns] at hq
    exact hviews j q hq (h.views j q hq)

/-! ## Steps of one view -/

namespace View.Ok

variable {id : ConnId} {v : View} {p : Polled} {d : Dispatch ℕ} {ps : List Task}

theorem up_of_live (hl : Live v.polled) : v.state ≠ .kConnecting ∧ v.state ≠ .kDisconnected := by
  unfold View.state
  rcases hl.state with hs | hs <;> simp [hs]

theorem pc_of_live (h : v.Ok id) (hl : Live v.polled) (d : Dispatch ℕ) :
    v.pc ≠ .removing id d ∧ v.pc ≠ .destroying id d := by
  constructor
  · intro hpc
    exact (up_of_live hl).2 (h.closing d (Or.inl hpc)).1.state
  · intro hpc
    exact (up_of_live hl).2 (h.closing d (Or.inr hpc)).1.state

theorem relive (h : v.Ok id) (hl : Live v.polled) (hp : Live p) (hself : p.self = id) :
    View.Ok id { v with polled := p } := by
  obtain ⟨hc, hd⟩ := up_of_live hl
  have hup := up_of_live (v := { v with polled := p }) hp
  obtain ⟨hc', hd'⟩ := hup
  refine ⟨hself, fun hs => absurd hs hc', fun _ => hp, fun hs => absurd hs hd', ?_, ?_, ?_, h.base,
    h.exited, ?_, h.keys, ?_, h.noRemoval⟩
  · intro d hpc
    rcases hpc with hpc | hpc
    · exact absurd hpc (h.pc_of_live hl d).1
    · exact absurd hpc (h.pc_of_live hl d).2
  · have := h.runs
    simp_all
  · have := h.posts
    simp_all
  · intro hpend
    exact ⟨(h.pending hpend).1, hd'⟩
  · intro ha
    have := h.removal ha
    simp_all

theorem establish (h : v.Ok id) (hs : v.state = .kConnecting)
    (hposts : v.posts = .connectEstablished id :: ps) (hp : Live p) (hself : p.self = id) :
    View.Ok id { v with polled := p, posts := ps } := by
  obtain ⟨hc', hd'⟩ := up_of_live (v := { v with polled := p, posts := ps }) hp
  refine ⟨hself, fun hs => absurd hs hc', fun _ => hp, fun hs => absurd hs hd', ?_, ?_, ?_, ?_, ?_,
    ?_, h.keys, ?_, h.noRemoval⟩
  · intro d hpc
    have hstate := (h.closing d hpc).1.state
    have hs' : v.polled.connection.state = .kConnecting := hs
    rw [hs'] at hstate
    cases hstate
  · have := h.runs
    simp_all
  · have := h.posts
    simp_all
  · intro hbase
    have := h.base hbase
    simp_all
  · intro hexited
    have := h.exited hexited
    simp_all
  · intro hpend
    exact ⟨(h.pending hpend).1, hd'⟩
  · intro ha
    have := h.removal ha
    simp_all

theorem startClose (h : v.Ok id) (hl : Live v.polled) (ha : v.alive = true) (hpc : v.pc = .idle)
    (hp : Disconnected p) (hself : p.self = id) (hd : d.AllowsRemoval id) :
    View.Ok id { v with polled := p, pc := .removing id d } := by
  obtain ⟨hc, hdis⟩ := up_of_live hl
  have hstate : p.connection.state = .kDisconnected := hp.state
  refine ⟨hself, ?_, ?_, ?_, ?_, ?_, ?_, h.base, h.exited, ?_, h.keys, ?_, ?_⟩
  · intro hs
    simp [View.state, hstate] at hs
  · intro hs
    simp [View.state, hstate] at hs
  · intro _
    simp [hp.registration]
  · intro d' hpc'
    obtain rfl : d = d' := by simpa using hpc'
    exact ⟨hp, hd⟩
  · have := h.runs
    simp_all [View.state]
  · have := h.posts
    simp_all [View.state]
  · intro hpend
    have := (h.pending hpend).1
    simp_all
  · intro _
    have := h.removal ha
    simp_all [View.state, ClosePc.isRemoving]
  · intro hdead
    simp_all

/-- A message to erase the name is there only while the server is, and with the name. -/
theorem of_removal (h : v.Ok id) (hm : 0 < v.removals ∨ v.pc.isRemoving = true) :
    v.alive = true ∧ v.state = .kDisconnected ∧ v.keys = 1 ∧ v.erasures = 0 := by
  have ha : v.alive = true := by
    by_contra hdead
    obtain ⟨hr, hpc⟩ := h.noRemoval (by simpa using hdead)
    rcases hm with hm | hm
    · omega
    · simp [hpc] at hm
  have hsum := h.removal ha
  have hkeys := h.keys
  have hone : 1 ≤ v.removals + if v.pc.isRemoving then 1 else 0 := by
    rcases hm with hm | hm
    · omega
    · simp [hm]
  split_ifs at hsum with hr hs hs
  · exact ⟨ha, hs, by omega, by omega⟩
  · omega
  · simp [hr] at hone
    exact ⟨ha, hs, by omega, by omega⟩
  · simp [hr] at hone
    omega

theorem erase (h : v.Ok id) {m : ℕ} {pc : ClosePc}
    (hm : v.removals = m + 1 ∧ pc = v.pc ∨
      v.removals = m ∧ ∃ d, v.pc = .removing id d ∧ pc = .destroying id d) :
    View.Ok id { v with removals := m, erasures := v.erasures + 1, keys := 0, pc } := by
  have hsome : 0 < v.removals ∨ v.pc.isRemoving = true := by
    rcases hm with ⟨hm, -⟩ | ⟨-, d, hpc, -⟩
    · exact Or.inl (by omega)
    · exact Or.inr (by simp [hpc, ClosePc.isRemoving])
  obtain ⟨ha, hs, hkeys, hzero⟩ := h.of_removal hsome
  have hsum := h.removal ha
  refine ⟨h.self, h.connecting, h.live, h.unwatched, ?_, ?_, h.posts, h.base, h.exited, h.pending, ?_,
    ?_, ?_⟩
  · intro d hpc
    rcases hm with ⟨-, rfl⟩ | ⟨-, e, hold, rfl⟩
    · exact h.closing d hpc
    · obtain rfl : e = d := by simpa using hpc
      exact h.closing e (Or.inl hold)
  · have hruns := h.runs
    rcases hm with ⟨-, rfl⟩ | ⟨-, e, hold, rfl⟩
    · exact hruns
    · rw [hold] at hruns
      simpa [View.state] using hruns
  · dsimp only
    omega
  · intro _
    have hs' : View.state { v with removals := m, erasures := v.erasures + 1, keys := 0, pc } =
      .kDisconnected := hs
    rw [if_pos hs] at hsum
    rw [if_pos hs']
    rcases hm with ⟨hm, rfl⟩ | ⟨hm, e, hold, rfl⟩
    · dsimp only
      omega
    · rw [hold] at hsum
      simp only [ClosePc.isRemoving, if_true] at hsum ⊢
      simp only [Bool.false_eq_true, if_false]
      omega
  · intro hdead
    rw [show v.alive = false from hdead] at ha
    cases ha

theorem askErase (h : v.Ok id) (hpc : v.pc = .removing id d) :
    View.Ok id { v with removals := v.removals + 1, pc := .destroying id d } := by
  have hsome : v.pc.isRemoving = true := by simp [hpc, ClosePc.isRemoving]
  obtain ⟨ha, hs, hkeys, hzero⟩ := h.of_removal (Or.inr hsome)
  have hsum := h.removal ha
  refine ⟨h.self, h.connecting, h.live, h.unwatched, ?_, ?_, h.posts, h.base, h.exited, h.pending,
    h.keys, ?_, ?_⟩
  · intro e he
    obtain rfl : d = e := by simpa using he
    exact h.closing d (Or.inl hpc)
  · have hruns := h.runs
    rw [hpc] at hruns
    simpa [View.state] using hruns
  · intro _
    rw [hsome] at hsum
    simp only [if_true] at hsum
    simp only [ClosePc.isRemoving, Bool.false_eq_true, if_false]
    exact hsum
  · intro hdead
    rw [show v.alive = false from hdead] at ha
    cases ha

theorem destroyed (h : v.Ok id) (hpc : v.pc = .destroying id d)
    (hp : p.connection.state = .kDisconnected) (hr : p.registration = {}) (hself : p.self = id) :
    View.Ok id { v with polled := p, runs := v.runs + 1, pc := .idle } := by
  have hold : v.polled.connection.state = .kDisconnected := (h.closing d (Or.inr hpc)).1.state
  have hruns := h.runs
  have hposts := h.posts
  have hremoval := h.removal
  have hnone := h.noRemoval
  have hpend := h.pending
  rw [hpc] at hruns hremoval hnone
  refine ⟨hself, ?_, ?_, fun _ => by simp [hr], ?_, ?_, ?_, h.base, h.exited, ?_, h.keys, ?_, ?_⟩
  · intro hs
    simp [View.state, hp] at hs
  · intro hs
    simp [View.state, hp] at hs
  · intro e he
    simp at he
  · simp [View.state, hp, hruns]
  · simpa [View.state, hp, hold] using hposts
  · intro hpending
    exact absurd hold (hpend hpending).2
  · intro ha
    simpa [View.state, hp, hold, ClosePc.isRemoving] using hremoval ha
  · intro hdead
    simpa [ClosePc.isRemoving] using hnone hdead

theorem destroy (h : v.Ok id) (ha : v.alive = true)
    (hguard : 0 < v.keys → v.state ≠ .kDisconnected) {pending : Bool}
    (hpending : pending = true ↔ 0 < v.keys) :
    View.Ok id { v with alive := false, pending } := by
  have hsum := h.removal ha
  have hkeys := h.keys
  have hposts := h.posts
  have hup : v.state ≠ .kDisconnected → pending = true := by
    intro hs
    rw [if_neg hs] at hsum
    exact hpending.mpr (by omega)
  refine ⟨h.self, h.connecting, h.live, h.unwatched, h.closing, h.runs, ?_, h.base, h.exited, ?_,
    h.keys, ?_, ?_⟩
  · have hnone : ¬ (false = false ∧ v.state ≠ .kDisconnected ∧ pending = false) := by
      rintro ⟨-, hs, hp⟩
      rw [hup hs] at hp
      cases hp
    have hbefore : ¬ (v.alive = false ∧ v.state ≠ .kDisconnected ∧ v.pending = false) := by
      simp [ha]
    rw [if_neg hbefore] at hposts
    exact hposts.trans (congrArg _ (if_neg hnone).symm)
  · intro hp
    exact ⟨rfl, hguard (hpending.mp hp)⟩
  · intro halive
    cases halive
  · intro _
    by_cases hk : 0 < v.keys
    · rw [if_neg (hguard hk)] at hsum
      refine ⟨by dsimp only; omega, ?_⟩
      by_contra hr
      rw [if_pos (by simpa using hr)] at hsum
      omega
    · have hle : v.removals + (if v.pc.isRemoving then 1 else 0) + v.erasures ≤ 1 := by
        rw [hsum]
        split_ifs <;> omega
      refine ⟨by dsimp only; omega, ?_⟩
      by_contra hr
      rw [if_pos (by simpa using hr)] at hle
      omega

theorem post (h : v.Ok id) (hpend : v.pending = true) (hbase : v.base = false)
    (hexited : v.exited = false) :
    View.Ok id { v with pending := false, posts := v.posts ++ [.connectDestroyed id] } := by
  obtain ⟨hdead, hs⟩ := h.pending hpend
  have hposts := h.posts
  refine ⟨h.self, h.connecting, h.live, h.unwatched, h.closing, h.runs, ?_, ?_, ?_, ?_, h.keys,
    h.removal, h.noRemoval⟩
  · rw [if_neg (show ¬ (v.alive = false ∧ v.state ≠ .kDisconnected ∧ v.pending = false) by
      simp [hpend]), List.append_nil] at hposts
    have hnow : v.alive = false ∧ v.state ≠ .kDisconnected ∧ false = false := ⟨hdead, hs, rfl⟩
    dsimp only
    rw [hposts]
    exact congrArg _ (if_pos hnow).symm
  · intro hb
    rw [show v.base = true from hb] at hbase
    cases hbase
  · intro he
    rw [show v.exited = true from he] at hexited
    cases hexited
  · intro hp
    cases hp

theorem tornDown (h : v.Ok id) (hup : v.state = .kConnected) (hdead : v.alive = false)
    (hpc : v.pc = .idle) (hp : p.connection.state = .kDisconnected) (hr : p.registration = {})
    (hself : p.self = id) :
    View.Ok id { v with polled := p, runs := v.runs + 1, posts := [], pending := false } := by
  have hruns : v.runs = 0 := by
    rw [h.runs, hup]
    simp
  refine ⟨hself, ?_, ?_, fun _ => by simp [hr], ?_, ?_, ?_, fun _ => rfl, fun _ => rfl, ?_, h.keys, ?_,
    h.noRemoval⟩
  · intro hs
    simp [View.state, hp] at hs
  · intro hs
    simp [View.state, hp] at hs
  · intro e he
    simp [hpc] at he
  · simp [View.state, hp, hpc, hruns]
  · simp [View.state, hp]
  · intro hpend
    cases hpend
  · intro ha
    rw [show v.alive = true from ha] at hdead
    cases hdead

theorem accepted (hp : Live p) (hself : p.self = id) {exited base : Bool} :
    View.Ok id ⟨p, 0, 0, [], 0, 1, .idle, true, false, exited, base⟩ := by
  obtain ⟨hc, hd⟩ := up_of_live (v := ⟨p, 0, 0, [], 0, 1, .idle, true, false, exited, base⟩) hp
  refine ⟨hself, fun hs => absurd hs hc, fun _ => hp, fun hs => absurd hs hd, ?_, ?_, ?_, fun _ => rfl,
    fun _ => rfl, ?_, rfl, ?_, ?_⟩
  · intro e he
    simp at he
  · simp [hd]
  · simp [hc]
  · intro hpend
    cases hpend
  · intro _
    simp [hd, ClosePc.isRemoving]
  · intro hdead
    cases hdead

theorem connecting_posted (hs : p.connection.state = .kConnecting) (hr : p.registration = {})
    (hself : p.self = id) :
    View.Ok id ⟨p, 0, 0, [.connectEstablished id], 0, 1, .idle, true, false, false, false⟩ := by
  refine ⟨hself, fun _ => hr, ?_, fun _ => by simp [hr], ?_, ?_, ?_, ?_, ?_, ?_, rfl, ?_, ?_⟩
  · intro hup
    simp [View.state, hs] at hup
  · intro e he
    simp at he
  · simp [View.state, hs]
  · simp [View.state, hs]
  · intro hb
    cases hb
  · intro he
    cases he
  · intro hpend
    cases hpend
  · intro _
    simp [View.state, hs, ClosePc.isRemoving]
  · intro hdead
    cases hdead

theorem of_destroyed_post (h : v.Ok id) (hposts : v.posts = .connectDestroyed id :: ps) :
    v.alive = false ∧ v.pending = false ∧ ps = [] ∧
      (v.state = .kConnected ∨ v.state = .kDisconnecting) := by
  have heq := h.posts
  rw [hposts] at heq
  split_ifs at heq with hs hd hd
  · simp at heq
  · simp at heq
  · obtain ⟨hdead, hne, hpend⟩ := hd
    refine ⟨hdead, hpend, by simpa using heq, ?_⟩
    cases hstate : v.state <;> simp_all
  · simp at heq

theorem of_established_post (h : v.Ok id) (hposts : v.posts = .connectEstablished id :: ps) :
    v.state = .kConnecting := by
  by_contra hs
  have heq := h.posts
  rw [hposts, if_neg hs] at heq
  split_ifs at heq <;> simp at heq

theorem exit (h : v.Ok id) (hdead : v.alive = false) (hpend : v.pending = false)
    (hnone : Task.connectDestroyed id ∉ v.posts) :
    View.Ok id { v with exited := true } ∧ v.state = .kDisconnected := by
  have hposts := h.posts
  have hs : v.state = .kDisconnected := by
    by_contra hs
    rw [if_pos (show v.alive = false ∧ v.state ≠ .kDisconnected ∧ v.pending = false from
      ⟨hdead, hs, hpend⟩)] at hposts
    exact hnone (by rw [hposts]; simp)
  have hnil : v.posts = [] := by
    rw [hposts]
    simp [hs]
  exact ⟨⟨h.self, h.connecting, h.live, h.unwatched, h.closing, h.runs, h.posts, h.base,
    fun _ => hnil, h.pending, h.keys, h.removal, h.noRemoval⟩, hs⟩

end View.Ok

/-! ## Steps of the system -/

section

variable {s : ServerState} {id : ConnId} {k k' : Served} {l : LoopId} {t : Task} {rest : List Task}
  {p : Polled} {d : Dispatch ℕ}

theorem onConn_eq (hk : s.conns[id]? = some k) (f : Served → ServerState) :
    s.onConn id f = f k := by
  simp [ServerState.onConn, hk]

theorem pc_on_idle (h : s.pc k.loop = .idle) : (s.view id k).pc = .idle := by
  simp [ServerState.view, h, ClosePc.on]

theorem view_pop_of_ne (hq : s.queue l = t :: rest) {j : ConnId} (hj : j ≠ t.id) (q : Served) :
    (s.pop l rest).view j q = s.view j q := by
  have hne : t.id ≠ j := fun h => hj h.symm
  obtain ⟨hp, hr⟩ := Task.not_posts_of_ne hne
  exact view_pop_of_other hq hp hr

theorem ServerInv.relive (h : ServerInv s) (hk : s.conns[id]? = some k) (hl : Live k.polled)
    (hp : Live p) (hself : p.self = k.polled.self) :
    ServerInv (s.setConn id { k with polled := p }) := by
  have hok := h.views id k hk
  refine h.replace hk rfl h.running (h.wired.setConn hk rfl) ?_ ?_
  · exact hok.relive hl hp (hself.trans hok.self)
  · intro j q _ _
    rfl

theorem setConn_self (hk : s.conns[id]? = some k) : s.setConn id k = s := by
  obtain ⟨hlt, rfl⟩ := List.getElem?_eq_some_iff.mp hk
  simp [ServerState.setConn]

theorem ServerInv.shutdown (h : ServerInv s) (hk : s.conns[id]? = some k) (inLoop : Bool) :
    ServerInv (s.settle id k (k.polled.shutdown inLoop)) := by
  have hbecome : k.polled.shutdown inLoop =
      .ok { k.polled with connection := k.polled.connection.shutdown inLoop } := rfl
  rw [hbecome]
  by_cases hs : k.polled.connection.state = .kConnected
  · have hl := (h.views id k hk).live (Or.inl hs)
    exact h.relive hk hl (hl.become (TcpConnection.shutdown_keepsUp _ _) hbecome) rfl
  · have hsame : k.polled.connection.shutdown inLoop = k.polled.connection := if_neg hs
    rw [hsame]
    have hset : s.settle id k (.ok k.polled) = s := setConn_self hk
    exact hset.symm ▸ h

theorem ServerInv.queueForceClose (h : ServerInv s) (hk : s.conns[id]? = some k) :
    ServerInv (s.queueInLoop k.loop (.forceCloseInLoop id)) := by
  refine h.rewire rfl h.running (h.wired.queueInLoop (t := .forceCloseInLoop id) hk rfl) ?_
  intro j q _ hok
  rw [view_queueInLoop_of_other rfl (by simp)]
  exact hok

theorem ServerInv.forceClose (h : ServerInv s) (hk : s.conns[id]? = some k) :
    ServerInv (s.forceClose id k) := by
  unfold ServerState.forceClose
  split_ifs with hs
  · have hl := (h.views id k hk).live hs
    set c : TcpConnection := { k.polled.connection with state := .kDisconnecting } with hc
    have hlive : Live { k.polled with connection := c } :=
      ⟨Or.inr rfl, hl.reading, hl.index, hl.entry⟩
    have hinv := h.relive hk hl hlive rfl
    have hlt := (List.getElem?_eq_some_iff.mp hk).1
    have hk' : (s.setConn id { k with polled := { k.polled with connection := c } }).conns[id]? =
        some { k with polled := { k.polled with connection := c } } :=
      List.getElem?_set_self hlt
    have hqueued := hinv.queueForceClose hk'
    exact hqueued
  · exact h

theorem ServerInv.startClose (h : ServerInv s) (hk : s.conns[id]? = some k)
    (hs : k.polled.connection.state = .kConnected ∨ k.polled.connection.state = .kDisconnecting)
    (ha : s.phase = .alive) (hrun : s.CanRun k.loop) (hd : d.AllowsRemoval k.polled.self) :
    ServerInv (s.startClose id k d) := by
  obtain ⟨hpc, hexited, -⟩ := hrun
  have hok := h.views id k hk
  have hl : Live k.polled := hok.live hs
  obtain ⟨p, hp, hdis, hself⟩ := hl.disconnect
  have hlt := (List.getElem?_eq_some_iff.mp hk).1
  have hnoconn : (s.pc k.loop).conn = none := by
    rw [hpc]
    rfl
  simp only [ServerState.startClose, hp]
  have hwired : Wired (s.setConn id { k with polled := p }) := h.wired.setConn hk rfl
  refine h.replace hk rfl h.running (hwired.setPc ?_ (fun _ => Or.inl ha) (Or.inl hexited)) ?_ ?_
  · intro j hj
    obtain rfl : id = j := by simpa [ClosePc.conn] using hj
    exact ⟨_, List.getElem?_set_self hlt, rfl⟩
  · rw [view_setPc, if_pos rfl]
    have hon : (ClosePc.removing id d).on id = .removing id d := by simp [ClosePc.on]
    rw [hon]
    refine hok.startClose hl ?_ (pc_on_idle hpc) hdis (hself.trans hok.self) (hok.self ▸ hd)
    simp [ServerState.view, ha]
  · intro j q hj hq
    have hold : ((s.setConn id { k with polled := p }).pc k.loop).conn ≠ some j := by
      rw [show (s.setConn id { k with polled := p }).pc k.loop = s.pc k.loop from rfl, hnoconn]
      simp
    exact view_setPc_of_other hold (by simpa [ClosePc.conn] using fun h => hj h.symm)

theorem ServerInv.pop (h : ServerInv s) (hq : s.queue l = t :: rest)
    (ht : ∀ j, t.posts j = false ∧ t ≠ .removeConnectionInLoop j) : ServerInv (s.pop l rest) := by
  refine h.rewire rfl h.running (h.wired.pop hq) ?_
  intro j q _ hok
  rw [view_pop_of_other hq (ht j).1 (ht j).2]
  exact hok

theorem ServerInv.runEstablished (h : ServerInv s) (hq : s.queue l = .connectEstablished id :: rest) :
    ServerInv ((s.pop l rest).connectEstablished id) := by
  obtain ⟨k, hk, hloop⟩ := h.wired.tasks l (.connectEstablished id) (by rw [hq]; simp)
  obtain rfl : k.loop = l := hloop
  have hk' : s.conns[id]? = some k := hk
  have hok := h.views id k hk'
  have hpost : (Task.connectEstablished id).posts id = true := by simp [Task.posts]
  obtain ⟨hposts, hview⟩ := view_pop_post hq hpost
  have hs := hok.of_established_post hposts
  obtain ⟨p, hp, hlive, -, hself⟩ :=
    Polled.connectEstablished_ok (p := k.polled) hs (hok.connecting hs)
  have hpop : (s.pop k.loop rest).connectEstablished id =
      (s.pop k.loop rest).setConn id { k with polled := p } := by
    rw [ServerState.connectEstablished, onConn_eq (s := s.pop k.loop rest) hk', hp]
    rfl
  rw [hpop]
  refine h.replace hk' rfl h.running ((h.wired.pop hq).setConn hk' rfl) ?_ ?_
  · have hnew := hok.establish hs hposts hlive (hself.trans hok.self)
    have hown : ((s.pop k.loop rest).setConn id { k with polled := p }).view id
        { k with polled := p } = { (s.pop k.loop rest).view id k with polled := p } := rfl
    rw [hown, hview]
    exact hnew
  · intro j q hj _
    exact view_pop_of_ne hq hj q

theorem ServerInv.runDestroyed (h : ServerInv s) (hq : s.queue l = .connectDestroyed id :: rest)
    (hrun : s.CanRun l) (hg : Orderly s (.runFunctor l)) :
    ServerInv ((s.pop l rest).connectDestroyed id {}) := by
  obtain ⟨k, hk, hloop⟩ := h.wired.tasks l (.connectDestroyed id) (by rw [hq]; simp)
  obtain rfl : k.loop = l := hloop
  have hk' : s.conns[id]? = some k := hk
  have hok := h.views id k hk'
  have hpost : (Task.connectDestroyed id).posts id = true := by simp [Task.posts]
  obtain ⟨hposts, hview⟩ := view_pop_post hq hpost
  obtain ⟨hdead, hpend, hnil, hs⟩ := hok.of_destroyed_post hposts
  have hconnected : k.polled.connection.state = .kConnected := by
    have hguard : k.polled.connection.state ≠ .kDisconnecting := by
      simpa [Orderly, orderly, hq, hk'] using hg
    exact hs.resolve_right hguard
  have hl : Live k.polled := hok.live hs
  have hallows : Dispatch.AllowsRemoval {} k.polled.self := by
    intro hhandling
    cases hhandling
  obtain ⟨p, hp, hstate, -, hreg⟩ := hl.tearsDown hconnected hallows
  have hself := Polled.connectDestroyed_self hp
  have hpop : (s.pop k.loop rest).connectDestroyed id {} = (s.pop k.loop rest).setConn id
      { k with polled := p, destroyedRuns := k.destroyedRuns + 1 } := by
    rw [ServerState.connectDestroyed, onConn_eq (s := s.pop k.loop rest) hk', hp]
    rfl
  rw [hpop]
  refine h.replace hk' rfl h.running ((h.wired.pop hq).setConn hk' rfl) ?_ ?_
  · have hnew := hok.tornDown hconnected hdead (pc_on_idle hrun.1) hstate hreg
      (hself.trans hok.self)
    have hown : ((s.pop k.loop rest).setConn id
        { k with polled := p, destroyedRuns := k.destroyedRuns + 1 }).view id
          { k with polled := p, destroyedRuns := k.destroyedRuns + 1 } =
        { (s.pop k.loop rest).view id k with
          polled := p
          runs := ((s.pop k.loop rest).view id k).runs + 1 } := rfl
    rw [hown, hview, hnil]
    rw [← hpend] at hnew
    exact hnew
  · intro j q hj _
    exact view_pop_of_ne hq hj q

def ServerState.eraseKey (s : ServerState) (id : ConnId) (k : Served) : ServerState :=
  { s.setConn id { k with erasures := k.erasures + 1 } with
    connections := s.connections.filter (· ≠ id) }

theorem removeConnectionInLoop_eq (hk : s.conns[id]? = some k) (ha : s.phase = .alive)
    (hkeys : s.connections.count id = 1) : s.removeConnectionInLoop id = s.eraseKey id k := by
  rw [ServerState.removeConnectionInLoop, onConn_eq hk]
  simp only [hkeys, ha, and_self, if_true]
  rfl

theorem view_eraseKey_self : (s.eraseKey id k).view id { k with erasures := k.erasures + 1 } =
    { s.view id k with keys := 0, erasures := (s.view id k).erasures + 1 } := by
  have hcount : (s.connections.filter (· ≠ id)).count id = 0 := by
    rw [List.count_eq_zero]
    simp
  have hkeys : (s.eraseKey id k).connections.count id = 0 := hcount
  unfold ServerState.view
  rw [hkeys]
  rfl

theorem view_eraseKey_of_ne {j : ConnId} (hj : j ≠ id) (q : Served) :
    (s.eraseKey id k).view j q = s.view j q := by
  have hcount : (s.connections.filter (· ≠ id)).count j = s.connections.count j :=
    List.count_filter (by simpa using hj)
  have hkeys : (s.eraseKey id k).connections.count j = s.connections.count j := hcount
  unfold ServerState.view
  rw [hkeys]
  rfl

theorem Wired.eraseKey (h : Wired s) (hk : s.conns[id]? = some k) : Wired (s.eraseKey id k) := by
  have hset : Wired (s.setConn id { k with erasures := k.erasures + 1 }) := h.setConn hk rfl
  refine ⟨hset.loops, hset.tasks, hset.closing, ?_, hset.items, hset.base, hset.stopped, hset.gone,
    hset.next⟩
  intro j hj
  exact hset.keys j (List.mem_filter.mp hj).1

theorem ServerInv.runRemoval (h : ServerInv s)
    (hq : s.queue l = .removeConnectionInLoop id :: rest) :
    ServerInv ((s.pop l rest).removeConnectionInLoop id) := by
  obtain ⟨k, hk, hloop⟩ := h.wired.tasks l (.removeConnectionInLoop id) (by rw [hq]; simp)
  obtain rfl : baseLoop = l := hloop
  have hk' : s.conns[id]? = some k := hk
  have hok := h.views id k hk'
  obtain ⟨hremovals, hview⟩ := view_pop_removal (k := k) hq
  obtain ⟨halive, -, hkeys, -⟩ := hok.of_removal (Or.inl (by omega))
  have ha : s.phase = .alive := by simpa [ServerState.view] using halive
  rw [removeConnectionInLoop_eq (s := s.pop baseLoop rest) hk' ha hkeys]
  refine h.replace hk' rfl h.running ((h.wired.pop hq).eraseKey hk') ?_ ?_
  · rw [view_eraseKey_self, hview]
    exact hok.erase (Or.inl ⟨hremovals, rfl⟩)
  · intro j q hj _
    rw [view_eraseKey_of_ne hj]
    exact view_pop_of_ne hq hj q

theorem ServerInv.proceedRemoving (h : ServerInv s) (hpc : s.pc l = .removing id d) :
    ServerInv ((s.removeConnection l id).setPc l (.destroying id d)) := by
  obtain ⟨k, hk, rfl⟩ := h.wired.closing l id (by rw [hpc]; rfl)
  have hok := h.views id k hk
  have hon : (s.view id k).pc = .removing id d := by simp [ServerState.view, hpc, ClosePc.on]
  obtain ⟨halive, -, hkeys, -⟩ := hok.of_removal (Or.inr (by rw [hon]; rfl))
  have ha : s.phase = .alive := by simpa [ServerState.view] using halive
  have hexited : s.exited k.loop = false := by
    by_contra hne
    have hidle := (h.wired.stopped k.loop (by simpa using hne)).1
    rw [hpc] at hidle
    cases hidle
  have hself : (ClosePc.destroying id d).on id = .destroying id d := by simp [ClosePc.on]
  have hothers : ∀ j, j ≠ id → (s.pc k.loop).conn ≠ some j := by
    intro j hj
    rw [hpc]
    simpa [ClosePc.conn] using fun h => hj h.symm
  have hnew : ∀ j, j ≠ id → (ClosePc.destroying id d).conn ≠ some j := by
    intro j hj
    simpa [ClosePc.conn] using fun h => hj h.symm
  have hlt := (List.getElem?_eq_some_iff.mp hk).1
  unfold ServerState.removeConnection
  rw [if_neg (by rw [ha]; simp)]
  by_cases hbase : k.loop = baseLoop
  · rw [if_pos hbase, removeConnectionInLoop_eq hk ha hkeys]
    refine h.replace hk rfl h.running ((h.wired.eraseKey hk).setPc ?_ (fun _ => Or.inl ha)
      (Or.inl hexited)) ?_ ?_
    · intro j hj
      obtain rfl : id = j := by simpa [ClosePc.conn] using hj
      exact ⟨_, List.getElem?_set_self hlt, rfl⟩
    · rw [view_setPc, if_pos rfl, hself, view_eraseKey_self]
      exact hok.erase (Or.inr ⟨rfl, d, hon, rfl⟩)
    · intro j q hj _
      rw [view_setPc_of_other (s := s.eraseKey id k) (hothers j hj) (hnew j hj)]
      exact view_eraseKey_of_ne hj q
  · rw [if_neg hbase]
    have hconns : (s.queueInLoop baseLoop (.removeConnectionInLoop id)).conns =
        s.conns.set id k := congrArg ServerState.conns (setConn_self hk).symm
    have hwired : Wired (s.queueInLoop baseLoop (.removeConnectionInLoop id)) :=
      h.wired.queueInLoop (t := .removeConnectionInLoop id) hk rfl
    refine h.replace hk hconns h.running (hwired.setPc ?_ (fun _ => Or.inl ha) (Or.inl hexited))
      ?_ ?_
    · intro j hj
      obtain rfl : id = j := by simpa [ClosePc.conn] using hj
      exact ⟨k, hk, rfl⟩
    · rw [view_setPc, if_pos rfl, hself, view_queueInLoop_removal]
      exact hok.askErase hon
    · intro j q hj _
      rw [view_setPc_of_other (s := s.queueInLoop baseLoop (.removeConnectionInLoop id))
        (hothers j hj) (hnew j hj)]
      exact view_queueInLoop_of_ne fun h => hj h.symm

theorem ServerInv.proceedDestroying (h : ServerInv s) (hpc : s.pc l = .destroying id d) :
    ServerInv ((s.connectDestroyed id d).setPc l .idle) := by
  obtain ⟨k, hk, rfl⟩ := h.wired.closing l id (by rw [hpc]; rfl)
  have hok := h.views id k hk
  have hon : (s.view id k).pc = .destroying id d := by simp [ServerState.view, hpc, ClosePc.on]
  obtain ⟨hdis, hallows⟩ := hok.closing d (Or.inr hon)
  have hdis' : Disconnected k.polled := hdis
  have hself' : k.polled.self = id := hok.self
  obtain ⟨p, hp, hstate, hreg⟩ := hdis'.connectDestroyed (d := d) (hself' ▸ hallows)
  have hself := Polled.connectDestroyed_self hp
  have heq : s.connectDestroyed id d = s.setConn id
      { k with polled := p, destroyedRuns := k.destroyedRuns + 1 } := by
    rw [ServerState.connectDestroyed, onConn_eq hk, hp]
    rfl
  rw [heq]
  have hwired : Wired (s.setConn id { k with polled := p, destroyedRuns := k.destroyedRuns + 1 }) :=
    h.wired.setConn hk rfl
  refine h.replace hk rfl h.running (hwired.setPc ?_ (fun _ => Or.inr rfl) (Or.inr rfl)) ?_ ?_
  · intro j hj
    cases hj
  · rw [view_setPc, if_pos rfl]
    exact hok.destroyed hon hstate hreg (hself.trans hok.self)
  · intro j q hj _
    refine view_setPc_of_other ?_ (by simp [ClosePc.conn])
    have hsame : (s.setConn id { k with polled := p, destroyedRuns := k.destroyedRuns + 1 }).pc
        k.loop = .destroying id d := hpc
    rw [hsame]
    simpa [ClosePc.conn] using fun h => hj h.symm

theorem view_phase (phase : ServerPhase) :
    ({ s with phase } : ServerState).view id k =
      { s.view id k with alive := phase = .alive, pending := id ∈ phase.items } := rfl

theorem ServerInv.connections_nodup (h : ServerInv s) : s.connections.Nodup := by
  rw [List.nodup_iff_count_le_one]
  intro j
  by_cases hj : j ∈ s.connections
  · have hlt := h.wired.keys j hj
    have hkeys := (h.views j _ (List.getElem?_eq_getElem hlt)).keys
    have hcount : (s.view j s.conns[j]).keys = s.connections.count j := rfl
    omega
  · rw [List.count_eq_zero_of_not_mem hj]
    omega

theorem ServerInv.destroy (h : ServerInv s) (ha : s.phase = .alive) (hrun : s.CanRun baseLoop)
    (hg : Orderly s (.destroy d)) :
    ServerInv { s with phase := .destroying s.connections d } := by
  have hstopped : ∀ l, s.exited l = true → False := by
    intro l hl
    have hphase := (h.wired.stopped l hl).2
    rw [ha] at hphase
    rcases hphase with hphase | hphase <;> cases hphase
  refine h.rewire rfl h.running ?_ ?_
  · refine ⟨h.wired.loops, h.wired.tasks, h.wired.closing, h.wired.keys,
      ⟨h.connections_nodup, h.wired.keys⟩, fun _ => hrun.1, ?_, ?_, h.wired.next⟩
    · intro l hl
      exact absurd hl (hstopped l)
    · intro hgone
      cases hgone
  · intro j q hq hok
    rw [view_phase]
    refine hok.destroy (by simp [ServerState.view, ha]) ?_ ?_
    · intro hkeys
      have hmem : j ∈ s.connections := List.count_pos_iff.mp hkeys
      have hall := List.all_eq_true.mp hg j hmem
      simpa [hq, View.state, ServerState.view] using hall
    · exact decide_eq_true_iff.trans List.count_pos_iff.symm

theorem Wired.shrinkItems (h : Wired s) {items : List ConnId}
    (hphase : s.phase = .destroying (id :: items) d) :
    Wired { s with phase := .destroying items d } := by
  have hitems := h.items
  rw [hphase] at hitems
  have hdead : s.phase ≠ .alive := by simp [hphase]
  refine ⟨h.loops, h.tasks, h.closing, h.keys, ⟨(List.nodup_cons.mp hitems.1).2, ?_⟩,
    fun _ => h.base hdead, ?_, ?_, h.next⟩
  · intro j hj
    exact hitems.2 j (List.mem_cons_of_mem _ hj)
  · intro l hl
    have hstop := (h.stopped l hl).2
    rw [hphase] at hstop
    rcases hstop with hstop | hstop <;> cases hstop
  · intro hgone
    cases hgone

theorem view_shrinkItems_of_ne {items : List ConnId} {j : ConnId} (hj : j ≠ id)
    (hphase : s.phase = .destroying (id :: items) d) (q : Served) :
    ({ s with phase := .destroying items d } : ServerState).view j q = s.view j q := by
  have hmem : decide (j ∈ items) = decide (j ∈ s.phase.items) := by
    simp [hphase, ServerPhase.items, hj]
  have halive : decide (ServerPhase.destroying items d = .alive) = decide (s.phase = .alive) := by
    simp [hphase]
  rw [view_phase, halive]
  exact congrArg (fun b => { s.view j q with pending := b }) hmem

theorem view_shrinkItems_self {items : List ConnId} (hphase : s.phase = .destroying (id :: items) d)
    (hnotin : id ∉ items) : ({ s with phase := .destroying items d } : ServerState).view id k =
      { s.view id k with pending := false } := by
  rw [view_phase]
  simp [ServerState.view, hphase, ServerPhase.items, hnotin]

theorem ServerInv.destroyNext_base (h : ServerInv s) {items : List ConnId}
    (hphase : s.phase = .destroying (id :: items) d) (hg : Orderly s .destroyNext)
    (hk : s.conns[id]? = some k) (hbase : k.loop = baseLoop) (hnotin : id ∉ items) :
    ServerInv (ServerState.connectDestroyed { s with phase := .destroying items d } id d) := by
  have hok := h.views id k hk
  have hpend : (s.view id k).pending = true := by
    simp [ServerState.view, hphase, ServerPhase.items]
  obtain ⟨hdead, hs⟩ := hok.pending hpend
  have hnil := hok.base (by simpa [ServerState.view] using hbase)
  have hguard : k.polled.connection.state ≠ .kDisconnecting ∧ d.AllowsRemoval k.polled.self := by
    simpa [Orderly, orderly, hphase, hk, hbase] using hg
  have hconnected : k.polled.connection.state = .kConnected := by
    have hposts := hok.posts
    rw [hnil] at hposts
    have hs' : k.polled.connection.state ≠ .kDisconnected := hs
    cases hstate : k.polled.connection.state with
    | kConnecting => simp [View.state, ServerState.view, hstate] at hposts
    | kConnected => rfl
    | kDisconnecting => exact absurd hstate hguard.1
    | kDisconnected => exact absurd hstate hs'
  have hl : Live k.polled := hok.live (Or.inl hconnected)
  obtain ⟨p, hp, hstate, -, hreg⟩ := hl.tearsDown hconnected hguard.2
  have hself := Polled.connectDestroyed_self hp
  have heq : ServerState.connectDestroyed { s with phase := .destroying items d } id d =
      ServerState.setConn { s with phase := .destroying items d } id
        { k with polled := p, destroyedRuns := k.destroyedRuns + 1 } := by
    rw [ServerState.connectDestroyed, onConn_eq (s := { s with phase := .destroying items d }) hk,
      hp]
    rfl
  rw [heq]
  refine h.replace hk rfl h.running ((h.wired.shrinkItems hphase).setConn hk rfl) ?_ ?_
  · have hidle : s.pc k.loop = .idle := by
      rw [hbase]
      exact h.wired.base (by simp [hphase])
    have hnew := hok.tornDown hconnected hdead (pc_on_idle hidle) hstate hreg
      (hself.trans hok.self)
    have hown : (ServerState.setConn { s with phase := .destroying items d } id
        { k with polled := p, destroyedRuns := k.destroyedRuns + 1 }).view id
          { k with polled := p, destroyedRuns := k.destroyedRuns + 1 } =
        { ({ s with phase := .destroying items d } : ServerState).view id k with
          polled := p
          runs := (s.view id k).runs + 1 } := rfl
    rw [hown, view_shrinkItems_self hphase hnotin]
    rw [← hnil] at hnew
    exact hnew
  · intro j q hj _
    exact view_shrinkItems_of_ne hj hphase q

theorem ServerInv.destroyNext_queued (h : ServerInv s) {items : List ConnId}
    (hphase : s.phase = .destroying (id :: items) d) (hk : s.conns[id]? = some k)
    (hbase : k.loop ≠ baseLoop) (hnotin : id ∉ items) :
    ServerInv (ServerState.queueInLoop { s with phase := .destroying items d } k.loop
      (.connectDestroyed id)) := by
  have hpend : (s.view id k).pending = true := by
    simp [ServerState.view, hphase, ServerPhase.items]
  have hconns : (ServerState.queueInLoop { s with phase := .destroying items d } k.loop
      (.connectDestroyed id)).conns = s.conns.set id k :=
    congrArg ServerState.conns (setConn_self hk).symm
  have hwired := (h.wired.shrinkItems hphase).queueInLoop (t := .connectDestroyed id) hk rfl
  refine h.replace hk hconns h.running hwired ?_ ?_
  · rw [view_queueInLoop_post (by simp [Task.posts]), view_shrinkItems_self hphase hnotin]
    refine (h.views id k hk).post hpend (by simpa [ServerState.view] using hbase) ?_
    by_contra hne
    have hstop := (h.wired.stopped k.loop (by simpa [ServerState.view] using hne)).2
    rw [hphase] at hstop
    rcases hstop with hstop | hstop <;> cases hstop
  · intro j q hj _
    rw [view_queueInLoop_of_ne fun h => hj h.symm]
    exact view_shrinkItems_of_ne hj hphase q

theorem ServerInv.destroyNext_cons (h : ServerInv s) {items : List ConnId}
    (hphase : s.phase = .destroying (id :: items) d) (hg : Orderly s .destroyNext) :
    ServerInv (s.destroyNext (id :: items) d) := by
  have hitems := h.wired.items
  rw [hphase] at hitems
  have hlt : id < s.conns.length := hitems.2 id List.mem_cons_self
  set k := s.conns[id] with hkdef
  have hk : s.conns[id]? = some k := List.getElem?_eq_getElem hlt
  have hnotin : id ∉ items := (List.nodup_cons.mp hitems.1).1
  simp only [ServerState.destroyNext]
  rw [onConn_eq (s := { s with phase := .destroying items d }) hk]
  by_cases hbase : k.loop = baseLoop
  · rw [if_pos hbase]
    exact h.destroyNext_base hphase hg hk hbase hnotin
  · rw [if_neg hbase]
    exact h.destroyNext_queued hphase hk hbase hnotin

theorem ServerInv.setPhase (h : ServerInv s) {phase : ServerPhase} (hdead : s.phase ≠ .alive)
    (hitems : s.phase.items = []) (hphase : phase = .joining ∨ phase = .gone)
    (hgone : phase = .gone → ∀ l < s.ioLoops, s.exited (l + 1) = true) :
    ServerInv { s with phase } := by
  have hnil : phase.items = [] := by
    rcases hphase with rfl | rfl <;> rfl
  have hnew : phase ≠ .alive := by
    rcases hphase with rfl | rfl <;> simp
  refine h.rewire rfl h.running ?_ ?_
  · refine ⟨h.wired.loops, h.wired.tasks, h.wired.closing, h.wired.keys, ?_,
      fun _ => h.wired.base hdead, ?_, hgone, h.wired.next⟩
    · dsimp only
      rw [hnil]
      exact ⟨List.nodup_nil, by simp⟩
    · intro l hl
      exact ⟨(h.wired.stopped l hl).1, hphase⟩
  · intro j q _ hok
    have hview : ({ s with phase } : ServerState).view j q = s.view j q := by
      rw [view_phase]
      simp [ServerState.view, hdead, hnew, hitems, hnil]
    rw [hview]
    exact hok

theorem ServerInv.exitLoop (h : ServerInv s) (hphase : s.phase = .joining) (hpc : s.pc l = .idle)
    (hg : Orderly s (.exitLoop l)) :
    ServerInv { s with exited := Function.update s.exited l true } := by
  refine h.rewire rfl h.running ?_ ?_
  · refine ⟨h.wired.loops, h.wired.tasks, h.wired.closing, h.wired.keys, h.wired.items, h.wired.base,
      ?_, ?_, h.wired.next⟩
    · intro l' hl'
      by_cases hll : l' = l
      · subst hll
        exact ⟨hpc, Or.inl hphase⟩
      · exact h.wired.stopped l' (by simpa [Function.update_of_ne hll] using hl')
    · intro hgone
      rw [show s.phase = .gone from hgone] at hphase
      cases hphase
  · intro j q _ hok
    by_cases hll : q.loop = l
    · subst hll
      have hnone : Task.connectDestroyed j ∉ (s.view j q).posts := by
        intro hmem
        have hqueue : Task.connectDestroyed j ∈ s.queue q.loop := (List.mem_filter.mp hmem).1
        have := List.all_eq_true.mp hg _ hqueue
        simp at this
      have hexit := hok.exit (by simp [ServerState.view, hphase])
        (by simp [ServerState.view, hphase, ServerPhase.items]) hnone
      have hview : ({ s with exited := Function.update s.exited q.loop true } : ServerState).view j q
          = { s.view j q with exited := true } := by
        unfold ServerState.view
        simp only [Function.update_self]
      rw [hview]
      exact hexit.1
    · have hview : ({ s with exited := Function.update s.exited l true } : ServerState).view j q =
          s.view j q := by
        unfold ServerState.view
        simp only [Function.update_of_ne hll]
      rw [hview]
      exact hok

/-- The new connection in the map, not established yet. -/
def ServerState.accept (s : ServerState) : ServerState :=
  { s with
    next := if s.next + 1 ≥ s.ioLoops then 0 else s.next + 1
    conns := s.conns ++ [{ loop := s.nextLoop, polled := { connection := {}, self := s.conns.length } }]
    connections := s.connections ++ [s.conns.length] }

theorem Wired.accept (h : Wired s) : Wired s.accept := by
  have hlift : ∀ (j : ConnId) (q : Served), s.conns[j]? = some q → s.accept.conns[j]? = some q := by
    intro j q hq
    have hlt := (List.getElem?_eq_some_iff.mp hq).1
    exact (List.getElem?_append_left hlt).trans hq
  have hlength : s.accept.conns.length = s.conns.length + 1 := by simp [ServerState.accept]
  refine ⟨?_, ?_, ?_, ?_, ⟨h.items.1, ?_⟩, h.base, h.stopped, h.gone, ?_⟩
  · intro j q hq
    rcases getElem?_concat_eq_some.mp hq with hold | ⟨-, rfl⟩
    · exact h.loops j q hold
    · change s.nextLoop ≤ s.ioLoops
      unfold ServerState.nextLoop
      split_ifs with hio
      · exact Nat.succ_le_of_lt (h.next.resolve_left (Nat.ne_of_gt hio))
      · exact Nat.zero_le _
  · intro l t ht
    obtain ⟨q, hq, hloop⟩ := h.tasks l t ht
    exact ⟨q, hlift _ q hq, hloop⟩
  · intro l j hj
    obtain ⟨q, hq, hloop⟩ := h.closing l j hj
    exact ⟨q, hlift _ q hq, hloop⟩
  · intro j hj
    rw [hlength]
    have hj' : j ∈ s.connections ++ [s.conns.length] := hj
    rcases List.mem_append.mp hj' with hj' | hj'
    · exact Nat.lt_succ_of_lt (h.keys j hj')
    · rw [List.mem_singleton.mp hj']
      exact Nat.lt_succ_self _
  · intro j hj
    rw [hlength]
    exact Nat.lt_succ_of_lt (h.items.2 j hj)
  · change s.ioLoops = 0 ∨ (if s.next + 1 ≥ s.ioLoops then 0 else s.next + 1) < s.ioLoops
    rcases h.next with hnext | hnext
    · exact Or.inl hnext
    · right
      split_ifs <;> omega

theorem view_accept_of_lt {j : ConnId} (hj : j < s.conns.length) (q : Served) :
    s.accept.view j q = s.view j q := by
  have hcount : s.accept.connections.count j = s.connections.count j := by
    have hne : s.conns.length ≠ j := Nat.ne_of_gt hj
    simp [ServerState.accept, List.count_append, hne]
  unfold ServerState.view
  rw [hcount]
  rfl

/-- Nothing in the system is about a connection that was not accepted yet. -/
theorem ServerInv.view_accept_self (h : ServerInv s) (ha : s.phase = .alive) (k : Served) :
    s.accept.view s.conns.length k =
      ⟨k.polled, k.destroyedRuns, k.erasures, [], 0, 1, .idle, true, false, s.exited k.loop,
        k.loop = baseLoop⟩ := by
  have hnew : ∀ l, ∀ t ∈ s.queue l, t.id ≠ s.conns.length := by
    intro l t ht heq
    obtain ⟨q, hq, -⟩ := h.wired.tasks l t ht
    have hlt := (List.getElem?_eq_some_iff.mp hq).1
    exact Nat.ne_of_lt hlt heq
  have hposts : (s.queue k.loop).filter (Task.posts s.conns.length) = [] := by
    rw [List.filter_eq_nil_iff]
    intro t ht
    simp [(Task.not_posts_of_ne (hnew _ t ht)).1]
  have hremovals : (s.queue baseLoop).count (.removeConnectionInLoop s.conns.length) = 0 := by
    rw [List.count_eq_zero]
    intro hmem
    exact hnew _ _ hmem rfl
  have hkeys : s.accept.connections.count s.conns.length = 1 := by
    have hzero : s.connections.count s.conns.length = 0 := by
      rw [List.count_eq_zero]
      intro hmem
      exact absurd (h.wired.keys _ hmem) (Nat.lt_irrefl _)
    simp [ServerState.accept, List.count_append, hzero]
  have hpc : (s.pc k.loop).on s.conns.length = .idle := by
    cases hk : s.pc k.loop with
    | idle => rfl
    | removing j e =>
      obtain ⟨q, hq, -⟩ := h.wired.closing k.loop j (by rw [hk]; rfl)
      have hne : j ≠ s.conns.length := Nat.ne_of_lt (List.getElem?_eq_some_iff.mp hq).1
      simp [ClosePc.on, hne]
    | destroying j e =>
      obtain ⟨q, hq, -⟩ := h.wired.closing k.loop j (by rw [hk]; rfl)
      have hne : j ≠ s.conns.length := Nat.ne_of_lt (List.getElem?_eq_some_iff.mp hq).1
      simp [ClosePc.on, hne]
  have halive : s.accept.phase = .alive := ha
  have hqueue : s.accept.queue = s.queue := rfl
  have hpcs : s.accept.pc = s.pc := rfl
  unfold ServerState.view
  rw [hkeys, hqueue, hposts, hremovals, hpcs, hpc, halive]
  rfl

theorem ServerInv.newConnection (h : ServerInv s) (ha : s.phase = .alive) :
    ServerInv s.newConnection := by
  have hexited : ∀ l, s.exited l = false := by
    intro l
    by_contra hne
    have hstop := (h.wired.stopped l (by simpa using hne)).2
    rw [ha] at hstop
    rcases hstop with hstop | hstop <;> cases hstop
  set conn : Served := { loop := s.nextLoop, polled := { connection := {}, self := s.conns.length } }
    with hconn
  have hk : s.accept.conns[s.conns.length]? = some conn := List.getElem?_concat_length
  have hself := h.view_accept_self ha
  -- the views of the others, in a state with the same parts as after the accept
  have hothers : ∀ (j : ConnId) (q : Served), j ≠ s.conns.length → s.accept.conns[j]? = some q →
      (s.accept.view j q).Ok j := by
    intro j q hj hq
    have hold := (getElem?_concat_eq_some.mp hq).resolve_right fun he => hj he.1
    rw [view_accept_of_lt (List.getElem?_eq_some_iff.mp hold).1]
    exact h.views j q hold
  have hwired := h.wired.accept
  by_cases hbase : s.nextLoop = baseLoop
  · have hnew : s.newConnection = s.accept.connectEstablished s.conns.length := if_pos hbase
    obtain ⟨p, hp, hlive, -, hpself⟩ := Polled.connectEstablished_ok (p := conn.polled) rfl rfl
    have heq : s.accept.connectEstablished s.conns.length =
        s.accept.setConn s.conns.length { conn with polled := p } := by
      rw [ServerState.connectEstablished, onConn_eq hk, hp]
      rfl
    rw [hnew, heq]
    refine ⟨h.running, hwired.setConn hk rfl, ?_⟩
    intro j q hq
    have hq' : (s.accept.conns.set s.conns.length { conn with polled := p })[j]? = some q := hq
    have hlt : s.conns.length < s.accept.conns.length := by simp [ServerState.accept]
    by_cases hj : s.conns.length = j
    · subst hj
      rw [List.getElem?_set_self hlt] at hq'
      obtain rfl := Option.some.inj hq'
      have hview := hself { conn with polled := p }
      have hown : (s.accept.setConn s.conns.length { conn with polled := p }).view s.conns.length
          { conn with polled := p } = s.accept.view s.conns.length { conn with polled := p } := rfl
      rw [hown, hview]
      exact View.Ok.accepted hlive hpself
    · rw [List.getElem?_set_ne hj] at hq'
      exact hothers j q (fun h => hj h.symm) hq'
  · have hnew : s.newConnection =
        s.accept.queueInLoop s.nextLoop (.connectEstablished s.conns.length) := if_neg hbase
    rw [hnew]
    refine ⟨h.running, hwired.queueInLoop (t := .connectEstablished s.conns.length) hk rfl, ?_⟩
    intro j q hq
    by_cases hj : j = s.conns.length
    · subst hj
      rw [show (s.accept.queueInLoop s.nextLoop (.connectEstablished s.conns.length)).conns =
        s.accept.conns from rfl, hk] at hq
      obtain rfl := Option.some.inj hq
      rw [view_queueInLoop_post (k := conn) (by simp [Task.posts]), hself, hexited,
        decide_eq_false hbase]
      exact View.Ok.connecting_posted rfl rfl rfl
    · rw [view_queueInLoop_of_ne fun h => hj h.symm]
      exact hothers j q hj hq

theorem ServerInv.runFunctor (h : ServerInv s) (hq : s.queue l = t :: rest) (hrun : s.CanRun l)
    (hg : Orderly s (.runFunctor l)) : ServerInv ((s.pop l rest).runTask t) := by
  cases t with
  | connectEstablished id => exact h.runEstablished hq
  | connectDestroyed id => exact h.runDestroyed hq hrun hg
  | removeConnectionInLoop id => exact h.runRemoval hq
  | forceCloseInLoop id =>
    obtain ⟨k, hk, hloop⟩ := h.wired.tasks l (.forceCloseInLoop id) (by rw [hq]; simp)
    obtain rfl : k.loop = l := hloop
    have hk' : s.conns[id]? = some k := hk
    have hpop := h.pop hq (by simp [Task.posts])
    have hrun' : (s.pop k.loop rest).CanRun k.loop := hrun
    simp only [ServerState.runTask]
    rw [onConn_eq (s := s.pop k.loop rest) hk']
    split_ifs with hs
    · refine hpop.startClose hk' hs ?_ hrun' (by intro hhandling; cases hhandling)
      have hguard : s.phase = .alive ∨ k.polled.connection.state = .kDisconnected := by
        simpa [Orderly, orderly, hq, hk'] using hg
      refine hguard.resolve_right ?_
      rcases hs with hs | hs <;> simp [hs]
    · exact hpop

theorem ServerInv.peerClose (h : ServerInv s) (hk : s.conns[id]? = some k) {active : List ℕ}
    (hrun : s.CanRun k.loop) (hinterest : k.polled.registration.interest ≠ none)
    (ha : s.phase = .alive) :
    ServerInv (s.startClose id k ⟨true, some k.polled.self, active⟩) := by
  have hok := h.views id k hk
  have hup : k.polled.connection.state = .kConnected ∨ k.polled.connection.state = .kDisconnecting := by
    cases hs : k.polled.connection.state with
    | kConnecting =>
      have hreg : k.polled.registration = {} := hok.connecting hs
      exact absurd (by rw [hreg]) hinterest
    | kConnected => exact Or.inl rfl
    | kDisconnecting => exact Or.inr rfl
    | kDisconnected => exact absurd (hok.unwatched hs) hinterest
  refine h.startClose hk hup ha hrun ?_
  intro _
  exact Or.inl rfl

end

theorem ServerInv.step {s s' : ServerState} {a : ServerAction} (h : ServerInv s)
    (hg : Orderly s a) (hstep : a.run s = some s') : ServerInv s' := by
  cases a with
  | newConnection =>
    simp only [ServerAction.run, Option.ite_none_right_eq_some] at hstep
    obtain ⟨⟨ha, -⟩, hs'⟩ := hstep
    rw [← Option.some.inj hs']
    exact h.newConnection ha
  | shutdown id inLoop =>
    obtain ⟨k, hk, rfl⟩ := Option.map_eq_some_iff.mp hstep
    exact h.shutdown hk inLoop
  | forceClose id =>
    obtain ⟨k, hk, rfl⟩ := Option.map_eq_some_iff.mp hstep
    exact h.forceClose hk
  | peerClose id active =>
    obtain ⟨k, hk, hs'⟩ := Option.bind_eq_some_iff.mp hstep
    rw [Option.ite_none_right_eq_some] at hs'
    obtain ⟨⟨hrun, hinterest⟩, hs'⟩ := hs'
    rw [← Option.some.inj hs']
    exact h.peerClose hk hrun hinterest (of_decide_eq_true hg)
  | runFunctor l =>
    simp only [ServerAction.run] at hstep
    cases hq : s.queue l with
    | nil => simp [hq] at hstep
    | cons t rest =>
      simp only [hq, Option.ite_none_right_eq_some] at hstep
      obtain ⟨hrun, hs'⟩ := hstep
      rw [← Option.some.inj hs']
      exact h.runFunctor hq hrun hg
  | proceed l =>
    simp only [ServerAction.run] at hstep
    cases hpc : s.pc l with
    | idle => simp [hpc] at hstep
    | removing id d =>
      simp only [hpc] at hstep
      rw [← Option.some.inj hstep]
      exact h.proceedRemoving hpc
    | destroying id d =>
      simp only [hpc] at hstep
      rw [← Option.some.inj hstep]
      exact h.proceedDestroying hpc
  | destroy d =>
    simp only [ServerAction.run, Option.ite_none_right_eq_some] at hstep
    obtain ⟨⟨ha, hrun⟩, hs'⟩ := hstep
    rw [← Option.some.inj hs']
    exact h.destroy ha hrun hg
  | destroyNext =>
    simp only [ServerAction.run] at hstep
    cases hphase : s.phase with
    | alive => simp [hphase] at hstep
    | joining => simp [hphase] at hstep
    | gone => simp [hphase] at hstep
    | destroying items d =>
      simp only [hphase] at hstep
      rw [← Option.some.inj hstep]
      cases items with
      | nil =>
        refine h.setPhase (by simp [hphase]) (by simp [hphase, ServerPhase.items]) (Or.inl rfl) ?_
        intro hgone
        cases hgone
      | cons id items => exact h.destroyNext_cons hphase hg
  | exitLoop l =>
    simp only [ServerAction.run, Option.ite_none_right_eq_some] at hstep
    obtain ⟨⟨hphase, -, hpc⟩, hs'⟩ := hstep
    rw [← Option.some.inj hs']
    exact h.exitLoop hphase hpc hg
  | join =>
    simp only [ServerAction.run, Option.ite_none_right_eq_some] at hstep
    obtain ⟨⟨hphase, hexited⟩, hs'⟩ := hstep
    rw [← Option.some.inj hs']
    exact h.setPhase (by simp [hphase]) (by simp [hphase, ServerPhase.items]) (Or.inr rfl)
      fun _ => hexited

theorem serverInv_init (ioLoops : ℕ) : ServerInv { ioLoops } := by
  refine ⟨rfl, ⟨?_, ?_, ?_, ?_, ⟨List.nodup_nil, ?_⟩, fun _ => rfl, ?_, ?_, ?_⟩, ?_⟩
  · intro j q hq
    simp at hq
  · intro l t ht
    simp at ht
  · intro l j hj
    cases hj
  · intro j hj
    simp at hj
  · intro j hj
    simp [ServerPhase.items] at hj
  · intro l hl
    cases hl
  · intro hgone
    cases hgone
  · exact (Nat.eq_zero_or_pos ioLoops)
  · intro j q hq
    simp at hq

theorem ServerInv.tornDownOnce {s : ServerState} (h : ServerInv s) : TornDownOnce s := by
  constructor
  · intro k hk
    obtain ⟨id, hid⟩ := List.getElem?_of_mem hk
    have hok := h.views id k hid
    have hruns : k.destroyedRuns = _ := hok.runs
    have hkeys : s.connections.count id + k.erasures = 1 := hok.keys
    refine ⟨?_, by omega⟩
    rw [hruns]
    split_ifs <;> omega
  · intro hgone k hk
    obtain ⟨id, hid⟩ := List.getElem?_of_mem hk
    have hok := h.views id k hid
    have hidle : s.pc k.loop = .idle ∧ (s.view id k).posts = [] := by
      by_cases hbase : k.loop = baseLoop
      · refine ⟨?_, hok.base (by simpa [ServerState.view] using hbase)⟩
        rw [hbase]
        exact h.wired.base (by simp [hgone])
      · obtain ⟨l, hl⟩ := Nat.exists_eq_succ_of_ne_zero hbase
        have hexited : s.exited k.loop = true := by
          rw [hl]
          refine h.wired.gone hgone l ?_
          have hle := h.wired.loops id k hid
          rw [hl] at hle
          exact hle
        exact ⟨(h.wired.stopped _ hexited).1, hok.exited hexited⟩
    have hnone : Task.connectDestroyed id ∉ (s.view id k).posts := by
      rw [hidle.2]
      simp
    have hexit := hok.exit (by simp [ServerState.view, hgone])
      (by simp [ServerState.view, hgone, ServerPhase.items]) hnone
    have hruns : k.destroyedRuns = _ := hok.runs
    rw [hruns, if_pos ⟨hexit.2, pc_on_idle hidle.1⟩]

/-- In every run in which the destructor and the closes of connections keep out of each other's way,
whatever their interleaving otherwise and with any number of loops, no assert fails, no connection
is destroyed or erased twice, and when the server is gone every accepted connection was destroyed
exactly once. Erasing by number is erasing by name as long as `nextConnId_` does not overflow, which is
for `2 ^ 31 - 1` connections. -/
theorem torn_down_once {s : ServerState} (h : serverMachine.Reach Orderly s) :
    s.aborted = false ∧ TornDownOnce s := by
  have hinv : ServerInv s := by
    refine h.invariant (I := ServerInv) ?_ ?_
    · rintro s ⟨ioLoops, rfl⟩
      exact serverInv_init ioLoops
    · intro s a s' hs hg hstep
      have hrun : a.run s = some s' := by
        have hstep' : (if s.aborted then none else a.run s) = some s' := hstep
        rwa [if_neg (by simp [hs.running])] at hstep'
      exact hs.step hg hrun
  exact ⟨hinv.running, hinv.tornDownOnce⟩

/-- Two connections on two loops: one is closed by its peer and erased, the other is destroyed with
the server. -/
theorem torn_down_once_two :
    ∃ s, serverMachine.Reach Orderly s ∧ s.phase = .gone ∧ s.conns.length = 2 ∧
      s.aborted = false ∧ TornDownOnce s := by
  obtain ⟨s, -, hreach, hp⟩ := System.exists_reach (M := serverMachine) (G := Orderly)
    [.newConnection, .newConnection, .runFunctor 1, .runFunctor 2, .peerClose 0 [0], .proceed 1,
      .proceed 1, .runFunctor 0, .destroy {}, .destroyNext, .destroyNext, .runFunctor 2, .exitLoop 1,
      .exitLoop 2, .join]
    (fun s => s.phase = .gone ∧ s.conns.length = 2) (s := { ioLoops := 2 }) ⟨2, rfl⟩ (by decide)
  obtain ⟨hphase, hlength⟩ := of_decide_eq_true hp
  exact ⟨s, hreach, hphase, hlength, torn_down_once hreach⟩

end Mutty.Net
