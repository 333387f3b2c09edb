import Mathlib.Data.Int.CardIntervalMod
import Mutty.Lib.Decimal
import Mutty.Lib.Owners
import Mutty.Net.ServerTeardown

/-!
# Names and loops of the connections

`newConnection` takes the IO loops of the pool in turn and names a connection by the address of the
server and a running number. The server's other steps move no connection to another loop and add no
name. The server machine keeps numbers where `connections_` has names; no two numbers have one name,
also where `snprintf` could have cut them, so an erasure by name is an erasure by number.
-/

namespace Mutty.Net

open Mutty.Lib

/-- `toIpPort`, for what `inet_ntop` has written. -/
def toIpPort (ip : List UInt8) (port : UInt16) : List UInt8 :=
  ip ++ snprintf 64 (58 :: decimal port.toNat)

/-- The name of the connection whose `nextConnId_` was `id + 1`: the format is `-%s#%d`. -/
def connName (name ipPort : List UInt8) (id : ConnId) : List UInt8 :=
  name ++ snprintf 64 (45 :: ipPort ++ 35 :: decimal (id + 1))

/-! ## Steps that accept nothing -/

/-- The connections stay on their loops, the next loop stays the same, and no name comes in. -/
structure Stays (s s' : ServerState) : Prop where
  ioLoops : s'.ioLoops = s.ioLoops
  next : s'.next = s.next
  loops : s'.conns.map Served.loop = s.conns.map Served.loop
  connections : s'.connections.Sublist s.connections

namespace Stays

variable {s s' s'' : ServerState}

theorem rfl' : Stays s s := ⟨rfl, rfl, rfl, List.Sublist.refl _⟩

theorem trans (h : Stays s s') (h' : Stays s' s'') : Stays s s'' :=
  ⟨h'.ioLoops.trans h.ioLoops, h'.next.trans h.next, h'.loops.trans h.loops,
    h'.connections.trans h.connections⟩

theorem of_eq (hio : s'.ioLoops = s.ioLoops) (hnext : s'.next = s.next) (hconns : s'.conns = s.conns)
    (hkeys : s'.connections = s.connections) : Stays s s' :=
  ⟨hio, hnext, by rw [hconns], by rw [hkeys]⟩

theorem abort : Stays s s.abort := of_eq rfl rfl rfl rfl

theorem queueInLoop (l : LoopId) (t : Task) : Stays s (s.queueInLoop l t) := of_eq rfl rfl rfl rfl

theorem setPc (l : LoopId) (pc : ClosePc) : Stays s (s.setPc l pc) := of_eq rfl rfl rfl rfl

theorem setConn {id : ConnId} {k k' : Served} (hk : s.conns[id]? = some k)
    (hloop : k'.loop = k.loop) : Stays s (s.setConn id k') :=
  ⟨rfl, rfl, map_set_same hk hloop, List.Sublist.refl _⟩

theorem onConn {id : ConnId} {f : Served → ServerState}
    (hf : ∀ k, s.conns[id]? = some k → Stays s (f k)) : Stays s (s.onConn id f) := by
  unfold ServerState.onConn
  split
  · rename_i k hk
    exact hf k hk
  · exact abort

theorem settle {id : ConnId} {k k' : Served} {r : Checked Polled} (hk : s.conns[id]? = some k)
    (hloop : k'.loop = k.loop) : Stays s (s.settle id k' r) := by
  unfold ServerState.settle
  split
  · exact setConn hk hloop
  · exact (setConn hk hloop).trans abort

theorem connectEstablished (id : ConnId) : Stays s (s.connectEstablished id) :=
  onConn fun _ hk => settle hk rfl

theorem connectDestroyed (id : ConnId) (d : Dispatch ℕ) : Stays s (s.connectDestroyed id d) :=
  onConn fun _ hk => settle hk rfl

theorem startClose {id : ConnId} {k : Served} {d : Dispatch ℕ} (hk : s.conns[id]? = some k) :
    Stays s (s.startClose id k d) := by
  unfold ServerState.startClose
  split
  · rename_i polled _
    have hset : Stays s (s.setConn id { k with polled }) := setConn hk rfl
    exact hset.trans (setPc _ _)
  · exact abort

theorem removeConnectionInLoop (id : ConnId) : Stays s (s.removeConnectionInLoop id) := by
  refine onConn fun k hk => ?_
  have hset : Stays s { s.setConn id { k with erasures := k.erasures + s.connections.count id } with
      connections := s.connections.filter (· ≠ id) } :=
    ⟨rfl, rfl, map_set_same hk rfl, List.filter_sublist⟩
  dsimp only
  split_ifs
  · exact hset
  · exact hset.trans abort

theorem removeConnection (l : LoopId) (id : ConnId) : Stays s (s.removeConnection l id) := by
  unfold ServerState.removeConnection
  split_ifs
  · exact abort
  · exact removeConnectionInLoop id
  · exact queueInLoop _ _

theorem forceClose {id : ConnId} {k : Served} (hk : s.conns[id]? = some k) :
    Stays s (s.forceClose id k) := by
  unfold ServerState.forceClose
  split_ifs
  · exact (settle hk rfl).trans (queueInLoop _ _)
  · exact rfl'

theorem runTask (t : Task) : Stays s (s.runTask t) := by
  cases t with
  | connectEstablished id => exact connectEstablished id
  | connectDestroyed id => exact connectDestroyed id {}
  | forceCloseInLoop id =>
    refine onConn fun k hk => ?_
    split_ifs
    · exact startClose hk
    · exact rfl'
  | removeConnectionInLoop id => exact removeConnectionInLoop id

theorem destroyNext (items : List ConnId) (d : Dispatch ℕ) : Stays s (s.destroyNext items d) := by
  cases items with
  | nil => exact of_eq rfl rfl rfl rfl
  | cons id items =>
    have hphase : Stays s { s with phase := .destroying items d } := of_eq rfl rfl rfl rfl
    refine hphase.trans (onConn fun k _ => ?_)
    split_ifs
    · exact connectDestroyed id d
    · exact queueInLoop _ _

/-- Every step but that of `newConnection`. -/
theorem run {a : ServerAction} (hne : a ≠ .newConnection) (hrun : a.run s = some s') : Stays s s' := by
  cases a with
  | newConnection => exact absurd rfl hne
  | shutdown id inLoop =>
    obtain ⟨k, hk, rfl⟩ := Option.map_eq_some_iff.mp hrun
    exact settle hk rfl
  | forceClose id =>
    obtain ⟨k, hk, rfl⟩ := Option.map_eq_some_iff.mp hrun
    exact forceClose hk
  | peerClose id active =>
    obtain ⟨k, hk, hclose⟩ := Option.bind_eq_some_iff.mp hrun
    split_ifs at hclose
    rw [← Option.some.inj hclose]
    exact startClose hk
  | runFunctor l =>
    simp only [ServerAction.run] at hrun
    split at hrun
    · cases hrun
    · rename_i t rest _
      split_ifs at hrun
      rw [← Option.some.inj hrun]
      have hpop : Stays s { s with queue := Function.update s.queue l rest } :=
        of_eq rfl rfl rfl rfl
      exact hpop.trans (runTask t)
  | proceed l =>
    simp only [ServerAction.run] at hrun
    split at hrun
    · cases hrun
    · rw [← Option.some.inj hrun]
      exact (removeConnection _ _).trans (setPc _ _)
    · rw [← Option.some.inj hrun]
      exact (connectDestroyed _ _).trans (setPc _ _)
  | destroy d =>
    simp only [ServerAction.run] at hrun
    split_ifs at hrun
    rw [← Option.some.inj hrun]
    exact of_eq rfl rfl rfl rfl
  | destroyNext =>
    simp only [ServerAction.run] at hrun
    split at hrun
    · rw [← Option.some.inj hrun]
      exact destroyNext _ _
    · cases hrun
  | exitLoop l =>
    simp only [ServerAction.run] at hrun
    split_ifs at hrun
    rw [← Option.some.inj hrun]
    exact of_eq rfl rfl rfl rfl
  | join =>
    simp only [ServerAction.run] at hrun
    split_ifs at hrun
    rw [← Option.some.inj hrun]
    exact of_eq rfl rfl rfl rfl

theorem step {a : ServerAction} (hne : a ≠ .newConnection) (h : serverMachine.step s a = some s') :
    Stays s s' := by
  simp only [serverMachine] at h
  split_ifs at h
  exact run hne h

end Stays

/-! ## Runs -/

/-- The loops are taken in turn, and the keys are numbers that were given out, each once. -/
structure Spread (s : ServerState) : Prop where
  next : 0 < s.ioLoops → s.next = s.conns.length % s.ioLoops
  loops : 0 < s.ioLoops →
    s.conns.map Served.loop = (List.range s.conns.length).map fun i => i % s.ioLoops + 1
  given : ∀ id ∈ s.connections, id < s.conns.length
  once : s.connections.Nodup

namespace Spread

variable {s s' : ServerState}

theorem stays (h : Spread s) (hs : Stays s s') : Spread s' := by
  have hlen : s'.conns.length = s.conns.length := by
    simpa using congrArg List.length hs.loops
  refine ⟨?_, ?_, ?_, h.once.sublist hs.connections⟩
  · rw [hs.ioLoops, hs.next, hlen]
    exact h.next
  · rw [hs.ioLoops, hs.loops, hlen]
    exact h.loops
  · intro id hid
    rw [hlen]
    exact h.given id (hs.connections.subset hid)

theorem next_mod {n k : ℕ} (hk : 0 < k) :
    (if n % k + 1 ≥ k then 0 else n % k + 1) = (n + 1) % k := by
  have hlt := Nat.mod_lt n hk
  have hdiv := Nat.div_add_mod n k
  split_ifs with hlast
  · have hsucc : n + 1 = k * (n / k + 1) := by
      rw [Nat.mul_add, Nat.mul_one]
      omega
    rw [hsucc, Nat.mul_mod_right]
  · have hsucc : (n + 1) % k = (n % k + 1 + k * (n / k)) % k := by
      congr 1
      omega
    rw [hsucc, Nat.add_mul_mod_self_left, Nat.mod_eq_of_lt (show n % k + 1 < k by omega)]

theorem accept (h : Spread s) : Spread s.accept := by
  have hlen : s.accept.conns.length = s.conns.length + 1 := by simp [ServerState.accept]
  refine ⟨?_, ?_, ?_, ?_⟩
  · intro hpos
    have hnext := h.next hpos
    rw [hlen]
    simp only [ServerState.accept, hnext]
    exact next_mod hpos
  · intro hpos
    have hloop : s.nextLoop = s.conns.length % s.ioLoops + 1 := by
      rw [← h.next hpos]
      exact if_pos hpos
    rw [hlen, List.range_succ, List.map_append, List.map_singleton]
    simp only [ServerState.accept, List.map_append, List.map_singleton, h.loops hpos, hloop]
  · intro id hid
    rw [hlen]
    rcases List.mem_append.mp hid with hid | hid
    · exact Nat.lt_succ_of_lt (h.given id hid)
    · rw [List.mem_singleton.mp hid]
      exact Nat.lt_succ_self _
  · simp only [ServerState.accept, List.nodup_append]
    refine ⟨h.once, by simp, ?_⟩
    intro id hid id' hid' heq
    have hlt := h.given id hid
    rw [heq, List.mem_singleton.mp hid'] at hlt
    exact Nat.lt_irrefl _ hlt

theorem newConnection (h : Spread s) : Spread s.newConnection := by
  by_cases hbase : s.nextLoop = baseLoop
  · have hnew : s.newConnection = s.accept.connectEstablished s.conns.length := if_pos hbase
    rw [hnew]
    exact h.accept.stays (.connectEstablished _)
  · have hnew : s.newConnection =
        s.accept.queueInLoop s.nextLoop (.connectEstablished s.conns.length) := if_neg hbase
    rw [hnew]
    exact h.accept.stays (.queueInLoop _ _)

theorem step {a : ServerAction} (h : Spread s) (hstep : serverMachine.step s a = some s') : Spread s' := by
  by_cases hnew : a = .newConnection
  · subst hnew
    simp only [serverMachine, ServerAction.run] at hstep
    split_ifs at hstep
    rw [← Option.some.inj hstep]
    exact h.newConnection
  · exact h.stays (.step hnew hstep)

theorem reach (h : System.Reach serverMachine System.Free s) : Spread s := by
  induction h with
  | init hinit =>
    obtain ⟨ioLoops, rfl⟩ := hinit
    exact ⟨by simp, by simp, by simp, by simp⟩
  | step _ _ hstep ih => exact ih.step hstep

end Spread

theorem countP_range (p : ℕ → Prop) [DecidablePred p] (n : ℕ) :
    (List.range n).countP (fun i => decide (p i)) = Nat.count p n := by
  induction n with
  | zero => rfl
  | succ n ih =>
    rw [List.range_succ, List.countP_append, ih, Nat.count_succ]
    simp [List.countP_cons]

/-- In every run of a server with a pool, every loop has the same number of connections, or one
more when its turn has come already in the current round; only `newConnection` changes that. -/
theorem connections_spread {s : ServerState} (h : System.Reach serverMachine System.Free s)
    {l : ℕ} (hl : l < s.ioLoops) :
    s.conns.countP (fun k => k.loop = l + 1) =
      s.conns.length / s.ioLoops + (if l < s.conns.length % s.ioLoops then 1 else 0) ∧
    ∀ a s', serverMachine.step s a = some s' → a ≠ .newConnection → Stays s s' := by
  refine ⟨?_, fun a s' hstep hne => .step hne hstep⟩
  have hpos : 0 < s.ioLoops := Nat.lt_of_le_of_lt (Nat.zero_le l) hl
  have hloops := (Spread.reach h).loops hpos
  have hcount : s.conns.countP (fun k => k.loop = l + 1) =
      (s.conns.map Served.loop).countP (fun i => i = l + 1) := by
    rw [List.countP_map]
    rfl
  have hmod : ∀ i, i % s.ioLoops + 1 = l + 1 ↔ i ≡ l [MOD s.ioLoops] := by
    intro i
    rw [Nat.ModEq, Nat.mod_eq_of_lt hl]
    omega
  have hrange := Nat.count_modEq_card s.conns.length hpos l
  rw [Nat.mod_eq_of_lt hl] at hrange
  rw [hcount, hloops, List.countP_map, ← hrange, ← countP_range]
  refine List.countP_congr fun i _ => ?_
  simp only [Function.comp_apply, decide_eq_true_eq]
  exact hmod i

theorem connections_spread_five :
    ∃ s : ServerState, System.Reach serverMachine System.Free s ∧ s.conns.length = 5 ∧
      s.conns.countP (fun k => k.loop = 2 + 1) = 1 ∧ s.conns.countP (fun k => k.loop = 1 + 1) = 2 := by
  obtain ⟨s, -, hreach, hp⟩ := System.exists_reach (M := serverMachine) (G := System.Free)
    [.newConnection, .newConnection, .runFunctor 1, .newConnection, .newConnection, .newConnection]
    (fun s => s.conns.length = 5 ∧ s.ioLoops = 3) ⟨3, rfl⟩ (by decide)
  obtain ⟨hlen, hloops⟩ := of_decide_eq_true hp
  refine ⟨s, hreach, hlen, ?_, ?_⟩
  · rw [(connections_spread hreach (l := 2) (by omega)).1, hlen, hloops]
    rfl
  · rw [(connections_spread hreach (l := 1) (by omega)).1, hlen, hloops]
    rfl

/-! ## Names -/

section

variable {name ip : List UInt8} {port : UInt16}

theorem toIpPort_eq : toIpPort ip port = ip ++ 58 :: decimal port.toNat := by
  have hport : (decimal port.toNat).length ≤ 5 :=
    length_decimal_le (by omega) (Nat.lt_of_lt_of_le port.toNat_lt (by decide))
  rw [toIpPort, snprintf, List.take_of_length_le]
  rw [List.length_cons]
  omega

theorem connName_eq {id : ℕ} (hip : ip.length ≤ 45) (hid : id + 1 ≤ 2147483647) :
    connName name (toIpPort ip port) id =
      name ++ (45 :: (ip ++ 58 :: decimal port.toNat) ++ 35 :: decimal (id + 1)) := by
  have hport : (decimal port.toNat).length ≤ 5 :=
    length_decimal_le (by omega) (Nat.lt_of_lt_of_le port.toNat_lt (by decide))
  have hnumber : (decimal (id + 1)).length ≤ 10 := length_decimal_le (by omega) (by omega)
  rw [connName, toIpPort_eq, snprintf, List.take_of_length_le]
  simp only [List.length_append, List.length_cons]
  omega

theorem connName_inj {id id' : ℕ} (hip : ip.length ≤ 45) (hid : id + 1 ≤ 2147483647)
    (hid' : id' + 1 ≤ 2147483647)
    (h : connName name (toIpPort ip port) id = connName name (toIpPort ip port) id') : id = id' := by
  rw [connName_eq hip hid, connName_eq hip hid'] at h
  have hnumber := List.append_cancel_left (List.append_cancel_left h)
  have hsucc := decimal_injective (List.cons.inj hnumber).2
  exact Nat.succ.inj hsucc

end

/-- While `nextConnId_` does not overflow: no name is cut, the name of a new connection is not in
`connections_`, the names there are all different, and what an erasure by name removes is the connection
of that name alone. -/
theorem names_distinct {s : ServerState} (h : System.Reach serverMachine System.Free s)
    {name ip : List UInt8} {port : UInt16} (hip : ip.length ≤ 45) (hids : s.conns.length < 2147483647) :
    let key := connName name (toIpPort ip port)
    (∀ id ≤ s.conns.length,
      key id = name ++ (45 :: (ip ++ 58 :: decimal port.toNat) ++ 35 :: decimal (id + 1))) ∧
      key s.conns.length ∉ s.connections.map key ∧ (s.connections.map key).Nodup ∧
      ∀ id < s.conns.length, (s.connections.map key).count (key id) = s.connections.count id ∧
        (s.connections.map key).filter (· ≠ key id) = (s.connections.filter (· ≠ id)).map key := by
  intro key
  have hs := Spread.reach h
  have hinj : ∀ i j : ℕ, i ≤ s.conns.length → j ≤ s.conns.length → key i = key j → i = j := by
    intro i j hi hj heq
    exact connName_inj hip (Nat.lt_of_le_of_lt hi hids) (Nat.lt_of_le_of_lt hj hids) heq
  have hle : ∀ id ∈ s.connections, id ≤ s.conns.length := fun id hid => Nat.le_of_lt (hs.given id hid)
  refine ⟨fun id hid => connName_eq hip (Nat.lt_of_le_of_lt hid hids), ?_, ?_, ?_⟩
  · intro hmem
    obtain ⟨id, hid, heq⟩ := List.mem_map.mp hmem
    have := hinj id _ (hle id hid) (Nat.le_refl _) heq
    exact Nat.lt_irrefl _ (this ▸ hs.given id hid)
  · exact hs.once.map_on fun i hi j hj heq => hinj i j (hle i hi) (hle j hj) heq
  · intro id hid
    have hkey : ∀ i ∈ s.connections, key i = key id ↔ i = id := by
      intro i hi
      exact ⟨hinj i id (hle i hi) (Nat.le_of_lt hid), congrArg key⟩
    constructor
    · rw [List.count_eq_countP, List.count_eq_countP, List.countP_map]
      refine List.countP_congr fun i hi => ?_
      simp only [Function.comp_apply, beq_iff_eq]
      exact hkey i hi
    · rw [List.filter_map]
      congr 1
      refine List.filter_congr fun i hi => ?_
      simp only [Function.comp_apply, decide_eq_decide]
      exact not_congr (hkey i hi)

theorem names_distinct_two :
    ∃ s : ServerState, System.Reach serverMachine System.Free s ∧ s.connections = [0, 1] ∧
      connName [] (toIpPort [49] 80) 1 = [45, 49, 58, 56, 48, 35, 50] ∧
      (s.connections.map (connName [] (toIpPort [49] 80))).Nodup := by
  obtain ⟨s, -, hreach, hp⟩ := System.exists_reach (M := serverMachine) (G := System.Free)
    [.newConnection, .newConnection] (fun s => s.conns.length = 2 ∧ s.connections = [0, 1])
    ⟨2, rfl⟩ (by decide)
  obtain ⟨hlen, hkeys⟩ := of_decide_eq_true hp
  obtain ⟨hname, -, hnodup, -⟩ := @names_distinct s hreach [] [49] 80 (by decide) (by omega)
  exact ⟨s, hreach, hkeys, (hname 1 (by omega)).trans (by decide), hnodup⟩

end Mutty.Net
