import Mutty.Buffer.BufferMachine

/-!
# A buffer is a queue of bytes

The history of a buffer says which bytes should be in it. In every state that the operations of
`Buffer` reach, these are the bytes between `peek()` and `beginWrite()`, wherever the block has moved.
The writer index counts the bytes since the queue was last empty, so that room is given back only
then: a write fails when the bytes since then are more than `maxCapacity`, however few are unread.
-/

namespace Mutty.Buffer

open Mutty.Lib Prog

variable {k : Config} {g : Geometry} {small plain : Prop} {σ σ' : Pool} {s s' : BufferState} {b : BufId}
  {buf new : PooledByteBuf} {a : BufferAction} {e : Option (BufId × Event)} {history : List Event}
  {bytes : List UInt8}

/-! ### The queue -/

def Event.added : Event → List UInt8
  | .wrote bytes => bytes
  | _ => []

def Event.left (queue : List UInt8) : Event → List UInt8
  | .allocated => []
  | .wrote bytes => queue ++ bytes
  | .retrieved len => queue.drop len
  | .cleared => []

/-- The queue, and how many bytes have been added since it was last empty. -/
def Event.pass (q : List UInt8 × ℕ) (e : Event) : List UInt8 × ℕ :=
  (e.left q.1, if e.left q.1 = [] then 0 else q.2 + e.added.length)

def contents (history : List Event) : List UInt8 := (history.foldl Event.pass ([], 0)).1

def sinceEmpty (history : List Event) : ℕ := (history.foldl Event.pass ([], 0)).2

theorem contents_append (history : List Event) (e : Event) :
    contents (history ++ [e]) = e.left (contents history) := by
  rw [contents, List.foldl_append]
  rfl

theorem sinceEmpty_append (history : List Event) (e : Event) :
    sinceEmpty (history ++ [e]) =
      if contents (history ++ [e]) = [] then 0 else sinceEmpty history + e.added.length := by
  rw [contents_append, sinceEmpty, List.foldl_append]
  rfl

/-! ### One buffer -/

/-- The buffer holds what its history says. -/
structure Carries (σ : Pool) (buf : PooledByteBuf) (history : List Event) : Prop where
  readable : buf.readableBytes = (contents history).length
  written : buf.writerIndex = sinceEmpty history
  fits : buf.writerIndex ≤ max buf.length 0
  bytes : ∀ i : ℕ, i < (contents history).length →
    σ.byteAt buf (buf.readerIndex + i) = (contents history)[i]?

theorem Allocates.carries {req maxCapacity : ℤ} (h : Allocates k req maxCapacity b buf σ σ') :
    Carries σ' buf [] := by
  have hr := h.readerIndex
  have hw := h.writerIndex
  refine ⟨?_, hw, ?_, fun i hi => absurd hi (Nat.not_lt_zero i)⟩
  · rw [PooledByteBuf.readableBytes, hr, hw]
    rfl
  · rw [hw]
    exact le_max_right _ _

theorem Carries.empty (h : Carries σ buf history) (hnil : contents history = []) : sinceEmpty history = 0 := by
  rcases List.eq_nil_or_concat history with rfl | ⟨init, e, rfl⟩
  · rfl
  · rw [List.concat_eq_append] at hnil ⊢
    rw [sinceEmpty_append, if_pos hnil]

theorem Carries.wrote (h : Carries σ buf history) (hindex : IndexInv buf)
    (hw : Wrote k g small plain b bytes buf new σ σ') : Carries σ' new (history ++ [.wrote bytes]) := by
  have hcontents : contents (history ++ [.wrote bytes]) = contents history ++ bytes := contents_append _ _
  have hr := hw.readerIndex
  have hwi := hw.writerIndex
  have hread := h.readable
  have hwritten := h.written
  have hreader := hindex.reader
  unfold PooledByteBuf.readableBytes at hread
  refine ⟨?_, ?_, ?_, fun i hi => ?_⟩
  · rw [PooledByteBuf.readableBytes, hr, hwi, hcontents, List.length_append]
    push_cast
    omega
  · rw [hwi, hwritten, sinceEmpty_append, hcontents]
    split_ifs with hnil
    · obtain ⟨hq, rfl⟩ := List.append_eq_nil_iff.mp hnil
      rw [h.empty hq]
      rfl
    · push_cast
      rfl
  · rcases hw.fits with ⟨rfl, rfl⟩ | hfit
    · exact h.fits
    · exact le_max_of_le_left hfit
  · rw [hcontents, List.length_append] at hi
    rw [hcontents, hr]
    by_cases hlt : i < (contents history).length
    · rw [hw.kept _ (by omega) (by omega), h.bytes i hlt, List.getElem?_append_left hlt]
    · have hat : buf.readerIndex + (i : ℤ) =
          buf.writerIndex + ((i - (contents history).length : ℕ) : ℤ) := by omega
      rw [hat, hw.written _ (by omega), List.getElem?_append_right (not_lt.mp hlt)]

theorem Carries.takes {len : ℕ} {ev : Event} (h : Carries σ buf history)
    (ht : Takes k g small plain b len buf new σ σ')
    (hleft : ev.left (contents history) = (contents history).drop len) (hadded : ev.added = []) :
    Carries σ' new (history ++ [ev]) := by
  have hcontents : contents (history ++ [ev]) = (contents history).drop len :=
    (contents_append _ _).trans hleft
  have hread := h.readable
  have hle := ht.readable
  have hwritten := h.written
  rcases hle.lt_or_eq with hlt | heq
  · obtain ⟨hr, hw⟩ := ht.some_left hlt
    have hne : (contents history).drop len ≠ [] := by
      rw [Ne, List.drop_eq_nil_iff]
      omega
    refine ⟨?_, ?_, ?_, fun i hi => ?_⟩
    · unfold PooledByteBuf.readableBytes at hread hlt ⊢
      rw [hr, hw, hcontents, List.length_drop]
      omega
    · rw [hw, hwritten, sinceEmpty_append, hcontents, if_neg hne, hadded]
      rfl
    · rw [hw, ht.length]
      exact h.fits
    · rw [hcontents, List.length_drop] at hi
      have hat : buf.readerIndex + len + (i : ℤ) = buf.readerIndex + ((len + i : ℕ) : ℤ) := by omega
      rw [ht.bytes, hr, hat, h.bytes _ (by omega), hcontents, List.getElem?_drop]
  · obtain ⟨hr, hw⟩ := ht.none_left heq
    have hnil : (contents history).drop len = [] := by
      rw [List.drop_eq_nil_iff]
      omega
    refine ⟨?_, ?_, ?_, fun i hi => ?_⟩
    · rw [PooledByteBuf.readableBytes, hr, hw, hcontents, hnil]
      rfl
    · rw [hw, sinceEmpty_append, hcontents, if_pos hnil]
      rfl
    · rw [hw]
      exact le_max_right _ _
    · rw [hcontents, hnil] at hi
      exact absurd hi (Nat.not_lt_zero i)

theorem Carries.intact (h : Carries σ buf history) (hinv : PoolInv k g small plain σ)
    (hb : σ.bufs[b]? = some buf) (hlive : buf.chunk.isSome = true) (hi : Intact b σ σ') :
    Carries σ' buf history := by
  obtain ⟨-, hbytes⟩ := hi buf hb hlive
  refine ⟨h.readable, h.written, h.fits, fun i hlt => ?_⟩
  have hmem := List.mem_of_getElem? hb
  obtain ⟨c, hc⟩ := Option.isSome_iff_exists.mp hlive
  have hmax := (hinv.live buf hmem c hc).length
  have hreader := (hinv.index buf hmem).reader
  have hread := h.readable
  have hfits := h.fits
  unfold PooledByteBuf.readableBytes at hread
  rw [hbytes _ (by omega) (by omega)]
  exact h.bytes i hlt

/-! ### All buffers -/

def AllCarry (s : BufferState) : Prop :=
  ∀ b buf, s.pool.bufs[b]? = some buf → buf.chunk.isSome = true → Carries s.pool buf (s.history b)

theorem AllCarry.others (h : AllCarry s) (hinv : PoolInv k g small plain s.pool)
    (hbufs : ∀ j, j ≠ b → s'.pool.bufs[j]? = s.pool.bufs[j]?) (hintact : ∀ j, j ≠ b → Intact j s.pool s'.pool)
    (hhistory : ∀ j, j ≠ b → s'.history j = s.history j)
    (hself : ∀ buf, s'.pool.bufs[b]? = some buf → buf.chunk.isSome = true →
      Carries s'.pool buf (s'.history b)) : AllCarry s' := by
  intro j d hd hlive
  by_cases hj : j = b
  · subst hj
    exact hself d hd hlive
  · rw [hbufs j hj] at hd
    rw [hhistory j hj]
    exact (h j d hd hlive).intact hinv hd hlive (hintact j hj)

theorem AllCarry.set (h : AllCarry s) (hinv : PoolInv k g small plain s.pool)
    (hb : s.pool.bufs[b]? = some buf) (hbufs : s'.pool.bufs = s.pool.bufs.set b new)
    (hintact : ∀ j, j ≠ b → Intact j s.pool s'.pool) (hhistory : ∀ j, j ≠ b → s'.history j = s.history j)
    (hself : new.chunk.isSome = true → Carries s'.pool new (s'.history b)) : AllCarry s' := by
  refine h.others hinv (fun j hj => ?_) hintact hhistory fun d hd hlive => ?_
  · rw [hbufs, List.getElem?_set_ne hj.symm]
  · rw [hbufs, List.getElem?_set_self (List.getElem?_eq_some_iff.mp hb).1] at hd
    obtain rfl := Option.some.inj hd
    exact hself hlive

theorem record_of_ne (history : BufId → List Event) (ev : Event) {j : BufId} (hj : j ≠ b) :
    BufferState.record history (some (b, ev)) j = history j := by
  cases ev <;> exact Function.update_of_ne hj _ _

theorem record_self (history : BufId → List Event) {ev : Event} (hne : ev ≠ .allocated) :
    BufferState.record history (some (b, ev)) b = history b ++ [ev] := by
  cases ev with
  | allocated => exact absurd rfl hne
  | wrote bytes => exact Function.update_self b _ _
  | retrieved len => exact Function.update_self b _ _
  | cleared => exact Function.update_self b _ _

theorem AllCarry.effect (h : AllCarry s) (hinv : PoolInv k g small True s.pool)
    (ha : a.streams = true) (heff : Effect k g small True a s.pool s'.pool e)
    (hhistory : s'.history = BufferState.record s.history e) : AllCarry s' := by
  have hother : ∀ {b ev}, s'.history = BufferState.record s.history (some (b, ev)) →
      ∀ j, j ≠ b → s'.history j = s.history j := by
    intro b ev heq j hj
    rw [heq, record_of_ne _ _ hj]
  cases heff with
  | quiet inv bufs kept =>
    intro j d hd hlive
    rw [bufs] at hd
    rw [hhistory]
    exact (h j d hd hlive).intact hinv hd hlive (kept j)
  | stored inv bufs hnot =>
    rw [hnot] at ha
    cases ha
  | changed hb h hnot =>
    rw [hnot] at ha
    cases ha
  | freed hb hfree =>
    refine h.set hinv hb hfree.bufs hfree.others (fun j _ => by rw [hhistory]; rfl) fun hlive => ?_
    rw [hfree.chunk] at hlive
    cases hlive
  | allocated inv hall capped =>
    refine h.others hinv (fun j hj => (hall.others j hj).1) (fun j hj => (hall.others j hj).2)
      (hother hhistory) fun d hd hlive => ?_
    obtain rfl := Option.some.inj (hall.self.symm.trans hd)
    rw [hhistory, BufferState.record, Function.update_self]
    exact hall.carries
  | wrote hb hchange hwrote =>
    have hw := hwrote trivial
    refine h.set hinv hb hw.bufs hw.others (hother hhistory) fun hlive => ?_
    rw [hhistory, record_self _ (by simp)]
    exact (h _ _ hb (hw.live ▸ hlive)).wrote (hinv.index _ (List.mem_of_getElem? hb)) hw
  | retrieved hb ht =>
    refine h.set hinv hb ht.changes.bufs ht.others (hother hhistory) fun hlive => ?_
    rw [hhistory, record_self _ (by simp)]
    exact (h _ _ hb (ht.live ▸ hlive)).takes ht rfl rfl
  | cleared hb ht =>
    refine h.set hinv hb ht.changes.bufs ht.others (hother hhistory) fun hlive => ?_
    have hcarries := h _ _ hb (ht.live ▸ hlive)
    rw [hhistory, record_self _ (by simp)]
    refine hcarries.takes ht ?_ rfl
    rw [hcarries.readable, Int.toNat_natCast, List.drop_length]
    rfl

theorem BufferAction.fromStart_of_streams (h : a.streams = true) : a.fromStart = true := by
  cases a with
  | internalBuffer b index length => cases h
  | duplicateInternalBuffer b index length => cases h
  | _ => rfl

theorem AllCarry.reach (h : System.Reach (bufferMachine k) (fun _ a => a.streams = true) s) :
    ∃ g, k.sizes.Made g ∧ BufferInv k g False True s.pool ∧ AllCarry s := by
  induction h with
  | init hi =>
    obtain ⟨g, made, hinv⟩ : ∃ g, k.sizes.Made g ∧ BufferInv k g False True _ := BufferInv.init hi
    refine ⟨g, made, hinv, fun b buf hb => ?_⟩
    obtain ⟨⟨-, hpool⟩, -⟩ := hi
    rw [hpool] at hb
    cases hb
  | step _ hg hs ih =>
    obtain ⟨g, made, hinv, hcarry⟩ := ih
    obtain ⟨e, hhistory, heff⟩ := hinv.step made (fun _ => BufferAction.fromStart_of_streams hg) hs
    have hnext := heff.inv hinv.capped
    exact ⟨g, made, ⟨hnext.pool.mono False.elim, hnext.capped⟩,
      hcarry.effect (hinv.pool.mono And.left) hg heff hhistory⟩

/-- The bytes from `peek()` to `beginWrite()`. -/
def Pool.unread (σ : Pool) (buf : PooledByteBuf) : List (Option UInt8) :=
  (List.range buf.readableBytes.toNat).map fun i : ℕ => σ.tmpAt buf (buf.readerIndex + i)

theorem Carries.unread_eq (h : Carries σ buf history) (heq : buf.tmpBuf = buf.block) :
    σ.unread buf = (contents history).map some := by
  rw [Pool.unread, h.readable, Int.toNat_natCast]
  refine List.ext_getElem? fun i => ?_
  by_cases hi : i < (contents history).length
  · rw [List.getElem?_map, List.getElem?_range hi, List.getElem?_map, Option.map_some,
      Pool.tmpAt_eq_byteAt heq, h.bytes i hi, List.getElem?_eq_getElem hi]
    rfl
  · rw [List.getElem?_eq_none (by simpa using hi), List.getElem?_eq_none (by simpa using hi)]

/-- In every state that the operations of `Buffer` reach, the unread bytes are those that have been
written and not been taken, and the indices are in order. -/
theorem buffer_fifo (h : System.Reach (bufferMachine k) (fun _ a => a.streams = true) s)
    (hb : s.pool.bufs[b]? = some buf) (hlive : buf.chunk.isSome = true) (hfit : FitsChunk k buf) :
    s.pool.unread buf = (contents (s.history b)).map some ∧ 0 ≤ buf.readerIndex ∧
      buf.readerIndex ≤ buf.writerIndex ∧ buf.writerIndex ≤ buf.length ∧ buf.length ≤ buf.maxLength := by
  obtain ⟨g, made, hinv, hcarry⟩ := AllCarry.reach h
  have hmem := List.mem_of_getElem? hb
  have hindex := hinv.pool.index buf hmem
  obtain ⟨c, hc⟩ := Option.isSome_iff_exists.mp hlive
  exact ⟨(hcarry b buf hb hlive).unread_eq (hinv.pool.tmpBuf_eq hmem hlive), hindex.reader, hindex.writer,
    hindex.length (hfit hlive).1, (hinv.pool.live buf hmem c hc).length⟩

/-- Three bytes are written, one is taken, and 200 more make the block move. -/
theorem buffer_fifo_after_move :
    ∃ s buf, System.Reach (bufferMachine smallConfig) (fun _ a => a.streams = true) s ∧
      s.pool.bufs[0]? = some buf ∧ buf.maxLength = 256 ∧
      s.pool.unread buf = ([8, 9] ++ List.replicate 200 5 : List UInt8).map some := by
  obtain ⟨s, buf, hreach, hb, hp⟩ := exists_reach_buf (G := fun _ a => a.streams = true)
    [.pool .attach, .pool (.allocate 0 0 64 1000), .writeBytes 0 0 [7, 8, 9], .retrieve 0 1,
      .readFd 0 0 (some (List.replicate 200 5))] 0
    (fun s buf => buf.chunk.isSome && decide (buf.length = 256 ∧ buf.maxLength = 256 ∧
      contents (s.history 0) = [8, 9] ++ List.replicate 200 5)) (by rw [smallConfig_eq]; decide +kernel)
  rw [Bool.and_eq_true, decide_eq_true_eq] at hp
  obtain ⟨hlive, hlength, hmax, hcontents⟩ := hp
  have hfit : FitsChunk smallConfig buf := fun _ => by
    rw [hlength, smallConfig_chunkSize]
    exact ⟨by norm_num, by norm_num⟩
  exact ⟨s, buf, hreach, hb, hmax, hcontents ▸ (buffer_fifo hreach hb hlive hfit).1⟩

/-! ### How much can be written -/

theorem targetCapacity_eq (buf : PooledByteBuf) {n : ℤ} (h0 : 0 ≤ n) : buf.targetCapacity n =
    if SizeClasses.wrap32 (buf.writerIndex + n) ≥ 0 ∧ SizeClasses.wrap32 (buf.writerIndex + n) ≤ buf.maxCapacity
      then .ok (SizeClasses.wrap32 (buf.writerIndex + n)) else .error .assertion := by
  have hreq : require (n ≥ 0) = .ok () := require_eq_ok.mpr h0
  rw [PooledByteBuf.targetCapacity, hreq]
  show (do
    require (SizeClasses.wrap32 (buf.writerIndex + n) ≥ 0 ∧
      SizeClasses.wrap32 (buf.writerIndex + n) ≤ buf.maxCapacity)
    return SizeClasses.wrap32 (buf.writerIndex + n) : Checked ℤ) = _
  unfold require
  split_ifs <;> rfl

/-- A sum beyond the range of `int` is negative, and fails as well. -/
theorem targetCapacity_error_iff {n : ℤ} (h0 : 0 ≤ n) (hn : n < 2 ^ 31) (hw : 0 ≤ buf.writerIndex)
    (hrange : buf.writerIndex < 2 ^ 31) (hmax : buf.maxCapacity < 2 ^ 31) :
    buf.targetCapacity n = .error .assertion ↔ buf.maxCapacity < buf.writerIndex + n := by
  have hcheck : (SizeClasses.wrap32 (buf.writerIndex + n) ≥ 0 ∧
      SizeClasses.wrap32 (buf.writerIndex + n) ≤ buf.maxCapacity) ↔ buf.writerIndex + n ≤ buf.maxCapacity := by
    unfold SizeClasses.wrap32
    omega
  rw [targetCapacity_eq buf h0, ← not_le, ← hcheck]
  split_ifs with hp
  · constructor
    · intro herr
      cases herr
    · exact fun hnot => absurd hp hnot
  · exact ⟨fun _ => hp, fun _ => rfl⟩

/-- A write trips the assertion of `ensureWritable` exactly when the bytes since the buffer was last
empty would be more than `maxCapacity`. -/
theorem write_trips_iff (h : System.Reach (bufferMachine k) (fun _ a => a.streams = true) s)
    (hb : s.pool.bufs[b]? = some buf) (hlive : buf.chunk.isSome = true)
    (hint : (bytes.length : ℤ) < 2 ^ 31) :
    (buf.targetCapacity bytes.length = .error .assertion ↔
      buf.maxCapacity < sinceEmpty (s.history b) + bytes.length) ∧
    (buf.maxCapacity < sinceEmpty (s.history b) + bytes.length →
      ∀ t, PooledByteBuf.writeBytes k t b bytes s.pool = .error .assertion) := by
  obtain ⟨g, made, hinv, hcarry⟩ := AllCarry.reach h
  have hcarries := hcarry b buf hb hlive
  have hindex := hinv.pool.index buf (List.mem_of_getElem? hb)
  have hrange : buf.writerIndex < 2 ^ 31 := by
    have := hindex.range
    have := hcarries.fits
    omega
  have hiff := targetCapacity_error_iff (Int.natCast_nonneg _) hint (hindex.reader.trans hindex.writer) hrange
    (hinv.capped buf (List.mem_of_getElem? hb)).range
  rw [hcarries.written] at hiff
  refine ⟨hiff, fun hgt t => run_bind_error ?_⟩
  refine (run_bind (getBuf_eq hb)).trans (run_bind_error ?_)
  rw [hiff.mpr hgt]
  rfl

theorem write_fits_after_read :
    ∃ s buf, System.Reach (bufferMachine smallConfig) (fun _ a => a.streams = true) s ∧
      s.pool.bufs[0]? = some buf ∧ buf.maxCapacity = 64 ∧ sinceEmpty (s.history 0) = 40 ∧
      buf.targetCapacity 24 ≠ .error .assertion := by
  obtain ⟨s, buf, hreach, hb, hp⟩ := exists_reach_buf (G := fun _ a => a.streams = true)
    [.pool .attach, .pool (.allocate 0 0 64 64), .writeBytes 0 0 (List.replicate 40 1), .retrieve 0 30] 0
    (fun s buf => buf.chunk.isSome && decide (buf.maxCapacity = 64 ∧ sinceEmpty (s.history 0) = 40))
    (by rw [smallConfig_eq]; decide +kernel)
  rw [Bool.and_eq_true, decide_eq_true_eq] at hp
  obtain ⟨hlive, hmax, hsince⟩ := hp
  refine ⟨s, buf, hreach, hb, hmax, hsince, fun herr => ?_⟩
  have hint : ((List.replicate 24 (1 : UInt8)).length : ℤ) < 2 ^ 31 := by decide
  have hgt := (write_trips_iff hreach hb hlive hint).1.mp herr
  rw [hmax, hsince] at hgt
  exact absurd hgt (by decide)

/-- Ten bytes are unread and 40 are to be written to a buffer of at most 64, and the assertion is
tripped, since 40 have been written before. -/
theorem write_trips_with_small_backlog :
    ∃ s buf, System.Reach (bufferMachine smallConfig) (fun _ a => a.streams = true) s ∧
      s.pool.bufs[0]? = some buf ∧ buf.chunk.isSome = true ∧ buf.maxCapacity = 64 ∧
      buf.readableBytes + 40 ≤ buf.maxCapacity ∧ buf.targetCapacity 40 = .error .assertion ∧
      PooledByteBuf.writeBytes smallConfig 0 0 (List.replicate 40 2) s.pool = .error .assertion := by
  obtain ⟨s, buf, hreach, hb, hp⟩ := exists_reach_buf (G := fun _ a => a.streams = true)
    [.pool .attach, .pool (.allocate 0 0 64 64), .writeBytes 0 0 (List.replicate 40 1), .retrieve 0 30] 0
    (fun s buf => (match PooledByteBuf.writeBytes smallConfig 0 0 (List.replicate 40 2) s.pool with
        | .error .assertion => true
        | _ => false) &&
      decide (buf.chunk.isSome = true ∧ buf.maxCapacity = 64 ∧ buf.readableBytes + 40 ≤ buf.maxCapacity ∧
        buf.targetCapacity 40 = .error .assertion)) (by rw [smallConfig_eq]; decide +kernel)
  rw [Bool.and_eq_true, decide_eq_true_eq] at hp
  obtain ⟨hwrite, hlive, hmax, hreadable, htarget⟩ := hp
  refine ⟨s, buf, hreach, hb, hlive, hmax, hreadable, htarget, ?_⟩
  split at hwrite
  · assumption
  · cases hwrite

end Mutty.Buffer
