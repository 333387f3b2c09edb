import Mutty.Buffer.BufferMachine
import Mutty.Buffer.Quiescence

/-!
# Where the bytes are

A block that has left its chunk is the block of a live buffer or an entry of a thread's cache. The
pages of a pooled chunk are then free, of a subpage, or of a run that is out, and the elements of a
subpage are available or out. No operation on buffers, by any thread, loses any of them.
-/

namespace Mutty.Buffer

open Mutty.Lib

variable {k : Config} {g : Geometry} {σ : Pool} {s : BufferState}

/-- The blocks of the live buffers and those in the caches of all threads. -/
def outTokens (σ : Pool) : List Token := σ.bufs.flatMap (PooledByteBuf.tokensIn σ) ++ cacheTokens σ

structure Accounted (k : Config) (σ : Pool) : Prop where
  bytes : ∀ c x, σ.chunk c = some x → x.unpooled = false → x.runs.freeBytes +
    ((x.subpages.flatMap (subBlock σ)).map Prod.snd).sum * 2 ^ k.sizes.pageShifts +
    (((outTokens σ).filter (Token.isRunOf c)).map Token.cap).sum = k.sizes.chunkSize
  elements : ∀ s p, σ.subpage s = some p → p.doNotDestroy = true → p.numAvail +
    ((outTokens σ).filter (Token.isElemOf p.chunk p.runOffset.toNat)).length = p.maxNumElems
  blocks : ∀ t ∈ outTokens σ, isPooled σ t.chunk = true

theorem Held.accounted (made : k.sizes.Made g) (hh : Held k g σ (outTokens σ)) : Accounted k σ := by
  refine ⟨fun c x hx hpool => hh.bytes_eq made hx hpool, fun s p hp hd => ?_, fun t ht => hh.isPooled ht⟩
  obtain ⟨x, hx, hslot⟩ := hh.alive s p hp hd
  have hcount := (hh.subpageInv hx hslot hp).elements.count
  rw [elemsAt, List.length_map] at hcount
  exact hcount

/-- In every run of buffers of any number of threads, with all that they write and read. -/
theorem bytes_accounted (h : System.Reach (bufferMachine k) System.Free s) : Accounted k s.pool := by
  obtain ⟨g, made, hinv⟩ := BufferInv.reach_free h
  exact hinv.pool.cached.held.accounted made

/-- One thread has a run, another has given an element to its cache. -/
theorem bytes_accounted_two_threads : ∃ s, System.Reach (bufferMachine smallConfig) System.Free s ∧
    (s.pool.bufs.flatMap (PooledByteBuf.tokensIn s.pool)).length = 1 ∧
    (cacheTokens s.pool).length = 1 ∧ Accounted smallConfig s.pool := by
  obtain ⟨s, buf, hreach, hb, hp⟩ := exists_reach_buf (G := System.Free)
    [.pool .attach, .pool .attach, .pool (.allocate 0 0 20000 30000), .pool (.allocate 0 1 64 100),
      .pool (.deallocate 1 1)] 0 (fun s buf => buf.chunk.isSome ∧
      (s.pool.bufs.flatMap (PooledByteBuf.tokensIn s.pool)).length = 1 ∧
      (cacheTokens s.pool).length = 1) (by rw [smallConfig_eq]; decide +kernel)
  obtain ⟨-, hout, hcached⟩ := of_decide_eq_true hp
  exact ⟨s, hreach, hout, hcached, bytes_accounted hreach⟩

end Mutty.Buffer
