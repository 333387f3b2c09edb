import Mutty.Buffer.BufferOps

/-!
# Buffers and the memory behind them

A buffer of a pooled chunk has the length that was asked for and a block inside the memory of the
chunk. A request above the chunk size gets a chunk of its own; its memory has the size of a pooled
chunk all the same, and the length is rounded up first.
-/

namespace Mutty.Buffer

open Mutty.Lib Prog

variable {k : Config} {g : Geometry} {σ σ' : Pool} {b : BufId} {u : ThreadId} {req maxCapacity : ℤ}

/-- Buffer `b` has the capacity that was asked for, and its block is inside its memory. -/
def FitsMemory (σ : Pool) (b : BufId) (reqCapacity maxCapacity : ℤ) : Prop :=
  ∃ buf c x, σ.bufs[b]? = some buf ∧ buf.memory = some c ∧ σ.chunk c = some x ∧
    buf.length = reqCapacity ∧ buf.maxCapacity = maxCapacity ∧ buf.length ≤ buf.maxCapacity ∧
    buf.length ≤ buf.maxLength ∧ 0 ≤ buf.offset ∧ buf.offset + buf.maxLength ≤ x.memorySize

theorem PoolInv.allocate_fits (made : k.sizes.Made g) (h : PoolInv k g True True σ) (a : ArenaId)
    (hle : req ≤ k.sizes.chunkSize) (hmax : req ≤ maxCapacity) :
    Ends (PoolArena.allocate k a u req maxCapacity) σ fun b σ' =>
      FitsMemory σ' b req maxCapacity := by
  refine (h.allocate made a (hle.trans_lt made.chunkSize_lt) (fun _ => hle) maxCapacity).mono ?_
  rintro b σ' ⟨hinv, buf, hbuf⟩
  have hmem := List.mem_of_getElem? hbuf.self
  have hlen := hbuf.length hle
  obtain ⟨c, hc⟩ := Option.isSome_iff_exists.mp hbuf.live
  have hblock := hinv.live buf hmem c hc
  obtain ⟨x, hx, -, hlo, hhi⟩ := hinv.in_chunk made hmem hc (hinv.pooled trivial buf hmem c hc)
  refine ⟨buf, c, x, hbuf.self, hblock.memory, hx, hlen, hbuf.maxCapacity, ?_, hblock.length, hlo, hhi⟩
  rw [hlen, hbuf.maxCapacity]
  exact hmax

/-- The unpooled path, from any state: the block is as long as the request that was rounded up,
and the memory is a chunk. -/
theorem ends_allocateHuge (a : ArenaId) (capacity : ℤ) :
    Ends (PoolArena.allocateHuge k a b capacity) σ fun _ σ' =>
      ∃ buf c x, σ'.bufs[b]? = some buf ∧ buf.memory = some c ∧ σ'.chunk c = some x ∧
        buf.length = capacity ∧ buf.maxLength = capacity ∧ buf.offset = 0 ∧
        x.memorySize = k.sizes.chunkSize := by
  refine ends_bind (ends_bind (ends_look (ends_bind (ends_update (ends_pure ?_)))))
  refine ends_bind (ends_assert fun _ => ends_bind (ends_getChunk fun x hx =>
    ends_bind (ends_getBuf fun buf hbuf => ends_update ?_)))
  refine ⟨_, _, x, List.getElem?_set_self (List.getElem?_eq_some_iff.mp hbuf).1, rfl, hx, rfl, rfl,
    rfl, ?_⟩
  simp only [Function.update_self, Option.some.injEq] at hx
  rw [← hx]

theorem allocate_not_fits (made : k.sizes.Made g) (a : ArenaId) (hlt : k.sizes.chunkSize < req) :
    Ends (PoolArena.allocate k a u req maxCapacity) σ fun b σ' =>
      ¬ FitsMemory σ' b req maxCapacity := by
  have hidx : sizeIdxOf k req = .ok k.sizes.nSizes := by
    have hnat : k.sizes.chunkSize < req.toNat := by omega
    rw [sizeIdxOf, if_neg (by omega), SizeClasses.size2SizeIdx, if_neg (by omega), if_pos hnat]
  have hsmall : ¬ k.sizes.nSizes ≤ k.sizes.smallMaxSizeIdx := by
    have := g.pageShifts_ge
    rw [made.smallMaxSizeIdx, made.nSubpages, made.nSizes]
    omega
  intro b' σ' hcall
  obtain ⟨b, σ₁, -, hcall⟩ := bind_ok.mp hcall
  obtain ⟨_, σ₂, hfor, hret⟩ := bind_ok.mp hcall
  obtain ⟨rfl, rfl⟩ := pure_ok.mp hret
  obtain ⟨idx, σ₃, hcheck, hfor⟩ := bind_ok.mp hfor
  obtain ⟨hidx', rfl⟩ := check_ok.mp hcheck
  obtain rfl := Except.ok.inj (hidx.symm.trans hidx')
  rw [if_neg hsmall, if_neg (lt_irrefl _)] at hfor
  obtain ⟨n, σ₃, -, hhuge⟩ := bind_ok.mp hfor
  obtain ⟨buf, c, x, hbuf, hmem, hx, hlen, hmax, hoff, hsize⟩ := ends_allocateHuge a n _ _ hhuge
  rintro ⟨buf', c', x', hbuf', hmem', hx', hlen', -, -, -, -, hfit⟩
  obtain rfl : buf = buf' := Option.some.inj (hbuf.symm.trans hbuf')
  obtain rfl : c = c' := Option.some.inj (hmem.symm.trans hmem')
  obtain rfl : x = x' := Option.some.inj (hx.symm.trans hx')
  -- whatever the rounding gives, the block is longer than the memory or the length is another
  rw [hsize, hoff, hmax, ← hlen, hlen'] at hfit
  omega

/-- After any operations that ask for no more than a chunk, the buffer that `allocate` returns fits
into its memory exactly when no more than a chunk is asked for. -/
theorem allocate_fits_iff (h : System.Reach (poolMachine k) (Sized k) σ) (a : ArenaId)
    (hmax : req ≤ maxCapacity)
    (hcall : PoolArena.allocate k a u req maxCapacity σ = .ok (b, σ')) :
    FitsMemory σ' b req maxCapacity ↔ req ≤ k.sizes.chunkSize := by
  obtain ⟨g, made, hinv⟩ := PoolInv.reach h
  constructor
  · intro hfits
    by_contra hle
    exact allocate_not_fits made a (not_le.mp hle) _ _ hcall hfits
  · intro hle
    exact hinv.allocate_fits made a hle hmax _ _ hcall

theorem allocate_fits_small : ∃ σ b σ', System.Reach (poolMachine smallConfig) (Sized smallConfig) σ ∧
    PoolArena.allocate smallConfig 0 0 100 4096 σ = .ok (b, σ') ∧ FitsMemory σ' b 100 4096 := by
  obtain ⟨σ, -, hreach, hp⟩ := System.exists_reach (M := poolMachine smallConfig)
    (G := Sized smallConfig) [.attach]
    (fun σ => (PoolArena.allocate smallConfig 0 0 100 4096 σ).isOk)
    smallConfig_init (by rw [smallConfig_eq]; decide +kernel)
  cases hcall : PoolArena.allocate smallConfig 0 0 100 4096 σ with
  | error e =>
    rw [hcall] at hp
    cases hp
  | ok r =>
    refine ⟨σ, r.1, r.2, hreach, hcall, (allocate_fits_iff hreach 0 ?_ hcall).mpr ?_⟩
    · decide
    · rw [smallConfig_chunkSize]
      decide

/-- A request above the size of a chunk is rounded up, and gets the memory of a chunk. -/
theorem allocate_overflows : ∃ σ b σ' buf c x,
    System.Reach (poolMachine smallConfig) (Sized smallConfig) σ ∧
    PoolArena.allocate smallConfig 0 0 40000 100000 σ = .ok (b, σ') ∧ σ'.bufs[b]? = some buf ∧
    buf.memory = some c ∧ σ'.chunk c = some x ∧ buf.length = 40960 ∧
    buf.offset + buf.maxLength = 40960 ∧ x.memorySize = 32768 ∧ ¬ FitsMemory σ' b 40000 100000 := by
  obtain ⟨σ, -, hreach, hp⟩ := System.exists_reach (M := poolMachine smallConfig)
    (G := Sized smallConfig) [.attach]
    (fun σ => (PoolArena.allocate smallConfig 0 0 40000 100000 σ).toOption.any fun r =>
      r.2.bufs[r.1]?.any fun buf => buf.memory.any fun c => (r.2.chunk c).any fun x =>
        buf.length = 40960 ∧ buf.offset + buf.maxLength = 40960 ∧ x.memorySize = 32768)
    smallConfig_init (by rw [smallConfig_eq]; decide +kernel)
  obtain ⟨⟨b, σ'⟩, hcall, hp⟩ := (Option.any_eq_true _ _).mp hp
  obtain ⟨buf, hbuf, hp⟩ := (Option.any_eq_true _ _).mp hp
  obtain ⟨c, hmem, hp⟩ := (Option.any_eq_true _ _).mp hp
  obtain ⟨x, hx, hp⟩ := (Option.any_eq_true _ _).mp hp
  obtain ⟨hlen, hstop, hsize⟩ := of_decide_eq_true hp
  refine ⟨σ, b, σ', buf, c, x, hreach, toOption_eq_some.mp hcall, hbuf, hmem, hx, hlen, hstop, hsize,
    ?_⟩
  rintro ⟨buf', c', x', hbuf', -, -, hlen', -⟩
  obtain rfl : buf = buf' := Option.some.inj (hbuf.symm.trans hbuf')
  omega

end Mutty.Buffer
