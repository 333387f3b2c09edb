import Mutty.Buffer.Residency

/-!
# The thresholds of every geometry

The constructor of a usage list computes its thresholds with doubles, which have the model that comes
with the language, and casts them to `int`. A double that is no `int` has no defined result there;
`outOfRange` is what the machine stores for it. Up to chunks of 16 MiB the thresholds are the
truncated exact values, and the lists work; from 32 MiB on the first threshold of `qInit` is too
large for an `int`.
-/

namespace Mutty.Buffer

open Mutty.Lib Prog ChunkLinks

namespace ListKind

/-- `chunkSize * (100.0 - usage + 0.99999999) / 100L` -/
def thresholdDouble (chunkSize usage : ℤ) : Float.Model :=
  .ofInt chunkSize * (.ofInt 100 - .ofInt usage + .ofScientific 99999999 (-8)) / .ofInt 100

/-- `static_cast<int>` of a double -/
def castInt (outOfRange : Float.Model → Int32) (x : Float.Model) : ℤ :=
  let n := x.toInt64.toInt
  if -2 ^ 31 ≤ n ∧ n < 2 ^ 31 then n else (outOfRange x).toInt

def storedThreshold (outOfRange : Float.Model → Int32) (chunkSize usage : ℤ) : ℤ :=
  if usage = 100 then 0 else castInt outOfRange (thresholdDouble chunkSize usage)

end ListKind

/-- The sizes and thresholds of an arena as its constructor computes them. -/
structure Constructed (outOfRange : Float.Model → Int32) (pageSize maxOrder : ℤ) (k : Config) :
    Prop where
  sizes : arenaSizes pageSize maxOrder = .ok k.sizes
  freeMinThreshold : ∀ l, k.freeMinThreshold l =
    ListKind.storedThreshold outOfRange k.sizes.chunkSize l.maxUsage
  freeMaxThreshold : ∀ l, k.freeMaxThreshold l =
    ListKind.storedThreshold outOfRange k.sizes.chunkSize l.minUsage

/-- No call fails on the way between the lists, and after it every chunk that is still there is on
one of them. -/
structure ListsWork (k : Config) : Prop where
  exact : k.Exact
  free : ∀ σ, (arenaMachine k).Reach System.Free σ → ∀ t ∈ σ.out, ∀ buffer, ∃ pool,
    PoolArena.freeChunk k t.chunk t.handle t.cap buffer σ.pool = .ok ((), pool) ∧
      ∃ on, OnOneList k pool on
  allocate : ∀ σ, (arenaMachine k).Reach System.Free σ →
    ∀ (a : ArenaId) (b : BufId) req i (th : ThreadId), i < k.sizes.nSizes →
      (∃ pool, PoolArena.allocateNormal k a b req i th σ.pool = .ok ((), pool) ∧
        ∃ on, OnOneList k pool on) ∨
      ∃ e, PoolArena.allocateNormal k a b req i th σ.pool = .error e ∧
        AllocateFails k a b req i th σ.pool e

variable {k : Config} {outOfRange : Float.Model → Int32} {pageSize maxOrder : ℤ}

theorem storedThreshold_bounds (outOfRange : Float.Model → Int32) (chunkSize usage : ℤ) :
    -2 ^ 31 ≤ ListKind.storedThreshold outOfRange chunkSize usage ∧
      ListKind.storedThreshold outOfRange chunkSize usage < 2 ^ 31 := by
  unfold ListKind.storedThreshold ListKind.castInt
  dsimp only
  split_ifs with h100 hrange
  · norm_num
  · exact hrange
  · exact ⟨Int32.le_toInt _, Int32.toInt_lt _⟩

/-- Chunks of 4 KiB to 16 MiB. The rounding of the doubles does not reach an integer. -/
theorem castInt_threshold : ∀ e ∈ List.range' 12 13, ∀ usage ∈ [-8192, 1, 25, 50, 75, 8192],
    (ListKind.thresholdDouble (2 ^ e) usage).toInt64.toInt = ListKind.exactThreshold (2 ^ e) usage ∧
      -2 ^ 31 ≤ ListKind.exactThreshold (2 ^ e) usage ∧
      ListKind.exactThreshold (2 ^ e) usage < 2 ^ 31 := by
  decide +kernel

theorem storedThreshold_eq {e : ℕ} (h12 : 12 ≤ e) (h24 : e ≤ 24) (l : ListKind) :
    ListKind.storedThreshold outOfRange (2 ^ e) l.maxUsage = ListKind.exactThreshold (2 ^ e) l.maxUsage ∧
      ListKind.storedThreshold outOfRange (2 ^ e) l.minUsage =
        ListKind.exactThreshold (2 ^ e) l.minUsage := by
  have hcast : ∀ usage ∈ [-8192, 1, 25, 50, 75, 8192],
      ListKind.castInt outOfRange (ListKind.thresholdDouble (2 ^ e) usage) =
        ListKind.exactThreshold (2 ^ e) usage := by
    intro usage husage
    obtain ⟨heq, hrange⟩ := castInt_threshold e (List.mem_range'_1.mpr (by omega)) usage husage
    rw [← heq] at hrange ⊢
    exact if_pos hrange
  have hstored : ∀ usage, usage = 100 ∨ usage ∈ [-8192, 1, 25, 50, 75, 8192] →
      ListKind.storedThreshold outOfRange (2 ^ e) usage = ListKind.exactThreshold (2 ^ e) usage := by
    intro usage husage
    unfold ListKind.storedThreshold
    split_ifs with h100
    · rw [h100]
      rfl
    · exact hcast usage (husage.resolve_left h100)
  exact ⟨hstored _ (by cases l <;> decide), hstored _ (by cases l <;> decide)⟩

namespace Constructed

theorem chunkSize_eq (h : Constructed outOfRange pageSize maxOrder k) (hint : pageSize < 2 ^ 31) :
    ∃ e, 12 ≤ e ∧ e ≤ 30 ∧ k.sizes.chunkSize = 2 ^ e := by
  obtain ⟨g, made, -⟩ := arenaSizes_made hint h.sizes
  have := g.pageShifts_ge
  exact ⟨g.pageShifts + g.order, by omega, g.chunk_le, made.chunkSize⟩

theorem exact (h : Constructed outOfRange pageSize maxOrder k) (hint : pageSize < 2 ^ 31)
    (hle : k.sizes.chunkSize ≤ 2 ^ 24) : k.Exact := by
  obtain ⟨e, h12, -, he⟩ := h.chunkSize_eq hint
  rw [he] at hle
  have h24 : e ≤ 24 := (Nat.pow_le_pow_iff_right (by norm_num)).mp hle
  have hcast : ((k.sizes.chunkSize : ℕ) : ℤ) = 2 ^ e := by
    rw [he]
    push_cast
    rfl
  refine ⟨fun l => ?_, fun l => ?_⟩
  · rw [h.freeMinThreshold, hcast]
    exact (storedThreshold_eq h12 h24 l).1
  · rw [h.freeMaxThreshold, hcast]
    exact (storedThreshold_eq h12 h24 l).2

/-- The exact threshold of `qInit` is more than 82 times the size of a chunk. -/
theorem le_of_exact (h : Constructed outOfRange pageSize maxOrder k) (hint : pageSize < 2 ^ 31)
    (hexact : k.Exact) : k.sizes.chunkSize ≤ 2 ^ 24 := by
  obtain ⟨e, -, -, he⟩ := h.chunkSize_eq hint
  have hbound := (storedThreshold_bounds outOfRange k.sizes.chunkSize ListKind.qInit.minUsage).2
  rw [← h.freeMaxThreshold, hexact.freeMaxThreshold,
    ListKind.exactThreshold_minUsage (Int.natCast_nonneg _)] at hbound
  dsimp only at hbound
  rw [he]
  refine Nat.pow_le_pow_right (by norm_num) ?_
  by_contra hlt
  have hlarge : 2 ^ 25 ≤ k.sizes.chunkSize := by
    rw [he]
    exact Nat.pow_le_pow_right (by norm_num) (by omega)
  omega

end Constructed

theorem Config.Exact.listsWork (h : k.Exact) (hpos : 0 < k.sizes.chunkSize)
    (hle : k.sizes.chunkSize ≤ 2 ^ 30) : ListsWork k := by
  have hw := h.windows hpos hle
  refine ⟨h, fun σ hreach t ht buffer => ?_, fun σ hreach a b req i th hi => ?_⟩
  · obtain ⟨g, made, hinv⟩ := ArenaInv.reach hreach
    obtain ⟨pool, hfree, hres⟩ := (Resident.reach hw hreach).freeChunk hw made
      (hinv.held.perm (List.perm_cons_erase ht)) hinv.rings buffer
    exact ⟨pool, hfree, hres.onOneList⟩
  · obtain ⟨g, made, hinv⟩ := ArenaInv.reach hreach
    have hcall : KeepsResident k a b req i th (PoolArena.allocateNormal k a b req i th) σ.pool :=
      (Resident.reach hw hreach).allocateNormal hw made hinv.held hi a
    rcases hcall with ⟨_, pool, hok, hres⟩ | hfails
    · exact .inl ⟨pool, hok, hres.onOneList⟩
    · exact .inr hfails

theorem listsWork_iff (hint : pageSize < 2 ^ 31) (h : Constructed outOfRange pageSize maxOrder k) :
    ListsWork k ↔ k.sizes.chunkSize ≤ 2 ^ 24 := by
  constructor
  · intro hwork
    exact h.le_of_exact hint hwork.exact
  · intro hle
    obtain ⟨e, -, h30, he⟩ := h.chunkSize_eq hint
    apply (h.exact hint hle).listsWork
    · rw [he]
      exact Nat.two_pow_pos e
    · rw [he]
      exact Nat.pow_le_pow_right (by norm_num) h30

theorem defaultConfig_constructed (outOfRange : Float.Model → Int32) :
    Constructed outOfRange 8192 11 defaultConfig := by
  have hsize := defaultConfig_geometry.chunkSize
  refine ⟨defaultConfig_geometry.sizes, fun l => ?_, fun l => ?_⟩
  · rw [hsize, defaultConfig_geometry.freeMinThreshold]
    exact (storedThreshold_eq (e := 24) (by norm_num) le_rfl l).1.symm
  · rw [hsize, defaultConfig_geometry.freeMaxThreshold]
    exact (storedThreshold_eq (e := 24) (by norm_num) le_rfl l).2.symm

theorem listsWork_default : Constructed (fun _ => Int32.minValue) 8192 11 defaultConfig ∧
    defaultConfig.sizes.chunkSize ≤ 2 ^ 24 ∧ ListsWork defaultConfig := by
  have hle : defaultConfig.sizes.chunkSize ≤ 2 ^ 24 := by
    rw [defaultConfig_geometry.chunkSize]
    norm_num
  have hmade := defaultConfig_constructed fun _ => Int32.minValue
  exact ⟨hmade, hle, (listsWork_iff (by norm_num) hmade).mpr hle⟩

/-- Chunks of 32 MiB, where a machine stores the least `int` for a double that is none. -/
def largeConfig : Config :=
  { defaultConfig with
    sizes := match arenaSizes 8192 12 with
      | .ok sizes => sizes
      | .error _ => defaultConfig.sizes
    freeMinThreshold := fun l => ListKind.storedThreshold (fun _ => Int32.minValue) 33554432 l.maxUsage
    freeMaxThreshold := fun l => ListKind.storedThreshold (fun _ => Int32.minValue) 33554432 l.minUsage }

def largeGeometry : Geometry :=
  { Geometry.ofDefaults with order := 12, order_lt := by norm_num, chunk_le := by decide }

theorem arenaSizes_large : arenaSizes 8192 12 =
    .ok (SizeClasses.tables largeGeometry) :=
  arenaSizes_eq _ (by decide) (by decide)

theorem largeConfig_eq : largeConfig = { largeConfig with
    sizes := SizeClasses.tables largeGeometry } := by
  simp [largeConfig, arenaSizes_large]

theorem largeConfig_constructed : Constructed (fun _ => Int32.minValue) 8192 12 largeConfig := by
  have hsizes : arenaSizes 8192 12 = .ok largeConfig.sizes := by
    rw [arenaSizes_large, largeConfig_eq]
  have heq : ((largeConfig.sizes.chunkSize : ℕ) : ℤ) = 33554432 := by
    rw [largeConfig_eq]
    rfl
  refine ⟨hsizes, fun l => ?_, fun l => ?_⟩
  · rw [heq]
    rfl
  · rw [heq]
    rfl

/-- `free` moves the chunk from `qInit` to `qInit`, again and again. -/
theorem listsWork_fails :
    Constructed (fun _ => Int32.minValue) 8192 12 largeConfig ∧
      (∃ σ, (arenaMachine largeConfig).Reach System.Free σ ∧ ∃ t ∈ σ.out,
        PoolArena.freeChunk largeConfig t.chunk t.handle t.cap none σ.pool = .error .budget) ∧
      ¬ ListsWork largeConfig := by
  obtain ⟨σ, -, hreach, hp⟩ := System.exists_reach (M := arenaMachine largeConfig)
    (G := System.Free) [.others [] [PooledByteBuf.new], .allocate 0 0 0 8192]
    (fun σ => ∃ t ∈ σ.out,
      (match PoolArena.freeChunk largeConfig t.chunk t.handle t.cap none σ.pool with
        | .error .budget => true
        | _ => false) = true)
    (s := ⟨Pool.initial, []⟩)
    ⟨⟨8192, 12, by norm_num, largeConfig_constructed.sizes⟩, rfl, rfl⟩
    (by rw [largeConfig_eq]; decide +kernel)
  obtain ⟨t, ht, hp⟩ := of_decide_eq_true hp
  have hfail : PoolArena.freeChunk largeConfig t.chunk t.handle t.cap none σ.pool = .error .budget := by
    split at hp
    · assumption
    · cases hp
  refine ⟨largeConfig_constructed, ⟨σ, hreach, t, ht, hfail⟩, fun hwork => ?_⟩
  obtain ⟨pool, hok, -⟩ := hwork.free σ hreach t ht none
  rw [hfail] at hok
  cases hok

end Mutty.Buffer
