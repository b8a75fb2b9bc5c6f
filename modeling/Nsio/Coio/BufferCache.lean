import Nsio.Coio.ByteBuffer
import Mathlib.Algebra.BigOperators.Group.List.Basic

/-!
# The buffer cache: agreement with the fresh path, and its limit

Two questions about every run of the pool.

## Does the cache hand out what was asked for?

A cached chunk is looked up by its 32-bit key alone, and the key keeps only 24 bits of
`len >> align_bit`. `key_eq_key_iff` says exactly which chunks share a key with a request: those
of the same alignment whose length agrees with the wanted total **modulo `2 ^ (24 + align_bit)`**.
So `malloc` agrees with the fresh path exactly in the states without such an alias
(`malloc_agrees_iff`), and always when no request of the run reaches that modulus.

The chunks of a run satisfy `ChunkOk`: an alignment below 32 and a length that is a multiple of it.
That is what lets the key's right shift lose nothing.

## Does the cache stay within its limit?

`release` frees a chunk when the sum is *below* the stored limit and caches it otherwise.
`cachedBytes_le_limit_iff` gives the runs in which the cached bytes stay within the limit passed to
`new_inst`: those in which every destroyed buffer still fits. The count itself never wraps in such
a run, because a sum past `2 ^ 64` comes out below the narrowed limit and is freed
(`toNat_add_of_not_lt_narrowed`).
-/

namespace Nsio

/-! ### Chunks and keys -/

/-- What every chunk of a pool satisfies: a shift by the alignment is defined, and the length is a
multiple of the alignment. -/
structure ByteBufferData.ChunkOk (d : ByteBufferData) : Prop where
  alignBit_lt : d.alignBit < 32
  dvd_len : 2 ^ d.alignBit.toNat ∣ d.len.toNat

theorem MallocArgs.chunkOk_fresh {r : MallocArgs} (h : r.alignBit < 32) (p : ℕ) :
    ByteBufferData.ChunkOk ⟨p, r.total, r.alignBit⟩ :=
  ⟨h, two_pow_dvd_total h⟩

/-- For multiples of `2 ^ b`, agreeing above bit `b` on 24 bits is agreeing modulo
`2 ^ (24 + b)`. -/
theorem shiftRight_mod_eq_iff {x y b : ℕ} (hx : 2 ^ b ∣ x) (hy : 2 ^ b ∣ y) :
    x >>> b % 2 ^ 24 = y >>> b % 2 ^ 24 ↔ x % 2 ^ (24 + b) = y % 2 ^ (24 + b) := by
  have hpos : 0 < 2 ^ b := Nat.two_pow_pos b
  have hmod : ∀ z, 2 ^ b ∣ z → z % 2 ^ (24 + b) = 2 ^ b * (z >>> b % 2 ^ 24) := by
    intro z hz
    rw [Nat.add_comm, Nat.pow_add, Nat.mod_mul, Nat.mod_eq_zero_of_dvd hz, Nat.zero_add,
      Nat.shiftRight_eq_div_pow]
  rw [hmod x hx, hmod y hy]
  exact ⟨fun h ↦ by rw [h], fun h ↦ Nat.eq_of_mul_eq_mul_left hpos h⟩

/-- **Which chunks share a key with a request**: the same alignment, and lengths that agree modulo
`2 ^ (24 + align_bit)`. -/
theorem key_eq_key_iff {d : ByteBufferData} {r : MallocArgs} (hd : d.ChunkOk)
    (hr : r.alignBit < 32) :
    d.key = r.key ↔ d.alignBit = r.alignBit ∧
      d.len.toNat % 2 ^ (24 + r.alignBit.toNat) = r.total.toNat % 2 ^ (24 + r.alignBit.toNat) := by
  have hdb : d.alignBit.toNat < 32 := UInt32.lt_iff_toNat_lt.1 hd.alignBit_lt
  have hrb : r.alignBit.toNat < 32 := UInt32.lt_iff_toNat_lt.1 hr
  have hmask : r.alignBit &&& 0xFF = r.alignBit := by
    rw [← UInt32.toNat_inj, UInt32.toNat_and, show (0xFF : UInt32).toNat = 2 ^ 8 - 1 from rfl,
      Nat.and_two_pow_sub_one_eq_mod, Nat.mod_eq_of_lt (by omega)]
  have hkey : r.key = Word.pack (r.total >>> r.alignBit) r.alignBit := by
    rw [MallocArgs.key, hmask, UInt32.add_comm]
    rfl
  rw [hkey, show d.key = Word.pack (d.len >>> d.alignBit) d.alignBit from rfl,
    Word.pack_eq_pack_iff (by omega) (by omega), and_comm]
  refine and_congr_right fun hbit ↦ ?_
  rw [UInt32.toNat_shiftRight, UInt32.toNat_shiftRight, hbit, Nat.mod_eq_of_lt hrb]
  exact shiftRight_mod_eq_iff (hbit ▸ hd.dvd_len) (MallocArgs.two_pow_dvd_total hr)

/-- The wanted total is below the modulus of the key. -/
def MallocArgs.KeyFits (r : MallocArgs) : Prop :=
  r.total.toNat < 2 ^ (24 + r.alignBit.toNat)

instance (r : MallocArgs) : Decidable r.KeyFits := inferInstanceAs (Decidable (_ < _))

/-! ### The pool invariant -/

/-- Every cached pair is stored under its chunk's key, and every chunk, cached or in a live buffer,
is a chunk of `malloc`. -/
structure PoolWorld.WellKeyed (w : PoolWorld) : Prop where
  cache_key : ∀ e ∈ w.pool.cache, e.1 = e.2.key
  cache_chunk : ∀ e ∈ w.pool.cache, e.2.ChunkOk
  live_chunk : ∀ b ∈ w.live, b.d.ChunkOk

namespace PoolWorld

theorem WellKeyed.step {w t : PoolWorld} {a : PoolAction} (h : w.step a = some t)
    (hw : w.WellKeyed) : t.WellKeyed := by
  obtain ⟨r, pick, p, rfl, hr, hpool, hlive⟩ | ⟨i, b, rfl, hb, rfl⟩ := step_cases h
  · obtain ⟨it, hfind, hm⟩ | ⟨-, hm⟩ := w.pool.malloc_cases r pick p
    · rw [hm] at hpool hlive
      -- served from the cache: the chunk only changes sides
      have hsub : ∀ e ∈ t.pool.cache, e ∈ w.pool.cache := fun e he ↦
        List.mem_of_mem_erase (by rwa [hpool] at he)
      refine ⟨fun e he ↦ hw.cache_key e (hsub e he), fun e he ↦ hw.cache_chunk e (hsub e he), ?_⟩
      rw [hlive, List.forall_mem_cons]
      exact ⟨hw.cache_chunk it (BufferPool.mem_of_find hfind).1, hw.live_chunk⟩
    · rw [hm] at hpool hlive
      refine ⟨hpool ▸ hw.cache_key, hpool ▸ hw.cache_chunk, ?_⟩
      rw [hlive, List.forall_mem_cons]
      exact ⟨MallocArgs.chunkOk_fresh hr p, hw.live_chunk⟩
  -- the destructor frees the chunk or puts it back, under the key of its own fields
  · have hbd := hw.live_chunk b (List.mem_of_getElem? hb)
    have hlive : ∀ c ∈ w.live.eraseIdx i, c.d.ChunkOk := fun c hc ↦
      hw.live_chunk c (List.mem_of_mem_eraseIdx hc)
    by_cases hlt : w.pool.cacheBytes + b.d.len.toUInt64 < w.pool.limitCacheBytes
    · have hrel : (w.pool.release b.d).1 = w.pool := by rw [BufferPool.release, if_pos hlt]
      exact ⟨by rw [destroy, hrel]; exact hw.cache_key, by rw [destroy, hrel]; exact hw.cache_chunk,
        hlive⟩
    · have hrel : (w.pool.release b.d).1.cache = (b.d.key, b.d) :: w.pool.cache := by
        rw [BufferPool.release, if_neg hlt]
      refine ⟨?_, ?_, hlive⟩ <;> rw [destroy, hrel, List.forall_mem_cons]
      · exact ⟨rfl, hw.cache_key⟩
      · exact ⟨hbd, hw.cache_chunk⟩

theorem wellKeyed_of_reachable {limit : UInt64} {w : PoolWorld}
    (h : (BufferPool.machine limit).Reachable w) : w.WellKeyed :=
  h.invariant ⟨by simp [BufferPool.machine, BufferPool.newInst],
    by simp [BufferPool.machine, BufferPool.newInst], by simp [BufferPool.machine]⟩
    fun _ _ _ hstep hw ↦ hw.step hstep

end PoolWorld

/-! ### Agreement with the fresh path -/

namespace BufferPool

/-- The buffer the fresh path makes of a request. -/
def freshBuffer (r : MallocArgs) (p : ℕ) : ByteBufferImpl :=
  .new r.roundedHeader ⟨p, r.total, r.alignBit⟩

/-- One call of `malloc` agrees with the fresh path: it is served from the cache exactly when a
chunk of the right alignment and size is cached, and the buffer is of that alignment and size. -/
structure AgreesWithFresh (s : BufferPool) (r : MallocArgs) (pick p : ℕ) : Prop where
  served_iff : (s.find r.key pick).isSome ↔
    ∃ e ∈ s.cache, e.2.alignBit = r.alignBit ∧ e.2.len = r.total
  len_eq : (s.malloc r pick p).1.d.len = r.total
  alignBit_eq : (s.malloc r pick p).1.d.alignBit = r.alignBit
  capacity_eq : (s.malloc r pick p).1.capacity = (freshBuffer r p).capacity
  align_eq : (s.malloc r pick p).1.align = (freshBuffer r p).align

/-- No cached chunk of the request's alignment has a length that differs from the wanted total but
agrees with it modulo `2 ^ (24 + align_bit)`. -/
def NoAlias (s : BufferPool) (r : MallocArgs) : Prop :=
  ∀ e ∈ s.cache, e.2.alignBit = r.alignBit →
    e.2.len.toNat % 2 ^ (24 + r.alignBit.toNat) = r.total.toNat % 2 ^ (24 + r.alignBit.toNat) →
      e.2.len = r.total

theorem agreesWithFresh_iff_noAlias {w : PoolWorld} (hw : w.WellKeyed) {r : MallocArgs}
    (hr : r.alignBit < 32) : (∀ pick p, w.pool.AgreesWithFresh r pick p) ↔ w.pool.NoAlias r := by
  constructor
  · intro h e he hbit hlen
    have hkey : e.1 = r.key :=
      (hw.cache_key e he).trans ((key_eq_key_iff (hw.cache_chunk e he) hr).2 ⟨hbit, hlen⟩)
    -- some iteration order of the multimap serves this very chunk
    obtain ⟨pick, hpick⟩ := exists_find_eq he
    rw [hkey] at hpick
    have hserved := (h pick 0).len_eq
    rwa [malloc, hpick] at hserved
  · intro h pick p
    obtain ⟨it, hfind, hm⟩ | ⟨hfind, hm⟩ := w.pool.malloc_cases r pick p
    · obtain ⟨hmem, hkey⟩ := mem_of_find hfind
      rw [hw.cache_key it hmem] at hkey
      obtain ⟨hbit, hmod⟩ := (key_eq_key_iff (hw.cache_chunk it hmem) hr).1 hkey
      have hlen := h it hmem hbit hmod
      exact
        { served_iff := ⟨fun _ ↦ ⟨it, hmem, hbit, hlen⟩, fun _ ↦ by rw [hfind]; rfl⟩
          len_eq := by rw [hm]; exact hlen
          alignBit_eq := by rw [hm]; exact hbit
          capacity_eq := by rw [hm]; exact hlen
          align_eq := by rw [hm]; exact congrArg (fun k : UInt32 ↦ (1 : UInt32) <<< k) hbit }
    · have hno : ¬ ∃ e ∈ w.pool.cache, e.2.alignBit = r.alignBit ∧ e.2.len = r.total := by
        rintro ⟨e, he, hbit, hlen⟩
        refine find_eq_none_iff.1 hfind e he ((hw.cache_key e he).trans ?_)
        exact (key_eq_key_iff (hw.cache_chunk e he) hr).2 ⟨hbit, by rw [hlen]⟩
      exact
        { served_iff := ⟨fun h' ↦ absurd h' (by rw [hfind]; simp), fun h' ↦ absurd h' hno⟩
          len_eq := by rw [hm]; rfl
          alignBit_eq := by rw [hm]; rfl
          capacity_eq := by rw [hm]; rfl
          align_eq := by rw [hm]; rfl }

end BufferPool

/-- Every chunk, cached or in a live buffer, is below the modulus of its key. -/
structure PoolWorld.ChunksFit (w : PoolWorld) : Prop where
  cache_fits : ∀ e ∈ w.pool.cache, e.2.len.toNat < 2 ^ (24 + e.2.alignBit.toNat)
  live_fits : ∀ b ∈ w.live, b.d.len.toNat < 2 ^ (24 + b.d.alignBit.toNat)

theorem PoolWorld.ChunksFit.step {w t : PoolWorld} {a : PoolAction} (h : w.step a = some t)
    (ha : ∀ r pick p, a = .malloc r pick p → r.KeyFits) (hw : w.ChunksFit) : t.ChunksFit := by
  obtain ⟨r, pick, p, rfl, -, hpool, hlive⟩ | ⟨i, b, rfl, hb, rfl⟩ := step_cases h
  · obtain ⟨it, hfind, hm⟩ | ⟨-, hm⟩ := w.pool.malloc_cases r pick p
    · rw [hm] at hpool hlive
      refine ⟨fun e he ↦ hw.cache_fits e (List.mem_of_mem_erase (by rwa [hpool] at he)), ?_⟩
      rw [hlive, List.forall_mem_cons]
      exact ⟨hw.cache_fits it (BufferPool.mem_of_find hfind).1, hw.live_fits⟩
    · rw [hm] at hpool hlive
      refine ⟨hpool ▸ hw.cache_fits, ?_⟩
      rw [hlive, List.forall_mem_cons]
      exact ⟨ha r pick p rfl, hw.live_fits⟩
  · refine ⟨?_, fun c hc ↦ hw.live_fits c (List.mem_of_mem_eraseIdx hc)⟩
    rw [destroy, BufferPool.release]
    split
    · exact hw.cache_fits
    · rw [List.forall_mem_cons]
      exact ⟨hw.live_fits b (List.mem_of_getElem? hb), hw.cache_fits⟩

theorem PoolWorld.ChunksFit.noAlias {w : PoolWorld} (hw : w.ChunksFit) {r : MallocArgs}
    (hr : r.KeyFits) : w.pool.NoAlias r := by
  intro e he hbit hmod
  have hlen := hw.cache_fits e he
  rw [hbit] at hlen
  rw [Nat.mod_eq_of_lt hlen, Nat.mod_eq_of_lt hr] at hmod
  exact UInt32.toNat_inj.1 hmod

/-- **When the cached path agrees with the fresh path.** In every state of every run a further
`malloc` agrees with the fresh path, whichever chunk `find` returns, exactly when no cached chunk
of its alignment is an alias of the wanted total; and it always does when the totals of the run and
the wanted one are below `2 ^ (24 + align_bit)`. -/
theorem malloc_agrees_iff {limit : UInt64} {as : List PoolAction} {w : PoolWorld}
    (hrun : (BufferPool.machine limit).run as = some w) {r : MallocArgs} (hr : r.alignBit < 32) :
    ((∀ pick p, w.pool.AgreesWithFresh r pick p) ↔ w.pool.NoAlias r) ∧
      ((∀ r' pick p, PoolAction.malloc r' pick p ∈ as → r'.KeyFits) → r.KeyFits →
        ∀ pick p, w.pool.AgreesWithFresh r pick p) := by
  have hiff := BufferPool.agreesWithFresh_iff_noAlias
    (PoolWorld.wellKeyed_of_reachable ⟨as, hrun⟩) hr
  refine ⟨hiff, fun hfits hrfits ↦ hiff.2 (PoolWorld.ChunksFit.noAlias ?_ hrfits)⟩
  have hthrough : (BufferPool.machine limit).Throughout PoolWorld.ChunksFit as :=
    Machine.throughout_of_stepsMeet ⟨by simp [BufferPool.machine, BufferPool.newInst],
      by simp [BufferPool.machine]⟩ (fun _ _ _ hstep ha hw ↦ hw.step hstep ha)
      (Machine.stepsMeet_of_forall_mem (G := fun a ↦ ∀ r pick p, a = .malloc r pick p → r.KeyFits)
        fun a ha r' pick p hap ↦ hfits r' pick p (hap ▸ ha))
  exact hthrough.last hrun

/-- A chunk of 1 KiB that went through the cache is handed out again for the same request. -/
theorem malloc_agrees_reused :
    ∃ w, (BufferPool.machine 64).run [.malloc ⟨1000, 6, 0⟩ 0 4096, .destroy 0] = some w ∧
      w.pool.cache.length = 1 ∧ w.pool.AgreesWithFresh ⟨1000, 6, 0⟩ 0 8192 := by
  refine ⟨_, rfl, rfl, ?_⟩
  refine (@malloc_agrees_iff 64 [.malloc ⟨1000, 6, 0⟩ 0 4096, .destroy 0] _ rfl ⟨1000, 6, 0⟩
    (by decide)).2 ?_ (by decide) 0 8192
  intro r' pick p h
  simp only [List.mem_cons, PoolAction.malloc.injEq, reduceCtorEq, List.not_mem_nil, or_false]
    at h
  obtain ⟨rfl, -, -⟩ := h
  decide

/-- With the limit of `io_context`, a released chunk of 32 MiB without alignment answers a request
for 64 MiB: both have the key `0`. -/
theorem malloc_returns_smaller_chunk :
    ∃ w, (BufferPool.machine ((32 : UInt64) <<< 20)).run
        [.malloc ⟨33554432, 0, 0⟩ 0 4096, .destroy 0] = some w ∧
      ¬ w.pool.AgreesWithFresh ⟨67108864, 0, 0⟩ 0 8192 := by
  refine ⟨_, rfl, fun h ↦ ?_⟩
  exact absurd h.len_eq (by decide)

/-! ### The limit -/

namespace BufferPool

/-- The bytes of the cached chunks. -/
def chunkBytes (s : BufferPool) : ℕ := (s.cache.map fun e ↦ e.2.len.toNat).sum

theorem chunkBytes_erase {s : BufferPool} {it : UInt32 × ByteBufferData} (h : it ∈ s.cache) :
    it.2.len.toNat + ((s.cache.erase it).map fun e ↦ e.2.len.toNat).sum = s.chunkBytes := by
  have hperm := (List.perm_cons_erase h).map fun e : UInt32 × ByteBufferData ↦ e.2.len.toNat
  rw [chunkBytes, hperm.sum_eq, List.map_cons, List.sum_cons]

/-- **The sum in `release` does not wrap when its chunk is cached**, as long as the count is within
the limit: a sum past `2 ^ 64` would come out below the narrowed limit. -/
theorem toNat_add_of_not_lt_narrowed {limit c : UInt64} {l : UInt32} (hc : c ≤ limit)
    (h : ¬ c + l.toUInt64 < limit.toUInt32.toUInt64) :
    (c + l.toUInt64).toNat = c.toNat + l.toNat := by
  have hl := l.toNat_lt
  have hlim := limit.toNat_lt
  rw [UInt64.le_iff_toNat_le] at hc
  rw [UInt64.lt_iff_toNat_lt, UInt64.toNat_add, UInt32.toNat_toUInt64, UInt32.toNat_toUInt64,
    UInt64.toNat_toUInt32] at h
  rw [UInt64.toNat_add, UInt32.toNat_toUInt64]
  omega

end BufferPool

/-- The state of a pool whose cached bytes are within the limit it was made with. -/
structure PoolWorld.WithinLimit (limit : UInt64) (w : PoolWorld) : Prop where
  limit_eq : w.pool.limitCacheBytes = limit.toUInt32.toUInt64
  bytes_eq : w.pool.cacheBytes.toNat = w.pool.chunkBytes
  bytes_le : w.pool.getCachedBytes ≤ limit

/-- A destroyed buffer still fits: the cached bytes and the chunk are together within the limit. -/
def ReleaseFits (limit : UInt64) (w : PoolWorld) (a : PoolAction) : Prop :=
  ∀ i b, a = .destroy i → w.live[i]? = some b →
    w.pool.getCachedBytes + b.d.len.toUInt64 ≤ limit

/-- A `malloc` never adds to the count: a hit subtracts the chunk's length, without underflow. -/
theorem PoolWorld.WithinLimit.malloc {limit : UInt64} {w : PoolWorld} (hw : w.WithinLimit limit)
    (r : MallocArgs) (pick p : ℕ) {live : List ByteBufferImpl} {obtained freed : List ℕ} :
    PoolWorld.WithinLimit limit ⟨(w.pool.malloc r pick p).2, live, obtained, freed⟩ := by
  obtain ⟨it, hfind, hm⟩ | ⟨-, hm⟩ := w.pool.malloc_cases r pick p
  · rw [hm]
    have hsum := BufferPool.chunkBytes_erase (BufferPool.mem_of_find hfind).1
    have hbytes := hw.bytes_eq
    have hle : it.2.len.toUInt64 ≤ w.pool.cacheBytes := by
      rw [UInt64.le_iff_toNat_le, UInt32.toNat_toUInt64]
      omega
    have hsub : (w.pool.cacheBytes - it.2.len.toUInt64).toNat =
        w.pool.cacheBytes.toNat - it.2.len.toNat := by
      rw [UInt64.toNat_sub_of_le _ _ hle, UInt32.toNat_toUInt64]
    refine ⟨hw.limit_eq, ?_, ?_⟩
    · show (w.pool.cacheBytes - it.2.len.toUInt64).toNat =
        ((w.pool.cache.erase it).map fun e ↦ e.2.len.toNat).sum
      omega
    · have hlim := UInt64.le_iff_toNat_le.1 hw.bytes_le
      rw [BufferPool.getCachedBytes] at hlim
      rw [UInt64.le_iff_toNat_le, BufferPool.getCachedBytes, hsub]
      omega
  · rw [hm]
    exact ⟨hw.limit_eq, hw.bytes_eq, hw.bytes_le⟩

/-- A release that fits keeps the count within the limit and equal to the cached bytes. -/
theorem PoolWorld.WithinLimit.destroy {limit : UInt64} {w : PoolWorld} (hw : w.WithinLimit limit)
    {b : ByteBufferImpl} (i : ℕ) (hfits : w.pool.getCachedBytes + b.d.len.toUInt64 ≤ limit) :
    (w.destroy b i).WithinLimit limit := by
  by_cases hlt : w.pool.cacheBytes + b.d.len.toUInt64 < w.pool.limitCacheBytes
  · rw [PoolWorld.destroy, BufferPool.release, if_pos hlt]
    exact ⟨hw.limit_eq, hw.bytes_eq, hw.bytes_le⟩
  · rw [PoolWorld.destroy, BufferPool.release, if_neg hlt]
    rw [hw.limit_eq] at hlt
    have hsum : (w.pool.cacheBytes + b.d.len.toUInt64).toNat =
        w.pool.cacheBytes.toNat + b.d.len.toNat :=
      BufferPool.toNat_add_of_not_lt_narrowed hw.bytes_le hlt
    refine ⟨hw.limit_eq, ?_, hfits⟩
    show (w.pool.cacheBytes + b.d.len.toUInt64).toNat = (_ :: _ : List ℕ).sum
    rw [hsum, List.sum_cons, hw.bytes_eq, Nat.add_comm]
    rfl

/-- The stored limit is the narrowed argument of `new_inst`, in every state. -/
theorem PoolWorld.limitCacheBytes_step {w t : PoolWorld} {a : PoolAction}
    (h : w.step a = some t) : t.pool.limitCacheBytes = w.pool.limitCacheBytes := by
  obtain ⟨r, pick, p, rfl, -, hpool, -⟩ | ⟨i, b, rfl, -, rfl⟩ := step_cases h
  · obtain ⟨it, -, hm⟩ | ⟨-, hm⟩ := w.pool.malloc_cases r pick p <;> rw [hpool, hm]
  · rw [PoolWorld.destroy, BufferPool.release]
    split <;> rfl

theorem PoolWorld.limit_eq_throughout (limit : UInt64) (as : List PoolAction) :
    (BufferPool.machine limit).Throughout
      (fun w ↦ w.pool.limitCacheBytes = limit.toUInt32.toUInt64) as :=
  Machine.throughout_of_invariant
    (P := fun w : PoolWorld ↦ w.pool.limitCacheBytes = limit.toUInt32.toUInt64) rfl
    (fun _ _ _ hstep hs ↦ (limitCacheBytes_step hstep).trans hs) as

/-- **When the cache stays within its limit.** The cached bytes of a run never exceed the limit
passed to `new_inst` exactly when every buffer the run destroys still fits: the cached bytes before
it and the length of its chunk are together within the limit. -/
theorem cachedBytes_le_limit_iff (limit : UInt64) (as : List PoolAction) :
    (BufferPool.machine limit).Throughout (fun w ↦ w.pool.getCachedBytes ≤ limit) as ↔
      (BufferPool.machine limit).StepsMeet (ReleaseFits limit) as := by
  constructor
  · intro h
    refine Machine.stepsMeet_of_throughout ?_ ((PoolWorld.limit_eq_throughout limit as).and h)
    rintro w a t hstep ⟨hlim, -⟩ ⟨-, hle⟩ i b rfl hb
    obtain ⟨b', hb', rfl⟩ := Option.map_eq_some_iff.1 hstep
    obtain rfl : b = b' := Option.some.inj (hb.symm.trans hb')
    -- a sum above the limit is above the narrowed one too, so the chunk is cached
    by_contra hgt
    have hnarrow : limit.toUInt32.toUInt64 ≤ limit := by
      rw [UInt64.le_iff_toNat_le, UInt32.toNat_toUInt64, UInt64.toNat_toUInt32]
      exact Nat.mod_le _ _
    have hlt : ¬ w.pool.cacheBytes + b.d.len.toUInt64 < w.pool.limitCacheBytes := by
      rw [hlim]
      exact fun h' ↦ hgt (UInt64.le_trans (UInt64.le_of_lt h') hnarrow)
    rw [PoolWorld.destroy, BufferPool.release, if_neg hlt] at hle
    exact hgt hle
  · intro h
    have hwithin : (BufferPool.machine limit).Throughout (PoolWorld.WithinLimit limit) as := by
      refine Machine.throughout_of_stepsMeet ⟨rfl, rfl, UInt64.zero_le⟩ ?_ h
      intro w a t hstep hfits hw
      cases a with
      | malloc r pick p =>
        by_cases hr : r.alignBit < 32
        · obtain rfl := Option.some.inj ((if_pos hr).symm.trans hstep)
          exact hw.malloc r pick p
        · exact absurd ((if_neg hr).symm.trans hstep) (by simp)
      | destroy i =>
        obtain ⟨b, hb, rfl⟩ := Option.map_eq_some_iff.1 hstep
        exact hw.destroy i (hfits i b rfl hb)
    exact hwithin.mono fun w hw ↦ hw.bytes_le

/-- With the limit of `io_context`, 32 MiB, one released chunk of 32 MiB and 1 KiB is cached. -/
theorem cachedBytes_exceed_limit :
    ∃ w, (BufferPool.machine ((32 : UInt64) <<< 20)).run
        [.malloc ⟨33554433, 6, 0⟩ 0 4096, .destroy 0] = some w ∧
      ¬ w.pool.getCachedBytes ≤ (32 : UInt64) <<< 20 := by
  exact ⟨_, rfl, by decide⟩

end Nsio
