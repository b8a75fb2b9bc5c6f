import Nsio.Foundations.Machine
import Nsio.Foundations.Word
import Mathlib.Data.List.Perm.Basic

/-!
# Byte buffers and the buffer pool

The model of `byte_buffer.cpp`: chunk descriptors (`byte_buffer_data`), buffers over them
(`byte_buffer_impl`) and the caching pool (`buffer_pool`), with the pool's sizes in the widths of
the source: lengths and keys are `uint32_t`, the offsets of a buffer are `uint16_t`, the pool's
byte counts are `size_t`.

Two things the source leaves to its surroundings are arguments here:

* which of several cached chunks with one key `unordered_multimap::find` returns (`pick`), since
  the standard does not say;
* the address `aligned_alloc` returns (`p`).

A run of the pool (`BufferPool.machine`) is any sequence of `malloc` calls and buffer
destructions. Its state keeps the live buffers and the logs of the chunks obtained from
`aligned_alloc` and handed to `free`.

## What the rounding computes

`toNat_roundedHeader`, `toNat_roundedBody` and `toNat_total` give the three sizes of `malloc` as
exact roundings reduced modulo `2 ^ 32`; no later proof unfolds the masks again.
-/

namespace Nsio

/-- `byte_buffer_data`: a chunk descriptor, copied by value between the cache and the buffers. -/
structure ByteBufferData where
  /-- `m_data`, the address of the chunk. -/
  data : ℕ
  /-- `m_len`, the size of the chunk. -/
  len : UInt32
  /-- `m_align_bit`. -/
  alignBit : UInt32
  deriving DecidableEq, Repr

/-- `byte_buffer_data::key`. -/
def ByteBufferData.key (d : ByteBufferData) : UInt32 :=
  ((d.len >>> d.alignBit) <<< 8) ||| d.alignBit

/-- `byte_buffer_impl`: a chunk with the place of its body and of its data. -/
structure ByteBufferImpl where
  /-- `m_d`. -/
  d : ByteBufferData
  /-- `_header_len`, the offset of the body. -/
  headerLen : UInt16
  /-- `_data_begin`. -/
  dataBegin : UInt16 := 0
  /-- `_data_len`. -/
  dataLen : UInt32 := 0
  deriving DecidableEq, Repr

namespace ByteBufferImpl

/-- The constructor: the header length is narrowed to 16 bits. -/
def new (headerLen : UInt32) (d : ByteBufferData) : ByteBufferImpl :=
  { d := d, headerLen := headerLen.toUInt16 }

/-- The chunk's first byte. -/
def base (b : ByteBufferImpl) : ℕ := b.d.data

/-- The body's first byte. -/
def body (b : ByteBufferImpl) : ℕ := b.d.data + b.headerLen.toNat

/-- The data's first byte. -/
def data (b : ByteBufferImpl) : ℕ := b.d.data + b.dataBegin.toNat

/-- `set_data_offset`: the position is narrowed to 16 bits. -/
def setDataOffset (b : ByteBufferImpl) (pos len : UInt32) : ByteBufferImpl :=
  { b with dataBegin := pos.toUInt16, dataLen := len }

/-- `set_data_begin`, narrowed likewise. -/
def setDataBegin (b : ByteBufferImpl) (pos : UInt32) : ByteBufferImpl :=
  { b with dataBegin := pos.toUInt16 }

/-- `set_data_len`. -/
def setDataLen (b : ByteBufferImpl) (len : UInt32) : ByteBufferImpl := { b with dataLen := len }

/-- `align()`. -/
def align (b : ByteBufferImpl) : UInt32 := 1 <<< b.d.alignBit

/-- `capacity()`. -/
def capacity (b : ByteBufferImpl) : UInt32 := b.d.len

/-- `body_off()`: the 16-bit field, widened again. -/
def bodyOff (b : ByteBufferImpl) : UInt32 := b.headerLen.toUInt32

end ByteBufferImpl

/-! ### The sizes `malloc` computes -/

/-- The arguments of `malloc`, with the defaults of the declaration. -/
structure MallocArgs where
  bodyLen : UInt32
  alignBit : UInt32 := 6
  headerLen : UInt32 := 0
  deriving DecidableEq, Repr

namespace MallocArgs

variable (r : MallocArgs)

/-- `1 << align_bit`. -/
def align : UInt32 := 1 <<< r.alignBit

/-- The header length, rounded up to the alignment. -/
def roundedHeader : UInt32 := (r.headerLen + r.align - 1) &&& ~~~(r.align - 1)

/-- The body length, rounded up to the alignment and then to a multiple of 1024. -/
def roundedBody : UInt32 :=
  let bodyLen := (r.bodyLen + r.align - 1) &&& ~~~(r.align - 1)
  (bodyLen + 1023) &&& ~~~1023

/-- The size the fresh path asks of `aligned_alloc`. -/
def total : UInt32 := r.roundedBody + r.roundedHeader

/-- The key `malloc` looks up. -/
def key : UInt32 :=
  (((r.roundedHeader + r.roundedBody) >>> r.alignBit) <<< 8) ||| (r.alignBit &&& 0xFF)

variable {r}

theorem toNat_align (h : r.alignBit < 32) : r.align.toNat = 2 ^ r.alignBit.toNat :=
  Word.toNat_one_shiftLeft h

/-- The larger of the alignment and 1024: what the body is rounded to. -/
def bodyUnit (r : MallocArgs) : ℕ := max (2 ^ r.alignBit.toNat) 1024

theorem bodyUnit_eq_two_pow : r.bodyUnit = 2 ^ max r.alignBit.toNat 10 := by
  rw [bodyUnit, show (1024 : ℕ) = 2 ^ 10 by norm_num]
  rcases Nat.le_total r.alignBit.toNat 10 with h | h
  · rw [Nat.max_eq_right h, Nat.max_eq_right (Nat.pow_le_pow_right (by omega) h)]
  · rw [Nat.max_eq_left h, Nat.max_eq_left (Nat.pow_le_pow_right (by omega) h)]

/-- The two roundings of the body are one rounding to the larger unit. -/
theorem roundUp_roundUp_bodyUnit :
    roundUp (roundUp r.bodyLen.toNat (2 ^ r.alignBit.toNat)) 1024 =
      roundUp r.bodyLen.toNat r.bodyUnit := by
  rw [bodyUnit_eq_two_pow, show (1024 : ℕ) = 2 ^ 10 by norm_num]
  rcases Nat.le_total r.alignBit.toNat 10 with hle | hle
  · rw [roundUp_roundUp_of_dvd (by norm_num) (Nat.pow_dvd_pow 2 hle), Nat.max_eq_right hle]
  · rw [roundUp_of_dvd ((Nat.pow_dvd_pow 2 hle).trans (dvd_roundUp _ _)), Nat.max_eq_left hle]

theorem toNat_roundedHeader (h : r.alignBit < 32) :
    r.roundedHeader.toNat = roundUp r.headerLen.toNat (2 ^ r.alignBit.toNat) % 2 ^ 32 :=
  Word.toNat_alignUp (UInt32.lt_iff_toNat_lt.1 h) (toNat_align h)

/-- The words of the two roundings, reduced. -/
theorem toNat_roundedBody (h : r.alignBit < 32) :
    r.roundedBody.toNat = roundUp r.bodyLen.toNat r.bodyUnit % 2 ^ 32 := by
  have hb : r.alignBit.toNat < 32 := UInt32.lt_iff_toNat_lt.1 h
  have hfirst := Word.toNat_alignUp (x := r.bodyLen) hb (toNat_align h)
  have hsecond : r.roundedBody = Word.alignUp (Word.alignUp r.bodyLen r.align) 1024 := by
    rw [Word.alignUp.eq_1 _ 1024, UInt32.sub_eq_add_neg (_ + _), UInt32.add_assoc,
      show (1024 + -1 : UInt32) = 1023 by decide, show (1024 - 1 : UInt32) = 1023 by decide]
    rfl
  rw [hsecond, Word.toNat_alignUp (k := 10) (by omega) rfl, hfirst,
    show 2 ^ 32 = 2 ^ 22 * 2 ^ 10 by norm_num,
    roundUp_mod_mul (by norm_num), show (2 : ℕ) ^ 10 = 1024 by norm_num, roundUp_roundUp_bodyUnit]

theorem toNat_total (h : r.alignBit < 32) :
    r.total.toNat = (roundUp r.bodyLen.toNat r.bodyUnit +
      roundUp r.headerLen.toNat (2 ^ r.alignBit.toNat)) % 2 ^ 32 := by
  rw [total, UInt32.toNat_add, toNat_roundedBody h, toNat_roundedHeader h, ← Nat.add_mod]

/-- The total is a multiple of the alignment, wrapped or not. -/
theorem two_pow_dvd_total (h : r.alignBit < 32) : 2 ^ r.alignBit.toNat ∣ r.total.toNat := by
  have hb : r.alignBit.toNat < 32 := UInt32.lt_iff_toNat_lt.1 h
  rw [toNat_total h, Nat.dvd_mod_iff (Nat.pow_dvd_pow 2 (by omega))]
  refine Nat.dvd_add (Nat.dvd_trans ?_ (dvd_roundUp _ _)) (dvd_roundUp _ _)
  rw [bodyUnit_eq_two_pow]
  exact Nat.pow_dvd_pow 2 (Nat.le_max_left _ _)

end MallocArgs

/-! ### The pool -/

/-- `buffer_pool`. -/
structure BufferPool where
  /-- `_limit_cache_bytes`. -/
  limitCacheBytes : UInt64
  /-- `_cache_bytes`. -/
  cacheBytes : UInt64 := 0
  /-- `_cache`, the multimap's pairs in any order. -/
  cache : List (UInt32 × ByteBufferData) := []
  deriving Repr

namespace BufferPool

/-- `byte_buffer_pool::new_inst`: the constructor's parameter is `uint32_t`, so the limit is
narrowed before it is stored as a `size_t`. -/
def newInst (limitCacheBytes : UInt64) : BufferPool :=
  { limitCacheBytes := limitCacheBytes.toUInt32.toUInt64 }

/-- `get_cached_bytes`. -/
def getCachedBytes (s : BufferPool) : UInt64 := s.cacheBytes

/-- `_cache.find(k)`: some pair stored under `k`, if there is one. `pick` chooses among several. -/
def find (s : BufferPool) (k : UInt32) (pick : ℕ) : Option (UInt32 × ByteBufferData) :=
  let found := s.cache.filter fun e ↦ e.1 = k
  found[pick % found.length]?

/-- `buffer_pool::malloc`: a cached chunk under the key if there is one, else a fresh chunk at the
address `p`. -/
def malloc (s : BufferPool) (r : MallocArgs) (pick p : ℕ) : ByteBufferImpl × BufferPool :=
  match s.find r.key pick with
  | some it =>
    (.new r.roundedHeader it.2,
      { s with
        cacheBytes := s.cacheBytes - it.2.len.toUInt64
        cache := s.cache.erase it })
  | none => (.new r.roundedHeader ⟨p, r.total, r.alignBit⟩, s)

/-- `buffer_pool::release`, with the address it passes to `free`, if it does. -/
def release (s : BufferPool) (d : ByteBufferData) : BufferPool × Option ℕ :=
  if s.cacheBytes + d.len.toUInt64 < s.limitCacheBytes then
    (s, some d.data)
  else
    ({ s with
      cacheBytes := s.cacheBytes + d.len.toUInt64
      cache := (d.key, d) :: s.cache }, none)

/-! ### What `find`, `malloc` and `release` do -/

theorem mem_of_find {s : BufferPool} {k : UInt32} {pick : ℕ} {it : UInt32 × ByteBufferData}
    (h : s.find k pick = some it) : it ∈ s.cache ∧ it.1 = k := by
  have hmem := List.mem_of_getElem? h
  rw [List.mem_filter] at hmem
  exact ⟨hmem.1, by simpa using hmem.2⟩

theorem find_eq_none_iff {s : BufferPool} {k : UInt32} {pick : ℕ} :
    s.find k pick = none ↔ ∀ e ∈ s.cache, e.1 ≠ k := by
  rw [find, List.getElem?_eq_none_iff]
  constructor
  · intro h e he hk
    have hpos : 0 < (s.cache.filter fun e ↦ e.1 = k).length :=
      List.length_pos_of_mem (List.mem_filter.2 ⟨he, by simpa using hk⟩)
    exact absurd (Nat.mod_lt pick hpos) (Nat.not_lt.2 h)
  · intro h
    have hnil : (s.cache.filter fun e ↦ e.1 = k) = [] :=
      List.filter_eq_nil_iff.2 fun e he ↦ by simpa using h e he
    rw [hnil]
    exact Nat.zero_le _

/-- Every pair stored under the key can be the one found. -/
theorem exists_find_eq {s : BufferPool} {e : UInt32 × ByteBufferData} (he : e ∈ s.cache) :
    ∃ pick, s.find e.1 pick = some e := by
  have hmem : e ∈ s.cache.filter fun e' ↦ e'.1 = e.1 := List.mem_filter.2 ⟨he, by simp⟩
  obtain ⟨i, hi, hget⟩ := List.getElem_of_mem hmem
  refine ⟨i, ?_⟩
  show (s.cache.filter fun e' ↦ e'.1 = e.1)[i % _]? = _
  rw [Nat.mod_eq_of_lt hi, List.getElem?_eq_getElem hi, hget]

/-- What `malloc` can do: the cached and the fresh path, with everything they change. -/
theorem malloc_cases (s : BufferPool) (r : MallocArgs) (pick p : ℕ) :
    (∃ it, s.find r.key pick = some it ∧
      s.malloc r pick p = (.new r.roundedHeader it.2,
        { s with
          cacheBytes := s.cacheBytes - it.2.len.toUInt64
          cache := s.cache.erase it })) ∨
    (s.find r.key pick = none ∧
      s.malloc r pick p = (.new r.roundedHeader ⟨p, r.total, r.alignBit⟩, s)) := by
  rcases h : s.find r.key pick with - | it
  · exact .inr ⟨rfl, by simp only [malloc, h]⟩
  · exact .inl ⟨it, rfl, by simp only [malloc, h]⟩

end BufferPool

/-! ### Runs of the pool -/

/-- A pool with the buffers that are alive and the logs of what it took from and gave to the
allocator. -/
structure PoolWorld where
  pool : BufferPool
  /-- The live buffers. -/
  live : List ByteBufferImpl := []
  /-- The addresses `aligned_alloc` returned. -/
  obtained : List ℕ := []
  /-- The addresses passed to `free`. -/
  freed : List ℕ := []
  deriving Repr

/-- One use of the pool. -/
inductive PoolAction
  /-- A call of `malloc`; `pick` and `p` are what `find` and `aligned_alloc` do. -/
  | malloc (r : MallocArgs) (pick p : ℕ)
  /-- The destruction of the live buffer at index `i`. -/
  | destroy (i : ℕ)
  deriving Repr

namespace PoolWorld

/-- `~byte_buffer_impl` releases the chunk to the pool. -/
def destroy (w : PoolWorld) (b : ByteBufferImpl) (i : ℕ) : PoolWorld :=
  { pool := (w.pool.release b.d).1
    live := w.live.eraseIdx i
    obtained := w.obtained
    freed := w.freed ++ (w.pool.release b.d).2.toList }

/-- One step; a `malloc` is enabled for the alignments a shift by `align_bit` is defined for. -/
def step (w : PoolWorld) : PoolAction → Option PoolWorld
  | .malloc r pick p =>
    if r.alignBit < 32 then
      some
        { pool := (w.pool.malloc r pick p).2
          live := (w.pool.malloc r pick p).1 :: w.live
          obtained := if w.pool.find r.key pick = none then w.obtained ++ [p] else w.obtained
          freed := w.freed }
    else none
  | .destroy i => (w.live[i]?).map fun b ↦ w.destroy b i

end PoolWorld

/-- The runs of a pool made by `new_inst`. -/
def BufferPool.machine (limitCacheBytes : UInt64) : Machine PoolWorld PoolAction where
  init := { pool := .newInst limitCacheBytes }
  step := PoolWorld.step

/-- What a step of the pool can do. -/
theorem PoolWorld.step_cases {w t : PoolWorld} {a : PoolAction} (h : w.step a = some t) :
    (∃ r pick p, a = .malloc r pick p ∧ r.alignBit < 32 ∧
      t.pool = (w.pool.malloc r pick p).2 ∧ t.live = (w.pool.malloc r pick p).1 :: w.live) ∨
    (∃ i b, a = .destroy i ∧ w.live[i]? = some b ∧ t = w.destroy b i) := by
  cases a with
  | malloc r pick p =>
    by_cases hr : r.alignBit < 32
    · rw [step, if_pos hr] at h
      obtain rfl := Option.some.inj h
      exact .inl ⟨r, pick, p, rfl, hr, rfl, rfl⟩
    · rw [step, if_neg hr] at h
      exact absurd h (by simp)
  | destroy i =>
    obtain ⟨b, hb, rfl⟩ := Option.map_eq_some_iff.1 h
    exact .inr ⟨i, b, rfl, hb, rfl⟩

end Nsio
