import Nsio.Coio.HostileHeader

/-!
# The contract of `malloc` on the fresh path, and two of its callers

When nothing cached fits, `buffer_pool::malloc` takes a chunk from `aligned_alloc`. Its lengths are
rounded by masks on 32-bit words, and the header part is then kept in 16 bits by
`byte_buffer_impl`. `malloc_fresh_contract` says what the buffer promises as long as the exactly
rounded lengths fit those widths, for every alignment.

The two callers do not keep to that:

* `recv_request` passes on the alignment a frame asks for. The rounded header is then at least one
  unit, and from an alignment of `2 ^ 16` on it has no bits below the sixteenth
  (`payload_aligned_iff`);
* `aio_read` passes on a `size_t` to 32-bit parameters, and the same `size_t` to the kernel
  (`aioRead_within_iff`).
-/

namespace Nsio

/-! ### The contract -/

namespace MallocArgs

variable (r : MallocArgs)

/-- The header part, rounded without wrapping. -/
def exactHeader : ℕ := roundUp r.headerLen.toNat (2 ^ r.alignBit.toNat)

/-- The body part, rounded to the alignment and then to 1024, without wrapping. -/
def exactBody : ℕ := roundUp (roundUp r.bodyLen.toNat (2 ^ r.alignBit.toNat)) 1024

/-- The length of the chunk, without wrapping. -/
def exactTotal : ℕ := r.exactBody + r.exactHeader

/-- What a caller of `malloc` may rely on. -/
structure KeepsContract (b : ByteBufferImpl) : Prop where
  header_le : r.headerLen.toNat ≤ b.bodyOff.toNat
  dvd_bodyOff : 2 ^ r.alignBit.toNat ∣ b.bodyOff.toNat
  /-- `capacity()` is the size given to `aligned_alloc`. -/
  dvd_capacity : 2 ^ r.alignBit.toNat ∣ b.capacity.toNat
  dvd_body : 2 ^ r.alignBit.toNat ∣ b.base → 2 ^ r.alignBit.toNat ∣ b.body
  bodyOff_le : b.bodyOff.toNat ≤ b.capacity.toNat
  body_le : r.bodyLen.toNat ≤ b.capacity.toNat - b.bodyOff.toNat
  dvd_room : 1024 ∣ b.capacity.toNat - b.bodyOff.toNat
  waste_lt : b.capacity.toNat <
    r.headerLen.toNat + r.bodyLen.toNat + (2 * 2 ^ r.alignBit.toNat + 1024)

variable {r}

theorem exactBody_eq : r.exactBody = roundUp r.bodyLen.toNat r.bodyUnit := roundUp_roundUp_bodyUnit

theorem bodyLen_le_exactBody : r.bodyLen.toNat ≤ r.exactBody :=
  (le_roundUp (Nat.two_pow_pos _)).trans (le_roundUp (by norm_num))

theorem toNat_total_of_lt (hbit : r.alignBit < 32) (ht : r.exactTotal < 2 ^ 32) :
    r.total.toNat = r.exactTotal := by
  rw [toNat_total hbit, ← exactBody_eq]
  exact Nat.mod_eq_of_lt ht

theorem toNat_roundedHeader_of_lt (hbit : r.alignBit < 32) (ht : r.exactTotal < 2 ^ 32) :
    r.roundedHeader.toNat = r.exactHeader := by
  rw [toNat_roundedHeader hbit]
  exact Nat.mod_eq_of_lt ((Nat.le_add_left _ _).trans_lt ht)

/-- The offset of the body keeps 16 bits of the rounded header. -/
theorem toNat_bodyOff_new {d : ByteBufferData} (hbit : r.alignBit < 32)
    (ht : r.exactTotal < 2 ^ 32) :
    (ByteBufferImpl.new r.roundedHeader d).bodyOff.toNat = r.exactHeader % 2 ^ 16 := by
  show (UInt16.toUInt32 (UInt32.toUInt16 _)).toNat = _
  rw [UInt16.toNat_toUInt32, UInt32.toNat_toUInt16, toNat_roundedHeader_of_lt hbit ht]

/-- A chunk of the exact length, with the exact header. -/
theorem keepsContract_of_eq {b : ByteBufferImpl} (hcap : b.capacity.toNat = r.exactTotal)
    (hoff : b.bodyOff.toNat = r.exactHeader) : r.KeepsContract b := by
  have hpos : 0 < 2 ^ r.alignBit.toNat := Nat.two_pow_pos _
  have hheader : 2 ^ r.alignBit.toNat ∣ r.exactHeader := dvd_roundUp _ _
  have hbody : 2 ^ r.alignBit.toNat ∣ r.exactBody := by
    refine Nat.dvd_trans ?_ (exactBody_eq ▸ dvd_roundUp _ _)
    rw [bodyUnit_eq_two_pow]
    exact Nat.pow_dvd_pow 2 (Nat.le_max_left _ _)
  have hroom : b.capacity.toNat - b.bodyOff.toNat = r.exactBody := by
    rw [hcap, hoff, exactTotal, Nat.add_sub_cancel_right]
  have hbase : b.body = b.base + b.bodyOff.toNat := by
    rw [ByteBufferImpl.bodyOff, UInt16.toNat_toUInt32]
    rfl
  refine ⟨hoff ▸ le_roundUp hpos, hoff ▸ hheader, ?_, fun hb ↦ ?_, ?_,
    hroom ▸ bodyLen_le_exactBody, hroom ▸ dvd_roundUp _ _, ?_⟩
  · rw [hcap]
    exact Nat.dvd_add hbody hheader
  · rw [hbase, hoff]
    exact Nat.dvd_add hb hheader
  · rw [hcap, hoff]
    exact Nat.le_add_left _ _
  -- two alignments of slack for header and body, and 1024 bytes for the second rounding
  · have h₁ : r.exactHeader < r.headerLen.toNat + 2 ^ r.alignBit.toNat := roundUp_lt hpos
    have h₂ : roundUp r.bodyLen.toNat (2 ^ r.alignBit.toNat) <
      r.bodyLen.toNat + 2 ^ r.alignBit.toNat := roundUp_lt hpos
    have h₃ : r.exactBody < _ + 1024 := roundUp_lt (by norm_num)
    rw [hcap, exactTotal]
    omega

end MallocArgs

theorem BufferPool.malloc_of_find_eq_none {s : BufferPool} {r : MallocArgs} {pick : ℕ} (p : ℕ)
    (h : s.find r.key pick = none) :
    (s.malloc r pick p).1 = .new r.roundedHeader ⟨p, r.total, r.alignBit⟩ := by
  rw [BufferPool.malloc, h]

/-- **The fresh path keeps the contract**, for every alignment and all lengths whose exact roundings
fit the widths they are kept in. -/
theorem malloc_fresh_contract (s : BufferPool) (r : MallocArgs) (pick p : ℕ)
    (hbit : r.alignBit.toNat ≤ 31) (hfresh : s.find r.key pick = none)
    (hheader : r.exactHeader < 2 ^ 16) (htotal : r.exactTotal < 2 ^ 32) :
    r.KeepsContract (s.malloc r pick p).1 := by
  have hlt : r.alignBit < 32 := UInt32.lt_iff_toNat_lt.2 (Nat.lt_succ_of_le hbit)
  rw [BufferPool.malloc_of_find_eq_none p hfresh]
  refine MallocArgs.keepsContract_of_eq (MallocArgs.toNat_total_of_lt hlt htotal) ?_
  rw [MallocArgs.toNat_bodyOff_new hlt htotal, Nat.mod_eq_of_lt hheader]

/-- A header of six bytes and a body of a thousand, at the alignment of a disk block. -/
theorem malloc_fresh_contract_block :
    (⟨1000, 12, 6⟩ : MallocArgs).KeepsContract
      ((BufferPool.newInst 0).malloc ⟨1000, 12, 6⟩ 0 8192).1 :=
  malloc_fresh_contract (BufferPool.newInst 0) ⟨1000, 12, 6⟩ 0 8192 (by decide) (by decide)
    (by decide) (by decide)

/-! ### The payload of a frame -/

/-- `malloc` of a pool in any state. -/
def poolMalloc (s : BufferPool) (pick p : ℕ) (bytes : ℕ → UInt8) : Malloc :=
  fun r ↦ ⟨(s.malloc r pick p).1, bytes⟩

namespace Header

/-- The payload of the frame is where the header asks for it, and the frame fits. -/
structure Placed (h : Header) (b : ByteBufferImpl) : Prop where
  data_add : b.data + h.alignOff.toNat = b.body
  dvd_body : 2 ^ h.alignBit.toNat ∣ b.body
  base_le : b.base ≤ b.data
  data_add_le : b.data + (h.len.toNat + 4) ≤ b.base + b.capacity.toNat

variable {h : Header}

theorem exactHeader_args (hoff : h.alignOff ≠ 0) :
    h.args.exactHeader = roundUp h.alignOff.toNat (2 ^ h.alignBit.toNat) := by
  rw [MallocArgs.exactHeader, args, if_neg hoff]
  rfl

theorem toNat_wireLen_of_le (hmax : h.len.toNat + 4 ≤ 2 ^ 31 - 1) :
    h.wireLen.toNat = h.len.toNat + 4 := by
  rw [wireLen, UInt32.toNat_add, show UInt32.toNat 4 = 4 from rfl]
  exact Nat.mod_eq_of_lt (by omega)

/-- The body part holds the frame from `align_off` on. -/
theorem len_le_exactBody_args (hle : h.alignOff.toNat ≤ h.len.toNat + 4)
    (hmax : h.len.toNat + 4 ≤ 2 ^ 31 - 1) :
    h.len.toNat + 4 ≤ h.args.exactBody + h.alignOff.toNat := by
  have hbody := MallocArgs.bodyLen_le_exactBody (r := h.args)
  rw [toNat_args_bodyLen, toNat_wireLen_of_le hmax] at hbody
  omega

/-- The addresses of the request buffer, with the 16 bits that are kept of each offset. -/
theorem request_fresh {s : BufferPool} {pick : ℕ} (p : ℕ) (bytes : ℕ → UInt8)
    (hbit : h.args.alignBit < 32) (htotal : h.args.exactTotal < 2 ^ 32)
    (hfresh : s.find h.args.key pick = none) {b : ByteBufferImpl}
    (hb : (h.request (poolMalloc s pick p bytes)).buffer = b) :
    b.base = p ∧ b.body = p + h.args.exactHeader % 2 ^ 16 ∧
      b.data = p + (2 ^ 16 - h.alignOff.toNat + h.args.exactHeader % 2 ^ 16) % 2 ^ 16 ∧
      b.capacity.toNat = h.args.exactTotal := by
  rw [request_buffer (BufferPool.malloc_of_find_eq_none p hfresh)] at hb
  subst hb
  have hoff := h.alignOff.toNat_lt
  have hheader : h.args.roundedHeader.toUInt16.toNat = h.args.exactHeader % 2 ^ 16 := by
    rw [UInt32.toNat_toUInt16, MallocArgs.toNat_roundedHeader_of_lt hbit htotal]
  refine ⟨rfl, ?_, ?_, MallocArgs.toNat_total_of_lt hbit htotal⟩
  · show p + h.args.roundedHeader.toUInt16.toNat = _
    rw [hheader]
  · show p + (UInt32.toUInt16 _).toNat = _
    rw [UInt32.toNat_toUInt16, UInt32.toNat_sub, UInt16.toNat_toUInt32, hheader,
      UInt8.toNat_toUInt32]
    omega

/-- An alignment below `2 ^ 16` leaves the rounded header in 16 bits: an `align_off` is a byte. -/
theorem exactHeader_args_lt (hoff : h.alignOff ≠ 0) (hbit : h.alignBit.toNat ≤ 15) :
    h.args.exactHeader < 2 ^ 16 := by
  have hpow : 2 ^ h.alignBit.toNat ≤ 2 ^ 15 := Nat.pow_le_pow_right (by omega) hbit
  have hlt := roundUp_lt (n := h.alignOff.toNat) (Nat.two_pow_pos h.alignBit.toNat)
  have hbyte := h.alignOff.toNat_lt
  rw [exactHeader_args hoff]
  omega

end Header

/-- **The payload of a frame is where its header asks for it exactly for the alignments below
`2 ^ 16`.** From there on nothing is left of the rounded header in the 16 bits it is kept in. -/
theorem payload_aligned_iff (h : Header) (s : BufferPool) (pick p : ℕ) (bytes : ℕ → UInt8)
    (hoff : h.alignOff ≠ 0) (hbit : h.alignBit.toNat ≤ 31)
    (hle : h.alignOff.toNat ≤ h.len.toNat + 4) (hmax : h.len.toNat + 4 ≤ 2 ^ 31 - 1)
    (htotal : h.args.exactTotal < 2 ^ 32) (hfresh : s.find h.args.key pick = none)
    (halign : 2 ^ h.alignBit.toNat ∣ p) :
    h.Placed (h.request (poolMalloc s pick p bytes)).buffer ↔ h.alignBit.toNat ≤ 15 := by
  obtain ⟨hbase, hbody, hdata, hcap⟩ := Header.request_fresh p bytes
    (Header.args_alignBit_lt (Nat.lt_succ_of_le hbit)) htotal hfresh rfl
  set b := (h.request (poolMalloc s pick p bytes)).buffer
  have hbyte := h.alignOff.toNat_lt
  have hpos : 0 < h.alignOff.toNat := Nat.pos_of_ne_zero fun hz ↦ hoff (UInt8.toNat_inj.1 hz)
  constructor
  · intro hb
    by_contra hlarge
    -- the rounded header is a multiple of `2 ^ 16`, and its low 16 bits are 0
    have hdvd : 2 ^ 16 ∣ h.args.exactHeader := by
      rw [Header.exactHeader_args hoff]
      exact (Nat.pow_dvd_pow 2 (by omega)).trans (dvd_roundUp _ _)
    have hadd := hb.data_add
    rw [hdata, hbody, Nat.mod_eq_zero_of_dvd hdvd] at hadd
    omega
  · intro hsmall
    have hheader : h.alignOff.toNat ≤ h.args.exactHeader := by
      rw [Header.exactHeader_args hoff]
      exact le_roundUp (Nat.two_pow_pos _)
    have hlt := Header.exactHeader_args_lt hoff hsmall
    rw [Nat.mod_eq_of_lt hlt] at hbody hdata
    have hdata' : b.data = p + (h.args.exactHeader - h.alignOff.toNat) := by omega
    refine ⟨by omega, ?_, by omega, ?_⟩
    · rw [hbody, Header.exactHeader_args hoff]
      exact Nat.dvd_add halign (dvd_roundUp _ _)
    · have hroom := Header.len_le_exactBody_args hle hmax
      rw [hdata', hbase, hcap, MallocArgs.exactTotal]
      omega

/-- A frame with ten bytes of content, four of them before a payload at a multiple of 4096. -/
theorem payload_aligned_block :
    (⟨10, 8, 12⟩ : Header).Placed
      ((⟨10, 8, 12⟩ : Header).request (poolMalloc (.newInst 0) 0 8192 fun _ ↦ 0)).buffer :=
  (payload_aligned_iff ⟨10, 8, 12⟩ (.newInst 0) 0 8192 (fun _ ↦ 0) (by decide) (by decide)
    (by decide) (by decide) (by decide) (by decide) (by decide)).2 (by decide)

/-- The same frame with a payload at a multiple of `2 ^ 16`: `body()` is `base()`, and `data()`
follows it. -/
theorem payload_displaced :
    2 ^ 16 ∣ 65536 ∧ (⟨10, 8, 16⟩ : Header).args.exactTotal < 2 ^ 32 ∧
      (BufferPool.newInst 0).find (⟨10, 8, 16⟩ : Header).args.key 0 = none ∧
      ∃ b, ((⟨10, 8, 16⟩ : Header).request (poolMalloc (.newInst 0) 0 65536 fun _ ↦ 0)).buffer = b ∧
        b.body = 65536 ∧ b.data + 8 = 2 * 65536 ∧ ¬ (⟨10, 8, 16⟩ : Header).Placed b :=
  ⟨by decide, by decide, by decide, _, rfl, by decide, by decide,
    fun hb ↦ absurd hb.data_add (by decide)⟩

/-! ### Disk reads -/

/-- `aio_lio_opcode`. -/
inductive IocbCmd
  | pread
  | pwrite
  deriving DecidableEq, Repr

/-- The request block that is submitted. `aio_flags` is `IOCB_FLAG_RESFD` in all of them. -/
structure Iocb where
  /-- `aio_data`: the callback. -/
  data : ℕ
  lioOpcode : IocbCmd
  fildes : Int
  offset : UInt64
  /-- `aio_buf`, an address. -/
  buf : ℕ
  nbytes : UInt64
  resfd : Int
  deriving DecidableEq, Repr

/-- `set_iocb`. -/
def setIocb (fd : Int) (isWrite : Bool) (off : UInt64) (buff : ℕ) (len : UInt64) (efd : Int)
    (icb : ℕ) : Iocb :=
  { data := icb
    lioOpcode := if isWrite then .pwrite else .pread
    fildes := fd
    offset := off
    buf := buff
    nbytes := len
    resfd := efd }

namespace IoAio

variable (efd fd : Int) (offset : UInt64) (icb : ℕ)

/-- `io_aio_impl::aio_read`, up to `submit`: the buffer, and the block for it. `set_data_len` has a
32-bit parameter. -/
def aioRead (count : UInt64) (buff : ByteBufferImpl) : ByteBufferImpl × Iocb :=
  let buff := (buff.setDataBegin 0).setDataLen count.toUInt32
  (buff, setIocb fd false offset buff.data count efd icb)

/-- `io_aio_impl::aio_write`, up to `submit`. -/
def aioWrite (buff : ByteBufferImpl) : Iocb :=
  setIocb fd true offset buff.data buff.dataLen.toUInt64 efd icb

end IoAio

/-- `io_context::aio_read`: the buffer it allocates, and the block that is submitted. The parameters
of `malloc` have 32 bits. -/
def BufferPool.aioRead (s : BufferPool) (pick p : ℕ) (efd fd : Int) (offset count : UInt64)
    (icb : ℕ) : ByteBufferImpl × Iocb :=
  IoAio.aioRead efd fd offset icb count (s.malloc ⟨count.toUInt32, 12, 0⟩ pick p).1

/-- The block stays inside the buffer, and the buffer knows its length. -/
structure Iocb.Within (q : Iocb) (b : ByteBufferImpl) : Prop where
  nbytes_le : q.nbytes.toNat ≤ b.capacity.toNat
  buf_eq : q.buf = b.base
  dataLen_eq : b.dataLen.toNat = q.nbytes.toNat

/-- Nothing is cached, so every search fails. -/
theorem BufferPool.find_of_cache_eq_nil {s : BufferPool} (h : s.cache = []) (k : UInt32)
    (pick : ℕ) : s.find k pick = none := by
  rw [BufferPool.find_eq_none_iff, h]
  exact fun _ he ↦ absurd he List.not_mem_nil

/-- The chunk for a disk read: whole blocks of 4096 bytes, in a word. -/
theorem toNat_total_block (len : UInt32) :
    (⟨len, 12, 0⟩ : MallocArgs).total.toNat = roundUp len.toNat 4096 % 2 ^ 32 := by
  rw [MallocArgs.toNat_total (show (12 : UInt32) < 32 by decide), MallocArgs.bodyUnit]
  show (roundUp len.toNat (max (2 ^ 12) 1024) + roundUp 0 (2 ^ 12)) % 2 ^ 32 = _
  rw [roundUp_zero, Nat.add_zero]
  rfl

/-- **A disk read stays inside its buffer exactly for the counts whose whole blocks fit a word.** -/
theorem aioRead_within_iff (s : BufferPool) (hempty : s.cache = []) (pick p : ℕ) (efd fd : Int)
    (offset count : UInt64) (icb : ℕ) :
    (s.aioRead pick p efd fd offset count icb).2.Within
        (s.aioRead pick p efd fd offset count icb).1 ↔
      count.toNat ≤ 2 ^ 32 - 4096 := by
  set r := s.aioRead pick p efd fd offset count icb with hr
  have hfresh := BufferPool.malloc_of_find_eq_none p
    (BufferPool.find_of_cache_eq_nil hempty (MallocArgs.key ⟨count.toUInt32, 12, 0⟩) pick)
  have hcap : r.1.capacity.toNat = roundUp (count.toNat % 2 ^ 32) 4096 % 2 ^ 32 := by
    rw [hr, BufferPool.aioRead, hfresh, ← UInt64.toNat_toUInt32, ← toNat_total_block]
    rfl
  have hnbytes : r.2.nbytes = count := rfl
  have hlen : r.1.dataLen.toNat = count.toNat % 2 ^ 32 := UInt64.toNat_toUInt32 count
  constructor
  · intro hw
    have hle := hw.nbytes_le
    have heq := hw.dataLen_eq
    rw [hcap, hnbytes] at hle
    rw [hlen, hnbytes] at heq
    rw [heq] at hle
    -- a count that is a word and above the last block rounds up to `2 ^ 32`, which is kept as 0
    have htop := roundUp_near_top (n := count.toNat) (m := 4096) (w := 2 ^ 32) (by norm_num)
      (by norm_num) (by omega)
    omega
  · intro hle
    have hround : roundUp count.toNat 4096 ≤ 2 ^ 32 - 4096 :=
      (roundUp_le_iff (by norm_num) (by norm_num)).2 hle
    refine ⟨?_, rfl, ?_⟩
    · rw [hcap, hnbytes, Nat.mod_eq_of_lt (a := count.toNat) (by omega),
        Nat.mod_eq_of_lt (by omega)]
      exact le_roundUp (by norm_num)
    · rw [hlen, hnbytes]
      exact Nat.mod_eq_of_lt (by omega)

/-- A read of five thousand bytes. -/
theorem aioRead_within_blocks :
    ((BufferPool.newInst 0).aioRead 0 8192 3 4 0 5000 1).2.Within
      ((BufferPool.newInst 0).aioRead 0 8192 3 4 0 5000 1).1 :=
  (aioRead_within_iff (.newInst 0) rfl 0 8192 3 4 0 5000 1).2 (by decide)

/-- A read of `2 ^ 32` bytes asks the kernel for all of them, with a chunk of length 0; and so does
one of `2 ^ 32 - 1` bytes, whose rounding wraps. -/
theorem aioRead_overruns :
    (∃ b q, (BufferPool.newInst 0).aioRead 0 8192 3 4 0 4294967296 1 = (b, q) ∧
      b.capacity = 0 ∧ b.dataLen = 0 ∧ q.nbytes.toNat = 2 ^ 32 ∧ ¬ q.Within b) ∧
    ∃ b q, (BufferPool.newInst 0).aioRead 0 8192 3 4 0 4294967295 1 = (b, q) ∧
      b.capacity = 0 ∧ q.nbytes.toNat = 2 ^ 32 - 1 ∧ ¬ q.Within b :=
  ⟨⟨_, _, rfl, by decide, by decide, by decide, fun h ↦ absurd h.nbytes_le (by decide)⟩,
    _, _, rfl, by decide, by decide, fun h ↦ absurd h.nbytes_le (by decide)⟩

/-- What was read is written back from the same place and in the same length, as long as the length
is one of 32 bits. -/
theorem aioWrite_aioRead (efd fd : Int) (offset count : UInt64) (icb : ℕ) (b : ByteBufferImpl)
    (h : count.toNat < 2 ^ 32) :
    IoAio.aioWrite efd fd offset icb (IoAio.aioRead efd fd offset icb count b).1 =
      { (IoAio.aioRead efd fd offset icb count b).2 with lioOpcode := .pwrite } := by
  have hcount : count.toUInt32.toUInt64 = count := by
    rw [← UInt64.toNat_inj, UInt32.toNat_toUInt64, UInt64.toNat_toUInt32]
    exact Nat.mod_eq_of_lt h
  show setIocb fd true offset _ count.toUInt32.toUInt64 efd icb = _
  rw [hcount]
  rfl

end Nsio
