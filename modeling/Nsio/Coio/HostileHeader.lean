import Nsio.Coio.RecvRequest

/-!
# Where `recv_request` stores, for every header

A header comes from the network, and `recv_request` checks nothing about it: `_cmd_len + 4` and
`_cmd_len + 4 - align_off` wrap, the sizes of `malloc` wrap once more when they are rounded and
added, and `body_off()` and the data position are kept in 16 bits.

The development goes in two steps. `await_stores` says which ranges are stored to at all, whatever
`::recv` does: the 6-byte copy of the header, and calls that end where the data region ends. So the
stores are inside the chunk exactly when the **placement** of the region is (`storesInside_iff`).
What is left is arithmetic: `request_emptyPool` gives the placement for a pool with nothing cached,
and `roomy_iff_not_overruns` says for which headers it is too large for the chunk.
-/

namespace Nsio

open RecvRequest

/-! ### The stores of an await -/

namespace Header

/-- The position of the data region from `base()`, as `set_data_offset` stored it. -/
def dataBegin (malloc : Malloc) (h : Header) : ℕ :=
  (h.request malloc).buffer.dataBegin.toNat

/-- The bound of the second loop: `_cmd_len + 4` as the `int` it is, or nothing when negative. -/
def bodyEnd (h : Header) : ℕ := (h.len.toInt32 + 4).toInt.toNat

/-- The copy of the header, or a call of the second loop. -/
def IsStore (malloc : Malloc) (h : Header) (s : ℕ × ℕ) : Prop :=
  s = (h.dataBegin malloc, 6) ∨
    ∃ g, 6 ≤ g ∧ g < h.bodyEnd ∧ s = (h.dataBegin malloc + g, h.bodyEnd - g)

theorem length_bytes (h : Header) : h.bytes.length = 6 := rfl

end Header

/-- A reader of a stream that begins with the header: nothing is stored through `data()` before the
header is complete, and then only what `IsStore` allows. -/
structure Storing (malloc : Malloc) (h : Header) (tail : List UInt8) (q : RecvRequest)
    (stream : List UInt8) : Prop where
  inBuf : q.recvedBytes < 6 → q.stores = [] ∧ stream = h.bytes.drop q.recvedBytes ++ tail ∧
    ∃ m : Region, m.cap = 8 ∧ q.buf = m.write 0 (h.bytes.take q.recvedBytes)
  inRequest : 6 ≤ q.recvedBytes → q.request = some (h.request malloc).buffer ∧
    q.cmdLen = h.len.toInt32 + 4 ∧ ∀ s ∈ q.stores, h.IsStore malloc s

section Storing

variable {malloc : Malloc} {h : Header} {tail : List UInt8} {q : RecvRequest} {stream : List UInt8}

theorem storing_init (malloc : Malloc) (h : Header) (tail : List UInt8) :
    Storing malloc h tail {} (h.bytes ++ tail) where
  inBuf := fun _ ↦ ⟨rfl, rfl, ⟨8, fun _ ↦ 0⟩, rfl, by simp⟩
  inRequest := fun hle ↦ absurd hle (by decide)

/-- The second loop adds calls that end where the data region ends. -/
theorem recvBody_storing (hq : Storing malloc h tail q stream) (hsix : 6 ≤ q.recvedBytes)
    (rs : List Reply) :
    Storing malloc h tail (q.recvBody stream rs).2.1 (q.recvBody stream rs).2.2.1 := by
  obtain ⟨hreq, hcmd, hstores⟩ := hq.inRequest hsix
  have hoff : q.dataBegin = h.dataBegin malloc := by rw [RecvRequest.dataBegin, hreq]; rfl
  obtain ⟨e, t, rest, hfill, hspec⟩ := exists_fill_eq q.dataBegin q.cmdLen.toInt.toNat rs
    ⟨q.recvedBytes, q.chunk, stream, q.stores⟩
  obtain ⟨k, hk⟩ := hspec.filled
  have hgot : t.got = q.recvedBytes + k := hk.got_eq
  obtain ⟨new, hnew, hcalls⟩ := hk.calls_eq
  have hcallsOk : ∀ s ∈ t.calls, h.IsStore malloc s := by
    intro s hs
    rw [hnew] at hs
    rcases List.mem_append.1 hs with hs | hs
    · exact hstores s hs
    · obtain ⟨g, hg, hlt, rfl⟩ := hcalls s hs
      rw [hoff, hcmd]
      rw [hcmd] at hlt
      exact .inr ⟨g, hsix.trans hg, hlt, rfl⟩
  rw [recvBody, hfill]
  refine ⟨fun hlt ↦ ?_, fun _ ↦ ?_⟩
  · exfalso
    cases e <;> exact absurd (show t.got < 6 from hlt) (by omega)
  · cases e <;> exact ⟨hreq, hcmd, hcallsOk⟩

/-- Between the loops the header is copied to the data position. -/
theorem onHeader_storing {m : Region} (hm : m.cap = 8) (hbuf : q.buf = m.write 0 h.bytes)
    (hrecved : q.recvedBytes = 6) (hstores : q.stores = []) (stream : List UInt8) :
    Storing malloc h tail (q.onHeader malloc) stream := by
  have hread : q.buf.read 0 6 = h.bytes := by
    rw [hbuf]
    exact Region.read_write h.length_bytes (by omega)
  have hheader : q.header = h := header_eq hread
  have hrecved' : (q.onHeader malloc).recvedBytes = 6 := by rw [onHeader, hrecved]
  have hstores' : (q.onHeader malloc).stores = [(h.dataBegin malloc, 6)] := by
    rw [onHeader, hheader, hstores, List.nil_append, Header.dataBegin]
  refine ⟨fun hlt ↦ ?_, fun _ ↦ ⟨?_, ?_, fun s hs ↦ .inl ?_⟩⟩
  · rw [hrecved'] at hlt
    exact absurd hlt (Nat.lt_irrefl 6)
  · rw [onHeader, hheader]
  · rw [onHeader, hheader]
  · rw [hstores'] at hs
    exact List.mem_singleton.1 hs

/-- **One dispatch**, whatever `::recv` does and whichever loop the reader is in. -/
theorem onFileEvent_storing (hq : Storing malloc h tail q stream) (event : Int) (rs : List Reply) :
    Storing malloc h tail (q.onFileEvent malloc stream event rs).2.1
      (q.onFileEvent malloc stream event rs).2.2.1 := by
  rw [onFileEvent]
  split
  · exact hq
  by_cases hlt : q.recvedBytes < 6
  · obtain ⟨hstores, hstream, m, hm, hbuf⟩ := hq.inBuf hlt
    obtain ⟨e, t, rest, hfill, hspec⟩ := exists_fill_eq 0 6 rs ⟨q.recvedBytes, q.buf, stream, []⟩
    obtain ⟨k, hk⟩ := hspec.filled
    have hle : t.got ≤ 6 := by
      have : t.got ≤ max q.recvedBytes 6 := hspec.got_le
      omega
    obtain ⟨hstream', hmem⟩ := hk.of_message hstream hbuf (by rw [h.length_bytes]; exact hle)
    have hfull : e = .full ↔ 6 ≤ t.got := hspec.full_iff
    rw [if_pos hlt, hfill]
    by_cases he : e = .full
    · subst he
      have hgot : t.got = 6 := le_antisymm hle (hfull.1 rfl)
      have hbytes : h.bytes.take t.got = h.bytes := by rw [hgot]; rfl
      rw [hbytes] at hmem
      set q' : RecvRequest := { q with recvedBytes := t.got, buf := t.mem } with hq'
      have hsix : 6 ≤ (q'.onHeader malloc).recvedBytes := by rw [onHeader, hq', hgot]
      exact recvBody_storing (onHeader_storing (q := q') hm hmem hgot hstores t.stream) hsix rest
    -- the header is still incomplete, however the loop was left
    · have hinBuf : t.got < 6 := Nat.not_le.1 fun hge ↦ he (hfull.2 hge)
      refine ⟨fun _ ↦ ?_, fun hge ↦ ?_⟩
      · cases e <;> first | exact absurd rfl he | exact ⟨hstores, hstream', m, hm, hmem⟩
      · exfalso
        cases e <;> first | exact absurd rfl he | exact absurd hinBuf (Nat.not_lt.2 hge)
  · rw [if_neg hlt]
    exact recvBody_storing hq (Nat.not_lt.1 hlt) rs

/-- Any number of dispatches. -/
theorem dispatch_storing (n : ℕ) {rs : List Reply} (hq : Storing malloc h tail q stream) :
    Storing malloc h tail (RecvRequest.dispatch malloc n q stream rs).2.1
      (RecvRequest.dispatch malloc n q stream rs).2.2.1 := by
  induction n generalizing q stream rs with
  | zero => exact hq
  | succ n ih =>
    have hstep := onFileEvent_storing hq emRead rs
    rcases hout : q.onFileEvent malloc stream emRead rs with ⟨e, q', stream', rest⟩
    rw [hout] at hstep
    rw [RecvRequest.dispatch, hout]
    cases e with
    | rearmed => exact ih hstep
    | resumed | starved => exact hstep

end Storing

/-- **The stores of an await** on a stream that begins with a header. -/
theorem await_stores (malloc : Malloc) (h : Header) (tail : List UInt8) (rs : List Reply)
    {s : ℕ × ℕ} (hs : s ∈ (await malloc (h.bytes ++ tail) rs).2.1.stores) :
    (await malloc (h.bytes ++ tail) rs).2.1.request = some (h.request malloc).buffer ∧
      h.IsStore malloc s := by
  have hend : Storing malloc h tail (await malloc (h.bytes ++ tail) rs).2.1 _ :=
    dispatch_storing _ (storing_init malloc h tail)
  rcases Nat.lt_or_ge (await malloc (h.bytes ++ tail) rs).2.1.recvedBytes 6 with hlt | hge
  · rw [(hend.inBuf hlt).1] at hs
    exact absurd hs (List.not_mem_nil)
  · obtain ⟨hreq, -, hstores⟩ := hend.inRequest hge
    exact ⟨hreq, hstores s hs⟩

/-! ### The placement decides -/

/-- The data region is inside the chunk as far as it is stored to. -/
def Header.Roomy (malloc : Malloc) (h : Header) : Prop :=
  h.dataBegin malloc + 6 ≤ (h.request malloc).buffer.capacity.toNat ∧
    (6 < h.bodyEnd → h.dataBegin malloc + h.bodyEnd ≤ (h.request malloc).buffer.capacity.toNat)

/-- The whole header in one call, then the end of the stream. -/
theorem fill_header (h : Header) (m : Region) (tail : List UInt8) :
    fill 0 6 [.chunk 5, .closed] ⟨0, m, h.bytes ++ tail, []⟩ =
      (.full, ⟨6, m.write 0 h.bytes, tail, [(0, 6)]⟩, [.closed]) := by
  have htake : (h.bytes ++ tail).take 6 = h.bytes := rfl
  have hdrop : (h.bytes ++ tail).drop 6 = tail := rfl
  have hreceive : receive (h.bytes ++ tail) (6 - 0) (.chunk 5) = .bytes h.bytes := by
    rw [receive, if_neg (by simp [Header.bytes, be32])]
    exact congrArg _ htake
  rw [fill, if_pos (Nat.zero_lt_succ 5), hreceive]
  simp [fill, Fill.call, Fill.take, h.length_bytes, hdrop]

/-- An await that gets the header and then the end of the stream makes both kinds of store. -/
theorem await_probe (malloc : Malloc) (h : Header) :
    ∃ q, (await malloc (h.bytes ++ []) [.chunk 5, .closed]).2.1 = q ∧
      q.request = some (h.request malloc).buffer ∧ (h.dataBegin malloc, 6) ∈ q.stores ∧
      (6 < h.bodyEnd → (h.dataBegin malloc + 6, h.bodyEnd - 6) ∈ q.stores) := by
  set q₀ : RecvRequest :=
    { recvedBytes := 6, buf := (⟨8, fun _ ↦ 0⟩ : Region).write 0 h.bytes } with hq₀
  have hheader : q₀.header = h := header_eq (Region.read_write h.length_bytes (by decide))
  have hrequest : (q₀.onHeader malloc).request = some (h.request malloc).buffer := by
    rw [onHeader, hheader]
  have hstores : (q₀.onHeader malloc).stores = [(h.dataBegin malloc, 6)] := by
    rw [onHeader, hheader]
    rfl
  have hend : (q₀.onHeader malloc).cmdLen.toInt.toNat = h.bodyEnd := by
    rw [onHeader, hheader, Header.bodyEnd]
  have hoff : (q₀.onHeader malloc).dataBegin = h.dataBegin malloc := by
    rw [RecvRequest.dataBegin, hrequest]
    rfl
  have hrecved : (q₀.onHeader malloc).recvedBytes = 6 := by rw [onHeader]
  have hhandler : onFileEvent malloc {} (h.bytes ++ []) emRead [.chunk 5, .closed] =
      (q₀.onHeader malloc).recvBody [] [.closed] := by
    rw [onFileEvent, if_neg (by decide), if_pos (by decide), fill_header]
  refine ⟨_, rfl, ?_⟩
  -- the second loop makes one call, which is told of all that is missing, or none
  by_cases hlt : 6 < h.bodyEnd
  · have hbody : (q₀.onHeader malloc).recvBody [] [.closed] =
        (.resumed, { q₀.onHeader malloc with
          result := 0
          stores := [(h.dataBegin malloc, 6), (h.dataBegin malloc + 6, h.bodyEnd - 6)] },
          [], []) := by
      rw [recvBody, hend, hoff, hrecved, hstores, fill, if_pos hlt]
      simp [receive, Fill.call, hrecved]
    rw [await, RecvRequest.dispatch, hhandler, hbody]
    exact ⟨hrequest, by simp, fun _ ↦ by simp⟩
  · have hbody : (q₀.onHeader malloc).recvBody [] [.closed] =
        (.resumed, { q₀.onHeader malloc with result := 6 }, [], [.closed]) := by
      rw [recvBody, hend, hoff, hrecved, hstores, fill_of_le (Nat.not_lt.1 hlt)]
      simp [hrecved, hstores]
    rw [await, RecvRequest.dispatch, hhandler, hbody]
    exact ⟨hrequest, by simp [hstores], fun h6 ↦ absurd h6 hlt⟩

/-- Every byte an await on the header stores through `data()` is inside the chunk, starting from a
pool with nothing cached and whatever `::recv` does afterwards. -/
def Header.StoresInside (h : Header) : Prop :=
  ∀ (limit : UInt64) (p : ℕ) (bytes : ℕ → UInt8) (tail : List UInt8) (rs : List Reply)
    (b : ByteBufferImpl),
    (await (emptyPoolMalloc limit p bytes) (h.bytes ++ tail) rs).2.1.request = some b →
      ∀ s ∈ (await (emptyPoolMalloc limit p bytes) (h.bytes ++ tail) rs).2.1.stores,
        ∀ i < s.2, s.1 + i < b.capacity.toNat

theorem storesInside_iff {h : Header} :
    h.StoresInside ↔ ∀ limit p bytes, h.Roomy (emptyPoolMalloc limit p bytes) := by
  constructor
  · intro hin limit p bytes
    obtain ⟨q, hq, hreq, hcopy, hcall⟩ := await_probe (emptyPoolMalloc limit p bytes) h
    have hstore : ∀ s ∈ q.stores, ∀ i < s.2,
        s.1 + i < (h.request (emptyPoolMalloc limit p bytes)).buffer.capacity.toNat := by
      rw [← hq] at hreq ⊢
      exact hin limit p bytes [] _ _ hreq
    refine ⟨?_, fun hlt ↦ ?_⟩
    · exact hstore _ hcopy 5 (Nat.lt_succ_self 5)
    · have hlast := hstore _ (hcall hlt) (h.bodyEnd - 7) (by dsimp only; omega)
      dsimp only at hlast
      omega
  · intro hroomy limit p bytes tail rs b hb s hs i hi
    obtain ⟨hreq, hstore⟩ := await_stores _ h tail rs hs
    obtain rfl := Option.some.inj (hreq.symm.trans hb)
    obtain ⟨hcopy, hcall⟩ := hroomy limit p bytes
    rcases hstore with rfl | ⟨g, hg, hlt, rfl⟩
    · dsimp only at hi ⊢
      omega
    · have := hcall (by omega)
      dsimp only at hi ⊢
      omega

/-! ### The placement a header asks for -/

/-- The 16-bit data position for an `align_off` of `a` at the alignment `2 ^ b`. -/
def placedAt (a b : ℕ) : ℕ := (roundUp a (2 ^ b) + 2 ^ 16 - a) % 2 ^ 16

/-- The length of the chunk for `T` bytes of data, of which `a` are before the aligned body. -/
def chunkLen (T a b : ℕ) : ℕ :=
  (roundUp ((2 ^ 32 - a + T) % 2 ^ 32) (max (2 ^ b) 1024) + roundUp a (2 ^ b)) % 2 ^ 32

/-- The bound of the second loop for `T` bytes of data. -/
def loopEnd (T : ℕ) : ℕ := if T < 2 ^ 31 then T else 0

/-- The copy of the header and the second loop stay inside the chunk. -/
def RegionFits (T a b : ℕ) : Prop :=
  placedAt a b + 6 ≤ chunkLen T a b ∧
    (6 < loopEnd T → placedAt a b + loopEnd T ≤ chunkLen T a b)

namespace Header

/-- `_cmd_len + 4`, as the `uint32_t` it is passed as. -/
def wireLen (h : Header) : UInt32 := h.len + 4

/-- The arguments of `malloc` for a header: without an `align_off` the defaults are the
alignment. -/
def args (h : Header) : MallocArgs :=
  { bodyLen := h.wireLen - h.alignOff.toUInt32
    alignBit := if h.alignOff = 0 then 6 else h.alignBit.toUInt32
    headerLen := h.alignOff.toUInt32 }

/-- Both branches place the data `align_off` bytes before the body. -/
theorem request_buffer {malloc : Malloc} {h : Header} {d : ByteBufferData}
    (hm : (malloc h.args).buffer = .new h.args.roundedHeader d) :
    (h.request malloc).buffer =
      (ByteBufferImpl.new h.args.roundedHeader d).setDataOffset
        (h.args.roundedHeader.toUInt16.toUInt32 - h.alignOff.toUInt32) h.wireLen := by
  have hlen : (h.len.toInt32 + 4).toUInt32 = h.wireLen := by
    rw [Int32.toUInt32_add, UInt32.toUInt32_toInt32]
    rfl
  rw [request]
  dsimp only
  -- without an `align_off` there is no header part
  by_cases ha : h.alignOff = 0
  · have hargs : h.args = ⟨h.wireLen, 6, 0⟩ := by
      rw [args, if_pos ha, ha, show UInt8.toUInt32 0 = 0 from rfl, UInt32.sub_zero]
    have hzero : (⟨h.wireLen, 6, 0⟩ : MallocArgs).roundedHeader = 0 := by
      rw [← UInt32.toNat_inj, MallocArgs.toNat_roundedHeader (show (6 : UInt32) < 32 by decide),
        UInt32.toNat_zero, roundUp_zero, Nat.zero_mod]
    rw [hargs] at hm ⊢
    rw [if_pos ha, hlen, ha]
    dsimp only
    rw [hm, hzero]
    rfl
  · have hargs : h.args = ⟨h.wireLen - h.alignOff.toUInt32, h.alignBit.toUInt32,
        h.alignOff.toUInt32⟩ := by rw [args, if_neg ha]
    rw [hargs] at hm ⊢
    rw [if_neg ha, hlen, Int32.toUInt32_sub, hlen, UInt32.toUInt32_toInt32]
    dsimp only
    rw [hm]
    rfl

theorem request_emptyPool (limit : UInt64) (p : ℕ) (bytes : ℕ → UInt8) (h : Header) :
    (h.request (emptyPoolMalloc limit p bytes)).buffer =
      (ByteBufferImpl.new h.args.roundedHeader ⟨p, h.args.total, h.args.alignBit⟩).setDataOffset
        (h.args.roundedHeader.toUInt16.toUInt32 - h.alignOff.toUInt32) h.wireLen :=
  request_buffer rfl

theorem toNat_args_bodyLen (h : Header) :
    h.args.bodyLen.toNat = (2 ^ 32 - h.alignOff.toNat + h.wireLen.toNat) % 2 ^ 32 := by
  rw [args, UInt32.toNat_sub, UInt8.toNat_toUInt32]

theorem args_alignBit_lt {h : Header} (hb : h.alignBit.toNat < 32) : h.args.alignBit < 32 := by
  rw [args, UInt32.lt_iff_toNat_lt]
  dsimp only
  split
  · decide
  · rw [UInt8.toNat_toUInt32]
    exact hb

theorem toNat_roundedHeader {h : Header} (hb : h.alignBit.toNat < 32) :
    h.args.roundedHeader.toNat = roundUp h.alignOff.toNat (2 ^ h.args.alignBit.toNat) := by
  have hbit : h.args.alignBit.toNat < 32 := UInt32.lt_iff_toNat_lt.1 (args_alignBit_lt hb)
  have hpow : 2 ^ h.args.alignBit.toNat ≤ 2 ^ 31 := Nat.pow_le_pow_right (by omega) (by omega)
  have hoff := h.alignOff.toNat_lt
  have hlt := roundUp_lt (n := h.alignOff.toNat) (Nat.two_pow_pos h.args.alignBit.toNat)
  have hargs : h.args.headerLen.toNat = h.alignOff.toNat := UInt8.toNat_toUInt32 _
  rw [MallocArgs.toNat_roundedHeader (args_alignBit_lt hb), hargs, Nat.mod_eq_of_lt (by omega)]

section EmptyPool

variable (limit : UInt64) (p : ℕ) (bytes : ℕ → UInt8) {h : Header}

/-- The data position keeps 16 bits of the distance from the header's end. -/
theorem dataBegin_emptyPool (hb : h.alignBit.toNat < 32) :
    h.dataBegin (emptyPoolMalloc limit p bytes) =
      placedAt h.alignOff.toNat h.args.alignBit.toNat := by
  have hoff := h.alignOff.toNat_lt
  rw [dataBegin, request_emptyPool, placedAt]
  show (UInt32.toUInt16 _).toNat = _
  rw [UInt32.toNat_toUInt16, UInt32.toNat_sub, UInt16.toNat_toUInt32, UInt32.toNat_toUInt16,
    UInt8.toNat_toUInt32, toNat_roundedHeader hb]
  omega

theorem capacity_emptyPool (hb : h.alignBit.toNat < 32) :
    (h.request (emptyPoolMalloc limit p bytes)).buffer.capacity.toNat =
      chunkLen h.wireLen.toNat h.alignOff.toNat h.args.alignBit.toNat := by
  have hargs : h.args.headerLen.toNat = h.alignOff.toNat := UInt8.toNat_toUInt32 _
  rw [request_emptyPool, chunkLen]
  show h.args.total.toNat = _
  rw [MallocArgs.toNat_total (args_alignBit_lt hb), toNat_args_bodyLen, hargs,
    MallocArgs.bodyUnit]

end EmptyPool

theorem bodyEnd_eq (h : Header) : h.bodyEnd = loopEnd h.wireLen.toNat := by
  have hlen : h.len.toInt32 + 4 = h.wireLen.toInt32 := by
    rw [wireLen, UInt32.toInt32_add]
    rfl
  have hlt := h.wireLen.toNat_lt
  have hint : h.wireLen.toInt32.toInt =
      if 2 * h.wireLen.toNat < 2 ^ 32 then (h.wireLen.toNat : ℤ) else h.wireLen.toNat - 2 ^ 32 :=
    BitVec.toInt_eq_toNat_cond h.wireLen.toBitVec
  rw [bodyEnd, hlen, hint, loopEnd]
  split <;> split <;> omega

/-- The placement of a header is the one the numbers say. -/
theorem roomy_iff_regionFits {h : Header} (hb : h.alignBit.toNat < 32) :
    (∀ limit p bytes, h.Roomy (emptyPoolMalloc limit p bytes)) ↔
      RegionFits h.wireLen.toNat h.alignOff.toNat h.args.alignBit.toNat := by
  have hroomy : ∀ limit p bytes, h.Roomy (emptyPoolMalloc limit p bytes) ↔
      RegionFits h.wireLen.toNat h.alignOff.toNat h.args.alignBit.toNat := by
    intro limit p bytes
    rw [Roomy, dataBegin_emptyPool limit p bytes hb, capacity_emptyPool limit p bytes hb,
      bodyEnd_eq, RegionFits]
  exact ⟨fun h ↦ (hroomy 0 0 fun _ ↦ 0).1 (h 0 0 fun _ ↦ 0),
    fun h limit p bytes ↦ (hroomy limit p bytes).2 h⟩

end Header

/-! ### Which regions fit -/

/-- The body length, wrapped. -/
theorem bodyLen_wrap {T a : ℕ} (hT : T < 2 ^ 32) (ha : a < 2 ^ 8) :
    (2 ^ 32 - a + T) % 2 ^ 32 = if a ≤ T then T - a else 2 ^ 32 - a + T := by
  split <;> omega

/-- Alignments below 1024: the header part is smaller than the unit of the body. -/
theorem regionFits_of_lt_ten {T a b : ℕ} (hT : T < 2 ^ 32) (ha : a < 2 ^ 8) (hb : b < 10) :
    RegionFits T a b ↔ ¬ (a < 6 ∧ (T ≤ a ∨ 2 ^ 32 < T - a + 1024)) := by
  have hpow : 2 ^ b ≤ 2 ^ 9 := Nat.pow_le_pow_right (by omega) (by omega)
  have hge := le_roundUp (n := a) (Nat.two_pow_pos b)
  have hlt := roundUp_lt (n := a) (Nat.two_pow_pos b)
  have hunit : max (2 ^ b) 1024 = 1024 := by omega
  rw [RegionFits, placedAt, chunkLen, loopEnd, hunit, bodyLen_wrap hT ha]
  set B := if a ≤ T then T - a else 2 ^ 32 - a + T with hB
  have hBlt : B < 2 ^ 32 := by rw [hB]; split <;> omega
  have htop := roundUp_near_top (n := B) (m := 1024) (w := 2 ^ 32) (by omega) (by norm_num) hBlt.le
  have hle := le_roundUp (n := B) (m := 1024) (by omega)
  rcases Nat.eq_zero_or_pos B with hzero | hpos
  · rw [hzero, roundUp_zero]
    split at hB <;> split <;> omega
  · have hR := unit_le_roundUp (m := 1024) (by omega) hpos
    split at hB <;> split <;> omega

/-- From 1024 on the header part is one unit, and the body is rounded to the same unit. -/
theorem regionFits_of_ten_le {T a b : ℕ} (hT : T < 2 ^ 32) (ha : a < 2 ^ 8) (ha' : 0 < a)
    (hb : 10 ≤ b) (hb' : b < 32) :
    RegionFits T a b ↔
      ¬ ((b ≤ 16 ∧ a < 6 ∧ (T ≤ a ∨ 2 ^ 32 < T - a + 2 ^ b)) ∨
        (a < T ∧ 2 ^ 32 < T - a + 2 * 2 ^ b ∧ T - a + 2 ^ b ≤ 2 ^ 32)) := by
  have hlo : 2 ^ 10 ≤ 2 ^ b := Nat.pow_le_pow_right (by omega) hb
  have hhi : 2 ^ b ≤ 2 ^ 31 := Nat.pow_le_pow_right (by omega) (by omega)
  have hdvd : 2 ^ b ∣ 2 ^ 32 := Nat.pow_dvd_pow 2 (by omega)
  have hunit : max (2 ^ b) 1024 = 2 ^ b := by omega
  have hplace : placedAt a b = if b ≤ 16 then 2 ^ b - a else 2 ^ 16 - a := by
    rw [placedAt, roundUp_eq_unit ha' (by omega)]
    split
    · have : 2 ^ b ≤ 2 ^ 16 := Nat.pow_le_pow_right (by omega) ‹_›
      omega
    -- the header part is a multiple of `2 ^ 16`: only `- align_off` is left in 16 bits
    · obtain ⟨k, hk⟩ : 2 ^ 16 ∣ 2 ^ b := Nat.pow_dvd_pow 2 (by omega)
      omega
  have hlarge : ¬ b ≤ 16 → 2 ^ 17 ≤ 2 ^ b := fun h ↦ Nat.pow_le_pow_right (by omega) (by omega)
  rw [RegionFits, hplace, chunkLen, loopEnd, hunit, roundUp_eq_unit ha' (by omega),
    bodyLen_wrap hT ha]
  set B := if a ≤ T then T - a else 2 ^ 32 - a + T with hB
  have hBlt : B < 2 ^ 32 := by rw [hB]; split <;> omega
  have htop := roundUp_near_top (n := B) (by omega) hdvd hBlt.le
  have hle := le_roundUp (n := B) (m := 2 ^ b) (by omega)
  -- an empty body has no unit of its own, any other has at least one
  rcases Nat.eq_zero_or_pos B with hzero | hpos
  · rw [hzero, roundUp_zero]
    split at hB <;> split <;> split <;> omega
  · have hR := unit_le_roundUp (m := 2 ^ b) (by omega) hpos
    split at hB <;> split <;> split <;> omega

/-- **The headers whose data region does not fit.** With `T = len + 4` modulo `2 ^ 32`, either the
rounded body is empty, because `T` does not exceed `align_off` or the rounding wrapped to 0, and the
header part has no room for the 6-byte copy; or the sum of body and header part wraps to 0. -/
def Header.Overruns (h : Header) : Prop :=
  let T := (h.len.toNat + 4) % 2 ^ 32
  let a := h.alignOff.toNat
  let b := if a = 0 then 6 else h.alignBit.toNat
  (b ≤ 16 ∧ a < 6 ∧ (T ≤ a ∨ 2 ^ 32 < T - a + max (2 ^ b) 1024)) ∨
    (10 ≤ b ∧ a < T ∧ 2 ^ 32 < T - a + 2 * 2 ^ b ∧ T - a + 2 ^ b ≤ 2 ^ 32)

theorem regionFits_iff_not_overruns {h : Header} (hb : h.alignBit.toNat < 32) :
    RegionFits h.wireLen.toNat h.alignOff.toNat h.args.alignBit.toNat ↔ ¬ h.Overruns := by
  have hT : h.wireLen.toNat = (h.len.toNat + 4) % 2 ^ 32 := UInt32.toNat_add _ _
  have hTlt := h.wireLen.toNat_lt
  have ha := h.alignOff.toNat_lt
  have hbit : h.args.alignBit.toNat = if h.alignOff.toNat = 0 then 6 else h.alignBit.toNat := by
    have hzero : h.alignOff = 0 ↔ h.alignOff.toNat = 0 := UInt8.toNat_inj.symm
    rw [Header.args, apply_ite UInt32.toNat, UInt8.toNat_toUInt32]
    simp only [hzero]
    rfl
  rw [Header.Overruns, ← hT, ← hbit]
  have hbit' : h.args.alignBit.toNat < 32 := by rw [hbit]; split <;> omega
  rcases Nat.lt_or_ge h.args.alignBit.toNat 10 with hlt | hge
  · have hunit : max (2 ^ h.args.alignBit.toNat) 1024 = 1024 := by
      have : 2 ^ h.args.alignBit.toNat ≤ 2 ^ 9 := Nat.pow_le_pow_right (by omega) (by omega)
      omega
    rw [regionFits_of_lt_ten hTlt ha hlt, hunit, not_iff_not]
    omega
  -- the default alignment is below 1024
  · have hpos : 0 < h.alignOff.toNat := by
      by_contra hzero
      rw [if_pos (by omega)] at hbit
      omega
    have hunit : max (2 ^ h.args.alignBit.toNat) 1024 = 2 ^ h.args.alignBit.toNat := by
      have : 2 ^ 10 ≤ 2 ^ h.args.alignBit.toNat := Nat.pow_le_pow_right (by omega) hge
      omega
    rw [regionFits_of_ten_le hTlt ha hpos hge hbit', hunit, not_iff_not,
      and_iff_right (a := 10 ≤ h.args.alignBit.toNat) hge]

/-- **Where the stores are**: for every header, they are inside the chunk, whatever `::recv` does,
exactly when the header is not one of those that overrun it. -/
theorem storesInside_iff_not_overruns (h : Header) (hb : h.alignBit.toNat < 32) :
    h.StoresInside ↔ ¬ h.Overruns := by
  rw [storesInside_iff, Header.roomy_iff_regionFits hb, regionFits_iff_not_overruns hb]

/-- A frame of 100 bytes without alignment, and one with a page-aligned payload, are stored inside
their chunks. -/
theorem storesInside_of_plain_headers :
    (⟨100, 0, 0⟩ : Header).StoresInside ∧ (⟨8192, 6, 12⟩ : Header).StoresInside :=
  ⟨(storesInside_iff_not_overruns ⟨100, 0, 0⟩ (by decide)).2 (by unfold Header.Overruns; decide),
    (storesInside_iff_not_overruns ⟨8192, 6, 12⟩ (by decide)).2 (by unfold Header.Overruns; decide)⟩

/-- With a length of 1 and an `align_off` of 5 the chunk has 64 bytes and the header is copied to
the offsets 59 to 64. With a length of `2 ^ 32 - 4` it is copied into a chunk of 0 bytes. -/
theorem stores_outside_chunk :
    ¬ (⟨1, 5, 6⟩ : Header).StoresInside ∧ ¬ (⟨0xFFFFFFFC, 0, 0⟩ : Header).StoresInside := by
  constructor
  · intro h
    exact absurd (h 0 4096 (fun _ ↦ 0) [] [.chunk 5] _ rfl (59, 6) (by decide) 5 (by decide))
      (by decide)
  · intro h
    exact absurd (h 0 4096 (fun _ ↦ 0) [] [.chunk 5] _ rfl (0, 6) (by decide) 0 (by decide))
      (by decide)

end Nsio
