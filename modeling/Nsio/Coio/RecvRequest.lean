import Nsio.Foundations.Socket
import Nsio.Coio.ByteBuffer
import Nsio.Coio.FdTable

/-!
# The frame reader `recv_request`

The model of `recv_request` of `nio_awaiter.cpp`: an awaiter that reads one frame, a 4-byte
big-endian length `L` and `L` more bytes, of which the first two are `align_off` and `align_bit`.
It is a machine of two loops. The first fills the 6-byte header buffer `_buf`; then a request buffer
is allocated and placed after what the header asks for, the header is copied into it, and the second
loop fills the rest. Either loop can be left by a call that would block, and the handler is entered
again at the next read event.

What the surroundings decide is an argument: the replies of `::recv` (see `Foundations.Socket`) and
the buffer `this_context->_buf_cache->malloc` returns, with whatever its chunk holds (`Malloc`).

## The reading invariant

`Reading` says what a suspended reader has after `n` bytes of a frame: below 6 bytes they are in
`_buf`; from 6 on they are in the request buffer at `data()`, and `_cmd_len` is the frame's length.
`onFileEvent_reads` is the one lemma about the handler, for every entry point, and
`session_reads_frames` is the consequence for any number of frames on one stream.
-/

namespace Nsio

/-- How a file handler returns. -/
inductive HandlerExit
  /-- It called `_handle.resume()`. -/
  | resumed
  /-- It armed itself again, `es._func_r = this`. -/
  | rearmed
  /-- It has not returned: the list of replies ended inside it. -/
  | starved
  deriving DecidableEq, Repr

/-- The exit of a loop of the handler as the exit of the handler. -/
def HandlerExit.ofFill : FillExit → HandlerExit
  | .full | .closed | .error => .resumed
  | .again => .rearmed
  | .starved => .starved

/-- `ntohl` of the four bytes at an address. -/
def ntohl (b₀ b₁ b₂ b₃ : UInt8) : UInt32 :=
  .ofNat (b₀.toNat * 2 ^ 24 + b₁.toNat * 2 ^ 16 + b₂.toNat * 2 ^ 8 + b₃.toNat)

/-- The six bytes of a header. -/
structure Header where
  len : UInt32
  alignOff : UInt8
  alignBit : UInt8
  deriving DecidableEq, Repr

/-- The four bytes of a length, most significant first. -/
def be32 (n : ℕ) : List UInt8 :=
  [.ofNat (n / 2 ^ 24), .ofNat (n / 2 ^ 16), .ofNat (n / 2 ^ 8), .ofNat n]

/-- The header on the wire. -/
def Header.bytes (h : Header) : List UInt8 := be32 h.len.toNat ++ [h.alignOff, h.alignBit]

/-- A buffer and what its chunk holds. -/
structure Allocation where
  buffer : ByteBufferImpl
  /-- The bytes of the chunk, by their offset from `base()`. -/
  bytes : ℕ → UInt8

/-- The chunk as a region. -/
def Allocation.chunk (a : Allocation) : Region := ⟨a.buffer.capacity.toNat, a.bytes⟩

/-- What `_buf_cache->malloc` does. -/
abbrev Malloc := MallocArgs → Allocation

/-- The request buffer for a header: allocated, and with its data placed. `_cmd_len + 4` is `int`
arithmetic, the arguments of `malloc` and of `set_data_offset` are `uint32_t`. -/
def Header.request (malloc : Malloc) (h : Header) : Allocation :=
  let cmdLen : Int32 := h.len.toInt32
  let off : UInt32 := h.alignOff.toUInt32
  if h.alignOff = 0 then
    let a := malloc ⟨(cmdLen + 4).toUInt32, 6, 0⟩
    { a with buffer := a.buffer.setDataOffset 0 (cmdLen + 4).toUInt32 }
  else
    let a := malloc ⟨(cmdLen + 4 - off.toInt32).toUInt32, h.alignBit.toUInt32, off⟩
    { a with buffer := a.buffer.setDataOffset (a.buffer.bodyOff - off) (cmdLen + 4).toUInt32 }

/-- `recv_request`, with the buffer `_request` points to and the chunk of that buffer. -/
structure RecvRequest where
  /-- `_recved_bytes`. -/
  recvedBytes : ℕ := 0
  /-- `_cmd_len`. -/
  cmdLen : Int32 := 0
  /-- `_result`. -/
  result : Int := -1
  /-- `_buf`. -/
  buf : Region := ⟨8, fun _ ↦ 0⟩
  /-- `*_request`. -/
  request : Option ByteBufferImpl := none
  /-- The chunk of `*_request`. -/
  chunk : Region := ⟨0, fun _ ↦ 0⟩
  /-- The ranges stored to through `(*_request)->data()`, as offset from `base()` and length. -/
  stores : List (ℕ × ℕ) := []

namespace RecvRequest

/-- The header in `_buf`. -/
def header (q : RecvRequest) : Header :=
  { len := ntohl (q.buf.cell 0) (q.buf.cell 1) (q.buf.cell 2) (q.buf.cell 3)
    alignOff := q.buf.cell 4
    alignBit := q.buf.cell 5 }

/-- The offset of `(*_request)->data()` from `base()`. -/
def dataBegin (q : RecvRequest) : ℕ := (q.request.map fun b ↦ b.dataBegin.toNat).getD 0

/-- What happens between the loops: the request buffer is made and the header copied into it. -/
def onHeader (malloc : Malloc) (q : RecvRequest) : RecvRequest :=
  let a := q.header.request malloc
  { q with
    request := some a.buffer
    chunk := a.chunk.write a.buffer.dataBegin.toNat (q.buf.read 0 6)
    stores := q.stores ++ [(a.buffer.dataBegin.toNat, 6)]
    cmdLen := q.header.len.toInt32 + 4 }

/-- The second loop. A negative `_cmd_len` makes it empty, as the signed comparison does. -/
def recvBody (q : RecvRequest) (stream : List UInt8) (rs : List Reply) :
    HandlerExit × RecvRequest × List UInt8 × List Reply :=
  match fill q.dataBegin q.cmdLen.toInt.toNat rs ⟨q.recvedBytes, q.chunk, stream, q.stores⟩ with
  | (e, s, rest) =>
    let q := { q with recvedBytes := s.got, chunk := s.mem, stores := s.calls }
    match e with
    | .full => (.resumed, { q with result := q.recvedBytes }, s.stream, rest)
    | .closed => (.resumed, { q with result := 0 }, s.stream, rest)
    | .error => (.resumed, { q with result := -1 }, s.stream, rest)
    | .again => (.rearmed, q, s.stream, rest)
    | .starved => (.starved, q, s.stream, rest)

/-- `recv_request::on_file_event`. -/
def onFileEvent (malloc : Malloc) (q : RecvRequest) (stream : List UInt8) (event : Int)
    (rs : List Reply) : HandlerExit × RecvRequest × List UInt8 × List Reply :=
  if event ≤ 0 then (.resumed, q, stream, rs)
  else if q.recvedBytes < 6 then
    match fill 0 6 rs ⟨q.recvedBytes, q.buf, stream, []⟩ with
    | (e, s, rest) =>
      let q := { q with recvedBytes := s.got, buf := s.mem }
      match e with
      | .full => (q.onHeader malloc).recvBody s.stream rest
      | .closed => (.resumed, { q with result := 0 }, s.stream, rest)
      | .error => (.resumed, { q with result := -1 }, s.stream, rest)
      | .again => (.rearmed, q, s.stream, rest)
      | .starved => (.starved, q, s.stream, rest)
  else q.recvBody stream rs

/-- The loop dispatches read events to the armed awaiter until it resumes its coroutine. Each
dispatch but the last uses a reply up, so `rs.length + 1` of them are enough. -/
def dispatch (malloc : Malloc) : ℕ → RecvRequest → List UInt8 → List Reply →
    HandlerExit × RecvRequest × List UInt8 × List Reply
  | 0, q, stream, rs => (.starved, q, stream, rs)
  | n + 1, q, stream, rs =>
    match q.onFileEvent malloc stream emRead rs with
    | (.rearmed, q, stream, rest) => dispatch malloc n q stream rest
    | out => out

/-- One `co_await recv_request`: a fresh awaiter, dispatched until it resumes. -/
def await (malloc : Malloc) (stream : List UInt8) (rs : List Reply) :
    HandlerExit × RecvRequest × List UInt8 × List Reply :=
  dispatch malloc (rs.length + 1) {} stream rs

end RecvRequest

/-- What the coroutine sees of an await: the result, `data_len()` and the bytes at `data()`. -/
structure Delivery where
  result : Int
  dataLen : ℕ
  data : List UInt8
  deriving DecidableEq, Repr

/-- The delivery of an awaiter. -/
def RecvRequest.delivery (q : RecvRequest) : Delivery :=
  match q.request with
  | none => ⟨q.result, 0, []⟩
  | some b => ⟨q.result, b.dataLen.toNat, q.chunk.read b.dataBegin.toNat b.dataLen.toNat⟩

/-- How a session of awaits ends. -/
inductive SessionEnd
  /-- All awaits resumed with a positive result. -/
  | finished
  /-- An await resumed with a result that is not positive, and the coroutine gave up. -/
  | failed (result : Int)
  /-- An await is still pending. -/
  | waiting
  deriving DecidableEq, Repr

/-- Successive awaits on one stream, one for each `malloc` of the list, up to the first that does
not resume with a positive result. -/
def session : List Malloc → List UInt8 → List Reply →
    List Delivery × SessionEnd × List UInt8 × List Reply
  | [], stream, rs => ([], .finished, stream, rs)
  | malloc :: mallocs, stream, rs =>
    match RecvRequest.await malloc stream rs with
    | (.resumed, q, stream, rest) =>
      if 0 < q.result then
        match session mallocs stream rest with
        | (ds, out) => (q.delivery :: ds, out)
      else ([], .failed q.result, stream, rest)
    | (_, _, stream, rest) => ([], .waiting, stream, rest)

/-! ### Frames -/

/-- A well-formed frame: `L` bytes after the length, of which the first two are `align_off` and
`align_bit`. -/
structure Frame where
  alignOff : UInt8
  alignBit : UInt8
  payload : List UInt8
  len_le : payload.length + 2 ≤ 2 ^ 31 - 5
  alignOff_ok : alignOff = 0 ∨ alignOff.toNat ≤ payload.length + 6
  alignBit_ok : alignBit.toNat ≤ 31

namespace Frame

/-- `L`. -/
def len (f : Frame) : ℕ := f.payload.length + 2

/-- The bytes of the frame on the stream. -/
def bytes (f : Frame) : List UInt8 := be32 f.len ++ f.alignOff :: f.alignBit :: f.payload

/-- The frame's header. -/
def header (f : Frame) : Header := ⟨.ofNat f.len, f.alignOff, f.alignBit⟩

/-- The chunk `malloc` returns for the frame is large enough for the data region. -/
def FitsIn (f : Frame) (malloc : Malloc) : Prop :=
  (f.header.request malloc).buffer.dataBegin.toNat + (f.len + 4) ≤
    (f.header.request malloc).buffer.capacity.toNat

/-- What an await on the frame is to deliver. -/
def delivery (f : Frame) : Delivery := ⟨f.len + 4, f.len + 4, f.bytes⟩

@[simp] theorem length_bytes (f : Frame) : f.bytes.length = f.len + 4 := by
  simp [bytes, be32, len]

theorem len_le_max (f : Frame) : f.len ≤ 2 ^ 31 - 5 := f.len_le

/-- A frame begins with its header. -/
theorem take_six (f : Frame) : f.bytes.take 6 = f.header.bytes := by
  have hle := f.len_le_max
  have hlen : (UInt32.ofNat f.len).toNat = f.len := UInt32.toNat_ofNat_of_lt' (by norm_num; omega)
  rw [Header.bytes, header, hlen]
  rfl

end Frame

/-! ### The header -/

theorem ntohl_be32 {n : ℕ} (h : n < 2 ^ 32) :
    ntohl (.ofNat (n / 2 ^ 24)) (.ofNat (n / 2 ^ 16)) (.ofNat (n / 2 ^ 8)) (.ofNat n) =
      UInt32.ofNat n := by
  rw [ntohl, ← UInt32.toNat_inj]
  simp only [UInt8.toNat_ofNat', UInt32.toNat_ofNat']
  omega

/-- `_cmd_len + 4` does not overflow for the lengths of well-formed frames. -/
theorem toInt_cmdLen {n : ℕ} (h : n ≤ 2 ^ 31 - 5) :
    ((UInt32.ofNat n).toInt32 + 4).toInt = (n : Int) + 4 := by
  have hlen : (UInt32.ofNat n).toInt32 = Int32.ofNat n := rfl
  rw [hlen, Int32.toInt_add, Int32.toInt_ofNat_of_lt (by omega),
    show (4 : Int32).toInt = 4 from rfl]
  refine Int.bmod_eq_of_le ?_ ?_ <;> omega

theorem toNat_cmdLen {n : ℕ} (h : n ≤ 2 ^ 31 - 5) :
    ((UInt32.ofNat n).toInt32 + 4).toUInt32.toNat = n + 4 := by
  rw [Int32.toUInt32_add, UInt32.toUInt32_toInt32, UInt32.toNat_add, UInt32.toNat_ofNat',
    show (4 : Int32).toUInt32.toNat = 4 from rfl]
  omega

theorem Header.dataLen_request (malloc : Malloc) (h : Header) :
    (h.request malloc).buffer.dataLen = (h.len.toInt32 + 4).toUInt32 := by
  rw [Header.request]
  dsimp only
  split <;> rfl

/-- The bytes of a header in `_buf` are read as that header. -/
theorem RecvRequest.header_eq {q : RecvRequest} {h : Header}
    (hread : q.buf.read 0 6 = h.bytes) : q.header = h := by
  have hcell : ∀ i < 6, q.buf.cell i = (h.bytes[i]?).getD 0 := fun i hi ↦ by
    rw [← Region.cell_of_read hread hi, Nat.zero_add]
  have hlen : ntohl (h.bytes[0]?.getD 0) (h.bytes[1]?.getD 0) (h.bytes[2]?.getD 0)
      (h.bytes[3]?.getD 0) = h.len :=
    (ntohl_be32 h.len.toNat_lt).trans h.len.ofNat_toNat
  rw [header, hcell 0 (by omega), hcell 1 (by omega), hcell 2 (by omega), hcell 3 (by omega),
    hcell 4 (by omega), hcell 5 (by omega), hlen]
  rfl

/-! ### The reading invariant -/

/-- From six bytes on, what is read of the frame is in the request buffer. -/
structure InRequest (malloc : Malloc) (f : Frame) (q : RecvRequest) : Prop where
  cmdLen_eq : q.cmdLen.toInt = f.len + 4
  request_eq : q.request = some (f.header.request malloc).buffer
  chunk_eq : q.chunk = (f.header.request malloc).chunk.write
    (f.header.request malloc).buffer.dataBegin.toNat (f.bytes.take q.recvedBytes)

/-- What a reader between two events has of a frame. -/
structure Reading (malloc : Malloc) (f : Frame) (q : RecvRequest) : Prop where
  le_len : q.recvedBytes ≤ f.len + 4
  inBuf : q.recvedBytes < 6 →
    ∃ m : Region, m.cap = 8 ∧ q.buf = m.write 0 (f.bytes.take q.recvedBytes)
  inRequest : 6 ≤ q.recvedBytes → InRequest malloc f q

/-- A handler that started after `n` bytes of the frame, with the rest of it on the stream, has
come to `out`, by the loop exit `e`. -/
structure Reads (malloc : Malloc) (f : Frame) (tail : List UInt8) (rs : List Reply) (n : ℕ)
    (e : FillExit) (out : HandlerExit × RecvRequest × List UInt8 × List Reply) : Prop where
  exit_eq : out.1 = .ofFill e
  reading : Reading malloc f out.2.1
  le_recved : n ≤ out.2.1.recvedBytes
  stream_eq : out.2.2.1 = f.bytes.drop out.2.1.recvedBytes ++ tail
  full_iff : e = .full ↔ out.2.1.recvedBytes = f.len + 4
  result_full : e = .full → out.2.1.result = f.len + 4
  result_closed : e = .closed → out.2.1.result = 0
  result_error : e = .error → out.2.1.result = -1
  used : Used rs e out.2.2.2
  progress : chunks rs ≤ chunks out.2.2.2 + (out.2.1.recvedBytes - n)

/-- A reader that goes on where an earlier loop or dispatch left it. -/
theorem Reads.after {malloc : Malloc} {f : Frame} {tail : List UInt8} {rs mid : List Reply}
    {n k : ℕ} {d e : FillExit} {out : HandlerExit × RecvRequest × List UInt8 × List Reply}
    (h : Reads malloc f tail mid k e out) (hle : n ≤ k) (hd : d = .full ∨ d = .again)
    (hused : Used rs d mid) (hprogress : chunks rs ≤ chunks mid + (k - n)) :
    Reads malloc f tail rs n e out :=
  { h with
    le_recved := hle.trans h.le_recved
    used := hused.trans hd h.used
    progress := by
      have := h.progress
      have := h.le_recved
      omega }

namespace RecvRequest

variable {malloc : Malloc} {f : Frame} {q : RecvRequest}

/-- The second loop reads on in the request buffer. -/
theorem recvBody_reads (hq : InRequest malloc f q) (hlo : 6 ≤ q.recvedBytes)
    (hhi : q.recvedBytes ≤ f.len + 4) (tail : List UInt8) (rs : List Reply) :
    ∃ e, Reads malloc f tail rs q.recvedBytes e
      (q.recvBody (f.bytes.drop q.recvedBytes ++ tail) rs) := by
  set a := f.header.request malloc with ha
  have hbegin : q.dataBegin = a.buffer.dataBegin.toNat := by
    rw [dataBegin, hq.request_eq]
    rfl
  have hwant : q.cmdLen.toInt.toNat = f.len + 4 := by rw [hq.cmdLen_eq]; omega
  obtain ⟨e, t, rest, hfill, hspec⟩ := exists_fill_eq a.buffer.dataBegin.toNat (f.len + 4) rs
    ⟨q.recvedBytes, q.chunk, f.bytes.drop q.recvedBytes ++ tail, q.stores⟩
  obtain ⟨k, hk⟩ := hspec.filled
  have hgot : t.got = q.recvedBytes + k := hk.got_eq
  have hle : t.got ≤ f.len + 4 := by
    have : t.got ≤ max q.recvedBytes (f.len + 4) := hspec.got_le
    omega
  have hmsg := hk.of_message rfl hq.chunk_eq (by rw [f.length_bytes]; exact hle)
  have hprogress := hspec.progress (by
    simp only [List.length_append, List.length_drop, f.length_bytes]
    omega)
  -- however the loop is left, only the counter and the chunk have changed
  have hreading : ∀ q' : RecvRequest, q'.recvedBytes = t.got → q'.cmdLen = q.cmdLen →
      q'.request = q.request → q'.chunk = t.mem → Reading malloc f q' := by
    intro q' h₁ h₂ h₃ h₄
    refine ⟨by omega, fun h ↦ by omega, fun _ ↦ ⟨?_, ?_, ?_⟩⟩
    · rw [h₂, hq.cmdLen_eq]
    · rw [h₃, hq.request_eq]
    · rw [h₄, hmsg.2, h₁]
  have hfull := hspec.full_iff
  have hused := hspec.used
  refine ⟨e, ?_⟩
  rw [recvBody, hbegin, hwant, hfill]
  cases e with
  | full | closed | error | again | starved =>
    refine ⟨rfl, hreading _ rfl rfl rfl rfl, ?_, hmsg.1, ?_, ?_, ?_, ?_, hused, hprogress⟩
    all_goals simp only [reduceCtorEq, false_iff, true_iff, false_implies, forall_const] at *
    all_goals first | trivial | omega

/-- Between the loops the reader moves what it has from `_buf` to the request buffer. -/
theorem onHeader_inRequest {m : Region} (hm : m.cap = 8)
    (hbuf : q.buf = m.write 0 (f.bytes.take 6)) (hrecved : q.recvedBytes = 6) :
    InRequest malloc f (q.onHeader malloc) := by
  have hsix : (f.bytes.take 6).length = 6 := rfl
  have hread : q.buf.read 0 6 = f.bytes.take 6 := by
    rw [hbuf]
    exact Region.read_write hsix (by omega)
  have hheader := header_eq (hread.trans f.take_six)
  refine ⟨?_, ?_, ?_⟩
  · rw [onHeader, hheader]
    exact toInt_cmdLen f.len_le_max
  · rw [onHeader, hheader]
  · rw [onHeader, hheader, hread, hrecved]

/-- However the header loop is left, `_buf` holds the bytes of the frame read so far. -/
theorem header_fill {tail : List UInt8} {rs rest : List Reply} {e : FillExit} {t : Fill}
    (hq : Reading malloc f q) (hlt : q.recvedBytes < 6)
    (hspec : FillSpec 0 6 rs ⟨q.recvedBytes, q.buf, f.bytes.drop q.recvedBytes ++ tail, []⟩
      e t rest) :
    t.got ≤ 6 ∧ t.stream = f.bytes.drop t.got ++ tail ∧
      ∃ m : Region, m.cap = 8 ∧ t.mem = m.write 0 (f.bytes.take t.got) := by
  obtain ⟨m, hm, hbuf⟩ := hq.inBuf hlt
  obtain ⟨k, hk⟩ := hspec.filled
  have hsix : 6 ≤ f.len + 4 := by simp [Frame.len]
  have hle : t.got ≤ 6 := by
    have : t.got ≤ max q.recvedBytes 6 := hspec.got_le
    omega
  have hmsg := hk.of_message rfl hbuf (by rw [f.length_bytes]; omega)
  exact ⟨hle, hmsg.1, m, hm, hmsg.2⟩

/-- The header loop run to its end: the reader goes on in the request buffer of the frame. -/
theorem header_full {tail : List UInt8} {rs rest : List Reply} {t : Fill}
    (hq : Reading malloc f q) (hlt : q.recvedBytes < 6)
    (hspec : FillSpec 0 6 rs ⟨q.recvedBytes, q.buf, f.bytes.drop q.recvedBytes ++ tail, []⟩
      .full t rest) :
    t.got = 6 ∧
      InRequest malloc f ({ q with recvedBytes := t.got, buf := t.mem }.onHeader malloc) := by
  obtain ⟨hle, -, m, hm, hmem⟩ := header_fill hq hlt hspec
  have hdone : t.got = 6 := le_antisymm hle (hspec.full_iff.1 rfl)
  exact ⟨hdone, onHeader_inRequest hm (by rw [← hdone]; exact hmem) hdone⟩

/-- **One dispatch of a reader**, whichever loop it is in: it goes on with the frame, and leaves
with the frame complete or in the same invariant. -/
theorem onFileEvent_reads (hq : Reading malloc f q) (tail : List UInt8) (rs : List Reply) :
    ∃ e, Reads malloc f tail rs q.recvedBytes e
      (q.onFileEvent malloc (f.bytes.drop q.recvedBytes ++ tail) emRead rs) := by
  rw [onFileEvent, if_neg (by decide)]
  by_cases hlt : q.recvedBytes < 6
  · have hsix : 6 ≤ f.len + 4 := by simp [Frame.len]
    obtain ⟨e, t, rest, hfill, hspec⟩ := exists_fill_eq 0 6 rs
      ⟨q.recvedBytes, q.buf, f.bytes.drop q.recvedBytes ++ tail, []⟩
    obtain ⟨hle, hstream, m, hm, hmem⟩ := header_fill hq hlt hspec
    obtain ⟨k, hk⟩ := hspec.filled
    have hgot : t.got = q.recvedBytes + k := hk.got_eq
    have hprogress : chunks rs ≤ chunks rest + (t.got - q.recvedBytes) := hspec.progress (by
      simp only [List.length_append, List.length_drop, f.length_bytes]
      omega)
    have hfull : e = .full ↔ 6 ≤ t.got := hspec.full_iff
    have hused : Used rs e rest := hspec.used
    rw [if_pos hlt, hfill]
    -- the header loop is left early: nothing but `_buf` and the counter has changed
    have hearly : e ≠ .full → ∀ q' : RecvRequest, q'.recvedBytes = t.got → q'.buf = t.mem →
        Reading malloc f q' := by
      intro he q' h₁ h₂
      have : ¬ 6 ≤ t.got := fun h ↦ he (hfull.2 h)
      exact ⟨by omega, fun _ ↦ ⟨m, hm, by rw [h₂, hmem, h₁]⟩, fun h ↦ by omega⟩
    cases e with
    | full =>
      obtain ⟨hdone, hin⟩ := header_full hq hlt hspec
      set q₁ : RecvRequest := { q with recvedBytes := t.got, buf := t.mem } with hq₁
      have hrecved : (q₁.onHeader malloc).recvedBytes = t.got := rfl
      obtain ⟨e, he⟩ := recvBody_reads hin (by omega) (by omega) tail rest
      refine ⟨e, ?_⟩
      rw [hrecved] at he
      show Reads malloc f tail rs q.recvedBytes e ((q₁.onHeader malloc).recvBody t.stream rest)
      rw [hstream]
      exact he.after (by omega) (.inl rfl) hused hprogress
    | closed | error | again | starved =>
      have hnot : ¬ 6 ≤ t.got := fun h ↦ by simp [h] at hfull
      refine ⟨_, rfl, hearly (by simp) _ rfl rfl, ?_, hstream, ?_, ?_, ?_, ?_, hused, hprogress⟩
      all_goals simp only [reduceCtorEq, false_iff, false_implies, forall_const]
      all_goals omega
  · rw [if_neg hlt]
    exact recvBody_reads (hq.inRequest (by omega)) (by omega) hq.le_len tail rs

/-- A dispatched reader ends with the frame complete, or with the end of the stream or an error
among the replies, or has used all of them up. -/
theorem dispatch_reads {n : ℕ} {q : RecvRequest} (hq : Reading malloc f q) (tail : List UInt8)
    (rs : List Reply) (hn : rs.length < n) :
    ∃ e, e ≠ .again ∧ Reads malloc f tail rs q.recvedBytes e
      (dispatch malloc n q (f.bytes.drop q.recvedBytes ++ tail) rs) := by
  induction n generalizing q rs with
  | zero => omega
  | succ n ih =>
    obtain ⟨e, he⟩ := onFileEvent_reads hq tail rs
    rcases hout : q.onFileEvent malloc (f.bytes.drop q.recvedBytes ++ tail) emRead rs with
      ⟨x, q', stream', rest⟩
    rw [hout] at he
    obtain rfl : x = .ofFill e := he.exit_eq
    have hstream : stream' = f.bytes.drop q'.recvedBytes ++ tail := he.stream_eq
    by_cases hagain : e = .again
    · subst hagain
      have hused : Used rs .again rest := he.used
      -- the call that would block used a reply up, so there is fuel for the next dispatch
      have hlen : rest.length < rs.length := hused.length_lt
      obtain ⟨e, hne', he'⟩ := ih he.reading rest (by omega)
      refine ⟨e, hne', ?_⟩
      rw [dispatch, hout, HandlerExit.ofFill, hstream]
      exact he'.after he.le_recved (.inr rfl) hused he.progress
    · refine ⟨e, hagain, ?_⟩
      rw [dispatch, hout]
      cases e <;> first | exact absurd rfl hagain | exact he

theorem reading_init : Reading malloc f {} :=
  ⟨Nat.zero_le _, fun _ ↦ ⟨⟨8, fun _ ↦ 0⟩, rfl, by simp⟩, fun h ↦ absurd h (by decide)⟩

/-- **One await on a stream that begins with the frame.** -/
theorem await_reads (malloc : Malloc) (f : Frame) (tail : List UInt8) (rs : List Reply) :
    ∃ e, e ≠ .again ∧ Reads malloc f tail rs 0 e (await malloc (f.bytes ++ tail) rs) :=
  dispatch_reads reading_init tail rs (Nat.lt_succ_self _)

/-- A complete frame in a chunk that holds the data region is delivered byte for byte. -/
theorem delivery_eq (hq : Reading malloc f q) (hdone : q.recvedBytes = f.len + 4)
    (hresult : q.result = f.len + 4) (hfit : f.FitsIn malloc) : q.delivery = f.delivery := by
  have hin := hq.inRequest (by rw [hdone]; simp [Frame.len])
  have hlen : (f.header.request malloc).buffer.dataLen.toNat = f.len + 4 := by
    rw [Header.dataLen_request]
    exact toNat_cmdLen f.len_le_max
  rw [delivery, hin.request_eq]
  simp only [hlen, hin.chunk_eq, hdone, Frame.delivery, hresult]
  rw [← f.length_bytes, List.take_length, Region.read_write rfl]
  rw [f.length_bytes]
  exact hfit

end RecvRequest

/-! ### Any number of frames -/

/-- The outcome of awaits on a stream that begins with the frames `fs`: the first `j` were
delivered. -/
structure FramesRead (fs : List Frame) (tail : List UInt8) (rs : List Reply) (j : ℕ)
    (out : List Delivery × SessionEnd × List UInt8 × List Reply) : Prop where
  le_length : j ≤ fs.length
  /-- The awaits that resumed with a positive result are those of the first frames, in order. -/
  deliveries_eq : out.1 = (fs.take j).map Frame.delivery
  finished_iff : out.2.1 = .finished ↔ j = fs.length
  /-- The finished session has consumed the frames and nothing else. -/
  stream_finished : j = fs.length → out.2.2.1 = tail
  /-- A session that is not finished has consumed the delivered frames and a beginning of the
  next. -/
  stream_partial : j < fs.length → ∃ f n, fs[j]? = some f ∧ n < f.len + 4 ∧
    out.2.2.1 = f.bytes.drop n ++ ((fs.drop (j + 1)).flatMap Frame.bytes ++ tail)
  /-- An await resumed with 0 exactly when `::recv` met the end of the stream, and with -1 exactly
  when it failed. -/
  used : ∃ used, rs = used ++ out.2.2.2 ∧ (.closed ∈ used ↔ out.2.1 = .failed 0) ∧
    (.error ∈ used ↔ out.2.1 = .failed (-1))
  failed : ∀ r, out.2.1 = .failed r → r = 0 ∨ r = -1
  waiting : out.2.1 = .waiting → out.2.2.2 = []
  progress : chunks rs + out.2.2.1.length ≤
    chunks out.2.2.2 + (fs.flatMap Frame.bytes ++ tail).length

/-- A session that ends in its first await. -/
theorem FramesRead.stop {f : Frame} {fs : List Frame} {tail : List UInt8} {rs rest : List Reply}
    {n : ℕ} {fin : SessionEnd} (hn : n < f.len + 4)
    (hfin : fin = .waiting ∧ rest = [] ∨ fin = .failed 0 ∨ fin = .failed (-1))
    (hused : ∃ used, rs = used ++ rest ∧ (.closed ∈ used ↔ fin = .failed 0) ∧
      (.error ∈ used ↔ fin = .failed (-1)))
    (hprogress : chunks rs ≤ chunks rest + n) :
    FramesRead (f :: fs) tail rs 0
      ([], fin, f.bytes.drop n ++ (fs.flatMap Frame.bytes ++ tail), rest) where
  le_length := Nat.zero_le _
  deliveries_eq := rfl
  finished_iff := by rcases hfin with ⟨rfl, -⟩ | rfl | rfl <;> simp
  stream_finished := by simp
  stream_partial := fun _ ↦ ⟨f, n, rfl, hn, rfl⟩
  used := hused
  failed := by rcases hfin with ⟨rfl, -⟩ | rfl | rfl <;> simp
  waiting := by rcases hfin with ⟨rfl, h⟩ | rfl | rfl <;> simp [*]
  progress := by
    simp only [List.length_append, List.length_drop, Frame.length_bytes, List.flatMap_cons]
    omega

/-- A session whose first await delivered its frame. -/
theorem FramesRead.cons {f : Frame} {fs : List Frame} {tail : List UInt8} {rs mid rest : List Reply}
    {j : ℕ} {ds : List Delivery} {fin : SessionEnd} {stream : List UInt8}
    (hused : Used rs .full mid) (hprogress : chunks rs ≤ chunks mid + (f.len + 4))
    (h : FramesRead fs tail mid j (ds, fin, stream, rest)) :
    FramesRead (f :: fs) tail rs (j + 1) (f.delivery :: ds, fin, stream, rest) where
  le_length := Nat.succ_le_succ h.le_length
  deliveries_eq := by rw [List.take_succ_cons, List.map_cons, ← h.deliveries_eq]
  finished_iff := by rw [List.length_cons, Nat.succ_inj]; exact h.finished_iff
  stream_finished := fun hj ↦ h.stream_finished (Nat.succ_inj.1 hj)
  stream_partial := fun hj ↦ h.stream_partial (Nat.lt_of_succ_lt_succ hj)
  used := by
    obtain ⟨used, hsplit, hclosed, herror, -⟩ := hused.split
    obtain ⟨used', hsplit', hclosed', herror'⟩ := h.used
    refine ⟨used ++ used', by rw [hsplit, hsplit', List.append_assoc], ?_, ?_⟩
    · rw [List.mem_append, hclosed, hclosed']
      simp
    · rw [List.mem_append, herror, herror']
      simp
  failed := h.failed
  waiting := h.waiting
  progress := by
    have := h.progress
    simp only [List.flatMap_cons, List.length_append, Frame.length_bytes] at this ⊢
    omega

theorem session_framesRead {fs : List Frame} {mallocs : List Malloc}
    (hfit : List.Forall₂ Frame.FitsIn fs mallocs) (tail : List UInt8) (rs : List Reply) :
    ∃ j, FramesRead fs tail rs j (session mallocs (fs.flatMap Frame.bytes ++ tail) rs) := by
  induction hfit generalizing rs with
  | nil => exact ⟨0, le_rfl, rfl, by simp [session], fun _ ↦ rfl, by simp,
      ⟨[], rfl, by simp [session]⟩, by simp [session], by simp [session], by simp [session]⟩
  | @cons f malloc fs mallocs hf _ ih =>
    obtain ⟨e, hagain, he⟩ :=
      RecvRequest.await_reads malloc f (fs.flatMap Frame.bytes ++ tail) rs
    rw [← List.append_assoc, ← List.flatMap_cons] at he
    rcases hout : RecvRequest.await malloc ((f :: fs).flatMap Frame.bytes ++ tail) rs with
      ⟨x, q, stream, rest⟩
    rw [hout] at he
    obtain rfl : x = .ofFill e := he.exit_eq
    have hstream : stream = f.bytes.drop q.recvedBytes ++ (fs.flatMap Frame.bytes ++ tail) :=
      he.stream_eq
    have hprogress : chunks rs ≤ chunks rest + q.recvedBytes := he.progress
    have hused : Used rs e rest := he.used
    have hfull : e = .full ↔ q.recvedBytes = f.len + 4 := he.full_iff
    have hle : q.recvedBytes ≤ f.len + 4 := he.reading.le_len
    rw [session, hout]
    by_cases hdone : e = .full
    · subst hdone
      have hrecved := hfull.1 rfl
      have hresult : q.result = f.len + 4 := he.result_full rfl
      have hdelivery := RecvRequest.delivery_eq he.reading hrecved hresult hf
      -- a complete frame: the session goes on with what is behind it
      obtain ⟨j, hj⟩ := ih rest
      refine ⟨j + 1, ?_⟩
      rw [hrecved, ← f.length_bytes, List.drop_length, List.nil_append] at hstream
      simp only [HandlerExit.ofFill, hresult, if_pos (show (0 : Int) < f.len + 4 by omega),
        hdelivery, hstream]
      exact hj.cons hused (by omega)
    · have hlt : q.recvedBytes < f.len + 4 := by
        rcases Nat.lt_or_ge q.recvedBytes (f.len + 4) with h | h
        · exact h
        · exact absurd (hfull.2 (Nat.le_antisymm hle h)) hdone
      -- otherwise it stops inside this frame
      obtain ⟨used, hsplit, hclosed, herror, -⟩ := hused.split
      refine ⟨0, ?_⟩
      cases e with
      | full => exact absurd rfl hdone
      | again => exact absurd rfl hagain
      | closed =>
        have hresult : q.result = 0 := he.result_closed rfl
        simp only [HandlerExit.ofFill, hresult, hstream, if_neg (show ¬ (0 : Int) < 0 by omega)]
        exact .stop hlt (.inr (.inl rfl)) ⟨used, hsplit, by simp [hclosed], by simp [herror]⟩
          hprogress
      | error =>
        have hresult : q.result = -1 := he.result_error rfl
        simp only [HandlerExit.ofFill, hresult, hstream, if_neg (show ¬ (0 : Int) < -1 by omega)]
        exact .stop hlt (.inr (.inr rfl)) ⟨used, hsplit, by simp [hclosed], by simp [herror]⟩
          hprogress
      | starved =>
        simp only [HandlerExit.ofFill, hstream]
        exact .stop hlt (.inl ⟨rfl, hused.starved rfl⟩)
          ⟨used, hsplit, by simp [hclosed], by simp [herror]⟩ hprogress

/-- With a positive reply for every byte, and neither an end of the stream nor an error, the session
finishes. -/
theorem session_finishes {fs : List Frame} {mallocs : List Malloc}
    (hfit : List.Forall₂ Frame.FitsIn fs mallocs) (tail : List UInt8) {rs : List Reply}
    (henough : (fs.flatMap Frame.bytes).length ≤ chunks rs) (hclosed : .closed ∉ rs)
    (herror : .error ∉ rs) :
    ∃ rest, session mallocs (fs.flatMap Frame.bytes ++ tail) rs =
      (fs.map Frame.delivery, .finished, tail, rest) := by
  obtain ⟨j, hj⟩ := session_framesRead hfit tail rs
  rcases hout : session mallocs (fs.flatMap Frame.bytes ++ tail) rs with ⟨ds, fin, stream, rest⟩
  rw [hout] at hj
  obtain ⟨used, hsplit, hused, hused'⟩ := hj.used
  have hfin : fin = .finished := by
    rcases fin with - | r | -
    · rfl
    · exfalso
      rcases hj.failed r rfl with rfl | rfl
      · exact hclosed (hsplit ▸ List.mem_append_left _ (hused.2 rfl))
      · exact herror (hsplit ▸ List.mem_append_left _ (hused'.2 rfl))
    · exfalso
      -- all replies are used up, yet part of a frame is missing
      obtain rfl : rest = [] := hj.waiting rfl
      have hlt : j < fs.length :=
        Nat.lt_of_le_of_ne hj.le_length fun h ↦ by simpa using hj.finished_iff.2 h
      obtain ⟨f, n, -, hn, hstream⟩ := hj.stream_partial hlt
      have hprogress := hj.progress
      have hlen := congrArg List.length hstream
      simp only [List.length_append, List.length_drop, Frame.length_bytes, chunks_nil]
        at hprogress hlen
      omega
  have hall := hj.finished_iff.1 hfin
  refine ⟨rest, ?_⟩
  rw [hfin, show stream = tail from hj.stream_finished hall,
    show ds = (fs.take j).map Frame.delivery from hj.deliveries_eq, hall, List.take_length]

/-- **Framing.** On a stream that begins with well-formed frames, and whatever `::recv` replies:
the awaits deliver the frames in order, each with its length and its bytes, up to the first that
is pending or meets the end of the stream or an error, which resumes with 0 or -1; nothing but the
delivered frames and a beginning of the next is consumed. When `::recv` delivers again and again and
never ends or fails, all awaits complete and exactly the bytes of the frames are consumed. -/
theorem session_reads_frames {fs : List Frame} {mallocs : List Malloc}
    (hfit : List.Forall₂ Frame.FitsIn fs mallocs) (tail : List UInt8) :
    (∀ rs, ∃ j, FramesRead fs tail rs j (session mallocs (fs.flatMap Frame.bytes ++ tail) rs)) ∧
      ∀ reply : ℕ → Reply, (∀ i, reply i ≠ .closed ∧ reply i ≠ .error) →
        (∀ i, ∃ j ≥ i, ∃ n, reply j = .chunk n) →
          ∃ N, ∀ n ≥ N, ∃ rest,
            session mallocs (fs.flatMap Frame.bytes ++ tail) ((List.range n).map reply) =
              (fs.map Frame.delivery, .finished, tail, rest) := by
  refine ⟨session_framesRead hfit tail, fun reply hreply hoften ↦ ?_⟩
  obtain ⟨N, hN⟩ := exists_forall_le_chunks hoften (fs.flatMap Frame.bytes).length
  refine ⟨N, fun n hn ↦ session_finishes hfit tail (hN n hn) ?_ ?_⟩
  · intro h
    obtain ⟨i, -, hi⟩ := List.mem_map.1 h
    exact (hreply i).1 hi
  · intro h
    obtain ⟨i, -, hi⟩ := List.mem_map.1 h
    exact (hreply i).2 hi

/-- `malloc` of a pool that has nothing cached: the fresh path, at the address `p`. -/
def emptyPoolMalloc (limit : UInt64) (p : ℕ) (bytes : ℕ → UInt8) : Malloc := fun r ↦
  ⟨((BufferPool.newInst limit).malloc r 0 p).1, bytes⟩

/-- A frame of 2 bytes and one of 5, whose payload is to be aligned to 64 bytes. -/
def twoFrames : List Frame :=
  [⟨0, 0, [], by decide, by decide, by decide⟩, ⟨6, 6, [1, 2, 3], by decide, by decide, by decide⟩]

/-- The two frames in chunks of at most three bytes, every other call interrupted or blocked. -/
theorem session_reads_two_frames :
    ∃ N, ∀ n ≥ N, ∃ rest,
      session [emptyPoolMalloc 0 4096 fun _ ↦ 7, emptyPoolMalloc 0 8192 fun _ ↦ 7]
          (twoFrames.flatMap Frame.bytes ++ [9])
          ((List.range n).map fun i ↦
            if i % 3 = 0 then .chunk 2 else if i % 3 = 1 then .intr else .again) =
        (twoFrames.map Frame.delivery, .finished, [9], rest) := by
  refine (session_reads_frames ?_ [9]).2 _ (fun i ↦ ?_) fun i ↦ ⟨3 * i, by omega, 2, ?_⟩
  · refine .cons ?_ (.cons ?_ .nil)
    all_goals unfold Frame.FitsIn; decide
  · split
    · simp
    · split <;> simp
  · simp

end Nsio
