import Nsio.Coio.RecvRequest

/-!
# The reader `recv_lazy` and the coroutine `recv_request2`

`recv_lazy` fills a span of memory: one loop, entered again at each read event. `recv_request2`
reads a frame with two of them, the header into an array of its own and the rest into the request
buffer. This module compares it with the hand-written reader `recv_request`.

## One description of both

How a reading ends, and what it leaves of the stream, depends on how many bytes are missing and
not on where they are stored or how often the loop is entered: that is `drain`. Both readers
read six bytes and then the rest (`drainFrame`, `await_drainFrame`, `recvRequest2_drainFrame`).

## Where they differ

* `align_bit` is a reference into the header array, so the default alignment is written into the
  sixth byte, **and from there into the data**. The coroutine hands over the frame
  `Frame.withDefault`.
* A frame of two bytes has nothing after its header. The second `recv_lazy` fills an empty span,
  its result is 0, and the coroutine takes that for the end of the stream.
-/

namespace Nsio

/-! ### `recv_lazy` -/

/-- `recv_lazy`, with the memory its span lies in. -/
structure RecvLazy where
  /-- `_recved_bytes`. -/
  recvedBytes : ℕ := 0
  /-- `_result`. -/
  result : Int := -1
  /-- The memory of `_buff`. -/
  mem : Region
  /-- The offset of `_buff.data()` in that memory. -/
  begin : ℕ
  /-- `_buff.size()`. -/
  size : ℕ
  /-- The ranges stored to, as offset in the memory and length. -/
  stores : List (ℕ × ℕ) := []

namespace RecvLazy

/-- `(int)_buff.size()`, the bound of the loop. -/
def want (q : RecvLazy) : ℕ := (Int32.ofNat q.size).toInt.toNat

/-- The state of the loop. -/
def toFill (q : RecvLazy) (stream : List UInt8) : Fill := ⟨q.recvedBytes, q.mem, stream, q.stores⟩

/-- The awaiter after the loop was left. -/
def afterFill (q : RecvLazy) (e : FillExit) (s : Fill) : RecvLazy :=
  { q with
    recvedBytes := s.got
    mem := s.mem
    stores := s.calls
    result := match e with
      | .full => s.got
      | .closed => 0
      | .error => -1
      | .again | .starved => q.result }

/-- `recv_lazy::on_file_event`. -/
def onFileEvent (q : RecvLazy) (stream : List UInt8) (event : Int) (rs : List Reply) :
    HandlerExit × RecvLazy × List UInt8 × List Reply :=
  if event ≤ 0 then (.resumed, q, stream, rs)
  else
    match fill q.begin q.want rs (q.toFill stream) with
    | (e, s, rest) => (.ofFill e, q.afterFill e s, s.stream, rest)

/-- The loop dispatches read events until the awaiter resumes its coroutine. -/
def dispatch : ℕ → RecvLazy → List UInt8 → List Reply →
    HandlerExit × RecvLazy × List UInt8 × List Reply
  | 0, q, stream, rs => (.starved, q, stream, rs)
  | n + 1, q, stream, rs =>
    match q.onFileEvent stream emRead rs with
    | (.rearmed, q, stream, rest) => dispatch n q stream rest
    | out => out

/-- One `co_await recv_lazy`. -/
def await (mem : Region) (begin size : ℕ) (stream : List UInt8) (rs : List Reply) :
    HandlerExit × RecvLazy × List UInt8 × List Reply :=
  dispatch (rs.length + 1) { mem := mem, begin := begin, size := size } stream rs

/-- The awaiter after two parts of a loop is the awaiter after the second. -/
theorem afterFill_afterFill {q : RecvLazy} {d : FillExit} (hd : d = .again ∨ d = .starved)
    (e : FillExit) (s t : Fill) : (q.afterFill d s).afterFill e t = q.afterFill e t := by
  rcases hd with rfl | rfl <;> cases e <;> rfl

theorem onFileEvent_emRead {q : RecvLazy} {stream : List UInt8} {rs rest : List Reply}
    {e : FillExit} {s : Fill} (h : fill q.begin q.want rs (q.toFill stream) = (e, s, rest)) :
    q.onFileEvent stream emRead rs = (.ofFill e, q.afterFill e s, s.stream, rest) := by
  rw [onFileEvent, if_neg (by decide), h]

/-- **What dispatching the awaiter does**: its loop is one reading, however often it is entered, and
the awaiter resumes unless the replies end. -/
theorem dispatch_spec {n : ℕ} (q : RecvLazy) (stream : List UInt8) (rs : List Reply)
    (hn : rs.length < n) :
    ∃ e s rest, e ≠ .again ∧ FillSpec q.begin q.want rs (q.toFill stream) e s rest ∧
      drain (q.want - q.recvedBytes) rs stream = (e, s.stream, rest) ∧
      dispatch n q stream rs = (.ofFill e, q.afterFill e s, s.stream, rest) := by
  induction n generalizing q stream rs with
  | zero => omega
  | succ n ih =>
    obtain ⟨e, s, rest, hfill, hspec⟩ := exists_fill_eq q.begin q.want rs (q.toFill stream)
    have hevent := onFileEvent_emRead hfill
    have hdrain := drain_of_fill hfill
    by_cases hagain : e = .again
    · subst hagain
      -- the handler armed itself again, and the loop is entered where it was left
      obtain ⟨e, t, rest', hne, hspec', hdrain', hout⟩ :=
        ih (q.afterFill .again s) s.stream rest (by have := hspec.used.length_lt; omega)
      refine ⟨e, t, rest', hne, hspec.again_trans hspec', hdrain.trans hdrain', ?_⟩
      rw [afterFill_afterFill (.inl rfl)] at hout
      rw [dispatch, hevent]
      exact hout
    · refine ⟨e, s, rest, hagain, hspec, hdrain.trans (if_neg hagain), ?_⟩
      rw [dispatch, hevent]
      cases e <;> first | exact absurd rfl hagain | rfl

/-- One await, of a size that an `int` can hold. -/
theorem await_eq (mem : Region) (begin : ℕ) {size : ℕ} (hsize : size < 2 ^ 31)
    (stream : List UInt8) (rs : List Reply) :
    ∃ e s rest, e ≠ .again ∧ FillSpec begin size rs ⟨0, mem, stream, []⟩ e s rest ∧
      drain size rs stream = (e, s.stream, rest) ∧
      await mem begin size stream rs =
        (.ofFill e, afterFill { mem := mem, begin := begin, size := size } e s, s.stream,
          rest) := by
  have hwant : want { mem := mem, begin := begin, size := size } = size := by
    rw [want, Int32.toInt_ofNat_of_lt hsize]
    rfl
  have hspec := dispatch_spec { mem := mem, begin := begin, size := size } stream rs
    (Nat.lt_succ_self _)
  rwa [hwant] at hspec

/-- What the coroutine sees of an await. -/
theorem await_spec (mem : Region) (begin : ℕ) {size : ℕ} (hsize : size < 2 ^ 31)
    (stream : List UInt8) (rs : List Reply) :
    ∃ e s rest, ∃ q : RecvLazy, e ≠ .again ∧
      FillSpec begin size rs ⟨0, mem, stream, []⟩ e s rest ∧
      drain size rs stream = (e, s.stream, rest) ∧ q.mem = s.mem ∧
      (e = .full → q.result = size) ∧ (e = .closed → q.result = 0) ∧
      (e = .error → q.result = -1) ∧
      await mem begin size stream rs = (.ofFill e, q, s.stream, rest) := by
  obtain ⟨e, s, rest, hne, hspec, hdrain, hout⟩ := await_eq mem begin hsize stream rs
  refine ⟨e, s, rest, _, hne, hspec, hdrain, rfl, ?_, ?_, ?_, hout⟩
  · rintro rfl
    have hgot : s.got = 0 + size := (hspec.filled_of_full (Nat.zero_le _)).got_eq
    show (s.got : Int) = size
    omega
  · rintro rfl
    rfl
  · rintro rfl
    rfl

/-! ### A run of an await, point by point -/

/-- More dispatches than the replies can need change nothing. -/
theorem dispatch_congr {m n : ℕ} (q : RecvLazy) (stream : List UInt8) {rs : List Reply}
    (hm : rs.length < m) (hn : rs.length < n) :
    dispatch m q stream rs = dispatch n q stream rs := by
  induction m generalizing n q stream rs with
  | zero => omega
  | succ m ih =>
    obtain ⟨n, rfl⟩ := Nat.exists_eq_add_one_of_ne_zero (show n ≠ 0 by omega)
    obtain ⟨e, s, rest, hfill, hspec⟩ := exists_fill_eq q.begin q.want rs (q.toFill stream)
    rw [dispatch, dispatch, onFileEvent_emRead hfill]
    cases e with
    | again =>
      have := hspec.used.length_lt
      exact ih _ _ (by omega) (by omega)
    | full | closed | error | starved => rfl

/-- **A run of dispatches goes on from where it is** when there are more replies. So the state after
the first replies of a run is a point of that run. -/
theorem dispatch_append {m n : ℕ} {q q' : RecvLazy} {stream left : List UInt8}
    {rs rest : List Reply} (hn : rs.length < n)
    (h : dispatch n q stream rs = (.starved, q', left, rest)) (post : List Reply)
    (hm : (rs ++ post).length < m) :
    dispatch m q stream (rs ++ post) = dispatch (post.length + 1) q' left post := by
  induction n generalizing m q stream rs with
  | zero => omega
  | succ n ih =>
    obtain ⟨m, rfl⟩ := Nat.exists_eq_add_one_of_ne_zero (show m ≠ 0 by omega)
    rw [List.length_append] at hm
    obtain ⟨e, s, rest', hfill, hspec⟩ := exists_fill_eq q.begin q.want rs (q.toFill stream)
    rw [dispatch, onFileEvent_emRead hfill] at h
    cases e with
    | again =>
      -- the loop was left and entered again before the replies ended
      have hlt := hspec.used.length_lt
      rw [dispatch, onFileEvent_emRead (fill_append_of_ne_starved hfill (by simp) post)]
      exact ih (by omega) h (by rw [List.length_append]; omega)
    | starved =>
      obtain ⟨-, rfl, rfl, -⟩ : True ∧ q.afterFill .starved s = q' ∧ s.stream = left ∧ _ := by
        simpa [HandlerExit.ofFill] using h
      obtain ⟨e, t, rest'', hfill', hspec'⟩ := exists_fill_eq q.begin q.want post s
      have hpost : (q.afterFill .starved s).onFileEvent s.stream emRead post =
          (.ofFill e, q.afterFill e t, t.stream, rest'') := by
        rw [onFileEvent_emRead (q := q.afterFill .starved s) hfill',
          afterFill_afterFill (.inr rfl)]
      rw [dispatch, dispatch, hpost,
        onFileEvent_emRead ((fill_append_of_starved hfill post).trans hfill')]
      cases e with
      | again =>
        have := hspec'.used.length_lt
        exact dispatch_congr _ _ (by omega) (by omega)
      | full | closed | error | starved => rfl
    | full | closed | error => exact absurd (Prod.mk.inj h).1 (by simp [HandlerExit.ofFill])

/-- **The exactness of a reader** of a span of `n` bytes: the bytes it has are the first of the
stream, in the span and nowhere else, and it has taken no others from the stream. -/
structure Exact (mem : Region) (begin n : ℕ) (stream : List UInt8) (q : RecvLazy)
    (left : List UInt8) : Prop where
  recvedBytes_le : q.recvedBytes ≤ n ∧ q.recvedBytes ≤ stream.length
  stored : q.mem.read begin q.recvedBytes = stream.take q.recvedBytes
  consumed : left = stream.drop q.recvedBytes
  outside : ∀ i, i < begin ∨ begin + n ≤ i → q.mem.cell i = mem.cell i
  inside : ∀ c ∈ q.stores, begin ≤ c.1 ∧ c.1 + c.2 ≤ begin + n

/-- **What the result of a reader says**, of a span of `n` bytes and after the replies `used`. -/
structure Reports (n : ℕ) (q : RecvLazy) (used : List Reply) : Prop where
  full_iff : q.result = n ↔ q.recvedBytes = n
  closed : q.result = 0 → .closed ∈ used ∧ q.recvedBytes < n
  error : q.result = -1 → .error ∈ used
  result_eq : q.result = n ∨ q.result = 0 ∨ q.result = -1

variable {mem : Region} {begin n : ℕ} {stream : List UInt8} {rs rest : List Reply} {e : FillExit}
  {s : Fill}

theorem exact_afterFill (hroom : begin + n ≤ mem.cap)
    (h : FillSpec begin n rs ⟨0, mem, stream, []⟩ e s rest) :
    Exact mem begin n stream (afterFill { mem := mem, begin := begin, size := n } e s)
      s.stream := by
  have hheld := h.holdsPrefix hroom
  exact ⟨hheld.got_le, hheld.stored, hheld.consumed, hheld.outside, hheld.inside⟩

theorem reports_afterFill {used : List Reply} (hpos : 1 ≤ n)
    (h : FillSpec begin n rs ⟨0, mem, stream, []⟩ e s rest) (hres : HandlerExit.ofFill e = .resumed)
    (hclosed : .closed ∈ used ↔ e = .closed) (herror : .error ∈ used ↔ e = .error) :
    Reports n (afterFill { mem := mem, begin := begin, size := n } e s) used := by
  have hle : s.got ≤ max 0 n := h.got_le
  have hfull : e = .full ↔ n ≤ s.got := h.full_iff
  cases e with
  | full =>
    have hgot : s.got = n := by
      have := hfull.1 rfl
      omega
    have hresult : (afterFill { mem := mem, begin := begin, size := n } .full s).result = n :=
      congrArg Nat.cast hgot
    refine ⟨iff_of_true hresult hgot, fun h0 ↦ ?_, fun h1 ↦ ?_, .inl hresult⟩
    · rw [hresult] at h0
      omega
    · rw [hresult] at h1
      omega
  | closed =>
    have hlt : s.got < n := Nat.not_le.1 fun hge ↦ absurd (hfull.2 hge) (by simp)
    refine ⟨iff_of_false ?_ (Nat.ne_of_lt hlt), fun _ ↦ ⟨hclosed.2 rfl, hlt⟩, fun h1 ↦ ?_,
      .inr (.inl rfl)⟩
    · show (0 : Int) ≠ n
      omega
    · exact absurd (show (0 : Int) = -1 from h1) (by decide)
  | error =>
    have hlt : s.got < n := Nat.not_le.1 fun hge ↦ absurd (hfull.2 hge) (by simp)
    refine ⟨iff_of_false ?_ (Nat.ne_of_lt hlt), fun h0 ↦ ?_, fun _ ↦ herror.2 rfl, .inr (.inr rfl)⟩
    · show (-1 : Int) ≠ n
      omega
    · exact absurd (show (-1 : Int) = 0 from h0) (by decide)
  | again | starved => exact absurd hres (by simp [HandlerExit.ofFill])

end RecvLazy

/-- **`recv_lazy` fills its buffer exactly.** After any replies of `::recv` the awaiter of a span of
`n` bytes is exact. It has resumed its coroutine, and then its result says what happened; or it has
met neither the end of the stream nor an error, and goes on from where it is with any further
replies, so that this holds at every point of a run. -/
theorem recvLazy_exact {mem : Region} {begin n : ℕ} (hpos : 1 ≤ n) (hmax : n ≤ 2 ^ 31 - 1)
    (hroom : begin + n ≤ mem.cap) (stream : List UInt8) (rs : List Reply) :
    ∃ exit q left rest, RecvLazy.await mem begin n stream rs = (exit, q, left, rest) ∧
      q.Exact mem begin n stream left ∧
      ((exit = .resumed ∧ ∃ used, rs = used ++ rest ∧ q.Reports n used) ∨
        (exit = .starved ∧ .closed ∉ rs ∧ .error ∉ rs ∧ q.recvedBytes < n ∧ ∀ post,
          RecvLazy.await mem begin n stream (rs ++ post) =
            RecvLazy.dispatch (post.length + 1) q left post)) := by
  obtain ⟨e, s, rest, hne, hspec, -, hout⟩ :=
    RecvLazy.await_eq mem begin (show n < 2 ^ 31 by omega) stream rs
  refine ⟨_, _, _, _, hout, RecvLazy.exact_afterFill hroom hspec, ?_⟩
  obtain ⟨used, hused, hclosed, herror, -⟩ := hspec.used.split
  -- the replies ran out with the coroutine still suspended, or it has been resumed
  by_cases hstarved : e = .starved
  · subst hstarved
    obtain rfl := hspec.used.starved rfl
    rw [List.append_nil] at hused
    have hfull : FillExit.starved = .full ↔ n ≤ s.got := hspec.full_iff
    have hlt : s.got < n := Nat.not_le.1 fun hge ↦ absurd (hfull.2 hge) (by simp)
    refine .inr ⟨rfl, ?_, ?_, hlt, fun post ↦ ?_⟩
    · rw [hused, hclosed]
      simp
    · rw [hused, herror]
      simp
    · exact RecvLazy.dispatch_append (Nat.lt_succ_self _) hout post (Nat.lt_succ_self _)
  · have hres : HandlerExit.ofFill e = .resumed := by
      cases e <;> first | rfl | exact absurd rfl hne | exact absurd rfl hstarved
    exact .inl ⟨hres, used, hused, RecvLazy.reports_afterFill hpos hspec hres hclosed herror⟩

/-- A span of 3 bytes in the middle of 5, with a blocked and an interrupted call on the way. -/
theorem recvLazy_exact_blocked :
    ∃ exit q left rest, RecvLazy.await ⟨5, fun _ ↦ 0⟩ 1 3 [10, 11, 12, 13]
        [.chunk 1, .again, .intr, .chunk 5] = (exit, q, left, rest) ∧
      q.Exact ⟨5, fun _ ↦ 0⟩ 1 3 [10, 11, 12, 13] left ∧ exit = .resumed ∧ q.result = 3 ∧
      left = [13] := by
  obtain ⟨exit, q, left, rest, hout, hexact, -⟩ := @recvLazy_exact ⟨5, fun _ ↦ 0⟩ 1 3
    (by decide) (by decide) (by decide) [10, 11, 12, 13] [.chunk 1, .again, .intr, .chunk 5]
  refine ⟨exit, q, left, rest, hout, hexact, ?_⟩
  obtain ⟨rfl, rfl, rfl, rfl⟩ := hout
  exact ⟨rfl, rfl, rfl⟩

/-! ### `recv_request2` -/

/-- The header in the first six bytes of a region. -/
def Header.ofRegion (m : Region) : Header :=
  { len := ntohl (m.cell 0) (m.cell 1) (m.cell 2) (m.cell 3)
    alignOff := m.cell 4
    alignBit := m.cell 5 }

/-- `if (align_bit == 0) align_bit = 6`, through the reference into the header array. -/
def defaultAlignBit (header : Region) : Region :=
  if header.cell 5 = 0 then header.write 5 [6] else header

/-- The request buffer `recv_request2` makes for a header, in `uint32_t` arithmetic. -/
def Header.request2 (malloc : Malloc) (h : Header) : Allocation :=
  let off : UInt32 := h.alignOff.toUInt32
  if h.alignOff = 0 then
    let a := malloc ⟨h.len + 4, 6, 0⟩
    { a with buffer := a.buffer.setDataOffset 0 (h.len + 4) }
  else
    let a := malloc ⟨h.len + 4 - off, h.alignBit.toUInt32, off⟩
    { a with buffer := a.buffer.setDataOffset (a.buffer.bodyOff - off) (h.len + 4) }

/-- The array `header`, before anything is read into it. -/
def headerArray : Region := ⟨6, fun _ ↦ 0⟩

/-- The part of `recv_request2` after the header was read: the buffer is made, the header copied
into it, and the rest read behind it. The value is what the coroutine returns, if it does. -/
def recvRest (malloc : Malloc) (header : Region) (stream : List UInt8) (rs : List Reply) :
    Option Delivery × List UInt8 × List Reply :=
  let header := defaultAlignBit header
  let h := Header.ofRegion header
  let a := h.request2 malloc
  let begin := a.buffer.dataBegin.toNat
  let chunk := a.chunk.write begin (header.read 0 6)
  match RecvLazy.await chunk (begin + 6) (h.len - 2).toNat stream rs with
  | (.resumed, q, stream, rest) =>
    let dataLen := a.buffer.dataLen
    let data := q.mem.read begin dataLen.toNat
    (some ⟨if q.result ≤ 0 then q.result else dataLen.toInt32.toInt, dataLen.toNat, data⟩,
      stream, rest)
  | (_, _, stream, rest) => (none, stream, rest)

/-- `recv_request2`: what it returns, if it does, with the data at `req->data()`. -/
def recvRequest2 (malloc : Malloc) (stream : List UInt8) (rs : List Reply) :
    Option Delivery × List UInt8 × List Reply :=
  match RecvLazy.await headerArray 0 6 stream rs with
  | (.resumed, q, stream, rest) =>
    if q.result ≠ 6 then (some ⟨q.result, 0, []⟩, stream, rest)
    else recvRest malloc q.mem stream rest
  | (_, _, stream, rest) => (none, stream, rest)

/-- What a coroutine sees of `co_await recv_request`. -/
def RecvRequest.outcome (malloc : Malloc) (stream : List UInt8) (rs : List Reply) :
    Option Delivery × List UInt8 × List Reply :=
  match RecvRequest.await malloc stream rs with
  | (.resumed, q, stream, rest) => (some q.delivery, stream, rest)
  | (_, _, stream, rest) => (none, stream, rest)

/-- Both arithmetics give one request. -/
theorem Header.request2_eq (malloc : Malloc) (h : Header) :
    h.request2 malloc = h.request malloc := by
  have hlen : (h.len.toInt32 + 4).toUInt32 = h.len + 4 := by
    rw [Int32.toUInt32_add, UInt32.toUInt32_toInt32]
    rfl
  have hoff : (h.len.toInt32 + 4 - h.alignOff.toUInt32.toInt32).toUInt32 =
      h.len + 4 - h.alignOff.toUInt32 := by
    rw [Int32.toUInt32_sub, hlen, UInt32.toUInt32_toInt32]
  rw [request2, request]
  dsimp only
  rw [hlen, hoff]

/-! ### A frame read in two parts -/

/-- Reading a frame of the length `len` of which `got` bytes are there: what is missing of the
header, and then the rest. -/
def drainFrame (len got : ℕ) (rs : List Reply) (stream : List UInt8) :
    FillExit × List UInt8 × List Reply :=
  if got < 6 then
    match drain (6 - got) rs stream with
    | (.full, stream, rest) => drain (len - 2) rest stream
    | out => out
  else drain (len + 4 - got) rs stream

namespace RecvRequest

variable {malloc : Malloc} {f : Frame} {q : RecvRequest}

/-- A handler of `recv_request` that started after `n` bytes of a frame of the length `len` left by
the loop exit `e`: the frame is read, or the reading goes on from what the handler left. -/
structure Drains (len n : ℕ) (stream : List UInt8) (rs : List Reply) (e : FillExit)
    (out : HandlerExit × RecvRequest × List UInt8 × List Reply) : Prop where
  exit_eq : out.1 = .ofFill e
  drain_eq : drainFrame len n rs stream =
    if e = .again then drainFrame len out.2.1.recvedBytes out.2.2.2 out.2.2.1
    else (e, out.2.2.1, out.2.2.2)
  full : e = .full → out.2.1.recvedBytes = len + 4 ∧ out.2.1.result = len + 4
  closed : e = .closed → out.2.1.result = 0
  error : e = .error → out.2.1.result = -1

theorem recvBody_drains (hq : InRequest malloc f q) (hlo : 6 ≤ q.recvedBytes)
    (hhi : q.recvedBytes ≤ f.len + 4) (stream : List UInt8) (rs : List Reply) :
    ∃ e, Drains f.len q.recvedBytes stream rs e (q.recvBody stream rs) := by
  have hwant : q.cmdLen.toInt.toNat = f.len + 4 := by rw [hq.cmdLen_eq]; omega
  obtain ⟨e, t, rest, hfill, hspec⟩ := exists_fill_eq q.dataBegin (f.len + 4) rs
    ⟨q.recvedBytes, q.chunk, stream, q.stores⟩
  obtain ⟨k, hk⟩ := hspec.filled
  have hgot : t.got = q.recvedBytes + k := hk.got_eq
  have hle : t.got ≤ max q.recvedBytes (f.len + 4) := hspec.got_le
  have hdrain := drain_of_fill hfill
  have hfull := hspec.full_iff
  have hstart : ∀ m rs stream, 6 ≤ m → drainFrame f.len m rs stream =
      drain (f.len + 4 - m) rs stream := fun m rs stream hm ↦ if_neg (by omega)
  refine ⟨e, ?_⟩
  rw [recvBody, hwant, hfill]
  cases e with
  | full | closed | error | again | starved =>
    refine ⟨rfl, ?_, ?_, ?_, ?_⟩
    · rw [hstart _ _ _ hlo, hdrain]
      dsimp only
      rw [hstart _ _ _ (by omega)]
    all_goals simp only [reduceCtorEq, false_iff, true_iff, false_implies, forall_const] at *
    all_goals first | trivial | omega

/-- One dispatch of the handler, whichever loop it is in. -/
theorem onFileEvent_drains (hq : Reading malloc f q) (tail : List UInt8) (rs : List Reply) :
    ∃ e, Drains f.len q.recvedBytes (f.bytes.drop q.recvedBytes ++ tail) rs e
      (q.onFileEvent malloc (f.bytes.drop q.recvedBytes ++ tail) emRead rs) := by
  rw [onFileEvent, if_neg (by decide)]
  by_cases hlt : q.recvedBytes < 6
  · obtain ⟨e, t, rest, hfill, hspec⟩ := exists_fill_eq 0 6 rs
      ⟨q.recvedBytes, q.buf, f.bytes.drop q.recvedBytes ++ tail, []⟩
    have hfull : e = .full ↔ 6 ≤ t.got := hspec.full_iff
    have hdrain := drain_of_fill hfill
    rw [if_pos hlt, hfill]
    cases e with
    | full =>
      obtain ⟨hdone, hin⟩ := header_full hq hlt hspec
      set q₁ : RecvRequest := { q with recvedBytes := t.got, buf := t.mem } with hq₁
      have hrecved : (q₁.onHeader malloc).recvedBytes = 6 := hdone
      obtain ⟨e, he⟩ := recvBody_drains hin (by omega)
        (by rw [hrecved]; simp [Frame.len]) t.stream rest
      refine ⟨e, he.exit_eq, ?_, he.full, he.closed, he.error⟩
      refine Eq.trans ?_ he.drain_eq
      rw [hrecved, drainFrame, if_pos hlt, hdrain, if_neg (by simp), drainFrame, if_neg (by omega)]
      rfl
    -- the next dispatch is still in the header loop
    | again =>
      have hnot : t.got < 6 := Nat.not_le.1 fun h ↦ by simp [h] at hfull
      refine ⟨.again, rfl, ?_, by simp, by simp, by simp⟩
      rw [drainFrame, if_pos hlt, hdrain, if_pos rfl, if_pos rfl, drainFrame, if_pos hnot]
    | closed =>
      refine ⟨.closed, rfl, ?_, by simp, fun _ ↦ rfl, by simp⟩
      rw [drainFrame, if_pos hlt, hdrain, if_neg (by simp), if_neg (by simp)]
    | error =>
      refine ⟨.error, rfl, ?_, by simp, by simp, fun _ ↦ rfl⟩
      rw [drainFrame, if_pos hlt, hdrain, if_neg (by simp), if_neg (by simp)]
    | starved =>
      refine ⟨.starved, rfl, ?_, by simp, by simp, by simp⟩
      rw [drainFrame, if_pos hlt, hdrain, if_neg (by simp), if_neg (by simp)]
  · rw [if_neg hlt]
    exact recvBody_drains (hq.inRequest (by omega)) (by omega) hq.le_len _ rs

theorem dispatch_drains {n : ℕ} {q : RecvRequest} (hq : Reading malloc f q) (tail : List UInt8)
    (rs : List Reply) (hn : rs.length < n) :
    ∃ e, e ≠ .again ∧ Drains f.len q.recvedBytes (f.bytes.drop q.recvedBytes ++ tail) rs e
      (dispatch malloc n q (f.bytes.drop q.recvedBytes ++ tail) rs) := by
  induction n generalizing q rs with
  | zero => omega
  | succ n ih =>
    -- `Reads` has the invariant for the next dispatch, `Drains` what was taken from the stream
    obtain ⟨d, hd⟩ := onFileEvent_reads hq tail rs
    obtain ⟨e, he⟩ := onFileEvent_drains hq tail rs
    rcases hout : q.onFileEvent malloc (f.bytes.drop q.recvedBytes ++ tail) emRead rs with
      ⟨x, q', stream', rest⟩
    rw [hout] at hd he
    obtain rfl : x = .ofFill e := he.exit_eq
    have hstream : stream' = f.bytes.drop q'.recvedBytes ++ tail := hd.stream_eq
    by_cases hagain : e = .again
    · subst hagain
      obtain rfl : d = .again := by
        have := hd.exit_eq
        cases d <;> first | rfl | exact absurd this (by simp [HandlerExit.ofFill])
      have hlen : rest.length < rs.length := hd.used.length_lt
      obtain ⟨e, hne', he'⟩ := ih hd.reading rest (by omega)
      refine ⟨e, hne', ?_⟩
      have hdispatch : dispatch malloc (n + 1) q (f.bytes.drop q.recvedBytes ++ tail) rs =
          dispatch malloc n q' (f.bytes.drop q'.recvedBytes ++ tail) rest := by
        rw [dispatch, hout, HandlerExit.ofFill, hstream]
      rw [hdispatch]
      refine ⟨he'.exit_eq, ?_, he'.full, he'.closed, he'.error⟩
      rw [he.drain_eq, if_pos rfl, ← he'.drain_eq, hstream]
    · refine ⟨e, hagain, ?_⟩
      rw [dispatch, hout]
      cases e <;> first | exact absurd rfl hagain | exact he

end RecvRequest

/-- How a reader of a frame answers its coroutine, when the reading ends by `e`. -/
def Answers (e : FillExit) (complete : Delivery) (answer : Option Delivery) : Prop :=
  match e with
  | .full => answer = some complete
  | .closed => ∃ d, answer = some d ∧ d.result = 0
  | .error => ∃ d, answer = some d ∧ d.result = -1
  | .again | .starved => answer = none

/-- **`recv_request` reads a frame in two parts**, and delivers it when both are complete. -/
theorem recvRequest_drainFrame {malloc : Malloc} {f : Frame} (hfit : f.FitsIn malloc)
    (tail : List UInt8) (rs : List Reply) :
    ∃ e stream rest answer, drainFrame f.len 0 rs (f.bytes ++ tail) = (e, stream, rest) ∧
      e ≠ .again ∧ Answers e f.delivery answer ∧
      RecvRequest.outcome malloc (f.bytes ++ tail) rs = (answer, stream, rest) := by
  obtain ⟨d, -, hd⟩ := RecvRequest.await_reads malloc f tail rs
  have hinit : Reading malloc f {} := RecvRequest.reading_init
  obtain ⟨e, hne, he⟩ := RecvRequest.dispatch_drains hinit tail rs (Nat.lt_succ_self _)
  have hawait : RecvRequest.dispatch malloc (rs.length + 1) {}
      (f.bytes.drop ({} : RecvRequest).recvedBytes ++ tail) rs =
      RecvRequest.await malloc (f.bytes ++ tail) rs := rfl
  rw [hawait] at he
  rcases hout : RecvRequest.await malloc (f.bytes ++ tail) rs with ⟨x, q, stream, rest⟩
  rw [hout] at hd he
  obtain rfl : x = .ofFill e := he.exit_eq
  have hdelivery : ∀ r, q.result = r → q.delivery.result = r := by
    intro r hr
    rw [RecvRequest.delivery]
    split <;> exact hr
  have hoption : RecvRequest.outcome malloc (f.bytes ++ tail) rs =
      (if HandlerExit.ofFill e = .resumed then some q.delivery else none, stream, rest) := by
    rw [RecvRequest.outcome, hout]
    cases e <;> rfl
  refine ⟨e, stream, rest, _, he.drain_eq.trans (if_neg hne), hne, ?_, hoption⟩
  -- a complete frame is compared as a whole, any other answer by its result
  cases e with
  | full =>
    obtain ⟨hrecved, hresult⟩ := he.full rfl
    exact congrArg some (RecvRequest.delivery_eq hd.reading hrecved hresult hfit)
  | closed => exact ⟨q.delivery, rfl, hdelivery 0 (he.closed rfl)⟩
  | error => exact ⟨q.delivery, rfl, hdelivery (-1) (he.error rfl)⟩
  | again => exact absurd rfl hne
  | starved => rfl

/-! ### The frame `recv_request2` hands over -/

/-- The frame with the default alignment written into it. -/
def Frame.withDefault (f : Frame) : Frame :=
  { f with
    alignBit := if f.alignBit = 0 then 6 else f.alignBit
    alignBit_ok := by
      split
      · decide
      · exact f.alignBit_ok }

namespace Frame

theorem len_withDefault (f : Frame) : f.withDefault.len = f.len := rfl

theorem alignBit_withDefault (f : Frame) :
    f.withDefault.alignBit = if f.alignBit = 0 then 6 else f.alignBit := rfl

theorem withDefault_bytes_eq_iff (f : Frame) :
    f.withDefault.bytes = f.bytes ↔ f.alignBit ≠ 0 := by
  rw [bytes, bytes, len_withDefault, List.append_cancel_left_eq, alignBit_withDefault]
  by_cases hbit : f.alignBit = 0
  · refine iff_of_false (fun h ↦ ?_) (fun h ↦ h hbit)
    have hsix := (List.cons.inj (List.cons.inj h).2).1
    rw [if_pos hbit, hbit] at hsix
    exact absurd hsix (by decide)
  · rw [if_neg hbit]
    exact iff_of_true rfl hbit

/-- The header array with a frame's header in it, once the default alignment is written. -/
theorem read_defaultAlignBit (f : Frame) :
    (defaultAlignBit (headerArray.write 0 (f.bytes.take 6))).read 0 6 =
      f.withDefault.bytes.take 6 := by
  have hcell : (headerArray.write 0 (f.bytes.take 6)).cell 5 = f.alignBit := rfl
  have htake : f.withDefault.bytes.take 6 =
      be32 f.len ++ [f.alignOff, if f.alignBit = 0 then 6 else f.alignBit] := rfl
  rw [defaultAlignBit, hcell, htake]
  by_cases hbit : f.alignBit = 0
  · rw [if_pos hbit, if_pos hbit]
    rfl
  · rw [if_neg hbit, if_neg hbit]
    rfl

theorem six_le_length (f : Frame) : 6 ≤ f.bytes.length := by
  rw [f.length_bytes]
  simp [len]

theorem length_drop_six (f : Frame) : (f.bytes.drop 6).length = f.len - 2 := by
  rw [List.length_drop, f.length_bytes]
  omega

/-- `cmd_len - 2`, the size of the second read, does not wrap around. -/
theorem toNat_header_len_sub_two (f : Frame) : (f.header.len - 2).toNat = f.len - 2 := by
  have hlenlt : f.len ≤ 2 ^ 31 - 5 := f.len_le_max
  have hlen : f.header.len.toNat = f.len := UInt32.toNat_ofNat_of_lt' (by norm_num; omega)
  have htwo : (2 : UInt32) ≤ f.header.len := by
    rw [UInt32.le_iff_toNat_le, hlen]
    simp [len]
  rw [UInt32.toNat_sub_of_le _ _ htwo, hlen]
  rfl

/-- The header and, behind it, the rest of a frame are the frame. -/
theorem write_take_write_drop (f : Frame) (m : Region) (off : ℕ) :
    (m.write off (f.bytes.take 6)).write (off + 6) (f.bytes.drop 6) = m.write off f.bytes := by
  have hsix : (f.bytes.take 6).length = 6 := rfl
  have h := Region.write_write m off (f.bytes.take 6) (f.bytes.drop 6)
  rwa [hsix, List.take_append_drop] at h

end Frame

/-- The first six bytes of a region are read as the header they spell. -/
theorem Header.ofRegion_eq {m : Region} {h : Header} (hread : m.read 0 6 = h.bytes) :
    Header.ofRegion m = h :=
  RecvRequest.header_eq (q := { buf := m }) hread

/-! ### `recv_request2` reads in two parts as well -/

/-- What the coroutine returns when its second reader resumes it. -/
def restDelivery (a : Allocation) (q : RecvLazy) : Delivery :=
  ⟨if q.result ≤ 0 then q.result else a.buffer.dataLen.toInt32.toInt, a.buffer.dataLen.toNat,
    q.mem.read a.buffer.dataBegin.toNat a.buffer.dataLen.toNat⟩

theorem result_restDelivery_of_nonpos {q : RecvLazy} (a : Allocation) (h : q.result ≤ 0) :
    (restDelivery a q).result = q.result :=
  if_pos h

/-- A second reader that got the rest has completed the frame behind the copied header. -/
theorem restDelivery_of_full {malloc : Malloc} {g : Frame} (hfit : g.FitsIn malloc) {q : RecvLazy}
    (hpos : 0 < q.result)
    (hmem : q.mem = (g.header.request malloc).chunk.write
      (g.header.request malloc).buffer.dataBegin.toNat g.bytes) :
    restDelivery (g.header.request malloc) q = g.delivery := by
  set a := g.header.request malloc with ha
  have hdataLen : a.buffer.dataLen.toNat = g.len + 4 := by
    rw [ha, Header.dataLen_request]
    exact toNat_cmdLen g.len_le_max
  have hresult : a.buffer.dataLen.toInt32.toInt = g.len + 4 := by
    rw [ha, Header.dataLen_request, Int32.toInt32_toUInt32]
    exact toInt_cmdLen g.len_le_max
  have hbytes : q.mem.read a.buffer.dataBegin.toNat (g.len + 4) = g.bytes := by
    rw [hmem]
    exact Region.read_write g.length_bytes hfit
  rw [restDelivery, if_neg (Int.not_le.2 hpos), hresult, hdataLen, hbytes]
  rfl

/-- After a complete header the second reader decides what the coroutine returns. -/
theorem recvRest_eq {malloc : Malloc} {f : Frame} {stream left : List UInt8} {rs rest : List Reply}
    {e : FillExit} {q : RecvLazy}
    (hawait : RecvLazy.await
      ((f.withDefault.header.request malloc).chunk.write
        (f.withDefault.header.request malloc).buffer.dataBegin.toNat (f.withDefault.bytes.take 6))
      ((f.withDefault.header.request malloc).buffer.dataBegin.toNat + 6) (f.len - 2) stream rs =
        (.ofFill e, q, left, rest)) :
    recvRest malloc (headerArray.write 0 (f.bytes.take 6)) stream rs =
      (if HandlerExit.ofFill e = .resumed then
        some (restDelivery (f.withDefault.header.request malloc) q) else none, left, rest) := by
  have hread := f.read_defaultAlignBit
  have hheader : Header.ofRegion (defaultAlignBit (headerArray.write 0 (f.bytes.take 6))) =
      f.withDefault.header := Header.ofRegion_eq (hread.trans f.withDefault.take_six)
  have hsize : (f.withDefault.header.len - 2).toNat = f.len - 2 :=
    f.withDefault.toNat_header_len_sub_two
  rw [recvRest]
  dsimp only
  rw [hheader, Header.request2_eq, hread, hsize, hawait]
  cases e <;> rfl

/-- After a complete header the rest is read behind it. A frame of two bytes has no rest, and the
coroutine returns 0. -/
theorem recvRest_drain {malloc : Malloc} {f : Frame} (hfit : f.withDefault.FitsIn malloc)
    (tail : List UInt8) (rs : List Reply) :
    ∃ e stream rest answer,
      drain (f.len - 2) rs (f.bytes.drop 6 ++ tail) = (e, stream, rest) ∧ e ≠ .again ∧
      (2 < f.len → Answers e f.withDefault.delivery answer) ∧
      (f.len = 2 → ∃ d, answer = some d ∧ d.result = 0) ∧
      recvRest malloc (headerArray.write 0 (f.bytes.take 6)) (f.bytes.drop 6 ++ tail) rs =
        (answer, stream, rest) := by
  set g := f.withDefault with hg
  have hlenlt : f.len ≤ 2 ^ 31 - 5 := f.len_le_max
  set a := g.header.request malloc with ha
  obtain ⟨e, s, rest, q, hne, hspec, hdrain, hmem, hfull, hclosed, herror, hawait⟩ :=
    RecvLazy.await_spec (a.chunk.write a.buffer.dataBegin.toNat (g.bytes.take 6))
      (a.buffer.dataBegin.toNat + 6) (show f.len - 2 < 2 ^ 31 by omega) (f.bytes.drop 6 ++ tail) rs
  refine ⟨e, s.stream, rest, _, hdrain, hne, fun hlen ↦ ?_, fun hlen ↦ ?_, recvRest_eq hawait⟩
  · cases e with
    -- the rest is stored behind the copied header, so that the frame is in one piece
    | full =>
      have hpos : 0 < q.result := by
        rw [hfull rfl]
        omega
      have hdata : q.mem = a.chunk.write a.buffer.dataBegin.toNat g.bytes := by
        have htake : (f.bytes.drop 6 ++ tail).take (f.len - 2) = g.bytes.drop 6 := by
          rw [← f.length_drop_six, List.take_left]
          rfl
        rw [hmem, ← g.write_take_write_drop, ← htake]
        exact (hspec.filled_of_full (Nat.zero_le _)).mem_eq
      exact congrArg some (restDelivery_of_full hfit hpos hdata)
    | closed =>
      have hzero := hclosed rfl
      exact ⟨_, rfl, by rw [result_restDelivery_of_nonpos a (by omega), hzero]⟩
    | error =>
      have hminus := herror rfl
      exact ⟨_, rfl, by rw [result_restDelivery_of_nonpos a (by omega), hminus]⟩
    | again => exact absurd rfl hne
    | starved => rfl
  -- an empty span is full at once, and its length 0 is taken for the end of the stream
  · have hzero : f.len - 2 = 0 := by omega
    rw [hzero, drain_zero] at hdrain
    obtain rfl : FillExit.full = e := (Prod.mk.inj hdrain).1
    have hresult : q.result = 0 := by rw [hfull rfl, hzero]; rfl
    exact ⟨_, rfl, by rw [result_restDelivery_of_nonpos a (by omega), hresult]⟩

/-- **`recv_request2` reads a frame in two parts.** With something after the header it answers as
`recv_request` does, but for the default alignment; a frame without anything after the header it
answers with 0. -/
theorem recvRequest2_drainFrame {malloc : Malloc} {f : Frame} (hfit : f.withDefault.FitsIn malloc)
    (tail : List UInt8) (rs : List Reply) :
    ∃ e stream rest answer, drainFrame f.len 0 rs (f.bytes ++ tail) = (e, stream, rest) ∧
      (2 < f.len → Answers e f.withDefault.delivery answer) ∧
      (f.len = 2 → e = .full → ∃ d, answer = some d ∧ d.result = 0) ∧
      recvRequest2 malloc (f.bytes ++ tail) rs = (answer, stream, rest) := by
  obtain ⟨e, s, rest, q, hne, hspec, hdrain, hmem, hfull, hclosed, herror, hawait⟩ :=
    RecvLazy.await_spec headerArray 0 (show 6 < 2 ^ 31 by omega) (f.bytes ++ tail) rs
  have hframe : drainFrame f.len 0 rs (f.bytes ++ tail) =
      match drain 6 rs (f.bytes ++ tail) with
      | (.full, stream, rest) => drain (f.len - 2) rest stream
      | out => out := if_pos (by omega)
  cases e with
  | full =>
    have hk : Filled 0 6 _ s 6 := hspec.filled_of_full (Nat.zero_le _)
    have hmem' : q.mem = headerArray.write 0 (f.bytes.take 6) := by
      rw [hmem, ← List.take_append_of_le_length f.six_le_length]
      exact hk.mem_eq
    have hstream : s.stream = f.bytes.drop 6 ++ tail := by
      rw [hk.stream_eq]
      exact List.drop_append_of_le_length f.six_le_length
    obtain ⟨e, stream, rest', answer, hdrain', -, hans, hzero, hout⟩ :=
      recvRest_drain hfit tail rest
    refine ⟨e, stream, rest', answer, ?_, hans, fun hlen _ ↦ hzero hlen, ?_⟩
    · rw [hframe, hdrain, hstream]
      exact hdrain'
    · have hsix : q.result = 6 := hfull rfl
      rw [recvRequest2, hawait]
      show (if q.result ≠ 6 then _ else recvRest malloc q.mem s.stream rest) = _
      rw [if_neg (not_not.2 hsix), hmem', hstream, hout]
  -- a header that is cut short is answered with the result of the first reader
  | closed =>
    refine ⟨.closed, s.stream, rest, some ⟨q.result, 0, []⟩, by rw [hframe, hdrain],
      fun _ ↦ ⟨_, rfl, hclosed rfl⟩, by simp, ?_⟩
    rw [recvRequest2, hawait]
    exact if_pos (by rw [hclosed rfl]; decide)
  | error =>
    refine ⟨.error, s.stream, rest, some ⟨q.result, 0, []⟩, by rw [hframe, hdrain],
      fun _ ↦ ⟨_, rfl, herror rfl⟩, by simp, ?_⟩
    rw [recvRequest2, hawait]
    exact if_pos (by rw [herror rfl]; decide)
  | again => exact absurd rfl hne
  | starved =>
    refine ⟨.starved, s.stream, rest, none, by rw [hframe, hdrain], fun _ ↦ rfl, by simp, ?_⟩
    rw [recvRequest2, hawait]
    rfl

/-! ### When the two readers agree -/

/-- Two readers of one stream agree: they consume the same, both return or both wait, the results
are equal, and so is what is delivered with a positive result. -/
def SameOutcome (x y : Option Delivery × List UInt8 × List Reply) : Prop :=
  x.2.1 = y.2.1 ∧
    match x.1, y.1 with
    | none, none => True
    | some d, some d' => d.result = d'.result ∧ (0 < d.result → d = d')
    | _, _ => False

theorem Answers.same {e : FillExit} {c : Delivery} {a b : Option Delivery} (ha : Answers e c a)
    (hb : Answers e c b) {stream : List UInt8} {rest rest' : List Reply} :
    SameOutcome (a, stream, rest) (b, stream, rest') := by
  refine ⟨rfl, ?_⟩
  cases e with
  | full =>
    obtain rfl : a = some c := ha
    obtain rfl : b = some c := hb
    exact ⟨rfl, fun _ ↦ rfl⟩
  | closed =>
    obtain ⟨d, rfl, hd⟩ := ha
    obtain ⟨d', rfl, hd'⟩ := hb
    exact ⟨hd.trans hd'.symm, fun h ↦ absurd hd h.ne'⟩
  | error =>
    obtain ⟨d, rfl, hd⟩ := ha
    obtain ⟨d', rfl, hd'⟩ := hb
    exact ⟨hd.trans hd'.symm, fun h ↦ by rw [hd] at h; exact absurd h (by decide)⟩
  | again | starved =>
    obtain rfl : a = none := ha
    obtain rfl : b = none := hb
    trivial

/-- Two calls that deliver all they are asked for read a frame to its end. -/
theorem drainFrame_full (f : Frame) :
    ∃ stream rest, drainFrame f.len 0 [.chunk 5, .chunk f.len] f.bytes = (.full, stream, rest) := by
  have hsix : 6 ≤ f.bytes.length := by rw [f.length_bytes]; simp [Frame.len]
  rw [drainFrame, if_pos (by omega), drain_chunk (by omega) (by omega) hsix]
  dsimp only
  rcases Nat.eq_zero_or_pos (f.len - 2) with hzero | hpos
  · rw [hzero, drain_zero]
    exact ⟨_, _, rfl⟩
  · rw [drain_chunk hpos (by omega) (by rw [List.length_drop, f.length_bytes]; omega)]
    exact ⟨_, _, rfl⟩

/-- **When `recv_request` and `recv_request2` agree.** They agree on a frame for every behaviour of
`::recv`, and whatever follows the frame on the stream, exactly when the frame has something after
its header and does not leave its alignment to the default. -/
theorem readers_agree_iff {f : Frame} {malloc malloc' : Malloc} (hfit : f.FitsIn malloc)
    (hfit' : f.withDefault.FitsIn malloc') :
    (∀ tail rs, SameOutcome (RecvRequest.outcome malloc (f.bytes ++ tail) rs)
        (recvRequest2 malloc' (f.bytes ++ tail) rs)) ↔
      2 < f.len ∧ f.alignBit ≠ 0 := by
  constructor
  · intro h
    -- one behaviour of `::recv` that delivers the whole frame is enough
    have hsame := h [] [.chunk 5, .chunk f.len]
    obtain ⟨e, stream, rest, answer, hdrain, -, hans, hout⟩ :=
      recvRequest_drainFrame hfit [] [.chunk 5, .chunk f.len]
    obtain ⟨e', stream', rest', answer', hdrain', hans', hzero, hout'⟩ :=
      recvRequest2_drainFrame hfit' [] [.chunk 5, .chunk f.len]
    obtain ⟨_, _, hfull⟩ := drainFrame_full f
    rw [List.append_nil] at hdrain hdrain'
    obtain rfl : .full = e := (Prod.mk.inj (hfull.symm.trans hdrain)).1
    obtain rfl : .full = e' := (Prod.mk.inj (hfull.symm.trans hdrain')).1
    obtain rfl : answer = some f.delivery := hans
    rw [hout, hout'] at hsame
    have hresult : f.delivery.result = f.len + 4 := rfl
    have hlen : 2 < f.len := by
      have hge : 2 ≤ f.len := Nat.le_add_left _ _
      rcases Nat.eq_or_lt_of_le hge with heq | hlt
      · obtain ⟨d, rfl, hd⟩ := hzero heq.symm rfl
        have hres : f.delivery.result = d.result := hsame.2.1
        omega
      · exact hlt
    obtain rfl : answer' = some f.withDefault.delivery := hans' hlen
    have heq : f.delivery = f.withDefault.delivery := hsame.2.2 (by omega)
    exact ⟨hlen, f.withDefault_bytes_eq_iff.1 (congrArg Delivery.data heq).symm⟩
  · rintro ⟨hlen, hbit⟩ tail rs
    obtain ⟨e, stream, rest, answer, hdrain, -, hans, hout⟩ := recvRequest_drainFrame hfit tail rs
    obtain ⟨e', stream', rest', answer', hdrain', hans', -, hout'⟩ :=
      recvRequest2_drainFrame hfit' tail rs
    obtain ⟨rfl, rfl, rfl⟩ : e = e' ∧ stream = stream' ∧ rest = rest' := by
      simpa using hdrain.symm.trans hdrain'
    have hdelivery : f.withDefault.delivery = f.delivery := by
      rw [Frame.delivery, Frame.delivery, f.withDefault_bytes_eq_iff.2 hbit, f.len_withDefault]
    rw [hout, hout']
    exact hans.same (hdelivery ▸ hans' hlen)

/-- A frame with a payload of three bytes that asks for an alignment of 64. -/
theorem readers_agree_aligned :
    (RecvRequest.outcome (emptyPoolMalloc 0 4096 fun _ ↦ 7) [0, 0, 0, 5, 6, 6, 1, 2, 3]
        [.chunk 5, .again, .chunk 2]).1 = some ⟨9, 9, [0, 0, 0, 5, 6, 6, 1, 2, 3]⟩ ∧
      ∀ tail rs, SameOutcome
        (RecvRequest.outcome (emptyPoolMalloc 0 4096 fun _ ↦ 7)
          ([0, 0, 0, 5, 6, 6, 1, 2, 3] ++ tail) rs)
        (recvRequest2 (emptyPoolMalloc 0 8192 fun _ ↦ 7)
          ([0, 0, 0, 5, 6, 6, 1, 2, 3] ++ tail) rs) := by
  refine ⟨by decide, ?_⟩
  refine (@readers_agree_iff ⟨6, 6, [1, 2, 3], by decide, by decide, by decide⟩ _ _ ?_ ?_).2 ?_
  · unfold Frame.FitsIn
    decide
  · unfold Frame.FitsIn
    decide
  · decide

/-- A frame of two bytes: `recv_request` returns 6, `recv_request2` returns 0. A frame of three
bytes without an alignment: both return 7, and the data of `recv_request2` has 6 for `align_bit`. -/
theorem readers_disagree :
    (RecvRequest.outcome (emptyPoolMalloc 0 4096 fun _ ↦ 7) [0, 0, 0, 2, 0, 6] [.chunk 5]).1 =
        some ⟨6, 6, [0, 0, 0, 2, 0, 6]⟩ ∧
      (recvRequest2 (emptyPoolMalloc 0 4096 fun _ ↦ 7) [0, 0, 0, 2, 0, 6] [.chunk 5]).1 =
        some ⟨0, 6, [0, 0, 0, 2, 0, 6]⟩ ∧
      (RecvRequest.outcome (emptyPoolMalloc 0 4096 fun _ ↦ 7) [0, 0, 0, 3, 0, 0, 1]
        [.chunk 5, .chunk 0]).1 = some ⟨7, 7, [0, 0, 0, 3, 0, 0, 1]⟩ ∧
      (recvRequest2 (emptyPoolMalloc 0 4096 fun _ ↦ 7) [0, 0, 0, 3, 0, 0, 1]
        [.chunk 5, .chunk 0]).1 = some ⟨7, 7, [0, 0, 0, 3, 0, 6, 1]⟩ := by
  decide

end Nsio
