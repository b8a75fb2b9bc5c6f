import Mathlib.Data.List.Basic
import Mathlib.Data.List.Count

/-!
# Filling a region from a byte stream, call by call

The substrate of every reader over a non-blocking stream socket: a bounded **region** of memory,
one **receive call** whose outcome the peer and the kernel decide, and the **fill loop** that calls
it until a wanted number of bytes is there.

```
while got < want:
    rc = recv(buf + got, want - got)
    rc > 0           -> got += rc
    interrupted      -> again
    would block      -> leave, to be entered again later
    end of stream, permanent error -> leave
```

What one call does is a `Reply`. A positive reply names how much the kernel is willing to hand over;
what arrives is cut down to the requested count and to what the stream holds, and on an empty
stream it is a call that would block. So every behaviour of a stream socket is a list of replies,
and `fill` is a function of that list; it is total because each call uses one reply up, and it
stops as `starved` when the list ends inside the loop.

`fill_spec` is the one description of the loop, whatever the replies: what it does to stream, region
and counter (`Filled`), how it leaves and which replies it used for that, and that each positive
reply it used moved at least one byte. Readers built on the loop cite it and never unfold `fill`.

The other direction is one **send call** that hands over a range of the sender's memory
(`Wire.send`), with the same replies. `Wire.SentInOrder` says that the kernel has accepted a
beginning of the memory; a call from the end of that beginning keeps it (`SentInOrder.advance`).
-/

/-! ### Regions -/

/-- A piece of memory of `cap` bytes. Offsets from `cap` on are not part of it. -/
structure Region where
  cap : ℕ
  cell : ℕ → UInt8

namespace Region

/-- Store bytes at an offset. What falls outside the region is not stored in it. -/
def write (m : Region) (off : ℕ) (bs : List UInt8) : Region :=
  { m with
    cell := fun i ↦ if off ≤ i ∧ i < m.cap then (bs[i - off]?).getD (m.cell i) else m.cell i }

/-- The `n` bytes from an offset on. -/
def read (m : Region) (off n : ℕ) : List UInt8 := (List.range n).map fun i ↦ m.cell (off + i)

@[simp] theorem cap_write (m : Region) (off : ℕ) (bs : List UInt8) : (m.write off bs).cap = m.cap :=
  rfl

@[simp] theorem write_nil (m : Region) (off : ℕ) : m.write off [] = m := by
  simp [write]

@[simp] theorem length_read (m : Region) (off n : ℕ) : (m.read off n).length = n := by
  simp [read]

/-- Two adjacent stores are one. -/
theorem write_write (m : Region) (off : ℕ) (as bs : List UInt8) :
    (m.write off as).write (off + as.length) bs = m.write off (as ++ bs) := by
  simp only [write, Region.mk.injEq, true_and]
  funext i
  by_cases hcap : i < m.cap
  · by_cases hlo : off ≤ i
    · by_cases hhi : off + as.length ≤ i
      · have hget : (as ++ bs)[i - off]? = bs[i - (off + as.length)]? := by
          rw [List.getElem?_append_right (by omega), Nat.sub_sub]
        have has : as[i - off]? = none := List.getElem?_eq_none (by omega)
        simp [hcap, hlo, hhi, hget, has]
      · have hget : (as ++ bs)[i - off]? = as[i - off]? := List.getElem?_append_left (by omega)
        simp [hcap, hlo, hhi, hget]
    · simp [hlo, show ¬ off + as.length ≤ i by omega]
  · simp [hcap]

/-- **Reading back what was stored**, when it fits. -/
theorem read_write {m : Region} {off n : ℕ} {bs : List UInt8} (hn : bs.length = n)
    (hcap : off + n ≤ m.cap) : (m.write off bs).read off n = bs := by
  refine List.ext_getElem (by simp [hn]) fun i hi hi' ↦ ?_
  have hlt : i < bs.length := hi'
  simp only [read, write, List.getElem_map, List.getElem_range]
  rw [if_pos ⟨by omega, by omega⟩, Nat.add_sub_cancel_left, List.getElem?_eq_getElem hlt,
    Option.getD_some]

/-- A store behind what is there. -/
theorem read_write_append {m : Region} {n : ℕ} {bs : List UInt8} (hcap : n + bs.length ≤ m.cap) :
    (m.write n bs).read 0 (n + bs.length) = m.read 0 n ++ bs := by
  refine List.ext_getElem (by simp) fun i hi _ ↦ ?_
  rw [length_read] at hi
  simp only [read, write, List.getElem_map, List.getElem_range, Nat.zero_add, List.getElem_append,
    List.length_map, List.length_range]
  rcases Nat.lt_or_ge i n with hlt | hge
  · rw [if_neg (by omega), dif_pos hlt]
  · have hi' : i - n < bs.length := by omega
    rw [if_pos ⟨hge, by omega⟩, dif_neg (by omega), List.getElem?_eq_getElem hi', Option.getD_some]

/-- **The frame of a store**: what is not in its range keeps its value. -/
theorem cell_write_of_outside {m : Region} {off i : ℕ} {bs : List UInt8}
    (h : i < off ∨ off + bs.length ≤ i) : (m.write off bs).cell i = m.cell i := by
  rw [write]
  dsimp only
  split
  · rw [List.getElem?_eq_none (by omega)]
    rfl
  · rfl

theorem cell_of_read {m : Region} {off n : ℕ} {bs : List UInt8} (h : m.read off n = bs) {i : ℕ}
    (hi : i < n) : m.cell (off + i) = (bs[i]?).getD 0 := by
  subst h
  rw [read, List.getElem?_map, List.getElem?_range hi]
  rfl

end Region

/-! ### One receive call -/

/-- What the kernel and the peer decide about one call. -/
inductive Reply
  /-- Up to `n + 1` bytes are handed over. -/
  | chunk (n : ℕ)
  /-- `EAGAIN`: nothing there yet. -/
  | again
  /-- `EINTR`: a signal interrupted the call. -/
  | intr
  /-- End of stream: the call returns 0. -/
  | closed
  /-- Any other error. -/
  | error
  deriving DecidableEq, Repr

/-- What the caller sees. -/
inductive Received
  | bytes (bs : List UInt8)
  | again
  | intr
  | closed
  | error
  deriving DecidableEq, Repr

/-- One call for `count` bytes of the stream. -/
def receive (stream : List UInt8) (count : ℕ) : Reply → Received
  | .chunk n => if stream = [] then .again else .bytes (stream.take (min (n + 1) count))
  | .again => .again
  | .intr => .intr
  | .closed => .closed
  | .error => .error

/-! ### The fill loop -/

/-- The state of a reader: how many bytes it has, where they are, what is left of the stream, and
the target ranges of its calls so far, as offset and length in the region. -/
structure Fill where
  got : ℕ
  mem : Region
  stream : List UInt8
  calls : List (ℕ × ℕ)

/-- How the loop leaves. -/
inductive FillExit
  /-- The wanted number of bytes is there. -/
  | full
  /-- A call would block. -/
  | again
  /-- A call met the end of the stream. -/
  | closed
  /-- A call failed. -/
  | error
  /-- The list of replies ended: the reader is still inside the loop. -/
  | starved
  deriving DecidableEq, Repr

namespace Fill

/-- A call into the buffer at `off`, for what is missing of `want`. -/
def call (s : Fill) (off want : ℕ) : Fill :=
  { s with calls := s.calls ++ [(off + s.got, want - s.got)] }

/-- The bytes of a call are stored behind those that are there. -/
def take (s : Fill) (off : ℕ) (bs : List UInt8) : Fill :=
  { s with
    got := s.got + bs.length
    mem := s.mem.write (off + s.got) bs
    stream := s.stream.drop bs.length }

end Fill

/-- The loop: fill the buffer at `off` of the region up to `want` bytes. -/
def fill (off want : ℕ) : List Reply → Fill → FillExit × Fill × List Reply
  | [], s => if s.got < want then (.starved, s, []) else (.full, s, [])
  | r :: rs, s =>
    if s.got < want then
      match receive s.stream (want - s.got) r with
      | .bytes bs => fill off want rs ((s.call off want).take off bs)
      | .again => (.again, s.call off want, rs)
      | .intr => fill off want rs (s.call off want)
      | .closed => (.closed, s.call off want, rs)
      | .error => (.error, s.call off want, rs)
    else (.full, s, r :: rs)

/-! ### What the loop does -/

theorem fill_of_le {off want : ℕ} {rs : List Reply} {s : Fill} (h : want ≤ s.got) :
    fill off want rs s = (.full, s, rs) := by
  cases rs <;> simp [fill, Nat.not_lt.2 h]

/-- A positive reply on a stream that is not empty delivers between one byte and the count. -/
theorem receive_chunk {stream : List UInt8} {count n : ℕ} (hs : stream ≠ []) (hc : 0 < count) :
    ∃ bs, receive stream count (.chunk n) = .bytes bs ∧ bs = stream.take bs.length ∧
      0 < bs.length ∧ bs.length ≤ count ∧ bs.length ≤ stream.length := by
  have hpos : 0 < stream.length := List.length_pos_iff.2 hs
  refine ⟨stream.take (min (n + 1) count), by rw [receive, if_neg hs], ?_, ?_, ?_, ?_⟩
  · rw [List.length_take, List.take_eq_take_iff]
    omega
  all_goals rw [List.length_take]; omega

/-- What arrived is a beginning of the stream, and at most the count. -/
theorem receive_bytes {stream bs : List UInt8} {count : ℕ} {r : Reply}
    (h : receive stream count r = .bytes bs) :
    bs = stream.take bs.length ∧ bs.length ≤ count ∧ bs.length ≤ stream.length := by
  cases r with
  | chunk n =>
    rw [receive] at h
    split at h
    · exact absurd h (by simp)
    · obtain rfl := Received.bytes.inj h
      refine ⟨?_, ?_, ?_⟩
      · rw [List.length_take, List.take_eq_take_iff]
        omega
      all_goals rw [List.length_take]; omega
  | again | intr | closed | error => exact absurd h (by simp [receive])

/-- A call that delivers delivers something. -/
theorem length_pos_of_receive {stream bs : List UInt8} {count : ℕ} {r : Reply} (hc : 0 < count)
    (h : receive stream count r = .bytes bs) : 0 < bs.length := by
  cases r with
  | chunk n =>
    by_cases hnil : stream = []
    · rw [receive, if_pos hnil] at h
      exact absurd h (by simp)
    · obtain ⟨bs', hbs', -, hpos, -⟩ := receive_chunk (n := n) hnil hc
      obtain rfl := Received.bytes.inj (h.symm.trans hbs')
      exact hpos
  | again | intr | closed | error => exact absurd h (by simp [receive])

/-- A call that delivered nothing and would not have blocked says what its reply was. -/
theorem reply_of_receive {stream : List UInt8} {count : ℕ} {r : Reply} :
    (receive stream count r = .intr → r = .intr) ∧
      (receive stream count r = .closed → r = .closed) ∧
      (receive stream count r = .error → r = .error) := by
  cases r with
  | chunk n =>
    rw [receive]
    split <;> simp
  | again | intr | closed | error => simp [receive]

/-- `t` is `s` after `k` more bytes of the stream were stored, with all calls for what was missing
at the time. -/
structure Filled (off want : ℕ) (s t : Fill) (k : ℕ) : Prop where
  le_stream : k ≤ s.stream.length
  got_eq : t.got = s.got + k
  stream_eq : t.stream = s.stream.drop k
  mem_eq : t.mem = s.mem.write (off + s.got) (s.stream.take k)
  calls_eq : ∃ new, t.calls = s.calls ++ new ∧
    ∀ c ∈ new, ∃ g, s.got ≤ g ∧ g < want ∧ c = (off + g, want - g)

namespace Filled

variable {off want : ℕ} {s t u : Fill}

theorem refl (s : Fill) : Filled off want s s 0 where
  le_stream := Nat.zero_le _
  got_eq := rfl
  stream_eq := rfl
  mem_eq := by simp
  calls_eq := ⟨[], by simp, by simp⟩

theorem call (h : s.got < want) : Filled off want s (s.call off want) 0 where
  le_stream := Nat.zero_le _
  got_eq := rfl
  stream_eq := rfl
  mem_eq := by simp [Fill.call]
  calls_eq := ⟨[(off + s.got, want - s.got)], rfl, by
    intro c hc
    exact ⟨s.got, Nat.le_refl _, h, List.mem_singleton.1 hc⟩⟩

theorem take {bs : List UInt8} (hbs : bs = s.stream.take bs.length)
    (hle : bs.length ≤ s.stream.length) : Filled off want s (s.take off bs) bs.length where
  le_stream := hle
  got_eq := rfl
  stream_eq := rfl
  mem_eq := by rw [← hbs]; rfl
  calls_eq := ⟨[], by simp [Fill.take], by simp⟩

theorem trans {j k : ℕ} (h : Filled off want s t j) (h' : Filled off want t u k) :
    Filled off want s u (j + k) where
  le_stream := by
    have := h'.le_stream
    have := h.le_stream
    rw [h.stream_eq, List.length_drop] at *
    omega
  got_eq := by rw [h'.got_eq, h.got_eq, Nat.add_assoc]
  stream_eq := by rw [h'.stream_eq, h.stream_eq, List.drop_drop]
  mem_eq := by
    have hlen : (s.stream.take j).length = j := List.length_take_of_le h.le_stream
    have hpos : off + t.got = off + s.got + (s.stream.take j).length := by
      rw [hlen, h.got_eq, Nat.add_assoc]
    rw [h'.mem_eq, h.mem_eq, h.stream_eq, hpos, Region.write_write, List.take_add]
  calls_eq := by
    obtain ⟨new, hnew, hcalls⟩ := h.calls_eq
    obtain ⟨new', hnew', hcalls'⟩ := h'.calls_eq
    refine ⟨new ++ new', by rw [hnew', hnew, List.append_assoc], fun c hc ↦ ?_⟩
    rcases List.mem_append.1 hc with hc | hc
    · exact hcalls c hc
    · obtain ⟨g, hg, hlt, rfl⟩ := hcalls' c hc
      exact ⟨g, by have := h.got_eq; omega, hlt, rfl⟩

/-- A reader of a message `msg` that stands at the beginning of the stream: it has stored a
beginning of the message, and the rest of it is still there. -/
theorem of_message {k : ℕ} {msg tail : List UInt8} {m : Region} (h : Filled off want s t k)
    (hstream : s.stream = msg.drop s.got ++ tail) (hmem : s.mem = m.write off (msg.take s.got))
    (hle : t.got ≤ msg.length) :
    t.stream = msg.drop t.got ++ tail ∧ t.mem = m.write off (msg.take t.got) := by
  have hgot := h.got_eq
  have hlen : (msg.take s.got).length = s.got := List.length_take_of_le (by omega)
  constructor
  · rw [h.stream_eq, hstream, List.drop_append_of_le_length (by rw [List.length_drop]; omega),
      List.drop_drop, ← hgot]
  · have htake : s.stream.take k = (msg.drop s.got).take k := by
      rw [hstream, List.take_append_of_le_length (by rw [List.length_drop]; omega)]
    have hoff : off + s.got = off + (msg.take s.got).length := by rw [hlen]
    rw [h.mem_eq, hmem, htake, hoff, Region.write_write, ← List.take_add, ← hgot]

end Filled

/-- The number of positive replies. -/
def chunks (rs : List Reply) : ℕ := rs.countP fun r ↦ match r with
  | .chunk _ => true
  | _ => false

@[simp] theorem chunks_nil : chunks [] = 0 := rfl

theorem chunks_cons_le (r : Reply) (rs : List Reply) : chunks (r :: rs) ≤ chunks rs + 1 := by
  rw [chunks, List.countP_cons]
  split <;> simp [chunks]

theorem chunks_cons_of_ne {r : Reply} (hr : ∀ n, r ≠ .chunk n) (rs : List Reply) :
    chunks (r :: rs) = chunks rs := by
  cases r with
  | chunk n => exact absurd rfl (hr n)
  | again | intr | closed | error => rfl

/-- A behaviour with positive replies again and again has any number of them in a beginning. -/
theorem exists_forall_le_chunks {reply : ℕ → Reply} (h : ∀ i, ∃ j ≥ i, ∃ n, reply j = .chunk n)
    (m : ℕ) : ∃ N, ∀ n ≥ N, m ≤ chunks ((List.range n).map reply) := by
  induction m with
  | zero => exact ⟨0, fun _ _ ↦ Nat.zero_le _⟩
  | succ m ih =>
    obtain ⟨N, hN⟩ := ih
    obtain ⟨j, hj, k, hk⟩ := h N
    refine ⟨j + 1, fun n hn ↦ ?_⟩
    obtain ⟨d, rfl⟩ := Nat.exists_eq_add_of_le hn
    have hone : chunks [reply j] = 1 := by rw [hk]; rfl
    have hm : m ≤ chunks ((List.range j).map reply) := hN j hj
    have hsplit : (List.range (j + 1 + d)).map reply =
        (List.range j).map reply ++
          ([reply j] ++ (List.range d).map fun i ↦ reply (j + 1 + i)) := by
      rw [List.range_add, List.map_append, List.range_succ, List.map_append, List.map_map,
        List.append_assoc]
      rfl
    rw [hsplit, chunks, List.countP_append, List.countP_append]
    change m + 1 ≤ chunks _ + (chunks [reply j] + chunks _)
    omega

/-- Which replies a reader used before it left by `e` with `rest` unused: the end of the stream or
an error among them exactly when it left for that, and at least one when it is to be entered
again. -/
structure Used (rs : List Reply) (e : FillExit) (rest : List Reply) : Prop where
  split : ∃ used, rs = used ++ rest ∧ (.closed ∈ used ↔ e = .closed) ∧
    (.error ∈ used ↔ e = .error) ∧ (e = .again → used ≠ [])
  starved : e = .starved → rest = []

/-- A reader that goes on after one loop was done, or after it was entered again. -/
theorem Used.trans {rs mid rest : List Reply} {d e : FillExit} (hd : d = .full ∨ d = .again)
    (h : Used rs d mid) (h' : Used mid e rest) : Used rs e rest := by
  obtain ⟨used, hused, hclosed, herror, -⟩ := h.split
  obtain ⟨used', hused', hclosed', herror', hagain'⟩ := h'.split
  have hc : Reply.closed ∉ used := by rw [hclosed]; rcases hd with rfl | rfl <;> simp
  have he : Reply.error ∉ used := by rw [herror]; rcases hd with rfl | rfl <;> simp
  refine ⟨⟨used ++ used', by rw [hused, hused', List.append_assoc], ?_, ?_, ?_⟩, h'.starved⟩
  · rw [List.mem_append, or_iff_right hc, hclosed']
  · rw [List.mem_append, or_iff_right he, herror']
  · intro ha hnil
    exact hagain' ha (List.append_eq_nil_iff.1 hnil).2

/-- A reader that is to be entered again has used a reply. -/
theorem Used.length_lt {rs rest : List Reply} (h : Used rs .again rest) :
    rest.length < rs.length := by
  obtain ⟨used, hsplit, -, -, hne⟩ := h.split
  have := List.length_pos_iff.2 (hne rfl)
  rw [hsplit, List.length_append]
  omega

/-- The description of one pass through the loop: from `s` on the replies `rs` it left by `e` in
`t`, with the replies `rest` unused. -/
structure FillSpec (off want : ℕ) (rs : List Reply) (s : Fill) (e : FillExit) (t : Fill)
    (rest : List Reply) : Prop where
  filled : ∃ k, Filled off want s t k
  got_le : t.got ≤ max s.got want
  full_iff : e = .full ↔ want ≤ t.got
  used : Used rs e rest
  progress : want ≤ s.got + s.stream.length → chunks rs ≤ chunks rest + (t.got - s.got)

namespace FillSpec

variable {off want : ℕ} {rs rest : List Reply} {s s' t : Fill} {e : FillExit}

/-- The loop is left before a call. -/
theorem stop (he : e = .full ∧ want ≤ s.got ∨ e = .starved ∧ s.got < want ∧ rs = []) :
    FillSpec off want rs s e s rs where
  filled := ⟨0, .refl s⟩
  got_le := Nat.le_max_left _ _
  full_iff := by rcases he with ⟨rfl, h⟩ | ⟨rfl, h, -⟩ <;> simp [h]
  used :=
    { split := ⟨[], rfl, by rcases he with ⟨rfl, -⟩ | ⟨rfl, -⟩ <;> simp⟩
      starved := by rcases he with ⟨rfl, -⟩ | ⟨rfl, -, h⟩ <;> simp_all }
  progress := fun _ ↦ Nat.le_add_right _ _

/-- The loop is left by a call that delivered nothing. -/
theorem leave {r : Reply} (hlt : s.got < want)
    (he : e = .again ∧ r ≠ .closed ∧ r ≠ .error ∨ e = .closed ∧ r = .closed ∨
      e = .error ∧ r = .error)
    (hr : ∀ n, r = .chunk n → s.stream = []) :
    FillSpec off want (r :: rs) s e (s.call off want) rs where
  filled := ⟨0, .call hlt⟩
  got_le := Nat.le_max_left _ _
  full_iff := by
    have h : ¬ want ≤ (s.call off want).got := Nat.not_le.2 hlt
    rcases he with ⟨rfl, -⟩ | ⟨rfl, -⟩ | ⟨rfl, -⟩ <;> simp [h]
  used :=
    { split := ⟨[r], rfl, by
        rcases he with ⟨rfl, h₁, h₂⟩ | ⟨rfl, rfl⟩ | ⟨rfl, rfl⟩ <;> simp [Ne.symm, *]⟩
      starved := by rcases he with ⟨rfl, -⟩ | ⟨rfl, -⟩ | ⟨rfl, -⟩ <;> simp }
  progress := by
    intro hlong
    have hne : ∀ n, r ≠ .chunk n := by
      rintro n rfl
      rw [hr n rfl, List.length_nil] at hlong
      omega
    rw [chunks_cons_of_ne hne]
    exact Nat.le_add_right _ _

/-- The loop goes on after a call that moved `k` bytes. -/
theorem cons {k : ℕ} {r : Reply} (hstep : Filled off want s s' k) (hle : s'.got ≤ want)
    (hclosed : r ≠ .closed) (herror : r ≠ .error) (hk : ∀ n, r = .chunk n → 0 < k)
    (h : FillSpec off want rs s' e t rest) : FillSpec off want (r :: rs) s e t rest where
  filled := by
    obtain ⟨j, hj⟩ := h.filled
    exact ⟨k + j, hstep.trans hj⟩
  got_le := by
    have := h.got_le
    have := hstep.got_eq
    omega
  full_iff := h.full_iff
  used := by
    obtain ⟨used, hused, hc, he, -⟩ := h.used.split
    refine ⟨⟨r :: used, by rw [hused]; rfl, ?_, ?_, fun _ ↦ by simp⟩, h.used.starved⟩
    · rw [List.mem_cons, or_iff_right hclosed.symm, hc]
    · rw [List.mem_cons, or_iff_right herror.symm, he]
  progress := by
    intro hlong
    obtain ⟨j, hj⟩ := h.filled
    have hgot := hstep.got_eq
    have hgot' := hj.got_eq
    -- the stream is still long enough for what is missing
    have hrest := h.progress (by
      rw [hstep.stream_eq, List.length_drop]
      have := hstep.le_stream
      omega)
    by_cases hchunk : ∃ n, r = .chunk n
    · obtain ⟨n, rfl⟩ := hchunk
      have := chunks_cons_le (.chunk n) rs
      have := hk n rfl
      omega
    · rw [chunks_cons_of_ne fun n hn ↦ hchunk ⟨n, hn⟩]
      omega

/-- A call delivers bytes, and the loop goes on. -/
theorem bytes {r : Reply} {bs : List UInt8} (hlt : s.got < want)
    (hr : receive s.stream (want - s.got) r = .bytes bs)
    (h : FillSpec off want rs ((s.call off want).take off bs) e t rest) :
    FillSpec off want (r :: rs) s e t rest := by
  obtain ⟨hbs, hcount, hlen⟩ := receive_bytes hr
  have hstep : Filled off want s ((s.call off want).take off bs) (0 + bs.length) :=
    (Filled.call hlt).trans (.take hbs hlen)
  refine .cons hstep ?_ ?_ ?_ ?_ h
  · rw [hstep.got_eq]
    omega
  · rintro rfl
    exact absurd hr (by simp [receive])
  · rintro rfl
    exact absurd hr (by simp [receive])
  · intro _ _
    rw [Nat.zero_add]
    exact length_pos_of_receive (Nat.sub_pos_of_lt hlt) hr

/-- A call would block. -/
theorem blocked {r : Reply} (hlt : s.got < want)
    (hr : receive s.stream (want - s.got) r = .again) :
    FillSpec off want (r :: rs) s .again (s.call off want) rs := by
  refine .leave hlt (.inl ⟨rfl, ?_, ?_⟩) ?_
  · rintro rfl
    exact absurd hr (by simp [receive])
  · rintro rfl
    exact absurd hr (by simp [receive])
  · rintro n rfl
    by_contra hnil
    rw [receive, if_neg hnil] at hr
    exact absurd hr (by simp)

/-- A call is interrupted, and made again. -/
theorem interrupted {r : Reply} (hlt : s.got < want)
    (hr : receive s.stream (want - s.got) r = .intr)
    (h : FillSpec off want rs (s.call off want) e t rest) :
    FillSpec off want (r :: rs) s e t rest := by
  obtain rfl := reply_of_receive.1 hr
  exact .cons (.call hlt) (Nat.le_of_lt hlt) (by simp) (by simp) (by simp) h

/-- A call meets the end of the stream. -/
theorem ended {r : Reply} (hlt : s.got < want)
    (hr : receive s.stream (want - s.got) r = .closed) :
    FillSpec off want (r :: rs) s .closed (s.call off want) rs := by
  obtain rfl := reply_of_receive.2.1 hr
  exact .leave hlt (.inr (.inl ⟨rfl, rfl⟩)) (by simp)

/-- A call fails. -/
theorem failed {r : Reply} (hlt : s.got < want)
    (hr : receive s.stream (want - s.got) r = .error) :
    FillSpec off want (r :: rs) s .error (s.call off want) rs := by
  obtain rfl := reply_of_receive.2.2 hr
  exact .leave hlt (.inr (.inr ⟨rfl, rfl⟩)) (by simp)

/-- A loop that is left full has moved exactly what was missing. -/
theorem filled_of_full (h : FillSpec off want rs s .full t rest) (hle : s.got ≤ want) :
    Filled off want s t (want - s.got) := by
  obtain ⟨k, hk⟩ := h.filled
  have hgot := hk.got_eq
  have hmax := h.got_le
  have hge := h.full_iff.1 rfl
  obtain rfl : k = want - s.got := by omega
  exact hk

end FillSpec

/-- **What the fill loop does**, for every list of replies. The induction is on the replies: each
call uses one up, and either leaves the loop or goes on from the state it made. -/
theorem fill_spec (off want : ℕ) (rs : List Reply) (s : Fill) :
    FillSpec off want rs s (fill off want rs s).1 (fill off want rs s).2.1
      (fill off want rs s).2.2 := by
  induction rs generalizing s with
  | nil =>
    by_cases hlt : s.got < want
    · simp only [fill, if_pos hlt]
      exact .stop (.inr ⟨rfl, hlt, rfl⟩)
    · simp only [fill, if_neg hlt]
      exact .stop (.inl ⟨rfl, Nat.not_lt.1 hlt⟩)
  | cons r rs ih =>
    by_cases hlt : s.got < want
    · rcases hr : receive s.stream (want - s.got) r with bs | - | - | - | -
      · simp only [fill, if_pos hlt, hr]
        exact .bytes hlt hr (ih _)
      · simp only [fill, if_pos hlt, hr]
        exact .blocked hlt hr
      · simp only [fill, if_pos hlt, hr]
        exact .interrupted hlt hr (ih _)
      · simp only [fill, if_pos hlt, hr]
        exact .ended hlt hr
      · simp only [fill, if_pos hlt, hr]
        exact .failed hlt hr
    · rw [fill_of_le (Nat.not_lt.1 hlt)]
      exact .stop (.inl ⟨rfl, Nat.not_lt.1 hlt⟩)

/-- `fill_spec` with names for the three parts of the result. -/
theorem exists_fill_eq (off want : ℕ) (rs : List Reply) (s : Fill) :
    ∃ e t rest, fill off want rs s = (e, t, rest) ∧ FillSpec off want rs s e t rest :=
  ⟨_, _, _, rfl, fill_spec off want rs s⟩

/-! ### A reader that started with nothing -/

/-- **A reader of a prefix**: what it has are the first bytes of the stream, stored at `off` of the
region and nowhere else, and it has taken no others. -/
structure Fill.HoldsPrefix (s : Fill) (mem : Region) (off want : ℕ) (stream : List UInt8) :
    Prop where
  got_le : s.got ≤ want ∧ s.got ≤ stream.length
  stored : s.mem.read off s.got = stream.take s.got
  consumed : s.stream = stream.drop s.got
  outside : ∀ i, i < off ∨ off + want ≤ i → s.mem.cell i = mem.cell i
  inside : ∀ c ∈ s.calls, off ≤ c.1 ∧ c.1 + c.2 ≤ off + want

theorem FillSpec.holdsPrefix {mem : Region} {off want : ℕ} {stream : List UInt8}
    {rs rest : List Reply} {e : FillExit} {s : Fill} (hroom : off + want ≤ mem.cap)
    (h : FillSpec off want rs ⟨0, mem, stream, []⟩ e s rest) :
    s.HoldsPrefix mem off want stream := by
  obtain ⟨k, hk⟩ := h.filled
  obtain rfl : s.got = k := by
    rw [hk.got_eq]
    exact Nat.zero_add k
  have hle : s.got ≤ max 0 want := h.got_le
  have hlen : s.got ≤ stream.length := hk.le_stream
  have htake : (stream.take s.got).length = s.got := List.length_take_of_le hlen
  have hmem : s.mem = mem.write off (stream.take s.got) := hk.mem_eq
  obtain ⟨new, hnew, hcalls⟩ := hk.calls_eq
  refine ⟨⟨by omega, hlen⟩, ?_, hk.stream_eq, fun i hi ↦ ?_, fun c hc ↦ ?_⟩
  · rw [hmem]
    exact Region.read_write htake (by omega)
  · rw [hmem]
    exact Region.cell_write_of_outside (by omega)
  · obtain ⟨g, -, hlt, rfl⟩ := hcalls c (by rw [← List.nil_append new, ← hnew]; exact hc)
    dsimp only
    omega

/-! ### A run of the loop with more replies -/

/-- A loop that is left does not look at the replies behind those it used. -/
theorem fill_append_of_ne_starved {off want : ℕ} {rs rest : List Reply} {s t : Fill}
    {e : FillExit} (h : fill off want rs s = (e, t, rest)) (he : e ≠ .starved)
    (post : List Reply) : fill off want (rs ++ post) s = (e, t, rest ++ post) := by
  induction rs generalizing s with
  | nil =>
    rw [fill] at h
    split at h
    · exact absurd (Prod.mk.inj h).1.symm he
    · obtain ⟨rfl, rfl, rfl⟩ : FillExit.full = e ∧ s = t ∧ [] = rest := by simpa using h
      exact fill_of_le (Nat.not_lt.1 ‹_›)
  | cons r rs ih =>
    rw [List.cons_append]
    rw [fill] at h ⊢
    split at h
    · rw [if_pos ‹_›]
      rcases hr : receive s.stream (want - s.got) r with bs | - | - | - | - <;> rw [hr] at h
      · exact ih h
      · obtain ⟨rfl, rfl, rfl⟩ : FillExit.again = e ∧ s.call off want = t ∧ rs = rest := by
          simpa using h
        rfl
      · exact ih h
      · obtain ⟨rfl, rfl, rfl⟩ : FillExit.closed = e ∧ s.call off want = t ∧ rs = rest := by
          simpa using h
        rfl
      · obtain ⟨rfl, rfl, rfl⟩ : FillExit.error = e ∧ s.call off want = t ∧ rs = rest := by
          simpa using h
        rfl
    · rw [if_neg ‹_›]
      obtain ⟨rfl, rfl, rfl⟩ : FillExit.full = e ∧ s = t ∧ r :: rs = rest := by simpa using h
      rfl

/-- **A loop whose replies ended goes on from where it is** when there are more. -/
theorem fill_append_of_starved {off want : ℕ} {rs rest : List Reply} {s t : Fill}
    (h : fill off want rs s = (.starved, t, rest)) (post : List Reply) :
    fill off want (rs ++ post) s = fill off want post t := by
  induction rs generalizing s with
  | nil =>
    rw [fill] at h
    split at h
    · obtain ⟨rfl, -⟩ : s = t ∧ [] = rest := by simpa using h
      rfl
    · exact absurd (Prod.mk.inj h).1 (by simp)
  | cons r rs ih =>
    rw [List.cons_append]
    rw [fill] at h ⊢
    split at h
    · rw [if_pos ‹_›]
      rcases hr : receive s.stream (want - s.got) r with bs | - | - | - | - <;> rw [hr] at h
      · exact ih h
      · exact absurd (Prod.mk.inj h).1 (by simp)
      · exact ih h
      · exact absurd (Prod.mk.inj h).1 (by simp)
      · exact absurd (Prod.mk.inj h).1 (by simp)
    · exact absurd (Prod.mk.inj h).1 (by simp)

/-! ### Reading across loops -/

/-- Reading `want` bytes of a stream, over however many entries of the loop: how it ends, what is
left of the stream, and the replies that are left. A call that would block is one that is made
again. -/
def drain : ℕ → List Reply → List UInt8 → FillExit × List UInt8 × List Reply
  | want, [], stream => if 0 < want then (.starved, stream, []) else (.full, stream, [])
  | want, r :: rs, stream =>
    if 0 < want then
      match receive stream want r with
      | .bytes bs => drain (want - bs.length) rs (stream.drop bs.length)
      | .again | .intr => drain want rs stream
      | .closed => (.closed, stream, rs)
      | .error => (.error, stream, rs)
    else (.full, stream, r :: rs)

theorem drain_zero (rs : List Reply) (stream : List UInt8) :
    drain 0 rs stream = (.full, stream, rs) := by
  cases rs <;> simp [drain]

/-- A call that delivers all it is asked for. -/
theorem drain_chunk {want n : ℕ} {stream : List UInt8} (hpos : 0 < want) (hn : want ≤ n + 1)
    (hlen : want ≤ stream.length) (rs : List Reply) :
    drain want (.chunk n :: rs) stream = (.full, stream.drop want, rs) := by
  have hne : stream ≠ [] := List.ne_nil_of_length_pos (by omega)
  have htake : (stream.take want).length = want := List.length_take_of_le hlen
  have hreceive : receive stream want (.chunk n) = .bytes (stream.take want) := by
    rw [receive, if_neg hne, Nat.min_eq_right hn]
  rw [drain, if_pos hpos, hreceive]
  dsimp only
  rw [htake, Nat.sub_self, drain_zero]

/-- **One pass through the loop is a beginning of the reading**: it is over, or goes on where the
loop left off. How much a call asks for depends on what is missing alone. -/
theorem drain_of_fill {off want : ℕ} {rs rest : List Reply} {s t : Fill} {e : FillExit}
    (h : fill off want rs s = (e, t, rest)) :
    drain (want - s.got) rs s.stream =
      if e = .again then drain (want - t.got) rest t.stream else (e, t.stream, rest) := by
  induction rs generalizing s with
  | nil =>
    by_cases hlt : s.got < want
    · rw [fill, if_pos hlt] at h
      obtain ⟨rfl, rfl, rfl⟩ : FillExit.starved = e ∧ s = t ∧ [] = rest := by simpa using h
      rw [if_neg (by simp), drain, if_pos (Nat.sub_pos_of_lt hlt)]
    · rw [fill, if_neg hlt] at h
      obtain ⟨rfl, rfl, rfl⟩ : FillExit.full = e ∧ s = t ∧ [] = rest := by simpa using h
      rw [if_neg (by simp), Nat.sub_eq_zero_of_le (Nat.not_lt.1 hlt), drain_zero]
  | cons r rs ih =>
    by_cases hlt : s.got < want
    · rw [drain, if_pos (Nat.sub_pos_of_lt hlt)]
      rw [fill, if_pos hlt] at h
      rcases hr : receive s.stream (want - s.got) r with bs | - | - | - | -
      · rw [hr] at h
        have hrest := ih (s := (s.call off want).take off bs) h
        rw [← hrest]
        -- what is missing now is what was missing before, less the bytes of this call
        show drain (want - s.got - bs.length) rs _ = drain (want - (s.got + bs.length)) rs _
        rw [Nat.sub_sub]
        rfl
      · rw [hr] at h
        obtain ⟨rfl, rfl, rfl⟩ : FillExit.again = e ∧ s.call off want = t ∧ rs = rest := by
          simpa using h
        rw [if_pos rfl]
        rfl
      · rw [hr] at h
        exact ih (s := s.call off want) h
      · rw [hr] at h
        obtain ⟨rfl, rfl, rfl⟩ : FillExit.closed = e ∧ s.call off want = t ∧ rs = rest := by
          simpa using h
        rw [if_neg (by simp)]
        rfl
      · rw [hr] at h
        obtain ⟨rfl, rfl, rfl⟩ : FillExit.error = e ∧ s.call off want = t ∧ rs = rest := by
          simpa using h
        rw [if_neg (by simp)]
        rfl
    · rw [fill_of_le (Nat.not_lt.1 hlt)] at h
      obtain ⟨rfl, rfl, rfl⟩ : FillExit.full = e ∧ s = t ∧ r :: rs = rest := by simpa using h
      rw [if_neg (by simp), Nat.sub_eq_zero_of_le (Nat.not_lt.1 hlt), drain_zero]

/-- The loop is entered again after a call that would block. -/
theorem FillSpec.again_trans {off want : ℕ} {rs mid rest : List Reply} {s t u : Fill}
    {e : FillExit} (h : FillSpec off want rs s .again t mid)
    (h' : FillSpec off want mid t e u rest) : FillSpec off want rs s e u rest := by
  obtain ⟨j, hj⟩ := h.filled
  obtain ⟨k, hk⟩ := h'.filled
  have hgot := hj.got_eq
  have hgot' := hk.got_eq
  have hle := h.got_le
  have hle' := h'.got_le
  refine ⟨⟨j + k, hj.trans hk⟩, by omega, h'.full_iff, h.used.trans (.inr rfl) h'.used,
    fun hlong ↦ ?_⟩
  have hfirst := h.progress hlong
  have hsecond := h'.progress (by
    have := hj.le_stream
    rw [hj.stream_eq, List.length_drop]
    omega)
  omega

/-! ### Sending -/

/-- What the caller of a send sees. -/
inductive Sent
  /-- That many bytes were accepted. -/
  | bytes (k : ℕ)
  | again
  | intr
  /-- The call returned 0. -/
  | zero
  | error
  deriving DecidableEq, Repr

/-- The kernel's side of a stream that is written to. -/
structure Wire where
  /-- The bytes that were accepted, in order. -/
  accepted : List UInt8 := []
  /-- The ranges that were handed over, as offset in the sender's memory and length. -/
  calls : List (ℕ × ℕ) := []
  deriving DecidableEq, Repr

namespace Wire

/-- One call that hands over the `count` bytes at `off` of the sender's memory. Of a positive reply
the kernel takes up to `n + 1`. -/
def send (w : Wire) (mem : List UInt8) (off count : ℕ) (r : Reply) : Sent × Wire :=
  let w := { w with calls := w.calls ++ [(off, count)] }
  match r with
  | .chunk n =>
    (.bytes (min (n + 1) count),
      { w with accepted := w.accepted ++ (mem.drop off).take (min (n + 1) count) })
  | .again => (.again, w)
  | .intr => (.intr, w)
  | .closed => (.zero, w)
  | .error => (.error, w)

/-- **Sent in order**: the first `n` bytes of the memory were accepted, and nothing else; and
nothing outside it was handed over. -/
structure SentInOrder (w : Wire) (mem : List UInt8) (n : ℕ) : Prop where
  accepted_eq : w.accepted = mem.take n
  inside : ∀ c ∈ w.calls, c.1 + c.2 ≤ mem.length

theorem sentInOrder_empty (mem : List UInt8) : SentInOrder {} mem 0 where
  accepted_eq := rfl
  inside := fun c hc ↦ absurd hc (by simp)

variable {w w' : Wire} {mem : List UInt8} {n count k : ℕ} {r : Reply} {out : Sent}

/-- What a call hands over is inside the memory, if the range is. -/
theorem SentInOrder.inside_append (h : w.SentInOrder mem n) (hle : n + count ≤ mem.length) :
    ∀ c ∈ w.calls ++ [(n, count)], c.1 + c.2 ≤ mem.length := by
  intro c hc
  rcases List.mem_append.1 hc with hc | hc
  · exact h.inside c hc
  · rw [List.mem_singleton.1 hc]
    exact hle

/-- **A call from where the sender is goes on in order**, by as many bytes as were accepted. -/
theorem SentInOrder.advance (h : w.SentInOrder mem n) (hle : n + count ≤ mem.length)
    (hsend : w.send mem n count r = (.bytes k, w')) :
    w'.SentInOrder mem (n + k) ∧ k ≤ count ∧ ∃ j, r = .chunk j ∧ k = min (j + 1) count := by
  cases r with
  | chunk j =>
    obtain ⟨hk, rfl⟩ := Prod.mk.inj hsend
    obtain rfl := Sent.bytes.inj hk
    refine ⟨⟨?_, h.inside_append hle⟩, Nat.min_le_right _ _, j, rfl, rfl⟩
    rw [List.take_add, ← h.accepted_eq]
  | again | intr | closed | error => exact absurd (Prod.mk.inj hsend).1 (by simp)

/-- A call that accepted nothing leaves the sender where it is. -/
theorem SentInOrder.stay (h : w.SentInOrder mem n) (hle : n + count ≤ mem.length)
    (hsend : w.send mem n count r = (out, w')) (hout : ∀ k, out ≠ .bytes k) :
    w'.SentInOrder mem n := by
  cases r with
  | chunk j => exact absurd (Prod.mk.inj hsend).1.symm (hout _)
  | again | intr | closed | error =>
    obtain ⟨-, rfl⟩ := Prod.mk.inj hsend
    exact ⟨h.accepted_eq, h.inside_append hle⟩

/-- A failing call says what its reply was. -/
theorem reply_of_send_error (hsend : w.send mem n count r = (.error, w')) : r = .error := by
  cases r with
  | error => rfl
  | chunk | again | intr | closed => exact absurd (Prod.mk.inj hsend).1 (by simp)

end Wire
