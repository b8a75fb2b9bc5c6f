import Nsio.Foundations.Memory
import Nsio.Coio.BufferOwnership
import Nsio.Coio.HostileHeader

/-!
# Many connections and one heap

`tcp_server` of `pp-request-serv.cpp` spawns a `tcp_echo` for every connection. They run on one
thread, take their request buffers from one pool, and the pool's chunks lie in one address space.
`Test.Echo` gave each request a chunk of its own; here a store of `recv_request` is a store to the
heap, wherever it lands, and `::send` loads from the heap what is there at that moment.

The system goes call by call: an action is one `::recv` or `::send` of one connection, with what the
kernel answers, and with what `find` and `aligned_alloc` do if the call completes a header. The
clients are not part of it, any bytes may come in.

What a connection should do is said without a heap and without other connections: `EchoPeer` reads a
request into a list and sends that list back. That the connections of the server do so is in
`Test.EchoIsolation`, as long as no store has left its chunk (`overran`). Which headers keep the
stores in their chunks is in `Test.EchoBounds`.
-/

namespace Nsio

/-! ### The server -/

/-- A `tcp_echo`, with the awaiter it is in. What its request buffer holds is in the heap. -/
inductive EchoConn
  /-- In the first loop of `recv_request`, with `_buf`. -/
  | header (got : ℕ) (buf : Region)
  /-- In the second loop. -/
  | body (got : ℕ) (cmdLen : Int32) (b : ByteBufferImpl)
  /-- In `send_lazy`, after `recv_request` has returned `len`. -/
  | sending (len : ℤ) (sended : ℕ) (b : ByteBufferImpl)
  /-- The loop was left, and the descriptor closed. -/
  | closed

/-- A fresh `recv_request`. -/
def EchoConn.fresh : EchoConn := .header 0 ⟨8, fun _ ↦ 0⟩

/-- The chunk a connection holds. -/
def EchoConn.region : EchoConn → Option (ℕ × ℕ)
  | .body _ _ b | .sending _ _ b => some b.d.region
  | .header .. | .closed => none

/-- A call and what the kernel answers. -/
inductive ConnCall
  | recv (x : Received)
  | send (r : Reply)
  deriving DecidableEq, Repr

/-- A call of one of the connections. -/
structure ServeAction (κ : Type*) where
  conn : κ
  call : ConnCall
  /-- Which chunk `find` returns, if the call completes a header and there are several. -/
  pick : ℕ := 0
  /-- The address `aligned_alloc` returns, if there is none. -/
  addr : ℕ := 0
  deriving DecidableEq, Repr

/-- The connections, the pool and the heap. -/
structure EchoServer (κ : Type*) where
  heap : ℕ → UInt8
  pool : BufferPool
  conns : κ → EchoConn := fun _ ↦ .fresh
  /-- What has come in on each connection. -/
  input : κ → List UInt8 := fun _ ↦ []
  /-- What `::send` has taken on each connection. -/
  output : κ → List UInt8 := fun _ ↦ []
  /-- A store has left its chunk. -/
  overran : Bool := false

/-- The request buffer for a header. Its bytes are in the heap. -/
def BufferPool.requestBuffer (s : BufferPool) (h : Header) (pick p : ℕ) : ByteBufferImpl :=
  (h.request fun r ↦ ⟨(s.malloc r pick p).1, fun _ ↦ 0⟩).buffer

/-- The buffer is over the chunk `malloc` has chosen, with its data `align_off` bytes before the
body. -/
theorem BufferPool.requestBuffer_eq (s : BufferPool) (h : Header) (pick p : ℕ) :
    s.requestBuffer h pick p =
      (ByteBufferImpl.new h.args.roundedHeader (s.malloc h.args pick p).1.d).setDataOffset
        (h.args.roundedHeader.toUInt16.toUInt32 - h.alignOff.toUInt32) h.wireLen := by
  refine Header.request_buffer ?_
  obtain ⟨it, -, hm⟩ | ⟨-, hm⟩ := s.malloc_cases h.args pick p
  · rw [hm]
    rfl
  · rw [hm]
    rfl

/-- Its data has the length of the request. -/
theorem BufferPool.dataLen_requestBuffer (s : BufferPool) (h : Header) (pick p : ℕ) :
    (s.requestBuffer h pick p).dataLen.toInt32 = h.len.toInt32 + 4 := by
  rw [requestBuffer, Header.dataLen_request, Int32.toInt32_toUInt32]

namespace EchoServer

variable {κ : Type*} [DecidableEq κ]

def setConn (s : EchoServer κ) (c : κ) (x : EchoConn) : EchoServer κ :=
  { s with conns := Function.update s.conns c x }

theorem conns_setConn_self {s : EchoServer κ} {c : κ} {x : EchoConn} :
    (s.setConn c x).conns c = x := Function.update_self ..

theorem conns_setConn_of_ne {s : EchoServer κ} {c c' : κ} {x : EchoConn} (h : c' ≠ c) :
    (s.setConn c x).conns c' = s.conns c' := Function.update_of_ne h ..

def took (s : EchoServer κ) (c : κ) (bs : List UInt8) : EchoServer κ :=
  { s with input := Function.update s.input c (s.input c ++ bs) }

def gave (s : EchoServer κ) (c : κ) (bs : List UInt8) : EchoServer κ :=
  { s with output := Function.update s.output c (s.output c ++ bs) }

theorem input_took_self {s : EchoServer κ} {c : κ} {bs : List UInt8} :
    (s.took c bs).input c = s.input c ++ bs := Function.update_self ..

theorem output_gave_self {s : EchoServer κ} {c : κ} {bs : List UInt8} :
    (s.gave c bs).output c = s.output c ++ bs := Function.update_self ..

/-- A store behind `(*_request)->data()`. -/
def storeAt (s : EchoServer κ) (b : ByteBufferImpl) (off : ℕ) (bs : List UInt8) : EchoServer κ :=
  { s with
    heap := Memory.store s.heap (b.data + off) bs
    overran := s.overran || b.capacity.toNat < b.dataBegin.toNat + off + bs.length }

/-- `~byte_buffer_impl`. -/
def release (s : EchoServer κ) (b : ByteBufferImpl) : EchoServer κ :=
  { s with pool := (s.pool.release b.d).1 }

/-- `recv_request` has returned `len`, which is not negative. -/
def onReceived (s : EchoServer κ) (c : κ) (len : ℤ) (b : ByteBufferImpl) : EchoServer κ :=
  if len ≤ 0 then (s.release b).setConn c .closed
  else if len ≠ b.dataLen.toInt32.toInt then (s.release b).setConn c .closed
  else s.setConn c (.sending len 0 b)

/-- The head of the second loop of `recv_request`. -/
def bodyLoop (s : EchoServer κ) (c : κ) (got : ℕ) (cmdLen : Int32) (b : ByteBufferImpl) :
    EchoServer κ :=
  if (got : ℤ) < cmdLen.toInt then s.setConn c (.body got cmdLen b) else s.onReceived c got b

/-- Between the loops: the request buffer is made and the header copied into it. A shift by
`align_bit` is defined below 32. -/
def onHeader (s : EchoServer κ) (c : κ) (buf : Region) (pick p : ℕ) : Option (EchoServer κ) :=
  let h := ({ buf := buf } : RecvRequest).header
  let b := s.pool.requestBuffer h pick p
  if h.args.alignBit < 32 then
    some <| ({ s with pool := (s.pool.malloc h.args pick p).2 }.storeAt b 0 (buf.read 0 6)).bodyLoop
      c 6 (h.len.toInt32 + 4) b
  else none

/-- `send_lazy` has returned. -/
def onSent (s : EchoServer κ) (c : κ) (len lenS : ℤ) (b : ByteBufferImpl) : EchoServer κ :=
  (s.release b).setConn c (if len ≠ lenS then .closed else .fresh)

/-- The head of the loop of `send_lazy`. -/
def sendLoop (s : EchoServer κ) (c : κ) (len : ℤ) (sended : ℕ) (b : ByteBufferImpl) :
    EchoServer κ :=
  if (sended : ℤ) < b.dataLen.toInt32.toInt then s.setConn c (.sending len sended b)
  else s.onSent c len sended b

/-- One call. -/
def step (s : EchoServer κ) (a : ServeAction κ) : Option (EchoServer κ) :=
  match s.conns a.conn, a.call with
  | .header got buf, .recv (.bytes bs) =>
    if bs ≠ [] ∧ bs.length ≤ 6 - got then
      if got + bs.length < 6 then
        some ((s.took a.conn bs).setConn a.conn (.header (got + bs.length) (buf.write got bs)))
      else (s.took a.conn bs).onHeader a.conn (buf.write got bs) a.pick a.addr
    else none
  | .header .., .recv .again | .header .., .recv .intr => some s
  | .header .., .recv .closed | .header .., .recv .error => some (s.setConn a.conn .closed)
  | .body got cmdLen b, .recv (.bytes bs) =>
    if bs ≠ [] ∧ bs.length ≤ cmdLen.toInt.toNat - got then
      some (((s.took a.conn bs).storeAt b got bs).bodyLoop a.conn (got + bs.length) cmdLen b)
    else none
  | .body .., .recv .again | .body .., .recv .intr => some s
  | .body _ _ b, .recv .closed | .body _ _ b, .recv .error =>
    some ((s.release b).setConn a.conn .closed)
  | .sending len sended b, .send (.chunk n) =>
    let k := min (n + 1) (b.dataLen.toNat - sended)
    some ((s.gave a.conn (Memory.load s.heap (b.data + sended) k)).sendLoop a.conn len
      (sended + k) b)
  | .sending .., .send .again | .sending .., .send .intr => some s
  -- `_result` is still -1
  | .sending len _ b, .send .closed | .sending len _ b, .send .error =>
    some (s.onSent a.conn len (-1) b)
  | _, _ => none

/-- The runs of a server with an empty pool, in a heap with any content. -/
def machine (κ : Type*) [DecidableEq κ] (limit : UInt64) (heap : ℕ → UInt8) :
    Machine (EchoServer κ) (ServeAction κ) where
  init := { heap := heap, pool := .newInst limit }
  step := step

/-- The header a call completes. -/
def completes (s : EchoServer κ) (a : ServeAction κ) : Option Header :=
  match s.conns a.conn, a.call with
  | .header got buf, .recv (.bytes bs) =>
    if got + bs.length < 6 then none
    else some ({ buf := buf.write got bs } : RecvRequest).header
  | _, _ => none

/-- What is assumed of `aligned_alloc`: a fresh chunk is apart from those that are held by a
connection or cached. -/
def FreshApart (s : EchoServer κ) (a : ServeAction κ) : Prop :=
  ∀ h, s.completes a = some h → s.pool.find h.args.key a.pick = none →
    (∀ c y, (s.conns c).region = some y → Intervals.Apart (a.addr, h.args.total.toNat) y) ∧
      ∀ e ∈ s.pool.cache, Intervals.Apart (a.addr, h.args.total.toNat) e.2.region

omit [DecidableEq κ] in
theorem FreshApart.of_none {s : EchoServer κ} {a : ServeAction κ} (h : s.completes a = none) :
    s.FreshApart a := fun _ hh ↦ absurd (h.symm.trans hh) (by simp)

omit [DecidableEq κ] in
theorem FreshApart.of_some {s : EchoServer κ} {a : ServeAction κ} {h : Header}
    (hh : s.completes a = some h)
    (hheld : ∀ c y, (s.conns c).region = some y →
      Intervals.Apart (a.addr, h.args.total.toNat) y)
    (hcache : ∀ e ∈ s.pool.cache, Intervals.Apart (a.addr, h.args.total.toNat) e.2.region) :
    s.FreshApart a := fun _ hh' _ ↦ Option.some.inj (hh.symm.trans hh') ▸ ⟨hheld, hcache⟩

end EchoServer

/-! ### What a connection should do -/

/-- The header at the beginning of a message. -/
def Header.ofBytes (msg : List UInt8) : Header where
  len := ntohl (msg[0]?.getD 0) (msg[1]?.getD 0) (msg[2]?.getD 0) (msg[3]?.getD 0)
  alignOff := msg[4]?.getD 0
  alignBit := msg[5]?.getD 0

/-- Where an echo is. -/
inductive EchoState
  | reading (msg : List UInt8)
  | sending (msg : List UInt8) (sent : ℕ)
  | closed
  deriving DecidableEq, Repr

namespace EchoState

/-- The length of the request that begins with `msg`, as an `int`. -/
def wanted (msg : List UInt8) : ℤ := ((Header.ofBytes msg).len.toInt32 + 4).toInt

/-- How many bytes a call asks for. -/
def missing (msg : List UInt8) : ℕ :=
  if msg.length < 6 then 6 - msg.length else (wanted msg).toNat - msg.length

/-- A request is sent back when it is complete. One shorter than a header is not answered. -/
def read (msg : List UInt8) : EchoState :=
  if msg.length < 6 ∨ (msg.length : ℤ) < wanted msg then .reading msg
  else if (msg.length : ℤ) = wanted msg then .sending msg 0
  else .closed

theorem read_cases (msg : List UInt8) :
    read msg = .reading msg ∨ read msg = .sending msg 0 ∨ read msg = .closed := by
  rw [read]
  split
  · exact .inl rfl
  · split
    · exact .inr (.inl rfl)
    · exact .inr (.inr rfl)

/-- The next request is read when the last one has been sent back. -/
def sent (msg : List UInt8) (n : ℕ) : EchoState :=
  if n < msg.length then .sending msg n else .reading []

end EchoState

/-- An echo on its own. -/
@[ext]
structure EchoPeer where
  state : EchoState := .reading []
  input : List UInt8 := []
  output : List UInt8 := []
  deriving DecidableEq, Repr

namespace EchoPeer

def step (p : EchoPeer) (call : ConnCall) : Option EchoPeer :=
  match p.state, call with
  | .reading msg, .recv (.bytes bs) =>
    if bs ≠ [] ∧ bs.length ≤ EchoState.missing msg then
      some { p with state := .read (msg ++ bs), input := p.input ++ bs }
    else none
  | .reading _, .recv .again | .reading _, .recv .intr => some p
  | .reading _, .recv .closed | .reading _, .recv .error => some { p with state := .closed }
  | .sending msg n, .send (.chunk k) =>
    let m := min (k + 1) (msg.length - n)
    some { p with state := .sent msg (n + m), output := p.output ++ (msg.drop n).take m }
  | .sending .., .send .again | .sending .., .send .intr => some p
  | .sending .., .send .closed | .sending .., .send .error => some { p with state := .closed }
  | _, _ => none

def machine : Machine EchoPeer ConnCall where
  init := {}
  step := step

/-- What has been sent back is what came in, up to the request that is being read or sent. -/
inductive Echoes (p : EchoPeer) : Prop
  | reading (msg : List UInt8) (hstate : p.state = .reading msg)
      (hinput : p.input = p.output ++ msg)
  | sending (done msg : List UInt8) (n : ℕ) (hstate : p.state = .sending msg n)
      (hinput : p.input = done ++ msg) (houtput : p.output = done ++ msg.take n)
  | closed (hstate : p.state = .closed) (houtput : p.output <+: p.input)

/-- What has been sent back is a beginning of what came in. -/
theorem Echoes.isPrefix {p : EchoPeer} (hp : p.Echoes) : p.output <+: p.input := by
  cases hp with
  | reading msg hstate hinput => exact ⟨msg, hinput.symm⟩
  | sending done msg n hstate hinput houtput =>
    rw [hinput, houtput]
    exact (List.prefix_append_right_inj done).2 (List.take_prefix n msg)
  | closed hstate houtput => exact houtput

/-- More of the request has been sent back. -/
theorem Echoes.of_sent {done msg : List UInt8} {n : ℕ} {p : EchoPeer}
    (hinput : p.input = done ++ msg) (houtput : p.output = done ++ msg.take n) (m : ℕ) :
    Echoes { p with
      state := .sent msg (n + m)
      output := p.output ++ (msg.drop n).take m } := by
  have hmore : p.output ++ (msg.drop n).take m = done ++ msg.take (n + m) := by
    rw [houtput, List.append_assoc, ← List.take_add]
  rcases Nat.lt_or_ge (n + m) msg.length with hlt | hge
  · exact .sending done msg (n + m) (if_pos hlt) hinput hmore
  · refine .reading [] (if_neg (Nat.not_lt.2 hge)) ?_
    rw [List.append_nil]
    exact hinput.trans (hmore.trans (by rw [List.take_of_length_le hge])).symm

theorem echoes_step (p : EchoPeer) (a : ConnCall) (q : EchoPeer) (hq : p.step a = some q)
    (hp : p.Echoes) : q.Echoes := by
  have hprefix := hp.isPrefix
  unfold step at hq
  cases hp with
  | reading msg hstate hinput =>
    rw [hstate] at hq
    cases a with
    | send => exact absurd hq (by simp)
    | recv x =>
      cases x with
      | bytes bs =>
        obtain ⟨-, hq⟩ := Option.ite_none_right_eq_some.1 hq
        obtain rfl := Option.some.inj hq
        have hmore : p.input ++ bs = p.output ++ (msg ++ bs) := by rw [hinput, List.append_assoc]
        rcases EchoState.read_cases (msg ++ bs) with h | h | h
        · exact .reading _ h hmore
        · exact .sending p.output _ 0 h hmore (by simp)
        · exact .closed h ⟨_, hmore.symm⟩
      | again | intr =>
        obtain rfl := Option.some.inj hq
        exact .reading msg hstate hinput
      | closed | error =>
        obtain rfl := Option.some.inj hq
        exact .closed rfl hprefix
  | sending done msg n hstate hinput houtput =>
    rw [hstate] at hq
    cases a with
    | recv => exact absurd hq (by simp)
    | send r =>
      cases r with
      | chunk k =>
        obtain rfl := Option.some.inj hq
        exact .of_sent hinput houtput _
      | again | intr =>
        obtain rfl := Option.some.inj hq
        exact .sending done msg n hstate hinput houtput
      | closed | error =>
        obtain rfl := Option.some.inj hq
        exact .closed rfl hprefix
  | closed hstate houtput =>
    rw [hstate] at hq
    exact absurd hq (by simp)

end EchoPeer

end Nsio
