import Nsio.Test.EchoServer

/-!
# Connections do not see each other

The server of `Test.EchoServer` has one heap and one pool for all connections. `Mirrors` relates it
to a family of peers, one for each connection, that have nothing in common: each connection's
request buffer holds what its peer has read, and the chunks are apart (`Memory.Exclusive`).

A call is followed in pieces. `Beside` is what holds while a connection is at work: the others are
where their peers are, and the connection holds one chunk or none. Each piece of a call keeps it,
and it is back at `Mirrors` when the connection has found its place (`Beside.setConn`). The pieces
that matter are the store, which the others do not see because it is inside the chunk, and `malloc`,
which hands out a chunk that nobody holds.

## Results

`echo_isolated`: where each connection is, is determined by its own calls. `echo_answers_own`: a
client is only ever sent bytes of its own. Both need of `aligned_alloc` that a fresh chunk is apart
from those that are held, and hold as long as no store has left its chunk.
-/

namespace Nsio

/-! ### What a buffer shows of a request -/

namespace Header

/-- The header in `_buf`. -/
theorem header_eq_ofBytes (buf : Region) :
    ({ buf := buf } : RecvRequest).header = ofBytes (buf.read 0 6) := by
  have hcell : ∀ i < 6, buf.cell i = ((buf.read 0 6)[i]?).getD 0 := fun i hi ↦ by
    rw [← Region.cell_of_read rfl hi, Nat.zero_add]
  rw [RecvRequest.header, ofBytes]
  dsimp only
  rw [hcell 0 (by omega), hcell 1 (by omega), hcell 2 (by omega), hcell 3 (by omega),
    hcell 4 (by omega), hcell 5 (by omega)]

/-- Later bytes do not change the header. -/
theorem ofBytes_append {msg : List UInt8} (h : 6 ≤ msg.length) (bs : List UInt8) :
    ofBytes (msg ++ bs) = ofBytes msg := by
  have hget : ∀ i < 6, (msg ++ bs)[i]? = msg[i]? := fun i hi ↦
    List.getElem?_append_left (Nat.lt_of_lt_of_le hi h)
  rw [ofBytes, ofBytes, hget 0 (by omega), hget 1 (by omega), hget 2 (by omega),
    hget 3 (by omega), hget 4 (by omega), hget 5 (by omega)]

end Header

/-- The buffer of a request of which `msg` was read. -/
structure Loaded (heap : ℕ → UInt8) (b : ByteBufferImpl) (msg : List UInt8) : Prop where
  load : Memory.load heap b.data msg.length = msg
  fits : b.dataBegin.toNat + msg.length ≤ b.capacity.toNat
  six_le : 6 ≤ msg.length
  dataLen : b.dataLen.toInt32 = (Header.ofBytes msg).len.toInt32 + 4

/-- A connection with its buffer in the heap shows where an echo is. -/
inductive Shows (heap : ℕ → UInt8) : EchoConn → EchoState → Prop
  | header {got : ℕ} {buf : Region} (hcap : buf.cap = 8) (hgot : got < 6) :
    Shows heap (.header got buf) (.reading (buf.read 0 got))
  | body {cmdLen : Int32} {b : ByteBufferImpl} {msg : List UInt8} (hloaded : Loaded heap b msg)
    (hcmd : cmdLen = (Header.ofBytes msg).len.toInt32 + 4)
    (hlt : (msg.length : ℤ) < EchoState.wanted msg) :
    Shows heap (.body msg.length cmdLen b) (.reading msg)
  | sending {sended : ℕ} {b : ByteBufferImpl} {msg : List UInt8} (hloaded : Loaded heap b msg)
    (hwanted : (msg.length : ℤ) = EchoState.wanted msg) (hlt : sended < msg.length) :
    Shows heap (.sending msg.length sended b) (.sending msg sended)
  | closed : Shows heap .closed .closed

/-- The data of a buffer lies in its chunk. -/
theorem Loaded.frame {heap heap' : ℕ → UInt8} {b : ByteBufferImpl} {msg : List UInt8}
    (h : Loaded heap b msg)
    (hsame : ∀ i, b.d.region.1 ≤ i → i < b.d.region.1 + b.d.region.2 → heap' i = heap i) :
    Loaded heap' b msg := by
  refine { h with load := ?_ }
  have hfits : b.dataBegin.toNat + msg.length ≤ b.d.len.toNat := h.fits
  refine (Memory.load_congr fun i hlo hhi ↦ hsame i ?_ ?_).trans h.load
  · exact Nat.le_trans (Nat.le_add_right _ _) hlo
  · have hdata : b.data = b.d.data + b.dataBegin.toNat := rfl
    show i < b.d.data + b.d.len.toNat
    omega

/-- More of the request is stored behind what is there. -/
theorem Loaded.append {heap : ℕ → UInt8} {b : ByteBufferImpl} {msg bs : List UInt8}
    (h : Loaded heap b msg)
    (hroom : b.dataBegin.toNat + msg.length + bs.length ≤ b.capacity.toNat) :
    Loaded (Memory.store heap (b.data + msg.length) bs) b (msg ++ bs) where
  load := by rw [List.length_append, Memory.load_store_append, h.load]
  fits := by rwa [List.length_append, ← Nat.add_assoc]
  six_le := h.six_le.trans (List.length_append ▸ Nat.le_add_right _ _)
  dataLen := by rw [Header.ofBytes_append h.six_le, h.dataLen]

/-- What others store does not concern a connection. -/
theorem Shows.frame {heap heap' : ℕ → UInt8} {x : EchoConn} {y : EchoState} (h : Shows heap x y)
    (hsame : ∀ r, x.region = some r → ∀ i, r.1 ≤ i → i < r.1 + r.2 → heap' i = heap i) :
    Shows heap' x y := by
  cases h with
  | header hcap hgot => exact .header hcap hgot
  | body hloaded hcmd hlt => exact .body (hloaded.frame (hsame _ rfl)) hcmd hlt
  | sending hloaded hwanted hlt => exact .sending (hloaded.frame (hsame _ rfl)) hwanted hlt
  | closed => exact .closed

/-- The length of a complete request is that of the buffer's data. -/
theorem Loaded.toNat_dataLen {heap : ℕ → UInt8} {b : ByteBufferImpl} {msg : List UInt8}
    (h : Loaded heap b msg) (hwanted : (msg.length : ℤ) = EchoState.wanted msg) :
    b.dataLen.toNat = msg.length := by
  have hint : b.dataLen.toInt32.toInt = if 2 * b.dataLen.toNat < 2 ^ 32 then (b.dataLen.toNat : ℤ)
      else b.dataLen.toNat - 2 ^ 32 := BitVec.toInt_eq_toNat_cond b.dataLen.toBitVec
  rw [h.dataLen, ← EchoState.wanted, ← hwanted] at hint
  have := b.dataLen.toNat_lt
  split at hint <;> omega

/-! ### One connection at work -/

namespace EchoServer

variable {κ : Type*} [DecidableEq κ] {s t : EchoServer κ} {peers : κ → EchoPeer} {c : κ}
  {b : ByteBufferImpl} {r : Option (ℕ × ℕ)}

/-- The cached chunks. -/
def aside (s : EchoServer κ) : List (ℕ × ℕ) := s.pool.cache.map fun e ↦ e.2.region

/-- Every connection is where its peer is. -/
structure Mirrors (s : EchoServer κ) (peers : κ → EchoPeer) : Prop where
  exclusive : Memory.Exclusive (fun c ↦ (s.conns c).region) s.aside
  shows : ∀ c, Shows s.heap (s.conns c) (peers c).state
  input : ∀ c, s.input c = (peers c).input
  output : ∀ c, s.output c = (peers c).output

/-- Every connection but `c` is where its peer is, and `c` holds the chunk `r`. -/
structure Beside (c : κ) (r : Option (ℕ × ℕ)) (s : EchoServer κ) (peers : κ → EchoPeer) :
    Prop where
  exclusive : Memory.Exclusive (Function.update (fun c ↦ (s.conns c).region) c r) s.aside
  shows : ∀ c' ≠ c, Shows s.heap (s.conns c') (peers c').state
  input : ∀ c' ≠ c, s.input c' = (peers c').input
  output : ∀ c' ≠ c, s.output c' = (peers c').output

/-- A connection begins. -/
theorem Mirrors.beside (hs : s.Mirrors peers) (c : κ) :
    s.Beside c (s.conns c).region peers where
  exclusive := by
    rw [Function.update_eq_self]
    exact hs.exclusive
  shows c' _ := hs.shows c'
  input c' _ := hs.input c'
  output c' _ := hs.output c'

namespace Beside

/-- It ends where its peer is. -/
theorem setConn {x : EchoConn} {p : EchoPeer} (hs : s.Beside c x.region peers)
    (hshows : Shows s.heap x p.state) (hinput : s.input c = p.input)
    (houtput : s.output c = p.output) :
    (s.setConn c x).Mirrors (Function.update peers c p) := by
  refine ⟨?_, fun c' ↦ ?_, fun c' ↦ ?_, fun c' ↦ ?_⟩
  · have hregion : (fun c' ↦ ((s.setConn c x).conns c').region) =
        Function.update (fun c' ↦ (s.conns c').region) c x.region :=
      funext fun c' ↦ Function.apply_update (fun _ ↦ EchoConn.region) s.conns c x c'
    rw [hregion]
    exact hs.exclusive
  all_goals rcases eq_or_ne c' c with rfl | hne
  · rw [Function.update_self, conns_setConn_self]
    exact hshows
  · rw [Function.update_of_ne hne, conns_setConn_of_ne hne]
    exact hs.shows c' hne
  · rw [Function.update_self]
    exact hinput
  · rw [Function.update_of_ne hne]
    exact hs.input c' hne
  · rw [Function.update_self]
    exact houtput
  · rw [Function.update_of_ne hne]
    exact hs.output c' hne

theorem took (hs : s.Beside c r peers) (bs : List UInt8) : (s.took c bs).Beside c r peers where
  exclusive := hs.exclusive
  shows := hs.shows
  input c' hne := (Function.update_of_ne hne _ _).trans (hs.input c' hne)
  output := hs.output

theorem gave (hs : s.Beside c r peers) (bs : List UInt8) : (s.gave c bs).Beside c r peers where
  exclusive := hs.exclusive
  shows := hs.shows
  input := hs.input
  output c' hne := (Function.update_of_ne hne _ _).trans (hs.output c' hne)

/-- **A store inside the chunk** is not seen by others. -/
theorem storeAt {off : ℕ} {bs : List UInt8} (hs : s.Beside c (some b.d.region) peers)
    (hinside : b.dataBegin.toNat + off + bs.length ≤ b.capacity.toNat) :
    (s.storeAt b off bs).Beside c (some b.d.region) peers := by
  refine { hs with shows := fun c' hne ↦ (hs.shows c' hne).frame fun x hx i hlo hhi ↦ ?_ }
  have hapart : Intervals.Apart b.d.region x := by
    refine hs.exclusive.apart c c' _ _ hne.symm (Function.update_self ..) ?_
    rwa [Function.update_of_ne hne]
  have hbegin : b.data = b.d.region.1 + b.dataBegin.toNat := rfl
  have hend : b.d.region.2 = b.capacity.toNat := rfl
  refine Memory.store_of_outside ?_
  rcases hapart with h | h <;> omega

/-- The chunk goes back to the pool, or is freed. -/
theorem release (hs : s.Beside c (some b.d.region) peers) : (s.release b).Beside c none peers := by
  refine { hs with exclusive := ?_ }
  have hheld := Function.update_idem (f := fun c ↦ (s.conns c).region) (a := c) (some b.d.region)
  show Memory.Exclusive (Function.update (fun c ↦ (s.conns c).region) c none) _
  rw [← hheld, aside, EchoServer.release, BufferPool.release]
  split
  · exact hs.exclusive.drop c
  · exact hs.exclusive.putAside (Function.update_self ..)

/-- A chunk is taken from the pool, or is new. -/
theorem malloc {m : MallocArgs} {pick p : ℕ} (hs : s.Beside c none peers)
    (hfresh : s.pool.find m.key pick = none →
      (∀ c' y, (s.conns c').region = some y → Intervals.Apart (p, m.total.toNat) y) ∧
        ∀ e ∈ s.pool.cache, Intervals.Apart (p, m.total.toNat) e.2.region) :
    { s with pool := (s.pool.malloc m pick p).2 }.Beside c
      (some (s.pool.malloc m pick p).1.d.region) peers := by
  refine { hs with exclusive := ?_ }
  rw [← Function.update_idem (f := fun c ↦ (s.conns c).region) (a := c) none]
  obtain ⟨it, hfind, hm⟩ | ⟨hfind, hm⟩ := s.pool.malloc_cases m pick p
  · rw [aside, hm]
    have hperm := (List.perm_cons_erase (BufferPool.mem_of_find hfind).1).map
      fun e : UInt32 × ByteBufferData ↦ e.2.region
    exact hs.exclusive.take hperm
  · rw [aside, hm]
    obtain ⟨hheld, hcache⟩ := hfresh hfind
    refine hs.exclusive.fresh (fun c' hne y hy ↦ ?_) fun y hy ↦ ?_
    · rw [Function.update_of_ne hne] at hy
      exact hheld c' y hy
    · obtain ⟨e, he, rfl⟩ := List.mem_map.1 hy
      exact hcache e he

/-- A part of the request has arrived, in the second loop or before it. -/
theorem bodyLoop {cmdLen : Int32} {msg : List UInt8} {p : EchoPeer}
    (hs : s.Beside c (some b.d.region) peers) (hloaded : Loaded s.heap b msg)
    (hcmd : cmdLen = (Header.ofBytes msg).len.toInt32 + 4) (hstate : p.state = .read msg)
    (hinput : s.input c = p.input) (houtput : s.output c = p.output) :
    (s.bodyLoop c msg.length cmdLen b).Mirrors (Function.update peers c p) := by
  have hwanted : cmdLen.toInt = EchoState.wanted msg := by rw [hcmd, EchoState.wanted]
  have hdataLen : b.dataLen.toInt32.toInt = EchoState.wanted msg := by
    rw [hloaded.dataLen, EchoState.wanted]
  have hsix := hloaded.six_le
  rw [EchoServer.bodyLoop, hwanted]
  split
  · rename_i hlt
    refine setConn (x := .body msg.length cmdLen b) hs ?_ hinput houtput
    rw [hstate, EchoState.read, if_pos (.inr hlt)]
    exact .body hloaded hcmd hlt
  · rename_i hlt
    rw [EchoState.read, if_neg (by omega)] at hstate
    rw [EchoServer.onReceived, hdataLen, if_neg (by omega)]
    split
    · rename_i hne
      refine setConn (x := .closed) hs.release ?_ hinput houtput
      rw [hstate, if_neg hne]
      exact .closed
    · rename_i heq
      rw [not_not] at heq
      refine setConn (x := .sending msg.length 0 b) hs ?_ hinput houtput
      rw [hstate, if_pos heq]
      exact .sending hloaded heq (by omega)

/-- A part of the request has been sent back. -/
theorem sendLoop {msg : List UInt8} {n : ℕ} {p : EchoPeer}
    (hs : s.Beside c (some b.d.region) peers) (hloaded : Loaded s.heap b msg)
    (hwanted : (msg.length : ℤ) = EchoState.wanted msg) (hn : n ≤ msg.length)
    (hstate : p.state = .sent msg n) (hinput : s.input c = p.input)
    (houtput : s.output c = p.output) :
    (s.sendLoop c msg.length n b).Mirrors (Function.update peers c p) := by
  have hdataLen : b.dataLen.toInt32.toInt = msg.length := by
    rw [hloaded.dataLen, hwanted, EchoState.wanted]
  rw [EchoServer.sendLoop, hdataLen]
  split
  · rename_i hlt
    refine setConn (x := .sending msg.length n b) hs ?_ hinput houtput
    rw [hstate, EchoState.sent, if_pos (by omega)]
    exact .sending hloaded hwanted (by omega)
  · rename_i hlt
    rw [EchoServer.onSent, if_neg (by omega)]
    refine setConn (x := .fresh) hs.release ?_ hinput houtput
    rw [hstate, EchoState.sent, if_neg (by omega)]
    exact .header rfl (by omega)

end Beside

/-! ### One call -/

theorem overran_bodyLoop {got : ℕ} {cmdLen : Int32} :
    (s.bodyLoop c got cmdLen b).overran = s.overran := by
  rw [bodyLoop]
  split
  · rfl
  · rw [onReceived]
    split
    · rfl
    · split <;> rfl

theorem overran_sendLoop {len : ℤ} {sended : ℕ} :
    (s.sendLoop c len sended b).overran = s.overran := by
  rw [sendLoop]
  split <;> rfl

omit [DecidableEq κ] in
theorem inside_of_storeAt {off : ℕ} {bs : List UInt8} (h : (s.storeAt b off bs).overran = false) :
    s.overran = false ∧ b.dataBegin.toNat + off + bs.length ≤ b.capacity.toNat := by
  simp only [storeAt, Bool.or_eq_false_iff, decide_eq_false_iff_not, Nat.not_lt] at h
  exact h

/-- The header is complete. -/
theorem Beside.onHeader {buf : Region} {pick addr : ℕ} {p : EchoPeer}
    (hs : s.Beside c none peers)
    (hfresh : s.pool.find (Header.ofBytes (buf.read 0 6)).args.key pick = none →
      (∀ c' y, (s.conns c').region = some y →
        Intervals.Apart (addr, (Header.ofBytes (buf.read 0 6)).args.total.toNat) y) ∧
      ∀ e ∈ s.pool.cache,
        Intervals.Apart (addr, (Header.ofBytes (buf.read 0 6)).args.total.toNat) e.2.region)
    (ht : s.onHeader c buf pick addr = some t) (hinside : t.overran = false)
    (hstate : p.state = .read (buf.read 0 6)) (hinput : s.input c = p.input)
    (houtput : s.output c = p.output) : t.Mirrors (Function.update peers c p) := by
  rw [EchoServer.onHeader, Header.header_eq_ofBytes] at ht
  set h := Header.ofBytes (buf.read 0 6) with hh
  obtain ⟨-, ht⟩ := Option.ite_none_right_eq_some.1 ht
  obtain rfl := Option.some.inj ht
  rw [overran_bodyLoop] at hinside
  have hdataLen := s.pool.dataLen_requestBuffer h pick addr
  have hd : (s.pool.requestBuffer h pick addr).d = (s.pool.malloc h.args pick addr).1.d := by
    rw [BufferPool.requestBuffer_eq]
    rfl
  set b := s.pool.requestBuffer h pick addr
  have hbeside := hs.malloc hfresh
  rw [← hd] at hbeside
  have hroom := (inside_of_storeAt hinside).2
  have hlen : (buf.read 0 6).length = 6 := Region.length_read ..
  have hloaded : Loaded (Memory.store s.heap (b.data + 0) (buf.read 0 6)) b (buf.read 0 6) := by
    refine ⟨Memory.load_store_self, ?_, hlen.ge, hdataLen⟩
    rwa [Nat.add_zero] at hroom
  have hdone := (hbeside.storeAt hroom).bodyLoop hloaded rfl hstate hinput houtput
  rwa [hlen] at hdone

/-- A connection that waits goes on waiting. -/
theorem Mirrors.wait (hs : s.Mirrors peers) (c : κ) :
    s.Mirrors (Function.update peers c (peers c)) := by
  rwa [Function.update_eq_self]

/-- A connection without a buffer is given up. -/
theorem Beside.close (hs : s.Beside c none peers) (hinput : s.input c = (peers c).input)
    (houtput : s.output c = (peers c).output) :
    (s.setConn c .closed).Mirrors (Function.update peers c { peers c with state := .closed }) :=
  hs.setConn (x := .closed) .closed hinput houtput

/-- A call in the first loop of `recv_request`. -/
theorem Mirrors.step_header {x : Received} {pick addr got : ℕ} {buf : Region}
    (hs : s.Mirrors peers) (hconn : s.conns c = .header got buf)
    (hpeer : (peers c).state = .reading (buf.read 0 got)) (hcap : buf.cap = 8) (hgot : got < 6)
    (ht : s.step ⟨c, .recv x, pick, addr⟩ = some t)
    (hfresh : s.FreshApart ⟨c, .recv x, pick, addr⟩) (hinside : t.overran = false) :
    ∃ p, (peers c).step (.recv x) = some p ∧ t.Mirrors (Function.update peers c p) := by
  have hbeside := hs.beside c
  unfold EchoServer.step at ht
  unfold EchoPeer.step
  rw [hconn] at ht hbeside
  rw [hpeer]
  cases x with
  | bytes bs =>
    obtain ⟨⟨hne, hle⟩, ht⟩ := Option.ite_none_right_eq_some.1 ht
    have hmissing : EchoState.missing (buf.read 0 got) = 6 - got := by
      rw [EchoState.missing, Region.length_read, if_pos hgot]
    have hread : (buf.write got bs).read 0 (got + bs.length) = buf.read 0 got ++ bs :=
      Region.read_write_append (by omega)
    refine ⟨{ peers c with
      state := .read (buf.read 0 got ++ bs)
      input := (peers c).input ++ bs }, if_pos ⟨hne, by rwa [hmissing]⟩, ?_⟩
    have hinput : (s.took c bs).input c = (peers c).input ++ bs := by
      rw [input_took_self, hs.input]
    split at ht
    · rename_i hlt
      obtain rfl := Option.some.inj ht
      refine Beside.setConn (x := .header (got + bs.length) (buf.write got bs)) (hbeside.took bs) ?_
        hinput (hs.output c)
      dsimp only
      rw [EchoState.read, if_pos (.inl (by rw [List.length_append, Region.length_read]; omega)),
        ← hread]
      exact .header hcap hlt
    · have hsix : got + bs.length = 6 := by omega
      rw [hsix] at hread
      refine (hbeside.took bs).onHeader ?_ ht hinside (congrArg EchoState.read hread.symm) hinput
        (hs.output c)
      have hcompletes : s.completes ⟨c, .recv (.bytes bs), pick, addr⟩ =
          some (Header.ofBytes ((buf.write got bs).read 0 6)) := by
        unfold completes
        rw [hconn, ← Header.header_eq_ofBytes]
        exact if_neg (by omega)
      exact hfresh _ hcompletes
  | again | intr =>
    obtain rfl := Option.some.inj ht
    exact ⟨peers c, rfl, hs.wait c⟩
  | closed | error =>
    obtain rfl := Option.some.inj ht
    exact ⟨_, rfl, hbeside.close (hs.input c) (hs.output c)⟩

/-- A call in the second loop. -/
theorem Mirrors.step_body {x : Received} {pick addr : ℕ} {cmdLen : Int32} {msg : List UInt8}
    (hs : s.Mirrors peers) (hconn : s.conns c = .body msg.length cmdLen b)
    (hpeer : (peers c).state = .reading msg) (hloaded : Loaded s.heap b msg)
    (hcmd : cmdLen = (Header.ofBytes msg).len.toInt32 + 4)
    (ht : s.step ⟨c, .recv x, pick, addr⟩ = some t) (hinside : t.overran = false) :
    ∃ p, (peers c).step (.recv x) = some p ∧ t.Mirrors (Function.update peers c p) := by
  have hbeside := hs.beside c
  unfold EchoServer.step at ht
  unfold EchoPeer.step
  rw [hconn] at ht hbeside
  rw [hpeer]
  cases x with
  | bytes bs =>
    obtain ⟨⟨hne, hle⟩, ht⟩ := Option.ite_none_right_eq_some.1 ht
    obtain rfl := Option.some.inj ht
    have hmissing : EchoState.missing msg = cmdLen.toInt.toNat - msg.length := by
      rw [EchoState.missing, if_neg (Nat.not_lt.2 hloaded.six_le), EchoState.wanted, hcmd]
    let p : EchoPeer := { peers c with
      state := .read (msg ++ bs)
      input := (peers c).input ++ bs }
    refine ⟨p, if_pos ⟨hne, by rwa [hmissing]⟩, ?_⟩
    have hinput : (s.took c bs).input c = (peers c).input ++ bs := by
      rw [input_took_self, hs.input]
    rw [overran_bodyLoop] at hinside
    have hroom := (inside_of_storeAt hinside).2
    have hmore := hloaded.append hroom
    have hdone := ((hbeside.took bs).storeAt hroom).bodyLoop (p := p) hmore
      (hcmd.trans (by rw [Header.ofBytes_append hloaded.six_le])) rfl hinput (hs.output c)
    rwa [List.length_append] at hdone
  | again | intr =>
    obtain rfl := Option.some.inj ht
    exact ⟨peers c, rfl, hs.wait c⟩
  | closed | error =>
    obtain rfl := Option.some.inj ht
    exact ⟨_, rfl, hbeside.release.close (hs.input c) (hs.output c)⟩

/-- A call of `send_lazy`. -/
theorem Mirrors.step_sending {r : Reply} {pick addr sended : ℕ} {msg : List UInt8}
    (hs : s.Mirrors peers) (hconn : s.conns c = .sending msg.length sended b)
    (hpeer : (peers c).state = .sending msg sended) (hloaded : Loaded s.heap b msg)
    (hwanted : (msg.length : ℤ) = EchoState.wanted msg) (hlt : sended < msg.length)
    (ht : s.step ⟨c, .send r, pick, addr⟩ = some t) :
    ∃ p, (peers c).step (.send r) = some p ∧ t.Mirrors (Function.update peers c p) := by
  have hbeside := hs.beside c
  unfold EchoServer.step at ht
  unfold EchoPeer.step
  rw [hconn] at ht hbeside
  rw [hpeer]
  cases r with
  | chunk n =>
    obtain rfl := Option.some.inj ht
    refine ⟨_, rfl, ?_⟩
    rw [hloaded.toNat_dataLen hwanted]
    set k := min (n + 1) (msg.length - sended)
    have hsent : Memory.load s.heap (b.data + sended) k = (msg.drop sended).take k := by
      have hdrop := Memory.drop_load (m := s.heap) (a := b.data) hlt.le
      rw [hloaded.load] at hdrop
      rw [hdrop, Memory.take_load (Nat.min_le_right _ _)]
    refine Beside.sendLoop (hbeside.gave _) hloaded hwanted (by omega) rfl (hs.input c) ?_
    rw [output_gave_self, hs.output, hsent]
  | again | intr =>
    obtain rfl := Option.some.inj ht
    exact ⟨peers c, rfl, hs.wait c⟩
  | closed | error =>
    obtain rfl := Option.some.inj ht
    refine ⟨_, rfl, ?_⟩
    rw [EchoServer.onSent, if_pos (by omega)]
    exact hbeside.release.close (hs.input c) (hs.output c)

/-- **One call**, as long as its store is inside the chunk: the connection goes as its peer does,
and the others stay where they are. -/
theorem Mirrors.step {a : ServeAction κ} (hs : s.Mirrors peers) (ht : s.step a = some t)
    (hfresh : s.FreshApart a) (hinside : t.overran = false) :
    ∃ p, (peers a.conn).step a.call = some p ∧ t.Mirrors (Function.update peers a.conn p) := by
  obtain ⟨c, call, pick, addr⟩ := a
  have hshows := hs.shows c
  generalize hx : s.conns c = x at hshows
  generalize hy : (peers c).state = y at hshows
  cases hshows with
  | header hcap hgot =>
    cases call with
    | recv => exact hs.step_header hx hy hcap hgot ht hfresh hinside
    | send => exact absurd ht (by simp [EchoServer.step, hx])
  | body hloaded hcmd hlt =>
    cases call with
    | recv => exact hs.step_body hx hy hloaded hcmd ht hinside
    | send => exact absurd ht (by simp [EchoServer.step, hx])
  | sending hloaded hwanted hlt =>
    cases call with
    | recv => exact absurd ht (by simp [EchoServer.step, hx])
    | send => exact hs.step_sending hx hy hloaded hwanted hlt ht
  | closed => exact absurd ht (by simp [EchoServer.step, hx])

/-! ### Runs -/

/-- A store that has left its chunk is not forgotten. -/
theorem overran_of_step {a : ServeAction κ} (ht : s.step a = some t) (hinside : t.overran = false) :
    s.overran = false := by
  unfold EchoServer.step at ht
  split at ht
  -- most calls store nothing
  any_goals
    obtain rfl := Option.some.inj ht
    exact hinside
  · obtain ⟨-, ht⟩ := Option.ite_none_right_eq_some.1 ht
    split at ht
    · obtain rfl := Option.some.inj ht
      exact hinside
    · obtain ⟨-, ht⟩ := Option.ite_none_right_eq_some.1 ht
      obtain rfl := Option.some.inj ht
      rw [overran_bodyLoop] at hinside
      exact (inside_of_storeAt hinside).1
  · obtain ⟨-, ht⟩ := Option.ite_none_right_eq_some.1 ht
    obtain rfl := Option.some.inj ht
    rw [overran_bodyLoop] at hinside
    exact (inside_of_storeAt hinside).1
  · obtain rfl := Option.some.inj ht
    rwa [overran_sendLoop] at hinside
  · exact absurd ht (by simp)

theorem overran_of_run {limit : UInt64} {heap : ℕ → UInt8} {as : List (ServeAction κ)}
    (ht : (machine κ limit heap).runFrom s as = some t) (hinside : t.overran = false) :
    s.overran = false := by
  refine Bool.eq_false_iff.2 fun hover ↦ ?_
  have hkept : t.overran = true := Machine.runFrom_invariant (P := fun u ↦ u.overran = true)
    (fun u a v hv hu ↦ by
      by_contra hv'
      exact absurd hu (by rw [overran_of_step hv (Bool.eq_false_iff.2 hv')]; simp)) hover ht
  exact absurd hkept (by simp [hinside])

/-- The calls of one connection. -/
def own (c : κ) (as : List (ServeAction κ)) : List ConnCall :=
  (as.filter fun a ↦ a.conn = c).map ServeAction.call

theorem own_cons_self {a : ServeAction κ} {as : List (ServeAction κ)} :
    own a.conn (a :: as) = a.call :: own a.conn as := by
  rw [own, List.filter_cons_of_pos (by simp), List.map_cons, own]

theorem own_cons_of_ne {a : ServeAction κ} {as : List (ServeAction κ)} (h : c ≠ a.conn) :
    own c (a :: as) = own c as := by
  rw [own, List.filter_cons_of_neg (by simpa using h.symm), own]

/-- **A run of the server is a run of every connection on its own.** -/
theorem Mirrors.run {limit : UInt64} {heap : ℕ → UInt8} {as : List (ServeAction κ)}
    (hs : s.Mirrors peers) (ht : (machine κ limit heap).runFrom s as = some t)
    (hfresh : (machine κ limit heap).StepsMeetFrom FreshApart s as)
    (hinside : t.overran = false) :
    ∃ peers', t.Mirrors peers' ∧
      ∀ c, EchoPeer.machine.runFrom (peers c) (own c as) = some (peers' c) := by
  induction as generalizing s peers with
  | nil =>
    obtain rfl := Option.some.inj ht
    exact ⟨peers, hs, fun c ↦ rfl⟩
  | cons a as ih =>
    rw [Machine.runFrom_cons] at ht
    obtain ⟨u, hu, ht⟩ := Option.bind_eq_some_iff.1 ht
    obtain ⟨hfirst, hrest⟩ := hfresh u hu
    obtain ⟨p, hp, hmirrors⟩ := hs.step hu hfirst (overran_of_run ht hinside)
    obtain ⟨peers', hdone, hruns⟩ := ih hmirrors ht hrest
    refine ⟨peers', hdone, fun c ↦ ?_⟩
    rcases eq_or_ne c a.conn with rfl | hne
    · rw [own_cons_self, Machine.runFrom_cons]
      have := hruns a.conn
      rw [Function.update_self] at this
      show (EchoPeer.step _ _).bind _ = _
      rw [hp, Option.bind_some, this]
    · have := hruns c
      rwa [Function.update_of_ne hne, ← own_cons_of_ne hne] at this

theorem mirrors_init {limit : UInt64} {heap : ℕ → UInt8} :
    (machine κ limit heap).init.Mirrors fun _ ↦ {} where
  exclusive := ⟨fun c c' x y _ hx ↦ absurd hx (by simp [machine, EchoConn.fresh, EchoConn.region]),
    fun c x hx ↦ absurd hx (by simp [machine, EchoConn.fresh, EchoConn.region]), List.Pairwise.nil⟩
  shows _ := .header rfl (by omega)
  input _ := rfl
  output _ := rfl

/-- Where a connection is, read off its frame and its buffer. -/
def view (s : EchoServer κ) (c : κ) : EchoPeer where
  state :=
    match s.conns c with
    | .header got buf => .reading (buf.read 0 got)
    | .body got _ b => .reading (Memory.load s.heap b.data got)
    | .sending _ sended b => .sending (Memory.load s.heap b.data b.dataLen.toNat) sended
    | .closed => .closed
  input := s.input c
  output := s.output c

omit [DecidableEq κ] in
theorem Mirrors.view_eq (hs : s.Mirrors peers) (c : κ) : s.view c = peers c := by
  have hshows := hs.shows c
  have hstate : (s.view c).state = (peers c).state := by
    rw [view]
    dsimp only
    generalize s.conns c = x at hshows ⊢
    generalize (peers c).state = y at hshows ⊢
    cases hshows with
    | header | closed => rfl
    | body hloaded => exact congrArg EchoState.reading hloaded.load
    | sending hloaded hwanted =>
      dsimp only
      rw [hloaded.toNat_dataLen hwanted, hloaded.load]
  exact EchoPeer.ext hstate (hs.input c) (hs.output c)

/-- Every connection is where some echo is that has sent back what it has read. -/
def Answering (s : EchoServer κ) : Prop :=
  s.overran = false → ∃ peers, s.Mirrors peers ∧ ∀ c, (peers c).Echoes

theorem answering_init {limit : UInt64} {heap : ℕ → UInt8} :
    (machine κ limit heap).init.Answering := fun _ ↦
  ⟨_, mirrors_init, fun _ ↦ .reading [] rfl rfl⟩

theorem Answering.step {a : ServeAction κ} (ht : s.step a = some t) (hfresh : s.FreshApart a)
    (hs : s.Answering) : t.Answering := fun hinside ↦ by
  obtain ⟨peers, hmirrors, hechoes⟩ := hs (overran_of_step ht hinside)
  obtain ⟨p, hp, hmirrors⟩ := hmirrors.step ht hfresh hinside
  refine ⟨_, hmirrors, fun c ↦ ?_⟩
  rcases eq_or_ne c a.conn with rfl | hne
  · rw [Function.update_self]
    exact EchoPeer.echoes_step _ _ _ hp (hechoes a.conn)
  · rw [Function.update_of_ne hne]
    exact hechoes c

end EchoServer

/-- **Connections do not see each other.** Where a connection of the server is, with every byte of
its request buffer, its input and its output, is what its own calls make of an echo alone, whatever
the calls of the others were and wherever the chunks lie. -/
theorem echo_isolated {κ : Type*} [DecidableEq κ] {limit : UInt64} {heap : ℕ → UInt8}
    {as : List (ServeAction κ)} {s : EchoServer κ}
    (hs : (EchoServer.machine κ limit heap).run as = some s)
    (hfresh : (EchoServer.machine κ limit heap).StepsMeet EchoServer.FreshApart as)
    (hinside : s.overran = false) (c : κ) :
    EchoPeer.machine.run (EchoServer.own c as) = some (s.view c) := by
  obtain ⟨peers, hmirrors, hruns⟩ := EchoServer.mirrors_init.run hs hfresh hinside
  rw [hmirrors.view_eq]
  exact hruns c

/-- Two connections, each with a request of seven bytes, in turn. -/
def twoRequests : List (ServeAction Bool) :=
  [⟨false, .recv (.bytes [0, 0, 0, 3, 0, 0]), 0, 4096⟩,
    ⟨true, .recv (.bytes [0, 0, 0, 3, 0, 0]), 0, 8192⟩, ⟨false, .recv (.bytes [7]), 0, 0⟩,
    ⟨true, .recv (.bytes [9]), 0, 0⟩, ⟨false, .send (.chunk 9), 0, 0⟩]

theorem twoRequests_freshApart :
    (EchoServer.machine Bool 0 fun _ ↦ 0).StepsMeet EchoServer.FreshApart twoRequests := by
  refine .cons rfl (.of_some rfl ?_ ?_) (.cons rfl (.of_some rfl ?_ ?_) (.cons rfl (.of_none rfl)
    (.cons rfl (.of_none rfl) (.cons rfl (.of_none rfl) trivial))))
  · exact fun c y hy ↦ absurd (show none = some y from hy) (by simp)
  · exact fun e he ↦ absurd he List.not_mem_nil
  · refine Bool.forall_bool.2 ⟨fun y hy ↦ ?_, fun y hy ↦ ?_⟩
    · obtain rfl := Option.some.inj (show some (4096, 1024) = some y from hy)
      decide
    · exact absurd (show none = some y from hy) (by simp)
  · exact fun e he ↦ absurd he List.not_mem_nil

/-- The server when the first has its answer. -/
def twoServed : EchoServer Bool :=
  ((EchoServer.machine Bool 0 fun _ ↦ 0).run twoRequests).getD
    (EchoServer.machine Bool 0 fun _ ↦ 0).init

theorem echo_isolated_twoRequests :
    twoServed.output false = [0, 0, 0, 3, 0, 0, 7] ∧
      EchoPeer.machine.run [.recv (.bytes [0, 0, 0, 3, 0, 0]), .recv (.bytes [9])] =
        some (twoServed.view true) :=
  have hserved : (EchoServer.machine Bool 0 fun _ ↦ 0).run twoRequests = some twoServed := rfl
  ⟨rfl, echo_isolated hserved twoRequests_freshApart rfl true⟩

/-- **A client is only ever sent bytes of its own**: at every moment, what was sent back on a
connection is a beginning of what came in on it. -/
theorem echo_answers_own {κ : Type*} [DecidableEq κ] {limit : UInt64} {heap : ℕ → UInt8}
    {as : List (ServeAction κ)}
    (hfresh : (EchoServer.machine κ limit heap).StepsMeet EchoServer.FreshApart as) :
    (EchoServer.machine κ limit heap).Throughout
      (fun s ↦ s.overran = false → ∀ c, s.output c <+: s.input c) as := by
  have hinv : (EchoServer.machine κ limit heap).Throughout EchoServer.Answering as :=
    Machine.throughout_of_stepsMeet EchoServer.answering_init
      (fun _ _ _ ht hmeet hs ↦ EchoServer.Answering.step ht hmeet hs) hfresh
  refine hinv.mono fun s hs hinside c ↦ ?_
  obtain ⟨peers, hmirrors, hechoes⟩ := hs hinside
  rw [hmirrors.input, hmirrors.output]
  exact (hechoes c).isPrefix

theorem echo_answers_own_twoRequests :
    (EchoServer.machine Bool 0 fun _ ↦ 0).Throughout
      (fun s ↦ s.overran = false → ∀ c, s.output c <+: s.input c) twoRequests :=
  echo_answers_own twoRequests_freshApart

/-- A header that leaves its chunk: the last byte of the first client's header is the first byte of
what the second client is sent. -/
example : ((EchoServer.machine Bool 0 fun _ ↦ 0).run
    [⟨true, .recv (.bytes [0, 0, 0, 2, 0, 0]), 0, 4160⟩,
      ⟨false, .recv (.bytes [0, 0, 0, 1, 5, 6]), 0, 4096⟩, ⟨true, .send (.chunk 9), 0, 0⟩]).map
      (fun s ↦ (s.overran, s.input true, s.output true)) =
    some (true, [0, 0, 0, 2, 0, 0], [6, 0, 0, 2, 0, 0]) := by decide

end Nsio
