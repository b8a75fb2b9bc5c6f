import Nsio.Test.EchoServer

/-!
# Which headers keep the server in its chunks

`recv_request` takes the sizes of a request from the network, and a chunk from the cache by a key
that does not hold the whole size. `Header.Safe` says of a header that neither can lead a store out
of the chunk: the alignment is one a shift is defined for, the region fits into a fresh chunk
(`HostileHeader`), and the size fits into the key (`BufferCache`). `echo_stays_inside` says that
clients that send safe headers, in any number and in any order, never make the server leave a chunk,
whatever is in the cache by then.
-/

namespace Nsio

/-- A header that asks for a region inside its chunk. -/
structure Header.Safe (h : Header) : Prop where
  alignBit_lt : h.alignBit.toNat < 32
  fits : ¬ h.Overruns
  keyFits : h.args.KeyFits

/-- What every chunk of the server satisfies. -/
structure ByteBufferData.Sound (d : ByteBufferData) : Prop where
  chunkOk : d.ChunkOk
  len_lt : d.len.toNat < 2 ^ (24 + d.alignBit.toNat)

/-- The cache holds such chunks, under their keys. -/
def BufferPool.Sound (s : BufferPool) : Prop := ∀ e ∈ s.cache, e.1 = e.2.key ∧ e.2.Sound

namespace BufferPool

variable {s : BufferPool} {r : MallocArgs}

/-- The chunk `malloc` returns is of the size that was asked for. -/
theorem Sound.malloc (hs : s.Sound) (pick p : ℕ) (hbit : r.alignBit < 32) (hfits : r.KeyFits) :
    (s.malloc r pick p).1.d.len = r.total ∧ (s.malloc r pick p).1.d.Sound ∧
      (s.malloc r pick p).2.Sound := by
  obtain ⟨it, hfind, hm⟩ | ⟨-, hm⟩ := s.malloc_cases r pick p <;> rw [hm]
  · obtain ⟨hmem, hkey⟩ := mem_of_find hfind
    obtain ⟨hkey', hsound⟩ := hs it hmem
    obtain ⟨hsame, hmod⟩ := (key_eq_key_iff hsound.chunkOk hbit).1 (hkey'.symm.trans hkey)
    have hlen : it.2.len.toNat < 2 ^ (24 + r.alignBit.toNat) := hsame ▸ hsound.len_lt
    rw [Nat.mod_eq_of_lt hlen, Nat.mod_eq_of_lt hfits] at hmod
    exact ⟨UInt32.toNat_inj.1 hmod, hsound, fun e he ↦ hs e (List.mem_of_mem_erase he)⟩
  · exact ⟨rfl, ⟨MallocArgs.chunkOk_fresh hbit p, hfits⟩, hs⟩

theorem Sound.release {d : ByteBufferData} (hs : s.Sound) (hd : d.Sound) :
    (s.release d).1.Sound := by
  rw [BufferPool.release]
  split
  · exact hs
  · exact List.forall_mem_cons.2 ⟨⟨rfl, hd⟩, hs⟩

/-- **The region of a request is inside its chunk**, as far as it is stored to. -/
theorem Sound.requestBuffer {h : Header} (hs : s.Sound) (pick p : ℕ) (hsafe : h.Safe) :
    (s.requestBuffer h pick p).dataBegin.toNat + 6 ≤
        (s.requestBuffer h pick p).capacity.toNat ∧
      (6 < h.bodyEnd → (s.requestBuffer h pick p).dataBegin.toNat + h.bodyEnd ≤
        (s.requestBuffer h pick p).capacity.toNat) := by
  -- the region in a fresh chunk, and the same one in the chunk of the same size
  have hroomy := (Header.roomy_iff_regionFits hsafe.alignBit_lt).2
    ((regionFits_iff_not_overruns hsafe.alignBit_lt).2 hsafe.fits) 0 p fun _ ↦ 0
  have hlen := (hs.malloc pick p (Header.args_alignBit_lt hsafe.alignBit_lt)
    hsafe.keyFits).1
  rw [Header.Roomy, Header.dataBegin, Header.request_emptyPool] at hroomy
  rw [requestBuffer_eq]
  have hcap : (ByteBufferImpl.new h.args.roundedHeader (s.malloc h.args pick p).1.d).capacity =
      h.args.total := hlen
  exact ⟨hcap ▸ hroomy.1, hcap ▸ hroomy.2⟩

end BufferPool

/-- A connection whose stores stay inside its chunk. -/
def EchoConn.Inside : EchoConn → Prop
  | .header .. | .closed => True
  | .body _ cmdLen b => b.d.Sound ∧ b.dataBegin.toNat + cmdLen.toInt.toNat ≤ b.capacity.toNat
  | .sending _ _ b => b.d.Sound

namespace EchoServer

variable {κ : Type*} [DecidableEq κ] {s t : EchoServer κ} {a : ServeAction κ} {c : κ}

/-- **The invariant.** -/
structure Inside (s : EchoServer κ) : Prop where
  pool : s.pool.Sound
  conns : ∀ c, (s.conns c).Inside
  overran : s.overran = false

theorem Inside.setConn {x : EchoConn} (hs : s.Inside) (hx : x.Inside) :
    (s.setConn c x).Inside := by
  refine { hs with conns := fun c' ↦ ?_ }
  rcases eq_or_ne c' c with rfl | hne
  · rwa [conns_setConn_self]
  · rw [conns_setConn_of_ne hne]
    exact hs.conns c'

omit [DecidableEq κ] in
theorem Inside.release {b : ByteBufferImpl} (hs : s.Inside) (hb : b.d.Sound) :
    (s.release b).Inside :=
  ⟨hs.pool.release hb, hs.conns, hs.overran⟩

omit [DecidableEq κ] in
theorem Inside.storeAt {b : ByteBufferImpl} {off : ℕ} {bs : List UInt8} (hs : s.Inside)
    (hinside : b.dataBegin.toNat + off + bs.length ≤ b.capacity.toNat) :
    (s.storeAt b off bs).Inside := by
  refine ⟨hs.pool, hs.conns, ?_⟩
  rw [EchoServer.storeAt, hs.overran, Bool.false_or, decide_eq_false_iff_not]
  exact Nat.not_lt.2 hinside

theorem Inside.bodyLoop {got : ℕ} {cmdLen : Int32} {b : ByteBufferImpl} (hs : s.Inside)
    (hb : b.d.Sound) (hroom : (got : ℤ) < cmdLen.toInt →
      b.dataBegin.toNat + cmdLen.toInt.toNat ≤ b.capacity.toNat) :
    (s.bodyLoop c got cmdLen b).Inside := by
  rw [EchoServer.bodyLoop]
  split
  · rename_i hlt
    exact hs.setConn ⟨hb, hroom hlt⟩
  · rw [EchoServer.onReceived]
    split
    · exact (hs.release hb).setConn trivial
    · split
      · exact (hs.release hb).setConn trivial
      · exact hs.setConn hb

theorem Inside.onSent {len lenS : ℤ} {b : ByteBufferImpl} (hs : s.Inside) (hb : b.d.Sound) :
    (s.onSent c len lenS b).Inside := by
  rw [EchoServer.onSent]
  split
  · exact (hs.release hb).setConn trivial
  · exact (hs.release hb).setConn trivial

theorem Inside.sendLoop {len : ℤ} {sended : ℕ} {b : ByteBufferImpl} (hs : s.Inside)
    (hb : b.d.Sound) : (s.sendLoop c len sended b).Inside := by
  rw [EchoServer.sendLoop]
  split
  · exact hs.setConn hb
  · exact hs.onSent hb

/-- A safe header is complete. -/
theorem Inside.onHeader {buf : Region} {pick p : ℕ} (hs : s.Inside)
    (hsafe : ({ buf := buf } : RecvRequest).header.Safe)
    (ht : s.onHeader c buf pick p = some t) : t.Inside := by
  obtain ⟨hbit, ht⟩ := Option.ite_none_right_eq_some.1 ht
  obtain rfl := Option.some.inj ht
  set h := ({ buf := buf } : RecvRequest).header
  obtain ⟨-, hchunk, hpool⟩ := hs.pool.malloc pick p hbit hsafe.keyFits
  obtain ⟨hcopy, hbody⟩ := hs.pool.requestBuffer pick p hsafe
  have hmalloc : Inside { s with pool := (s.pool.malloc h.args pick p).2 } :=
    ⟨hpool, hs.conns, hs.overran⟩
  refine (hmalloc.storeAt ?_).bodyLoop ?_ fun hlt ↦ hbody ?_
  · rwa [Region.length_read]
  · rw [BufferPool.requestBuffer_eq]
    exact hchunk
  · exact Int.lt_toNat.2 hlt

theorem Inside.step (hs : s.Inside) (ht : s.step a = some t)
    (hsafe : ∀ h, s.completes a = some h → h.Safe) : t.Inside := by
  obtain ⟨c, call, pick, addr⟩ := a
  have hconn := hs.conns c
  have htook : ∀ bs, (s.took c bs).Inside := fun bs ↦ ⟨hs.pool, hs.conns, hs.overran⟩
  unfold EchoServer.step at ht
  unfold completes at hsafe
  dsimp only at ht hsafe
  generalize s.conns c = x at ht hconn hsafe
  cases x with
  | header got buf =>
    cases call with
    | send => exact absurd ht (by simp)
    | recv x =>
      cases x with
      | bytes bs =>
        obtain ⟨-, ht⟩ := Option.ite_none_right_eq_some.1 ht
        split at ht
        · obtain rfl := Option.some.inj ht
          exact (htook bs).setConn trivial
        · rename_i hge
          exact (htook bs).onHeader (hsafe _ (if_neg hge)) ht
      | again | intr => exact Option.some.inj ht ▸ hs
      | closed | error =>
        obtain rfl := Option.some.inj ht
        exact hs.setConn trivial
  | body got cmdLen b =>
    obtain ⟨hchunk, hroom⟩ := hconn
    cases call with
    | send => exact absurd ht (by simp)
    | recv x =>
      cases x with
      | bytes bs =>
        obtain ⟨⟨hne, hle⟩, ht⟩ := Option.ite_none_right_eq_some.1 ht
        obtain rfl := Option.some.inj ht
        have hpos := List.length_pos_iff.2 hne
        exact ((htook bs).storeAt (by omega)).bodyLoop hchunk fun _ ↦ hroom
      | again | intr => exact Option.some.inj ht ▸ hs
      | closed | error =>
        obtain rfl := Option.some.inj ht
        exact (hs.release hchunk).setConn trivial
  | sending len sended b =>
    cases call with
    | recv => exact absurd ht (by simp)
    | send r =>
      cases r with
      | chunk n =>
        obtain rfl := Option.some.inj ht
        exact sendLoop ⟨hs.pool, hs.conns, hs.overran⟩ hconn
      | again | intr => exact Option.some.inj ht ▸ hs
      | closed | error =>
        obtain rfl := Option.some.inj ht
        exact hs.onSent hconn
  | closed => exact absurd ht (by simp)

end EchoServer

/-- **Safe headers keep the server in its chunks**, in every run of any number of connections. -/
theorem echo_stays_inside {κ : Type*} [DecidableEq κ] {limit : UInt64} {heap : ℕ → UInt8}
    {as : List (ServeAction κ)}
    (hsafe : (EchoServer.machine κ limit heap).StepsMeet
      (fun s a ↦ ∀ h, s.completes a = some h → h.Safe) as) :
    (EchoServer.machine κ limit heap).Throughout (fun s ↦ s.overran = false) as := by
  have hinit : (EchoServer.machine κ limit heap).init.Inside :=
    ⟨fun e he ↦ absurd he List.not_mem_nil, fun _ ↦ trivial, rfl⟩
  have hinside : (EchoServer.machine κ limit heap).Throughout EchoServer.Inside as :=
    Machine.throughout_of_stepsMeet hinit (fun _ _ _ ht hmeet hs ↦ hs.step ht hmeet) hsafe
  exact hinside.mono fun s hs ↦ hs.overran

/-- Two requests of seven bytes, the second in the chunk of the first. -/
def sameChunk : List (ServeAction Unit) :=
  [⟨(), .recv (.bytes [0, 0, 0, 3, 0, 0]), 0, 4096⟩, ⟨(), .recv (.bytes [7]), 0, 0⟩,
    ⟨(), .send (.chunk 9), 0, 0⟩, ⟨(), .recv (.bytes [0, 0, 0, 3, 0, 0]), 0, 0⟩]

theorem echo_stays_inside_sameChunk :
    (EchoServer.machine Unit 0 fun _ ↦ 0).Throughout (fun s ↦ s.overran = false) sameChunk := by
  have hsafe : (⟨3, 0, 0⟩ : Header).Safe :=
    ⟨by decide, by unfold Header.Overruns; decide, by decide⟩
  have hnone : ∀ h : Header, none = some h → h.Safe := fun h hh ↦ absurd hh (by simp)
  have hsome : ∀ h, some (⟨3, 0, 0⟩ : Header) = some h → h.Safe := fun h hh ↦
    Option.some.inj hh ▸ hsafe
  exact echo_stays_inside (.cons rfl hsome (.cons rfl hnone (.cons rfl hnone
    (.cons rfl hsome trivial))))

end Nsio
