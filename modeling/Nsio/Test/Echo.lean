import Nsio.Foundations.Link
import Nsio.Coio.SendLazy
import Nsio.Coio.RecvLazy

/-!
# The echo programs

`send_recv` of `pp-request-client.cpp` and `tcp_echo` of `pp-request-serv.cpp`, connected. The
client sends a frame with `send_lazy` and waits for as many bytes with `recv_lazy`, into the buffer
it sends from, `count` times. The server reads a frame with `recv_request` and sends it back with
`send_lazy`, until something goes wrong.

The system goes call by call: an action is one `::send` or `::recv` of one of the two programs, with
the reply of the kernel. In between the other program may do any number of calls. Each direction of
the connection holds at most `capacity` bytes, so a program may have to wait for the other one in
the middle of a frame, on both sides.

What is left out of the programs is their log and statistics. A descriptor that is closed shows as
replies of the kernel to the other side, which may be any at any time.

## Results

`echo_faithful`: whatever the replies are, the server sends back what it has received and nothing
else, and a client that has done its rounds has received what it has sent. Progress is in
`Test.EchoProgress`.
-/

namespace Nsio

/-! ### One call of a sender -/

namespace SendLazy

/-- One call of `::send`, with the write event before it if the awaiter is armed, and the end of the
loop after it if there is nothing left. -/
def call (buff : List UInt8) (w : SendLazy) (r : Reply) : Option SendLazy :=
  ((if w.phase = .armed then step buff w (.event emWrite) else some w).bind fun w ↦
    step buff w (.send r)).map fun w ↦ (step buff w .done).getD w

end SendLazy

/-! ### The client -/

theorem alignBit_zero_le : (0 : UInt8).toNat ≤ 31 := by decide

/-- The frame the client sends: `send_len` bytes, of which `send_len - 6` are an `X`. -/
def echoFrame (sendLen : ℕ) (h : 6 ≤ sendLen) (hmax : sendLen ≤ 2 ^ 31 - 1) : Frame where
  alignOff := 0
  alignBit := 0
  payload := List.replicate (sendLen - 6) 88
  len_le := by rw [List.length_replicate]; omega
  alignOff_ok := .inl rfl
  alignBit_ok := alignBit_zero_le

/-- What does not change in a run. -/
structure EchoSetup where
  /-- How many bytes each direction of the connection holds. -/
  capacity : ℕ
  capacity_pos : 0 < capacity
  /-- `send_len` of the client, which has room for the header and is a positive `int`. -/
  sendLen : ℕ
  six_le : 6 ≤ sendLen
  sendLen_le : sendLen ≤ 2 ^ 31 - 1
  count : ℕ
  /-- What `_buf_cache->malloc` of the server does for the requests, one after the other. -/
  mallocs : ℕ → Malloc
  /-- The chunks it returns are large enough. -/
  fits : ∀ n, (echoFrame sendLen six_le sendLen_le).FitsIn (mallocs n)

namespace EchoSetup

def frame (p : EchoSetup) : Frame := echoFrame p.sendLen p.six_le p.sendLen_le

/-- Everything the client is to send, and to receive. -/
def stream (p : EchoSetup) : List UInt8 := rounds p.frame.bytes p.count

end EchoSetup

/-- `send_recv`. -/
inductive SendRecv
  /-- In round `i`, `co_await send_lazy` of the buffer. -/
  | sending (i : ℕ) (buff : Region) (w : SendLazy)
  /-- In round `i`, `co_await recv_lazy` into the buffer. -/
  | receiving (i : ℕ) (q : RecvLazy)
  /-- The loop has ended after `count` rounds. -/
  | done
  /-- The loop was left by `break`. -/
  | broke

namespace SendRecv

/-- The buffer: the length of what follows, two zero bytes, and `X`. -/
def buffer (sendLen : ℕ) : Region :=
  (((⟨sendLen, fun _ ↦ 88⟩ : Region).write 0 (be32 (sendLen - 4))).write 4 [0]).write 5 [0]

/-- The head of the loop. -/
def round (p : EchoSetup) (i : ℕ) (buff : Region) : SendRecv :=
  if i < p.count then .sending i buff {} else .done

/-- A call of `send_lazy` has been made. -/
def afterSend (p : EchoSetup) (i : ℕ) (buff : Region) (w : SendLazy) : SendRecv :=
  if w.phase = .resumed then
    if w.result ≠ p.sendLen then .broke
    else .receiving i { mem := buff, begin := 0, size := p.sendLen }
  else .sending i buff w

/-- A call of `recv_lazy` has been made. -/
def afterRecv (p : EchoSetup) (i : ℕ) (q : RecvLazy) : HandlerExit → SendRecv
  | .resumed => if q.result ≠ p.sendLen then .broke else round p (i + 1) q.mem
  | .rearmed | .starved => .receiving i q

end SendRecv

/-! ### The server -/

/-- `tcp_echo`. -/
inductive TcpEcho
  /-- After `n` requests, `co_await recv_request`. -/
  | receiving (n : ℕ) (q : RecvRequest)
  /-- `co_await send_lazy` of the request. -/
  | sending (n : ℕ) (len : Int) (buff : List UInt8) (w : SendLazy)
  /-- The loop was left, and the descriptor closed. -/
  | closed

namespace TcpEcho

/-- A call of `recv_request` has been made. -/
def afterRecv (n : ℕ) (q : RecvRequest) : HandlerExit → TcpEcho
  | .resumed =>
    if q.delivery.result ≤ 0 then .closed
    else if q.delivery.result ≠ q.delivery.dataLen then .closed
    else .sending n q.delivery.result q.delivery.data {}
  | .rearmed | .starved => .receiving n q

/-- A call of `send_lazy` has been made. -/
def afterSend (n : ℕ) (len : Int) (buff : List UInt8) (w : SendLazy) : TcpEcho :=
  if w.phase = .resumed then if len ≠ w.result then .closed else .receiving (n + 1) {}
  else .sending n len buff w

end TcpEcho

/-! ### The system -/

/-- The two programs and the connection. -/
structure Echo where
  up : Link := {}
  down : Link := {}
  client : SendRecv
  server : TcpEcho := .receiving 0 {}

/-- The calls of the two programs. -/
inductive EchoCall
  | clientSend
  | serverRecv
  | serverSend
  | clientRecv
  deriving DecidableEq, Repr

/-- A call and the reply to it. -/
structure EchoAction where
  call : EchoCall
  reply : Reply
  deriving DecidableEq, Repr

namespace Echo

/-- One call. What the kernel takes of a `::send` is what there is room for. -/
def step (p : EchoSetup) (s : Echo) (a : EchoAction) : Option Echo :=
  match a.call, s.client, s.server with
  | .clientSend, .sending i buff w, _ =>
    (SendLazy.call (buff.read 0 p.sendLen) w (a.reply.atMost (s.up.room p.capacity))).map fun w' ↦
      { s with
        up := s.up.push (w'.wire.accepted.drop w.wire.accepted.length)
        client := .afterSend p i buff w' }
  | .serverRecv, _, .receiving n q =>
    match q.onFileEvent (p.mallocs n) s.up.avail emRead [a.reply] with
    | (e, q, left, _) =>
      some { s with
        up := s.up.pull (s.up.avail.length - left.length)
        server := .afterRecv n q e }
  | .serverSend, _, .sending n len buff w =>
    (SendLazy.call buff w (a.reply.atMost (s.down.room p.capacity))).map fun w' ↦
      { s with
        down := s.down.push (w'.wire.accepted.drop w.wire.accepted.length)
        server := .afterSend n len buff w' }
  | .clientRecv, .receiving i q, _ =>
    match q.onFileEvent s.down.avail emRead [a.reply] with
    | (e, q, left, _) =>
      some { s with
        down := s.down.pull (s.down.avail.length - left.length)
        client := .afterRecv p i q e }
  | _, _, _ => none

/-- The runs of the two programs. -/
def machine (p : EchoSetup) : Machine Echo EchoAction where
  init := { client := .round p 0 (SendRecv.buffer p.sendLen) }
  step := step p

end Echo

/-! ### What a call of a sender does -/

namespace SendLazy

/-- A sender that has not been resumed and has something to send, before and after a call. -/
structure Called (buff : List UInt8) (w : SendLazy) (r : Reply) (w' : SendLazy) : Prop where
  inv : w'.Inv buff
  sendedBytes_eq : w'.sendedBytes = w.sendedBytes + r.accepts (buff.length - w.sendedBytes)
  pending : w'.phase ≠ .resumed → w'.sendedBytes < buff.length
  resumed : w'.phase = .resumed →
    w'.result = buff.length ∧ w'.sendedBytes = buff.length ∨ w'.result = -1 ∧ r.IsFault

variable {buff : List UInt8} {w : SendLazy}

theorem call_eq (hphase : w.phase ≠ .resumed) (r : Reply) :
    call buff w r = (step buff { w with phase := .running } (.send r)).map fun w ↦
      (step buff w .done).getD w := by
  rcases w with ⟨n, result, wire, phase⟩
  cases phase with
  | armed => rfl
  | running => rfl
  | resumed => exact absurd rfl hphase

theorem exists_called (hmax : buff.length ≤ 2 ^ 31 - 1) (hw : w.Inv buff)
    (hphase : w.phase ≠ .resumed) (hlt : w.sendedBytes < buff.length) (r : Reply) :
    ∃ w', call buff w r = some w' ∧ Called buff w r w' := by
  have hresult : w.result = -1 := hw.pending hphase
  have hrun : Inv buff { w with phase := .running } :=
    ⟨hw.sent, hw.sendedBytes_le, by simp, fun _ ↦ hresult, by simp⟩
  have hwant := want_eq hmax
  -- the call is made, and then the loop is left if there is nothing more to send
  obtain ⟨x, hx⟩ : ∃ x, step buff { w with phase := .running } (.send r) = some x := by
    rw [step, if_pos ⟨rfl, by rwa [hwant]⟩]
    cases r <;> exact ⟨_, rfl⟩
  have hinv := hrun.send hmax hx
  have hcall : call buff w r = some ((step buff x .done).getD x) := by
    rw [call_eq hphase, hx, Option.map_some]
  rw [step, if_pos ⟨rfl, by rwa [hwant]⟩] at hx
  cases r with
  | chunk n =>
    have hsended : x.sendedBytes = w.sendedBytes + min (n + 1) (buff.length - w.sendedBytes) := by
      rw [← Option.some.inj hx]
    have hrunning : x.phase = .running := by rw [← Option.some.inj hx]
    by_cases hdone : x.sendedBytes < buff.length
    · rw [step, if_neg (by rw [hwant]; exact fun h ↦ h.2 hdone), Option.getD_none] at hcall
      exact ⟨x, hcall, hinv, hsended, fun _ ↦ hdone, by simp [hrunning]⟩
    · have hstep : step buff x .done = some { x with result := x.sendedBytes, phase := .resumed } :=
        if_pos ⟨hrunning, by rwa [hwant]⟩
      rw [hstep, Option.getD_some] at hcall
      refine ⟨_, hcall, inv_step hmax hstep hinv, hsended, by simp, fun _ ↦ .inl ?_⟩
      have hall : x.sendedBytes = buff.length := by omega
      exact ⟨congrArg Nat.cast hall, hall⟩
  | again =>
    obtain rfl := Option.some.inj hx
    exact ⟨_, hcall, hinv, rfl, fun _ ↦ hlt, by simp [step]⟩
  | intr =>
    obtain rfl := Option.some.inj hx
    rw [step, if_neg (by rw [hwant]; exact fun h ↦ h.2 hlt), Option.getD_none] at hcall
    exact ⟨_, hcall, hinv, rfl, fun _ ↦ hlt, by simp⟩
  | closed =>
    obtain rfl := Option.some.inj hx
    exact ⟨_, hcall, hinv, rfl, fun _ ↦ hlt, fun _ ↦ .inr ⟨hresult, .inl rfl⟩⟩
  | error =>
    obtain rfl := Option.some.inj hx
    exact ⟨_, hcall, hinv, rfl, fun _ ↦ hlt, fun _ ↦ .inr ⟨hresult, .inr rfl⟩⟩

/-- What the kernel has got by the call. -/
theorem Called.pushed {w' : SendLazy} {r : Reply} (h : Called buff w r w') (hw : w.Inv buff) :
    w'.wire.accepted.drop w.wire.accepted.length =
      (buff.drop w.sendedBytes).take (r.accepts (buff.length - w.sendedBytes)) := by
  rw [h.inv.sent.accepted_eq, hw.sent.accepted_eq, List.length_take_of_le hw.sendedBytes_le,
    h.sendedBytes_eq, List.drop_take, Nat.add_sub_cancel_left]

/-- A sender that got nothing accepted is still sending. -/
theorem Called.pending_of_eq {w' : SendLazy} {r : Reply} (h : Called buff w r w')
    (hlt : w.sendedBytes < buff.length) (hr : ¬ r.IsFault)
    (hsame : w'.sendedBytes = w.sendedBytes) : w'.phase ≠ .resumed := fun hres ↦ by
  rcases h.resumed hres with ⟨-, hall⟩ | ⟨-, hfault⟩
  · omega
  · exact hr hfault

end SendLazy

/-! ### What a call of a reader does -/

/-- A reader had `g` bytes of a message of `len` bytes and makes a call, with `avail` in flight. It
has `g'` bytes afterwards, and has left `left` in flight. -/
structure Took (len g : ℕ) (avail : List UInt8) (r : Reply) (e : HandlerExit) (g' : ℕ)
    (result : Int) (left : List UInt8) : Prop where
  le : g ≤ g'
  le_len : g' ≤ len
  left_add : left.length + (g' - g) = avail.length
  complete : g' = len → e = .resumed ∧ result = len
  incomplete : g' < len → e = .resumed → r.IsFault ∧ result ≤ 0
  progress : ∀ n, r = .chunk n → avail ≠ [] → g < g'

/-- The reader's end of the connection afterwards. -/
theorem Took.pull_eq {len g g' : ℕ} {l : Link} {r : Reply} {e : HandlerExit} {result : Int}
    {left : List UInt8} (h : Took len g l.avail r e g' result left)
    (hl : l.taken ≤ l.sent.length) :
    l.pull (l.avail.length - left.length) = l.pull (g' - g) ∧
      (l.pull (g' - g)).taken ≤ (l.pull (g' - g)).sent.length := by
  have hleft := h.left_add
  have hlen := l.length_avail
  refine ⟨by rw [show l.avail.length - left.length = g' - g by omega], ?_⟩
  show l.taken + (g' - g) ≤ l.sent.length
  omega

namespace RecvLazy

variable {q : RecvLazy} {msg tail avail : List UInt8} {m : Region}

theorem exists_took (hmax : msg.length ≤ 2 ^ 31 - 1) (hsize : q.size = msg.length)
    (hbegin : q.begin = 0) (hlt : q.recvedBytes < msg.length)
    (hmem : q.mem = m.write 0 (msg.take q.recvedBytes))
    (havail : avail <+: msg.drop q.recvedBytes ++ tail) (r : Reply) :
    ∃ e q' left rest, q.onFileEvent avail emRead [r] = (e, q', left, rest) ∧
      Took msg.length q.recvedBytes avail r e q'.recvedBytes q'.result left ∧
      q'.size = msg.length ∧ q'.begin = 0 ∧ q'.mem = m.write 0 (msg.take q'.recvedBytes) := by
  have hwant : q.want = msg.length := by
    rw [want, hsize, Int32.toInt_ofNat_of_lt (by omega)]
    rfl
  obtain ⟨more, hmore⟩ := havail
  obtain ⟨e, t, rest, hfill, hspec⟩ := exists_fill_eq q.begin q.want [r] (q.toFill avail)
  have hlt' : (q.toFill avail).got < q.want := by rwa [hwant]
  obtain rfl := eq_nil_of_fill hlt' hfill
  -- the same call with the whole message on the stream
  have hwhole := fillSpec_atMost hlt' hfill more
  obtain ⟨k, hk⟩ := hspec.filled
  obtain ⟨j, hj⟩ := hwhole.filled
  have hgot : t.got = q.recvedBytes + k := hk.got_eq
  have hle : t.got ≤ max q.recvedBytes q.want := hspec.got_le
  have hfull : e = .full ↔ q.want ≤ t.got := hspec.full_iff
  rw [hwant] at hle hfull
  have hstored := (hj.of_message hmore (m := m) (by rw [hbegin]; exact hmem) (by
    show t.got ≤ msg.length
    omega)).2
  rw [hbegin] at hstored
  refine ⟨_, _, _, _, onFileEvent_emRead hfill, ⟨?_, ?_, ?_, ?_, ?_, ?_⟩, hsize, hbegin, hstored⟩
  · show q.recvedBytes ≤ t.got
    omega
  · show t.got ≤ msg.length
    omega
  · show t.stream.length + (t.got - q.recvedBytes) = avail.length
    have hstream : t.stream = avail.drop k := hk.stream_eq
    have hlen : k ≤ avail.length := hk.le_stream
    rw [hstream, List.length_drop]
    omega
  · intro hdone
    have hdone' : t.got = msg.length := hdone
    obtain rfl := hfull.2 hdone'.ge
    exact ⟨rfl, congrArg Nat.cast hdone'⟩
  · intro hless hres
    have hless' : t.got < msg.length := hless
    cases e with
    | full => exact absurd (hfull.1 rfl) (Nat.not_le.2 hless')
    | closed => exact ⟨hwhole.used.isFault (.inl rfl), Int.le_refl 0⟩
    | error => exact ⟨hwhole.used.isFault (.inr rfl), by show (-1 : Int) ≤ 0; omega⟩
    | again | starved => exact absurd hres (by simp [HandlerExit.ofFill])
  · rintro n rfl hne
    have hprogress : chunks [(Reply.chunk n).atMost avail.length] ≤
        chunks [] + (t.got - q.recvedBytes) := hwhole.progress (by
      show q.want ≤ q.recvedBytes + (avail ++ more).length
      rw [hmore, hwant, List.length_append, List.length_drop]
      omega)
    rw [Reply.chunks_atMost (mt List.eq_nil_of_length_eq_zero hne), chunks_nil] at hprogress
    show q.recvedBytes < t.got
    omega

end RecvLazy

namespace RecvRequest

variable {malloc : Malloc} {f : Frame} {q q' : RecvRequest} {tail avail left : List UInt8}
  {e : HandlerExit} {r : Reply} {rest : List Reply}

theorem recvBody_nil_append (h : q.recvBody avail [] = (e, q', left, rest)) (more : List UInt8) :
    q.recvBody (avail ++ more) [] = (e, q', left ++ more, rest) := by
  rw [recvBody, fill_nil] at h ⊢
  dsimp only at h ⊢
  split at h
  all_goals
    rename_i hexit
    rw [hexit]
    cases h
    rfl

theorem recvBody_atMost (hlt : q.recvedBytes < q.cmdLen.toInt.toNat)
    (h : q.recvBody avail [r] = (e, q', left, rest)) (more : List UInt8) :
    q.recvBody (avail ++ more) [r.atMost avail.length] = (e, q', left ++ more, rest) := by
  obtain ⟨d, t, rest', hfill, -⟩ := exists_fill_eq q.dataBegin q.cmdLen.toInt.toNat [r]
    ⟨q.recvedBytes, q.chunk, avail, q.stores⟩
  have hwhole := fill_atMost hlt hfill more
  rw [recvBody, hfill] at h
  rw [recvBody, hwhole]
  cases d <;> cases h <;> rfl

/-- A call on what has arrived is a call on the whole stream. -/
theorem onFileEvent_atMost (hq : Reading malloc f q) (hlt : q.recvedBytes < f.len + 4)
    (h : q.onFileEvent malloc avail emRead [r] = (e, q', left, rest)) (more : List UInt8) :
    q.onFileEvent malloc (avail ++ more) emRead [r.atMost avail.length] =
      (e, q', left ++ more, rest) := by
  rw [onFileEvent, if_neg (by decide)] at h ⊢
  by_cases hsix : q.recvedBytes < 6
  · rw [if_pos hsix] at h ⊢
    obtain ⟨d, t, rest', hfill, -⟩ := exists_fill_eq 0 6 [r] ⟨q.recvedBytes, q.buf, avail, []⟩
    have hwhole := fill_atMost hsix hfill more
    obtain rfl := eq_nil_of_fill hsix hfill
    rw [hfill] at h
    rw [hwhole]
    cases d with
    | full => exact recvBody_nil_append h more
    | closed | error | again | starved =>
      cases h
      rfl
  · rw [if_neg hsix] at h ⊢
    refine recvBody_atMost ?_ h more
    rw [(hq.inRequest (by omega)).cmdLen_eq]
    omega

theorem exists_took (hq : Reading malloc f q) (hlt : q.recvedBytes < f.len + 4)
    (havail : avail <+: f.bytes.drop q.recvedBytes ++ tail) (r : Reply) :
    ∃ e q' left rest, q.onFileEvent malloc avail emRead [r] = (e, q', left, rest) ∧
      Took (f.len + 4) q.recvedBytes avail r e q'.recvedBytes q'.result left ∧
      Reading malloc f q' := by
  obtain ⟨more, hmore⟩ := havail
  rcases hout : q.onFileEvent malloc avail emRead [r] with ⟨e, q', left, rest⟩
  obtain ⟨d, hreads⟩ := onFileEvent_reads hq tail [r.atMost avail.length]
  rw [← hmore, onFileEvent_atMost hq hlt hout more] at hreads
  have hlen : f.bytes.length = f.len + 4 := f.length_bytes
  have hle : q'.recvedBytes ≤ f.len + 4 := hreads.reading.le_len
  have hle' : q.recvedBytes ≤ q'.recvedBytes := hreads.le_recved
  have hfull : d = .full ↔ q'.recvedBytes = f.len + 4 := hreads.full_iff
  have hstream : left ++ more = f.bytes.drop q'.recvedBytes ++ tail := hreads.stream_eq
  have hexit : e = .ofFill d := hreads.exit_eq
  refine ⟨e, q', left, rest, rfl, ⟨hle', hle, ?_, ?_, ?_, ?_⟩, hreads.reading⟩
  · have h₁ := congrArg List.length hmore
    have h₂ := congrArg List.length hstream
    simp only [List.length_append, List.length_drop] at h₁ h₂
    omega
  · intro hdone
    obtain rfl := hfull.2 hdone
    exact ⟨hexit, by rw [hreads.result_full rfl]; rfl⟩
  · intro hless hres
    rw [hexit] at hres
    cases d with
    | full => exact absurd (hfull.1 rfl) (Nat.ne_of_lt hless)
    | closed => exact ⟨hreads.used.isFault (.inl rfl), (hreads.result_closed rfl).le⟩
    | error =>
      refine ⟨hreads.used.isFault (.inr rfl), ?_⟩
      rw [hreads.result_error rfl]
      omega
    | again | starved => exact absurd hres (by simp [HandlerExit.ofFill])
  · rintro n rfl hne
    have hprogress : chunks [(Reply.chunk n).atMost avail.length] ≤
        chunks rest + (q'.recvedBytes - q.recvedBytes) := hreads.progress
    rw [Reply.chunks_atMost (mt List.eq_nil_of_length_eq_zero hne)] at hprogress
    rcases hreads.used.eq_nil_or_full with hrest | hdone
    · rw [show rest = [] from hrest, chunks_nil] at hprogress
      omega
    · exact (hfull.1 hdone).symm ▸ hlt

end RecvRequest

/-! ### The frame of the client -/

/-- Writing what is there anyway. -/
theorem write_append_replicate (cap : ℕ) (b : UInt8) (bs : List UInt8) (k : ℕ) :
    (⟨cap, fun _ ↦ b⟩ : Region).write 0 (bs ++ List.replicate k b) =
      (⟨cap, fun _ ↦ b⟩ : Region).write 0 bs := by
  simp only [Region.write, Region.mk.injEq, true_and]
  funext i
  congr 1
  rcases Nat.lt_or_ge (i - 0) bs.length with hi | hi
  · rw [List.getElem?_append_left hi]
  · rw [List.getElem?_append_right hi, List.getElem?_eq_none hi, List.getElem?_replicate]
    split <;> rfl

namespace EchoSetup

variable (p : EchoSetup)

theorem frame_len : p.frame.len + 4 = p.sendLen := by
  have hle := p.six_le
  rw [Frame.len, frame, echoFrame, List.length_replicate]
  omega

@[simp] theorem length_frame : p.frame.bytes.length = p.sendLen := by
  rw [Frame.length_bytes, frame_len]

theorem sendLen_pos : 0 < p.sendLen := by
  have := p.six_le
  omega

/-- What the client sends from its buffer. -/
theorem read_buffer : (SendRecv.buffer p.sendLen).read 0 p.sendLen = p.frame.bytes := by
  have hsix := p.six_le
  have hlen : p.frame.len = p.sendLen - 4 := by
    have := p.frame_len
    omega
  have hheader : SendRecv.buffer p.sendLen =
      (⟨p.sendLen, fun _ ↦ 88⟩ : Region).write 0 (be32 (p.sendLen - 4) ++ [0] ++ [0]) := by
    rw [← Region.write_write, ← Region.write_write]
    rfl
  have hbytes : p.frame.bytes =
      be32 (p.sendLen - 4) ++ [0] ++ [0] ++ List.replicate (p.sendLen - 6) 88 := by
    rw [Frame.bytes, hlen]
    rfl
  -- the bytes behind the header are what they are written to be
  rw [hheader, ← write_append_replicate _ _ _ (p.sendLen - 6), ← hbytes]
  exact Region.read_write p.length_frame (by simp)

theorem length_stream : p.stream.length = p.count * p.sendLen := by
  rw [stream, length_rounds, length_frame]

variable {p}

/-- What is in flight of the stream, from a position in the round `i` on. -/
theorem exists_avail_isPrefix {l : Link} {i n : ℕ} (hsent : l.sent <+: p.stream)
    (htaken : l.taken = i * p.sendLen + n) (hn : n ≤ p.sendLen) :
    ∃ tail, l.avail <+: p.frame.bytes.drop n ++ tail := by
  rcases Nat.lt_or_ge i p.count with hi | hi
  · have havail := Link.avail_isPrefix hsent
    rw [htaken, stream, ← p.length_frame, drop_rounds hi (by rwa [p.length_frame])] at havail
    exact ⟨_, havail⟩
  · -- there is no such round
    have hlen : l.sent.length ≤ p.count * p.sendLen := p.length_stream ▸ hsent.length_le
    have hpast : p.count * p.sendLen ≤ i * p.sendLen := Nat.mul_le_mul_right _ hi
    refine ⟨[], ?_⟩
    rw [Link.avail, List.drop_of_length_le (by omega)]
    exact List.nil_prefix

/-- The next bytes of the round `i` are written. -/
theorem push_spec {l : Link} {i n k : ℕ} (hl : l.taken ≤ l.sent.length)
    (hsent : l.sent <+: p.stream)
    (hlen : l.sent.length = i * p.sendLen + n) (hi : i < p.count)
    (hk : k ≤ p.frame.bytes.length - n) (hn : n ≤ p.sendLen) :
    (l.push ((p.frame.bytes.drop n).take k)).taken ≤
        (l.push ((p.frame.bytes.drop n).take k)).sent.length ∧
      (l.push ((p.frame.bytes.drop n).take k)).sent <+: p.stream ∧
      (l.push ((p.frame.bytes.drop n).take k)).sent.length = l.sent.length + k := by
  have hlen' : (l.push ((p.frame.bytes.drop n).take k)).sent.length = l.sent.length + k := by
    rw [Link.push, List.length_append, List.length_take_of_le (by rwa [List.length_drop])]
  refine ⟨hl.trans (by rw [hlen']; omega), ?_, hlen'⟩
  exact append_isPrefix_rounds hsent (by rw [p.length_frame]; exact hlen) hi
    (by rwa [p.length_frame]) k

end EchoSetup

def SendRecv.isSending : SendRecv → Bool
  | .sending _ _ _ => true
  | .receiving _ _ | .done | .broke => false

def TcpEcho.isReceiving : TcpEcho → Bool
  | .receiving _ _ => true
  | .sending _ _ _ _ | .closed => false

/-! ### The invariant -/

/-- The client, when it has sent `sent` bytes and received `taken`. -/
inductive SendRecv.At (p : EchoSetup) (sent taken : ℕ) : SendRecv → Prop
  | sending {i buff w} (hi : i < p.count) (hcap : buff.cap = p.sendLen)
    (hread : buff.read 0 p.sendLen = p.frame.bytes) (hw : w.Inv p.frame.bytes)
    (hphase : w.phase ≠ .resumed) (hlt : w.sendedBytes < p.sendLen)
    (hsent : sent = i * p.sendLen + w.sendedBytes) (htaken : taken = i * p.sendLen) :
    At p sent taken (.sending i buff w)
  | receiving {i q} {m : Region} (hi : i < p.count) (hsize : q.size = p.sendLen)
    (hbegin : q.begin = 0) (hlt : q.recvedBytes < p.sendLen) (hcap : m.cap = p.sendLen)
    (hmem : q.mem = m.write 0 (p.frame.bytes.take q.recvedBytes))
    (hsent : sent = (i + 1) * p.sendLen) (htaken : taken = i * p.sendLen + q.recvedBytes) :
    At p sent taken (.receiving i q)
  | done (hsent : sent = p.count * p.sendLen) (htaken : taken = p.count * p.sendLen) :
    At p sent taken .done
  | broke : At p sent taken .broke

/-- The server, when it has received `taken` bytes and sent `sent`. -/
inductive TcpEcho.At (p : EchoSetup) (taken sent : ℕ) : TcpEcho → Prop
  | receiving {n q} (hq : Reading (p.mallocs n) p.frame q) (hlt : q.recvedBytes < p.sendLen)
    (htaken : taken = n * p.sendLen + q.recvedBytes) (hsent : sent = n * p.sendLen) :
    At p taken sent (.receiving n q)
  | sending {n w} (hw : w.Inv p.frame.bytes) (hphase : w.phase ≠ .resumed)
    (hlt : w.sendedBytes < p.sendLen) (htaken : taken = (n + 1) * p.sendLen)
    (hsent : sent = n * p.sendLen + w.sendedBytes) :
    At p taken sent (.sending n p.sendLen p.frame.bytes w)
  | closed (h : sent ≤ taken) : At p taken sent .closed

/-- Both programs go by their positions in the stream. -/
structure Echo.Inv (p : EchoSetup) (s : Echo) : Prop where
  up_le : s.up.taken ≤ s.up.sent.length
  down_le : s.down.taken ≤ s.down.sent.length
  up_sent : s.up.sent <+: p.stream
  down_sent : s.down.sent <+: p.stream
  client : s.client.At p s.up.sent.length s.down.taken
  server : s.server.At p s.up.taken s.down.sent.length

/-- Neither program has given up. -/
structure Echo.Ok (s : Echo) : Prop where
  client : s.client ≠ .broke
  server : s.server ≠ .closed

/-- How many bytes have passed the four ends of the connection. -/
def Echo.moved (s : Echo) : ℕ :=
  s.up.sent.length + s.up.taken + s.down.sent.length + s.down.taken

/-! ### One call -/

section Calls

variable {p : EchoSetup} {sent taken : ℕ}

theorem SendRecv.at_round {i : ℕ} {buff : Region} (hi : i ≤ p.count) (hcap : buff.cap = p.sendLen)
    (hread : buff.read 0 p.sendLen = p.frame.bytes) :
    (SendRecv.round p i buff).At p (i * p.sendLen) (i * p.sendLen) := by
  rw [round]
  split
  next hlt =>
    have hpos : 1 ≤ p.frame.bytes.length := by
      rw [p.length_frame]
      exact p.sendLen_pos
    exact .sending hlt hcap hread (SendLazy.inv_init hpos) (by simp) p.sendLen_pos rfl rfl
  next hge =>
    obtain rfl : i = p.count := by omega
    exact .done rfl rfl

/-- The client after a call of `::send`. -/
theorem SendRecv.at_afterSend {i : ℕ} {buff : Region} {w w' : SendLazy} {r : Reply}
    (hi : i < p.count) (hcap : buff.cap = p.sendLen)
    (hread : buff.read 0 p.sendLen = p.frame.bytes)
    (hcalled : SendLazy.Called p.frame.bytes w r w') :
    (SendRecv.afterSend p i buff w').At p (i * p.sendLen + w'.sendedBytes) (i * p.sendLen) ∧
      (¬ r.IsFault → SendRecv.afterSend p i buff w' ≠ .broke) := by
  rw [afterSend]
  split
  next hres =>
    rcases hcalled.resumed hres with ⟨hresult, hall⟩ | ⟨hresult, hfault⟩
    · rw [p.length_frame] at hresult hall
      rw [if_neg (by simp [hresult])]
      refine ⟨.receiving (m := buff) hi rfl rfl p.sendLen_pos hcap (by simp) ?_ rfl, by simp⟩
      rw [hall, Nat.add_mul, Nat.one_mul]
    · rw [if_pos (by rw [hresult]; omega)]
      exact ⟨.broke, fun h ↦ absurd hfault h⟩
  next hpending =>
    have hlt := hcalled.pending hpending
    rw [p.length_frame] at hlt
    exact ⟨.sending hi hcap hread hcalled.inv hpending hlt rfl rfl, by simp⟩

/-- The client after a call of `::recv`. -/
theorem SendRecv.at_afterRecv {i g : ℕ} {q : RecvLazy} {m : Region} {avail left : List UInt8}
    {r : Reply} {e : HandlerExit} (hi : i < p.count)
    (htook : Took p.sendLen g avail r e q.recvedBytes q.result left) (hsize : q.size = p.sendLen)
    (hbegin : q.begin = 0) (hcap : m.cap = p.sendLen)
    (hmem : q.mem = m.write 0 (p.frame.bytes.take q.recvedBytes)) :
    (SendRecv.afterRecv p i q e).At p ((i + 1) * p.sendLen) (i * p.sendLen + q.recvedBytes) ∧
      (¬ r.IsFault → SendRecv.afterRecv p i q e ≠ .broke) := by
  rcases Nat.lt_or_ge q.recvedBytes p.sendLen with hlt | hge
  · have hpending : SendRecv.At p ((i + 1) * p.sendLen) (i * p.sendLen + q.recvedBytes)
      (.receiving i q) := .receiving hi hsize hbegin hlt hcap hmem rfl rfl
    cases e with
    | resumed =>
      obtain ⟨hfault, hresult⟩ := htook.incomplete hlt rfl
      rw [afterRecv, if_pos (by have := p.sendLen_pos; omega)]
      exact ⟨.broke, fun h ↦ absurd hfault h⟩
    | rearmed | starved => exact ⟨hpending, by simp [afterRecv]⟩
  · have hall : q.recvedBytes = p.sendLen := Nat.le_antisymm htook.le_len hge
    obtain ⟨rfl, hresult⟩ := htook.complete hall
    rw [hall, ← p.length_frame, List.take_length] at hmem
    rw [afterRecv, if_neg (by simp [hresult]), hall, ← Nat.succ_mul]
    refine ⟨SendRecv.at_round hi (by rw [hmem]; exact hcap) ?_, fun _ ↦ ?_⟩
    · rw [hmem]
      exact Region.read_write p.length_frame (by rw [hcap]; omega)
    · rw [round]
      split <;> simp

theorem RecvRequest.result_delivery (q : RecvRequest) : q.delivery.result = q.result := by
  rw [delivery]
  split <;> rfl

/-- The server after a call of `::recv`. -/
theorem TcpEcho.at_afterRecv {n g : ℕ} {q : RecvRequest} {avail left : List UInt8} {r : Reply}
    {e : HandlerExit} (htook : Took p.sendLen g avail r e q.recvedBytes q.result left)
    (hq : Reading (p.mallocs n) p.frame q) :
    (TcpEcho.afterRecv n q e).At p (n * p.sendLen + q.recvedBytes) (n * p.sendLen) ∧
      (¬ r.IsFault → TcpEcho.afterRecv n q e ≠ .closed) := by
  rcases Nat.lt_or_ge q.recvedBytes p.sendLen with hlt | hge
  · cases e with
    | resumed =>
      obtain ⟨hfault, hresult⟩ := htook.incomplete hlt rfl
      rw [afterRecv, if_pos (by rwa [RecvRequest.result_delivery])]
      exact ⟨.closed (by omega), fun h ↦ absurd hfault h⟩
    | rearmed | starved => exact ⟨.receiving hq hlt rfl rfl, by simp [afterRecv]⟩
  · have hall : q.recvedBytes = p.sendLen := Nat.le_antisymm htook.le_len hge
    obtain ⟨rfl, hresult⟩ := htook.complete hall
    have hlen := p.frame_len
    have hdelivery : q.delivery = p.frame.delivery :=
      RecvRequest.delivery_eq hq (by omega) (by omega) (p.fits n)
    have hdata : q.delivery = ⟨p.sendLen, p.sendLen, p.frame.bytes⟩ := by
      rw [hdelivery, Frame.delivery, hlen]
      congr 1
      omega
    have hpos := p.sendLen_pos
    have hbytes : 1 ≤ p.frame.bytes.length := by rwa [p.length_frame]
    rw [afterRecv, hdata, if_neg (by dsimp only; omega), if_neg (by simp), hall, ← Nat.succ_mul]
    exact ⟨.sending (SendLazy.inv_init hbytes) (by simp) hpos rfl rfl, by simp⟩

/-- The server after a call of `::send`. -/
theorem TcpEcho.at_afterSend {n : ℕ} {w w' : SendLazy} {r : Reply}
    (hcalled : SendLazy.Called p.frame.bytes w r w') :
    (TcpEcho.afterSend n p.sendLen p.frame.bytes w').At p ((n + 1) * p.sendLen)
        (n * p.sendLen + w'.sendedBytes) ∧
      (¬ r.IsFault → TcpEcho.afterSend n p.sendLen p.frame.bytes w' ≠ .closed) := by
  have hle := hcalled.inv.sendedBytes_le
  rw [p.length_frame] at hle
  rw [afterSend]
  split
  next hres =>
    rcases hcalled.resumed hres with ⟨hresult, hall⟩ | ⟨hresult, hfault⟩
    · rw [p.length_frame] at hresult hall
      rw [if_neg (by simp [hresult]), hall, ← Nat.succ_mul]
      exact ⟨.receiving RecvRequest.reading_init p.sendLen_pos rfl rfl, by simp⟩
    · rw [if_pos (by rw [hresult]; omega)]
      exact ⟨.closed (by rw [Nat.succ_mul]; omega), fun h ↦ absurd hfault h⟩
  next hpending =>
    have hlt := hcalled.pending hpending
    rw [p.length_frame] at hlt
    exact ⟨.sending hcalled.inv hpending hlt rfl rfl, by simp⟩

end Calls

/-! ### One step -/

namespace Echo

/-- There is something to read, or room to write to. -/
def CanMove (p : EchoSetup) (s : Echo) : EchoCall → Prop
  | .clientSend => s.up.room p.capacity ≠ 0
  | .serverRecv => s.up.avail ≠ []
  | .serverSend => s.down.room p.capacity ≠ 0
  | .clientRecv => s.down.avail ≠ []

/-- A call that brings the system forward. -/
def mover (p : EchoSetup) (s : Echo) : EchoCall :=
  if s.client.isSending then
    if s.up.room p.capacity = 0 then .serverRecv else .clientSend
  else if s.down.avail = [] then
    if s.server.isReceiving then .serverRecv else .serverSend
  else .clientRecv

/-- What is known about a step: the invariant is kept, a program gives up only for a fault, bytes
only move forward, a call that could not move any leaves the others as they are, and one that is
answered with bytes moves some if it can. -/
structure Stepped (p : EchoSetup) (s : Echo) (a : EchoAction) (t : Echo) : Prop where
  inv : t.Inv p
  ok : ¬ a.reply.IsFault → s.Ok → t.Ok
  le : s.moved ≤ t.moved
  still : ¬ a.reply.IsFault → t.moved = s.moved → t.mover p = s.mover p
  progress : ∀ n, a.reply = .chunk n → s.CanMove p a.call → s.moved < t.moved

variable {p : EchoSetup} {s t : Echo}

theorem mover_congr (hup : t.up = s.up) (hdown : t.down = s.down)
    (hclient : t.client.isSending = s.client.isSending)
    (hserver : t.server.isReceiving = s.server.isReceiving) : t.mover p = s.mover p := by
  rw [mover, mover, hup, hdown, hclient, hserver]

theorem accepts_pos {room count n : ℕ} (hroom : room ≠ 0) (hcount : 0 < count) :
    0 < ((Reply.chunk n).atMost room).accepts count := by
  rw [Reply.atMost, if_neg hroom, Reply.accepts]
  omega

theorem exists_clientSend (h : s.Inv p) {i : ℕ} {buff : Region} {w : SendLazy}
    (hclient : s.client = .sending i buff w) (r : Reply) :
    ∃ t, step p s ⟨.clientSend, r⟩ = some t ∧ Stepped p s ⟨.clientSend, r⟩ t := by
  have hat := h.client
  rw [hclient] at hat
  cases hat with
  | sending hi hcap hread hw hphase hlt hsent htaken =>
    have hmax : p.frame.bytes.length ≤ 2 ^ 31 - 1 := p.length_frame ▸ p.sendLen_le
    obtain ⟨w', hcall, hcalled⟩ := SendLazy.exists_called hmax hw hphase
      (by rwa [p.length_frame]) (r.atMost (s.up.room p.capacity))
    obtain ⟨hat, hok⟩ := SendRecv.at_afterSend hi hcap hread hcalled
    have hpushed := hcalled.pushed hw
    generalize hk : (r.atMost (s.up.room p.capacity)).accepts
      (p.frame.bytes.length - w.sendedBytes) = k at hpushed
    have hsended : w'.sendedBytes = w.sendedBytes + k := hk ▸ hcalled.sendedBytes_eq
    obtain ⟨hle, hsent', hlen⟩ := EchoSetup.push_spec h.up_le h.up_sent hsent hi
      (hk ▸ Reply.accepts_le _ _) hlt.le
    rw [← hpushed] at hle hsent' hlen
    refine ⟨_, by simp only [step, hclient, hread, hcall, Option.map_some]; rfl, ?_⟩
    refine ⟨⟨hle, h.down_le, hsent', h.down_sent, ?_, h.server⟩, fun hf hs ↦ ⟨?_, hs.server⟩,
      ?_, ?_, ?_⟩
    · show (SendRecv.afterSend p i buff w').At p _ _
      rw [hlen, htaken, hsent, Nat.add_assoc, ← hsended]
      exact hat
    · exact hok (mt Reply.isFault_atMost.1 hf)
    · simp only [moved, hlen, Link.taken_push]
      omega
    · intro hf hsame
      simp only [moved, hlen, Link.taken_push] at hsame
      obtain rfl : k = 0 := by omega
      have hpending := hcalled.pending_of_eq (by rwa [p.length_frame])
        (mt Reply.isFault_atMost.1 hf) hsended
      rw [List.take_zero] at hpushed
      refine mover_congr ?_ rfl ?_ rfl
      · rw [hpushed, Link.push_nil]
      · rw [SendRecv.afterSend, if_neg hpending, hclient]
        rfl
    · rintro n rfl hroom
      have hpos := hk ▸ accepts_pos hroom (Nat.sub_pos_of_lt (p.length_frame.symm ▸ hlt))
      simp only [moved, hlen, Link.taken_push]
      omega

theorem exists_serverSend (h : s.Inv p) {n : ℕ} {len : Int} {buff : List UInt8} {w : SendLazy}
    (hserver : s.server = .sending n len buff w) (r : Reply) :
    ∃ t, step p s ⟨.serverSend, r⟩ = some t ∧ Stepped p s ⟨.serverSend, r⟩ t := by
  have hat := h.server
  rw [hserver] at hat
  cases hat with
  | sending hw hphase hlt htaken hsent =>
    have hmax : p.frame.bytes.length ≤ 2 ^ 31 - 1 := p.length_frame ▸ p.sendLen_le
    obtain ⟨w', hcall, hcalled⟩ := SendLazy.exists_called hmax hw hphase
      (by rwa [p.length_frame]) (r.atMost (s.down.room p.capacity))
    obtain ⟨hat, hok⟩ := TcpEcho.at_afterSend (n := n) hcalled
    have hpushed := hcalled.pushed hw
    generalize hk : (r.atMost (s.down.room p.capacity)).accepts
      (p.frame.bytes.length - w.sendedBytes) = k at hpushed
    have hsended : w'.sendedBytes = w.sendedBytes + k := hk ▸ hcalled.sendedBytes_eq
    have hround : n < p.count := by
      have hall := h.up_le.trans h.up_sent.length_le
      rw [htaken, p.length_stream] at hall
      exact Nat.le_of_mul_le_mul_right hall p.sendLen_pos
    obtain ⟨hle, hsent', hlen⟩ := EchoSetup.push_spec h.down_le h.down_sent hsent hround
      (hk ▸ Reply.accepts_le _ _) hlt.le
    rw [← hpushed] at hle hsent' hlen
    refine ⟨_, by simp only [step, hserver, hcall, Option.map_some]; rfl, ?_⟩
    refine ⟨⟨h.up_le, hle, h.up_sent, hsent', h.client, ?_⟩, fun hf hs ↦ ⟨hs.client, ?_⟩,
      ?_, ?_, ?_⟩
    · show (TcpEcho.afterSend n p.sendLen p.frame.bytes w').At p _ _
      rw [hlen, htaken, hsent, Nat.add_assoc, ← hsended]
      exact hat
    · exact hok (mt Reply.isFault_atMost.1 hf)
    · simp only [moved, hlen, Link.taken_push]
      omega
    · intro hf hsame
      simp only [moved, hlen, Link.taken_push] at hsame
      obtain rfl : k = 0 := by omega
      have hpending := hcalled.pending_of_eq (by rwa [p.length_frame])
        (mt Reply.isFault_atMost.1 hf) hsended
      rw [List.take_zero] at hpushed
      refine mover_congr rfl ?_ rfl ?_
      · rw [hpushed, Link.push_nil]
      · rw [TcpEcho.afterSend, if_neg hpending, hserver]
        rfl
    · rintro m rfl hroom
      have hpos := hk ▸ accepts_pos hroom (Nat.sub_pos_of_lt (p.length_frame.symm ▸ hlt))
      simp only [moved, hlen, Link.taken_push]
      omega

theorem exists_serverRecv (h : s.Inv p) {n : ℕ} {q : RecvRequest}
    (hserver : s.server = .receiving n q) (r : Reply) :
    ∃ t, step p s ⟨.serverRecv, r⟩ = some t ∧ Stepped p s ⟨.serverRecv, r⟩ t := by
  have hat := h.server
  rw [hserver] at hat
  cases hat with
  | receiving hq hlt htaken hsent =>
    obtain ⟨tail, havail⟩ := EchoSetup.exists_avail_isPrefix h.up_sent htaken hlt.le
    obtain ⟨e, q', left, rest, hout, htook, hq'⟩ :=
      RecvRequest.exists_took hq (by rwa [p.frame_len]) havail r
    rw [p.frame_len] at htook
    obtain ⟨hat, hok⟩ := TcpEcho.at_afterRecv htook hq'
    obtain ⟨hpull, hle⟩ := htook.pull_eq h.up_le
    have hmono := htook.le
    have htaken' : (s.up.pull (q'.recvedBytes - q.recvedBytes)).taken =
        n * p.sendLen + q'.recvedBytes := by
      show s.up.taken + _ = _
      omega
    refine ⟨_, by simp only [step, hserver, hout, hpull]; rfl, ?_⟩
    refine ⟨⟨hle, h.down_le, h.up_sent, h.down_sent, h.client, ?_⟩,
      fun hf hs ↦ ⟨hs.client, hok hf⟩, ?_, ?_, ?_⟩
    · rw [htaken', hsent]
      exact hat
    · simp only [moved, Link.pull]
      omega
    · intro hf hsame
      simp only [moved, Link.pull] at hsame
      have hstay : q'.recvedBytes = q.recvedBytes := by omega
      have hexit : e ≠ .resumed := fun he ↦ hf (htook.incomplete (by omega) he).1
      refine mover_congr ?_ rfl rfl ?_
      · rw [hstay, Nat.sub_self]
        rfl
      · rw [hserver]
        cases e with
        | resumed => exact absurd rfl hexit
        | rearmed | starved => rfl
    · rintro m rfl hne
      have := htook.progress m rfl hne
      simp only [moved, Link.pull]
      omega

theorem exists_clientRecv (h : s.Inv p) {i : ℕ} {q : RecvLazy}
    (hclient : s.client = .receiving i q) (r : Reply) :
    ∃ t, step p s ⟨.clientRecv, r⟩ = some t ∧ Stepped p s ⟨.clientRecv, r⟩ t := by
  have hat := h.client
  rw [hclient] at hat
  cases hat with
  | receiving hi hsize hbegin hlt hcap hmem hsent htaken =>
    have hmax : p.frame.bytes.length ≤ 2 ^ 31 - 1 := p.length_frame ▸ p.sendLen_le
    obtain ⟨tail, havail⟩ := EchoSetup.exists_avail_isPrefix h.down_sent htaken hlt.le
    obtain ⟨e, q', left, rest, hout, htook, hsize', hbegin', hmem'⟩ :=
      RecvLazy.exists_took hmax (by rwa [p.length_frame]) hbegin (by rwa [p.length_frame]) hmem
        havail r
    rw [p.length_frame] at htook hsize'
    obtain ⟨hat, hok⟩ := SendRecv.at_afterRecv hi htook hsize' hbegin' hcap hmem'
    obtain ⟨hpull, hle⟩ := htook.pull_eq h.down_le
    have hmono := htook.le
    have htaken' : (s.down.pull (q'.recvedBytes - q.recvedBytes)).taken =
        i * p.sendLen + q'.recvedBytes := by
      show s.down.taken + _ = _
      omega
    refine ⟨_, by simp only [step, hclient, hout, hpull]; rfl, ?_⟩
    refine ⟨⟨h.up_le, hle, h.up_sent, h.down_sent, ?_, h.server⟩,
      fun hf hs ↦ ⟨hok hf, hs.server⟩, ?_, ?_, ?_⟩
    · rw [htaken', hsent]
      exact hat
    · simp only [moved, Link.pull]
      omega
    · intro hf hsame
      simp only [moved, Link.pull] at hsame
      have hstay : q'.recvedBytes = q.recvedBytes := by omega
      have hexit : e ≠ .resumed := fun he ↦ hf (htook.incomplete (by omega) he).1
      refine mover_congr rfl ?_ ?_ rfl
      · rw [hstay, Nat.sub_self]
        rfl
      · rw [hclient]
        cases e with
        | resumed => exact absurd rfl hexit
        | rearmed | starved => rfl
    · rintro m rfl hne
      have := htook.progress m rfl hne
      simp only [moved, Link.pull]
      omega

/-- Every step. -/
theorem stepped {a : EchoAction} (h : s.Inv p) (ht : step p s a = some t) : Stepped p s a t := by
  obtain ⟨call, r⟩ := a
  cases call with
  | clientSend =>
    rcases hclient : s.client with ⟨i, buff, w⟩ | ⟨i, q⟩ | - | -
    case sending =>
      obtain ⟨u, hu, hstepped⟩ := exists_clientSend h hclient r
      exact Option.some.inj (hu.symm.trans ht) ▸ hstepped
    all_goals exact absurd ht (by simp [step, hclient])
  | serverRecv =>
    rcases hserver : s.server with ⟨n, q⟩ | ⟨n, len, buff, w⟩ | -
    case receiving =>
      obtain ⟨u, hu, hstepped⟩ := exists_serverRecv h hserver r
      exact Option.some.inj (hu.symm.trans ht) ▸ hstepped
    all_goals exact absurd ht (by simp [step, hserver])
  | serverSend =>
    rcases hserver : s.server with ⟨n, q⟩ | ⟨n, len, buff, w⟩ | -
    case sending =>
      obtain ⟨u, hu, hstepped⟩ := exists_serverSend h hserver r
      exact Option.some.inj (hu.symm.trans ht) ▸ hstepped
    all_goals exact absurd ht (by simp [step, hserver])
  | clientRecv =>
    rcases hclient : s.client with ⟨i, buff, w⟩ | ⟨i, q⟩ | - | -
    case receiving =>
      obtain ⟨u, hu, hstepped⟩ := exists_clientRecv h hclient r
      exact Option.some.inj (hu.symm.trans ht) ▸ hstepped
    all_goals exact absurd ht (by simp [step, hclient])

theorem inv_init (p : EchoSetup) : (machine p).init.Inv p where
  up_le := Nat.le_refl 0
  down_le := Nat.le_refl 0
  up_sent := List.nil_prefix
  down_sent := List.nil_prefix
  client := by
    have hround := SendRecv.at_round (p := p) (Nat.zero_le _) rfl p.read_buffer
    rwa [Nat.zero_mul] at hround
  server := .receiving RecvRequest.reading_init p.sendLen_pos (Nat.zero_mul _).symm
    (Nat.zero_mul _).symm

/-! ### Every run -/

/-- **Faithful echo**: the client sends its frames, one after the other; the server sends back what
it has received, byte for byte and nothing else; and when the client has done its rounds, it has
sent and received all of them. -/
structure Faithful (p : EchoSetup) (s : Echo) : Prop where
  sent : s.up.sent <+: p.stream
  echoed : s.down.sent <+: s.up.sent.take s.up.taken
  done : s.client = .done → s.up.sent = p.stream ∧ s.down.sent.take s.down.taken = p.stream

/-- The server is never ahead of the client. -/
theorem Inv.sent_le_taken (h : s.Inv p) : s.down.sent.length ≤ s.up.taken := by
  have hat := h.server
  generalize s.server = server at hat
  cases hat with
  | receiving hq hlt htaken hsent => omega
  | sending hw hphase hlt htaken hsent =>
    rw [Nat.succ_mul] at htaken
    omega
  | closed h => exact h

theorem Inv.faithful (h : s.Inv p) : s.Faithful p where
  sent := h.up_sent
  echoed := by
    refine List.prefix_of_prefix_length_le h.down_sent
      ((List.take_prefix _ _).trans h.up_sent) ?_
    rw [List.length_take_of_le h.up_le]
    exact h.sent_le_taken
  done hdone := by
    have hat := h.client
    rw [hdone] at hat
    cases hat with
    | done hsent htaken =>
      rw [← p.length_stream] at hsent htaken
      refine ⟨h.up_sent.eq_of_length hsent, ?_⟩
      have hle := h.down_sent.length_le
      have hdown := h.down_le
      rw [h.down_sent.eq_of_length (by omega), htaken, List.take_length]

end Echo

/-- In every run, whatever the replies are and in whatever order the calls are made. -/
theorem echo_faithful (p : EchoSetup) (as : List EchoAction) :
    (Echo.machine p).Throughout (Echo.Faithful p) as := by
  have hinv : (Echo.machine p).Throughout (Echo.Inv p) as :=
    Machine.throughout_of_invariant (Echo.inv_init p)
      (fun _ _ _ ht hs ↦ (Echo.stepped hs ht).inv) as
  exact hinv.mono fun _ hs ↦ hs.faithful

end Nsio
