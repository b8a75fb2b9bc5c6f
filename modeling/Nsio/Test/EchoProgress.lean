import Nsio.Foundations.Progress
import Nsio.Test.Echo

/-!
# The echo programs make progress

A client that waits for a whole reply, a server that waits for a whole frame, and two connections
that hold less than a frame: each of the programs may wait for the other. `echo_completes` says that
they never wait for each other. Under any schedule in which each of the four calls is answered with
bytes again and again, and no call fails, the client does all of its rounds.

The schedule is an infinite sequence of calls and replies. A call that its program is not at is
passed over. A reply with bytes that finds nothing to read, or no room to write to, is a call that
would block.

A state in which nobody waits for nothing names the call that can be made (`Echo.mover`). Until that
call is answered with bytes, nothing changes or others move bytes, so `exists_of_fair` applies with
the number of bytes that are still to be moved.
-/

namespace Nsio

namespace Echo

variable {p : EchoSetup} {s : Echo}

/-! ### There is always a call that moves bytes -/

/-- Positions in rounds are ordered as the rounds are. -/
theorem le_of_mul_add_le {a b x y m : ℕ} (h : a * m + x ≤ b * m + y) (hy : y < m) : a ≤ b := by
  by_contra hlt
  have hrounds : (b + 1) * m ≤ a * m := Nat.mul_le_mul_right _ (by omega)
  rw [Nat.succ_mul] at hrounds
  omega

/-- A server is not sending while the client sends. -/
theorem exists_receiving_of_sending (h : s.Inv p) (hok : s.Ok) {i : ℕ} {buff : Region}
    {w : SendLazy} (hclient : s.client = .sending i buff w) :
    ∃ n q, s.server = .receiving n q := by
  have hc := h.client
  rw [hclient] at hc
  rcases hserver : s.server with ⟨n, q⟩ | ⟨n, len, data, w'⟩ | -
  · exact ⟨n, q, rfl⟩
  · have hs := h.server
    rw [hserver] at hs
    cases hc with
    | sending hi hcap hread hw hphase hlt hsent htaken =>
      cases hs with
      | sending hw' hphase' hlt' htaken' hsent' =>
        have hup := h.up_le
        have hdown := h.down_le
        rw [htaken', hsent] at hup
        rw [htaken, hsent'] at hdown
        -- the server has received the round it answers, and the client has the answer before it
        have hle : n + 1 ≤ i := le_of_mul_add_le (x := 0) hup hlt
        have hge : i ≤ n := le_of_mul_add_le (x := 0) hdown hlt'
        omega
  · exact absurd hserver hok.server

/-- When nothing is in flight to a client that waits, the server has what it waits for. -/
theorem movable_of_receiving (h : s.Inv p) (hok : s.Ok) {i : ℕ} {q : RecvLazy}
    (hclient : s.client = .receiving i q) (hdown : s.down.avail = []) :
    (∃ n q, s.server = .receiving n q ∧ s.up.avail ≠ []) ∨
      ∃ n len buff w, s.server = .sending n len buff w := by
  have hc := h.client
  rw [hclient] at hc
  rcases hserver : s.server with ⟨n, q'⟩ | ⟨n, len, data, w⟩ | -
  · refine .inl ⟨n, q', rfl, fun hup ↦ ?_⟩
    have hs := h.server
    rw [hserver] at hs
    cases hc with
    | receiving hi hsize hbegin hlt hcap hmem hsent htaken =>
      cases hs with
      | receiving hq hlt' htaken' hsent' =>
        have hupLen := s.up.length_avail
        have hdownLen := s.down.length_avail
        rw [hup, List.length_nil, hsent, htaken', Nat.succ_mul] at hupLen
        rw [hdown, List.length_nil, htaken, hsent'] at hdownLen
        have hle : i ≤ n := le_of_mul_add_le (x := 0) (y := q'.recvedBytes) (by omega) hlt'
        have hle' : n ≤ i := le_of_mul_add_le (x := 0) (y := q.recvedBytes) (by omega) hlt
        obtain rfl : n = i := by omega
        omega
  · exact .inr ⟨n, len, data, w, rfl⟩
  · exact absurd hserver hok.server

/-- A program that is not done is not stuck: a call can be made that moves bytes. -/
theorem exists_mover (h : s.Inv p) (hok : s.Ok) (hdone : s.client ≠ .done) (n : ℕ) :
    ∃ t, step p s ⟨s.mover p, .chunk n⟩ = some t ∧ s.moved < t.moved := by
  rcases hclient : s.client with ⟨i, buff, w⟩ | ⟨i, q⟩ | - | -
  · by_cases hroom : s.up.room p.capacity = 0
    · obtain ⟨m, q, hserver⟩ := exists_receiving_of_sending h hok hclient
      have hmover : s.mover p = .serverRecv := by
        rw [mover, hclient, SendRecv.isSending, if_pos rfl, if_pos hroom]
      obtain ⟨t, ht, hstepped⟩ := exists_serverRecv h hserver (.chunk n)
      refine ⟨t, hmover ▸ ht, hstepped.progress n rfl fun hnil ↦ ?_⟩
      have hcap := p.capacity_pos
      rw [Link.room, hnil, List.length_nil] at hroom
      omega
    · have hmover : s.mover p = .clientSend := by
        rw [mover, hclient, SendRecv.isSending, if_pos rfl, if_neg hroom]
      obtain ⟨t, ht, hstepped⟩ := exists_clientSend h hclient (.chunk n)
      exact ⟨t, hmover ▸ ht, hstepped.progress n rfl hroom⟩
  · by_cases havail : s.down.avail = []
    · rcases movable_of_receiving h hok hclient havail with ⟨m, q, hserver, hne⟩ |
        ⟨m, len, buff, w, hserver⟩
      · have hmover : s.mover p = .serverRecv := by
          rw [mover, hclient, hserver, SendRecv.isSending, if_neg (by simp), if_pos havail]
          rfl
        obtain ⟨t, ht, hstepped⟩ := exists_serverRecv h hserver (.chunk n)
        exact ⟨t, hmover ▸ ht, hstepped.progress n rfl hne⟩
      · have hmover : s.mover p = .serverSend := by
          rw [mover, hclient, hserver, SendRecv.isSending, if_neg (by simp), if_pos havail]
          rfl
        obtain ⟨t, ht, hstepped⟩ := exists_serverSend h hserver (.chunk n)
        refine ⟨t, hmover ▸ ht, hstepped.progress n rfl ?_⟩
        show s.down.room p.capacity ≠ 0
        rw [Link.room, havail]
        exact p.capacity_pos.ne'
    · have hmover : s.mover p = .clientRecv := by
        rw [mover, hclient, SendRecv.isSending, if_neg (by simp), if_neg havail]
      obtain ⟨t, ht, hstepped⟩ := exists_clientRecv h hclient (.chunk n)
      exact ⟨t, hmover ▸ ht, hstepped.progress n rfl havail⟩
  · exact absurd hclient hdone
  · exact absurd hclient hok.client

/-- Each byte passes four ends. -/
theorem Inv.moved_le (h : s.Inv p) : s.moved ≤ 4 * p.stream.length := by
  have hup := h.up_sent.length_le
  have hdown := h.down_sent.length_le
  have := h.up_le
  have := h.down_le
  rw [moved]
  omega

/-! ### Schedules -/

/-- The system under a schedule. A call that its program is not at is passed over. -/
def states (p : EchoSetup) (act : ℕ → EchoAction) : ℕ → Echo
  | 0 => (machine p).init
  | k + 1 => (step p (states p act k) (act k)).getD (states p act k)

/-- The call `c`, answered with bytes. -/
def Answers (c : EchoCall) (a : EchoAction) : Bool :=
  match a with
  | ⟨call, .chunk _⟩ => call = c
  | ⟨_, _⟩ => false

theorem answers_iff {c : EchoCall} {a : EchoAction} :
    Answers c a ↔ ∃ n, a = ⟨c, .chunk n⟩ := by
  obtain ⟨call, r⟩ := a
  cases r <;> simp [Answers]

/-- A schedule without failures, in which each call is answered with bytes again and again. -/
structure Fair (act : ℕ → EchoAction) : Prop where
  no_fault : ∀ k, ¬ (act k).reply.IsFault
  recurs : ∀ c, Recurs fun k ↦ Answers c (act k)

variable {act : ℕ → EchoAction}

theorem ok_init (p : EchoSetup) : (machine p).init.Ok where
  client := by
    show SendRecv.round p 0 _ ≠ .broke
    rw [SendRecv.round]
    split <;> simp
  server := by simp [machine]

theorem inv_states (hfair : Fair act) (k : ℕ) : (states p act k).Inv p ∧ (states p act k).Ok := by
  induction k with
  | zero => exact ⟨inv_init p, ok_init p⟩
  | succ k ih =>
    rw [states]
    rcases ht : step p (states p act k) (act k) with - | t
    · exact ih
    · have hstepped := stepped ih.1 ht
      exact ⟨hstepped.inv, hstepped.ok (hfair.no_fault k) ih.2⟩

/-- The bytes that are still to be moved. -/
def toMove (p : EchoSetup) (s : Echo) : ℕ := 4 * p.stream.length - s.moved

/-- A call that is not the one that can move bytes. -/
theorem toMove_succ (hfair : Fair act) {k : ℕ} :
    toMove p (states p act (k + 1)) < toMove p (states p act k) ∨
      toMove p (states p act (k + 1)) = toMove p (states p act k) ∧
        (states p act (k + 1)).mover p = (states p act k).mover p := by
  have hle' := (inv_states (p := p) hfair (k + 1)).1.moved_le
  rw [states] at hle' ⊢
  rcases ht : step p (states p act k) (act k) with - | t
  · exact .inr ⟨rfl, rfl⟩
  · have hstepped := stepped (inv_states hfair k).1 ht
    rw [ht, Option.getD_some] at hle'
    rw [Option.getD_some, toMove, toMove]
    rcases hstepped.le.lt_or_eq with hlt | hsame
    · exact .inl (by omega)
    · exact .inr ⟨by rw [hsame], hstepped.still (hfair.no_fault k) hsame.symm⟩

/-- The call that can move bytes is answered. -/
theorem toMove_succ_lt (hfair : Fair act) {k : ℕ} (hdone : (states p act k).client ≠ .done)
    (hanswers : Answers ((states p act k).mover p) (act k)) :
    toMove p (states p act (k + 1)) < toMove p (states p act k) := by
  obtain ⟨hinv, hok⟩ := inv_states (p := p) hfair k
  have hle' := (inv_states (p := p) hfair (k + 1)).1.moved_le
  obtain ⟨n, hact⟩ := answers_iff.1 hanswers
  obtain ⟨t, ht, hlt⟩ := exists_mover hinv hok hdone n
  have hnext : states p act (k + 1) = t := by
    rw [states, hact, ht, Option.getD_some]
  rw [hnext] at hle' ⊢
  rw [toMove, toMove]
  omega

end Echo

/-- Whatever the capacity of the connection is, the client does all of its rounds and receives what
it has sent. -/
theorem echo_completes (p : EchoSetup) {act : ℕ → EchoAction} (hfair : Echo.Fair act) :
    ∃ k, (Echo.states p act k).client = .done ∧ (Echo.states p act k).up.sent = p.stream ∧
      (Echo.states p act k).down.sent.take (Echo.states p act k).down.taken = p.stream := by
  obtain ⟨k, hk⟩ := exists_of_fair hfair.recurs (fun s ↦ s.client = .done) (Echo.toMove p)
    (Echo.mover p) (fun _ hdone hanswers ↦ Echo.toMove_succ_lt hfair hdone hanswers)
    fun _ _ _ ↦ Echo.toMove_succ hfair
  exact ⟨k, hk, (Echo.inv_states hfair k).1.faithful.done hk⟩

/-- Two rounds of eight bytes, over a connection that holds three. -/
def smallEcho : EchoSetup where
  capacity := 3
  capacity_pos := by decide
  sendLen := 8
  six_le := by decide
  sendLen_le := by decide
  count := 2
  mallocs := fun _ ↦ emptyPoolMalloc 0 4096 fun _ ↦ 7
  fits := fun _ ↦ by
    unfold Frame.FitsIn
    decide

/-- The calls in turn, each answered with two bytes. -/
def inTurn (k : ℕ) : EchoAction :=
  ⟨if k % 4 = 0 then .clientSend else if k % 4 = 1 then .serverRecv
    else if k % 4 = 2 then .serverSend else .clientRecv, .chunk 1⟩

theorem echo_completes_inTurn :
    ∃ k, (Echo.states smallEcho inTurn k).client = .done ∧
      (Echo.states smallEcho inTurn k).up.sent = smallEcho.stream ∧
      (Echo.states smallEcho inTurn k).down.sent.take (Echo.states smallEcho inTurn k).down.taken =
        smallEcho.stream := by
  refine echo_completes smallEcho ⟨fun k ↦ by simp [inTurn, Reply.IsFault], fun c k ↦ ?_⟩
  -- each call is made once in four
  have hturn : ∀ j < 4, ∃ d, (k + d) % 4 = j := fun j hj ↦ ⟨4 * k + j - k, by omega⟩
  cases c with
  | clientSend =>
    obtain ⟨d, hd⟩ := hturn 0 (by omega)
    exact ⟨d, by simp [inTurn, hd, Echo.Answers]⟩
  | serverRecv =>
    obtain ⟨d, hd⟩ := hturn 1 (by omega)
    exact ⟨d, by simp [inTurn, hd, Echo.Answers]⟩
  | serverSend =>
    obtain ⟨d, hd⟩ := hturn 2 (by omega)
    exact ⟨d, by simp [inTurn, hd, Echo.Answers]⟩
  | clientRecv =>
    obtain ⟨d, hd⟩ := hturn 3 (by omega)
    exact ⟨d, by simp [inTurn, hd, Echo.Answers]⟩

end Nsio
