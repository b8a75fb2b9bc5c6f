import Nsio.Foundations.Machine
import Nsio.Foundations.Socket
import Nsio.Coio.FdTable

/-!
# The sender `send_lazy`

`send_lazy` of `nio_awaiter.cpp` sends a span of memory: one loop of `::send` calls, left when a
call would block and entered again at the next write event. The model goes call by call. A state
says where the awaiter is (armed, in its loop, or done with `_handle.resume()` called), and an
action is a write event, one call with its reply, or the end of the loop. So a run can stop at any
point, and `sendLazy_exact` is a statement about every one of them.

The awaiter has no timeout here: its constructor has armed no timer, and nothing but events of its
descriptor reaches it.
-/

namespace Nsio

/-- Where an awaiter of a descriptor is. -/
inductive AwaiterPhase
  /-- It is in the slot of its descriptor. -/
  | armed
  /-- It is in its loop of calls. -/
  | running
  /-- It called `_handle.resume()`. -/
  | resumed
  deriving DecidableEq, Repr

/-- `send_lazy`, and what the kernel has of its bytes. -/
structure SendLazy where
  /-- `_sended_bytes`. -/
  sendedBytes : ℕ := 0
  /-- `_result`. -/
  result : Int := -1
  wire : Wire := {}
  phase : AwaiterPhase := .armed
  deriving DecidableEq, Repr

/-- What happens to a `send_lazy`. -/
inductive SendAction
  /-- `run` calls `on_file_event`. -/
  | event (event : Int)
  /-- The loop calls `::send`, with this reply. -/
  | send (r : Reply)
  /-- The loop is over: everything was sent. -/
  | done
  deriving DecidableEq, Repr

namespace SendLazy

/-- `(int)_buff.size()`, the bound of the loop. -/
def want (buff : List UInt8) : ℕ := (Int32.ofNat buff.length).toInt.toNat

/-- One step of `send_lazy::on_file_event` for the span `buff`. -/
def step (buff : List UInt8) (s : SendLazy) : SendAction → Option SendLazy
  | .event event =>
    if s.phase = .armed then
      some { s with phase := if event ≤ 0 then .resumed else .running }
    else none
  | .send r =>
    if s.phase = .running ∧ s.sendedBytes < want buff then
      match s.wire.send buff s.sendedBytes (buff.length - s.sendedBytes) r with
      | (.bytes k, w) => some { s with sendedBytes := s.sendedBytes + k, wire := w }
      | (.again, w) => some { s with wire := w, phase := .armed }
      | (.intr, w) => some { s with wire := w }
      | (.zero, w) => some { s with wire := w, phase := .resumed }
      | (.error, w) => some { s with wire := w, phase := .resumed }
    else none
  | .done =>
    if s.phase = .running ∧ ¬ s.sendedBytes < want buff then
      some { s with result := s.sendedBytes, phase := .resumed }
    else none

/-- The runs of one `co_await send_lazy`. -/
def machine (buff : List UInt8) : Machine SendLazy SendAction where
  init := {}
  step := step buff

/-- **The exactness of the sender**: the kernel has accepted the first `_sended_bytes` bytes in
order, and was never handed anything outside the span; the result is the size exactly when
everything was accepted, and otherwise -1; and once everything was accepted, the loop ends with
it. -/
structure Exact (buff : List UInt8) (s : SendLazy) : Prop where
  accepted_eq : s.wire.accepted = buff.take s.sendedBytes
  sendedBytes_le : s.sendedBytes ≤ buff.length
  inside : ∀ c ∈ s.wire.calls, c.1 + c.2 ≤ buff.length
  result_iff : s.phase = .resumed → (s.result = buff.length ↔ s.wire.accepted = buff)
  result_of_ne : s.phase = .resumed → s.wire.accepted ≠ buff → s.result = -1
  complete : s.phase = .running → s.wire.accepted = buff →
    step buff s .done = some { s with result := buff.length, phase := .resumed }

/-- The invariant: the sender is in order; while it is armed something is missing; and it is done
with everything sent, or with something missing and the result it started with. -/
structure Inv (buff : List UInt8) (s : SendLazy) : Prop where
  sent : s.wire.SentInOrder buff s.sendedBytes
  sendedBytes_le : s.sendedBytes ≤ buff.length
  armed : s.phase = .armed → s.sendedBytes < buff.length
  pending : s.phase ≠ .resumed → s.result = -1
  resumed : s.phase = .resumed → s.result = buff.length ∧ s.sendedBytes = buff.length ∨
    s.result = -1 ∧ s.sendedBytes < buff.length

variable {buff : List UInt8} {s t : SendLazy}

theorem want_eq (hmax : buff.length ≤ 2 ^ 31 - 1) : want buff = buff.length := by
  rw [want, Int32.toInt_ofNat_of_lt (by omega)]
  rfl

theorem inv_init (hpos : 1 ≤ buff.length) : Inv buff (machine buff).init where
  sent := Wire.sentInOrder_empty buff
  sendedBytes_le := Nat.zero_le _
  armed := fun _ ↦ hpos
  pending := fun _ ↦ rfl
  resumed := fun h ↦ absurd h (by simp [machine])

/-- One call of `::send`. -/
theorem Inv.send {r : Reply} (hmax : buff.length ≤ 2 ^ 31 - 1)
    (ht : step buff s (.send r) = some t) (hs : s.Inv buff) : t.Inv buff := by
  obtain ⟨⟨hrun, hlt⟩, ht⟩ := Option.ite_none_right_eq_some.1 ht
  rw [want_eq hmax] at hlt
  have hresult : s.result = -1 := hs.pending (by rw [hrun]; simp)
  have hrange : s.sendedBytes + (buff.length - s.sendedBytes) ≤ buff.length := by omega
  rcases hsend : s.wire.send buff s.sendedBytes (buff.length - s.sendedBytes) r with ⟨out, w⟩
  rw [hsend] at ht
  cases out with
  | bytes k =>
    obtain rfl := Option.some.inj ht
    obtain ⟨hsent, hk, -⟩ := hs.sent.advance hrange hsend
    exact ⟨hsent, by dsimp only; omega, fun h ↦ absurd (hrun.symm.trans h) (by simp),
      hs.pending, fun h ↦ absurd (hrun.symm.trans h) (by simp)⟩
  | again =>
    obtain rfl := Option.some.inj ht
    exact ⟨hs.sent.stay hrange hsend (by simp), hs.sendedBytes_le, fun _ ↦ hlt, fun _ ↦ hresult,
      fun h ↦ absurd h (by simp)⟩
  | intr =>
    obtain rfl := Option.some.inj ht
    exact ⟨hs.sent.stay hrange hsend (by simp), hs.sendedBytes_le, hs.armed, hs.pending,
      hs.resumed⟩
  -- the coroutine is resumed with the -1 `_result` started with
  | zero | error =>
    obtain rfl := Option.some.inj ht
    exact ⟨hs.sent.stay hrange hsend (by simp), hs.sendedBytes_le, fun h ↦ absurd h (by simp),
      fun _ ↦ hresult, fun _ ↦ .inr ⟨hresult, hlt⟩⟩

theorem inv_step {a : SendAction} (hmax : buff.length ≤ 2 ^ 31 - 1)
    (ht : step buff s a = some t) (hs : s.Inv buff) : t.Inv buff := by
  cases a with
  | event event =>
    obtain ⟨harmed, ⟨⟩⟩ := Option.ite_none_right_eq_some.1 ht
    have hlt := hs.armed harmed
    have hresult : s.result = -1 := hs.pending (by rw [harmed]; simp)
    refine ⟨hs.sent, hs.sendedBytes_le, fun _ ↦ hlt, fun _ ↦ hresult, fun _ ↦ .inr ⟨hresult, hlt⟩⟩
  | send r => exact hs.send hmax ht
  | done =>
    obtain ⟨⟨-, hge⟩, ⟨⟩⟩ := Option.ite_none_right_eq_some.1 ht
    rw [want_eq hmax] at hge
    have hall : s.sendedBytes = buff.length := by
      have := hs.sendedBytes_le
      omega
    exact ⟨hs.sent, hs.sendedBytes_le, fun h ↦ absurd h (by simp), fun h ↦ absurd rfl h,
      fun _ ↦ .inl ⟨congrArg Nat.cast hall, hall⟩⟩

/-- Everything was accepted exactly when the count says so. -/
theorem Inv.accepted_eq_iff (hs : s.Inv buff) :
    s.wire.accepted = buff ↔ s.sendedBytes = buff.length := by
  rw [hs.sent.accepted_eq, List.take_eq_self_iff]
  have := hs.sendedBytes_le
  omega

theorem Inv.exact (hpos : 1 ≤ buff.length) (hmax : buff.length ≤ 2 ^ 31 - 1)
    (hs : s.Inv buff) : s.Exact buff where
  accepted_eq := hs.sent.accepted_eq
  sendedBytes_le := hs.sendedBytes_le
  inside := hs.sent.inside
  result_iff hres := by
    rw [hs.accepted_eq_iff]
    rcases hs.resumed hres with ⟨hresult, hall⟩ | ⟨hresult, hlt⟩
    · exact iff_of_true hresult hall
    · exact iff_of_false (by omega) (Nat.ne_of_lt hlt)
  result_of_ne hres hne := by
    rw [Ne, hs.accepted_eq_iff] at hne
    rcases hs.resumed hres with ⟨-, hall⟩ | ⟨hresult, -⟩
    · exact absurd hall hne
    · exact hresult
  complete hrun hacc := by
    have hall := hs.accepted_eq_iff.1 hacc
    have hge : ¬ s.sendedBytes < want buff := by
      rw [want_eq hmax]
      omega
    rw [step, if_pos ⟨hrun, hge⟩, hall]

end SendLazy

/-- **`send_lazy` sends each byte once and in order**, at every point of every run: whatever the
replies of `::send` are, and however often the awaiter is armed again. -/
theorem sendLazy_exact {buff : List UInt8} (hpos : 1 ≤ buff.length)
    (hmax : buff.length ≤ 2 ^ 31 - 1) (as : List SendAction) :
    (SendLazy.machine buff).Throughout (SendLazy.Exact buff) as := by
  have hinv : (SendLazy.machine buff).Throughout (SendLazy.Inv buff) as :=
    Machine.throughout_of_invariant (SendLazy.inv_init hpos)
      (fun _ _ _ ht hs ↦ SendLazy.inv_step hmax ht hs) as
  exact hinv.mono fun _ hs ↦ hs.exact hpos hmax

/-- Three bytes, of which the kernel takes one, then none until the next event, then the rest. -/
theorem sendLazy_exact_blocked :
    (SendLazy.machine [10, 11, 12]).Throughout (SendLazy.Exact [10, 11, 12])
      [.event emWrite, .send (.chunk 0), .send .intr, .send .again, .event emWrite,
        .send (.chunk 7), .done] :=
  sendLazy_exact (by decide) (by decide) _

/-- The run ends with the coroutine resumed. -/
example : ((SendLazy.machine [10, 11, 12]).run
    [.event emWrite, .send (.chunk 0), .send .intr, .send .again, .event emWrite,
      .send (.chunk 7), .done]).map (fun s ↦ (s.phase, s.result, s.wire.accepted)) =
    some (.resumed, 3, [10, 11, 12]) := by
  decide

end Nsio
