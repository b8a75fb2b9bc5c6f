import Nsio.Foundations.Socket
import Mathlib.Algebra.Ring.Nat

/-!
# A connection, position by position

One direction of a stream connection is what has been written to it, and how much of that has been
read (`Link`). What is in flight is the difference. Two ends that are described by their positions
in the stream need no history.

A reader that is known to read a message sees only the beginning of it that has arrived. A reply on
what has arrived is a reply on the whole message (`Reply.atMost`), so what is known about a reader
of the whole message holds of a reader that has to wait for it (`fill_atMost`).

The messages here are one message over and over (`rounds`).
-/

/-- One direction of a connection. -/
structure Link where
  /-- The bytes that were written, in order. -/
  sent : List UInt8 := []
  /-- How many of them were read. -/
  taken : ℕ := 0
  deriving DecidableEq, Repr

namespace Link

/-- What is in flight. -/
def avail (l : Link) : List UInt8 := l.sent.drop l.taken

/-- How many bytes can be written before the writer has to wait for the reader. -/
def room (l : Link) (capacity : ℕ) : ℕ := capacity - l.avail.length

/-- Bytes are written. -/
def push (l : Link) (bs : List UInt8) : Link := { l with sent := l.sent ++ bs }

/-- Bytes are read. -/
def pull (l : Link) (k : ℕ) : Link := { l with taken := l.taken + k }

@[simp] theorem length_avail (l : Link) : l.avail.length = l.sent.length - l.taken :=
  List.length_drop ..

@[simp] theorem taken_push (l : Link) (bs : List UInt8) : (l.push bs).taken = l.taken := rfl

@[simp] theorem push_nil (l : Link) : l.push [] = l := by
  rw [push, List.append_nil]

/-- What is in flight of a stream whose beginning was written. -/
theorem avail_isPrefix {l : Link} {stream : List UInt8} (h : l.sent <+: stream) :
    l.avail <+: stream.drop l.taken := by
  obtain ⟨more, rfl⟩ := h
  exact ⟨more.drop (l.taken - l.sent.length), List.drop_append.symm⟩

end Link

/-! ### What has arrived, and the whole message -/

/-- The reply, for at most `m` bytes. -/
def Reply.atMost (m : ℕ) : Reply → Reply
  | .chunk n => if m = 0 then .again else .chunk (min n (m - 1))
  | .again => .again
  | .intr => .intr
  | .closed => .closed
  | .error => .error

/-- A reply that says that nothing more will come. -/
def Reply.IsFault (r : Reply) : Prop := r = .closed ∨ r = .error

/-- How many of `count` bytes a reply to a send accepts. -/
def Reply.accepts (count : ℕ) : Reply → ℕ
  | .chunk n => min (n + 1) count
  | .again | .intr | .closed | .error => 0

theorem Reply.accepts_le (count : ℕ) (r : Reply) : r.accepts count ≤ count := by
  cases r with
  | chunk n => exact Nat.min_le_right _ _
  | again | intr | closed | error => exact Nat.zero_le _

theorem Reply.isFault_atMost {m : ℕ} {r : Reply} : (r.atMost m).IsFault ↔ r.IsFault := by
  cases r with
  | chunk n =>
    rw [atMost]
    split <;> simp [IsFault]
  | again | intr | closed | error => rfl

theorem Reply.chunks_atMost {m n : ℕ} (hm : m ≠ 0) : chunks [(Reply.chunk n).atMost m] = 1 := by
  rw [atMost, if_neg hm]
  rfl

theorem receive_atMost (stream more : List UInt8) (count : ℕ) (r : Reply) :
    receive (stream ++ more) count (r.atMost stream.length) = receive stream count r := by
  cases r with
  | chunk n =>
    rw [Reply.atMost, receive]
    split
    next hnil => rw [if_pos (List.eq_nil_of_length_eq_zero hnil), receive]
    next hne =>
      have hne' : stream ≠ [] := fun hnil ↦ hne (hnil ▸ rfl)
      have hcut : min (min n (stream.length - 1) + 1) count ≤ stream.length := by omega
      rw [receive, if_neg hne', if_neg (by simp [hne']), List.take_append_of_le_length hcut]
      exact congrArg _ (List.take_eq_take_iff.2 (by omega))
  | again | intr | closed | error => rfl

theorem fill_nil (off want : ℕ) (s : Fill) :
    fill off want [] s = (if s.got < want then .starved else .full, s, []) := by
  rw [fill]
  split <;> rfl

/-- A loop that is given one reply uses it. -/
theorem eq_nil_of_fill {off want : ℕ} {s t : Fill} {e : FillExit} {rest : List Reply} {r : Reply}
    (hlt : s.got < want) (h : fill off want [r] s = (e, t, rest)) : rest = [] := by
  rw [fill, if_pos hlt] at h
  split at h
  all_goals first | (cases h; rfl) | (rw [fill_nil] at h; cases h; rfl)

/-- A loop that makes one call on what has arrived is one on the whole message. -/
theorem fill_atMost {off want : ℕ} {s t : Fill} {e : FillExit} {rest : List Reply} {r : Reply}
    (hlt : s.got < want) (h : fill off want [r] s = (e, t, rest)) (more : List UInt8) :
    fill off want [r.atMost s.stream.length] { s with stream := s.stream ++ more } =
      (e, { t with stream := t.stream ++ more }, rest) := by
  rw [fill, if_pos hlt] at h ⊢
  rw [receive_atMost]
  rcases hr : receive s.stream (want - s.got) r with bs | - | - | - | -
  all_goals rw [hr] at h; dsimp only at h ⊢
  case bytes =>
    have hle := (receive_bytes hr).2.2
    rw [fill_nil] at h ⊢
    cases h
    refine Prod.ext rfl (Prod.ext ?_ rfl)
    simp [Fill.take, Fill.call, List.drop_append_of_le_length hle]
  case intr =>
    rw [fill_nil] at h ⊢
    cases h
    rfl
  all_goals
    cases h
    rfl

theorem fillSpec_atMost {off want : ℕ} {s t : Fill} {e : FillExit} {rest : List Reply} {r : Reply}
    (hlt : s.got < want) (h : fill off want [r] s = (e, t, rest)) (more : List UInt8) :
    FillSpec off want [r.atMost s.stream.length] { s with stream := s.stream ++ more } e
      { t with stream := t.stream ++ more } rest := by
  have hspec := fill_spec off want [r.atMost s.stream.length]
    { s with stream := s.stream ++ more }
  rwa [fill_atMost hlt h more] at hspec

theorem Used.eq_nil_or_full {r : Reply} {e : FillExit} {rest : List Reply} (h : Used [r] e rest) :
    rest = [] ∨ e = .full := by
  obtain ⟨used, hsplit, hclosed, herror, hagain⟩ := h.split
  rcases used with - | ⟨x, used⟩
  · cases e with
    | full => exact .inr rfl
    | again => exact absurd rfl (hagain rfl)
    | closed => exact absurd (hclosed.2 rfl) List.not_mem_nil
    | error => exact absurd (herror.2 rfl) List.not_mem_nil
    | starved => exact .inl (h.starved rfl)
  · exact .inl (List.append_eq_nil_iff.1 (List.cons.inj hsplit).2.symm).2

theorem Used.isFault {r : Reply} {m : ℕ} {e : FillExit} {rest : List Reply}
    (h : Used [r.atMost m] e rest) (he : e = .closed ∨ e = .error) : r.IsFault := by
  obtain ⟨used, hsplit, hclosed, herror, -⟩ := h.split
  have hmem : ∀ x ∈ used, x = r.atMost m := fun x hx ↦
    List.mem_singleton.1 (hsplit ▸ List.mem_append_left _ hx)
  rw [← Reply.isFault_atMost (m := m)]
  rcases he with rfl | rfl
  · exact .inl (hmem _ (hclosed.2 rfl)).symm
  · exact .inr (hmem _ (herror.2 rfl)).symm

/-! ### One message over and over -/

/-- The message `msg`, `k` times. -/
def rounds (msg : List UInt8) (k : ℕ) : List UInt8 := (List.replicate k msg).flatten

@[simp] theorem length_rounds (msg : List UInt8) (k : ℕ) :
    (rounds msg k).length = k * msg.length := by
  simp [rounds]

theorem rounds_add (msg : List UInt8) (j k : ℕ) :
    rounds msg (j + k) = rounds msg j ++ rounds msg k := by
  rw [rounds, List.replicate_add, List.flatten_append]
  rfl

/-- From a position in the round `i` on. -/
theorem drop_rounds {msg : List UInt8} {i k n : ℕ} (hi : i < k) (hn : n ≤ msg.length) :
    (rounds msg k).drop (i * msg.length + n) = msg.drop n ++ rounds msg (k - i - 1) := by
  obtain ⟨j, rfl⟩ : ∃ j, k = i + (1 + j) := ⟨k - i - 1, by omega⟩
  have hone : rounds msg 1 = msg := by simp [rounds]
  rw [rounds_add, rounds_add, hone, List.drop_append, List.drop_of_length_le (by simp),
    List.nil_append, length_rounds, Nat.add_sub_cancel_left, List.drop_append_of_le_length hn]
  congr 2
  omega

/-- The next bytes of the round `i` go on with the stream. -/
theorem append_isPrefix_rounds {msg l : List UInt8} {i k n : ℕ} (hl : l <+: rounds msg k)
    (hlen : l.length = i * msg.length + n) (hi : i < k) (hn : n ≤ msg.length) (m : ℕ) :
    l ++ (msg.drop n).take m <+: rounds msg k := by
  have hsplit : rounds msg k = l ++ (msg.drop n ++ rounds msg (k - i - 1)) := by
    rw [← drop_rounds hi hn, ← hlen]
    exact List.prefix_iff_eq_append.1 hl |>.symm
  rw [hsplit, List.prefix_append_right_inj]
  exact (List.take_prefix _ _).trans (List.prefix_append _ _)
