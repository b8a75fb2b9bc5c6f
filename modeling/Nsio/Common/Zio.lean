import Nsio.Foundations.Socket

/-!
# The blocking helpers of `zio`

`zio::read` and `zio::write` are one system call each, made again while it is interrupted; their
results are told apart in band: a positive count, 0, -1 for a permanent error and -2 for a call that
would block. `zio::readv` and `zio::writev` call them until a count is reached, and take -2 for a
reason to call again.

Every helper is a function of the list of the kernel's replies, and `none` when that list ends
inside it. The pointer `buf` and the position `pos` are separate variables, as in the source; that
they move together is part of what is proved.

The loops of `readv` read a beginning of the stream as one fill loop does (`readvLoop_spec`): how
often a call would block makes no difference to what is stored. For `writev` the wire stays in order
(`writevLoop_spec`).
-/

namespace Nsio.Zio

/-! ### Reading -/

/-- `zio::read`. The state is the caller's memory and the stream. -/
def read (buf count : ℕ) : List Reply → Fill → Option (Int × Fill × List Reply)
  | [], _ => none
  | r :: rs, s =>
    let s := { s with calls := s.calls ++ [(buf, count)] }
    match receive s.stream count r with
    | .bytes bs =>
      some (bs.length,
        { s with mem := s.mem.write buf bs, stream := s.stream.drop bs.length }, rs)
    | .intr => read buf count rs s
    | .again => some (-2, s, rs)
    | .closed => some (0, s, rs)
    | .error => some (-1, s, rs)

/-- The loop of `zio::readv`; `s.got` is `pos`. Each turn uses a reply up, so a number of turns that
is larger than the number of replies is enough. -/
def readvLoop (count : ℕ) : ℕ → ℕ → Fill → List Reply → Option (Int × Fill × List Reply)
  | 0, _, _, _ => none
  | n + 1, buf, s, rs =>
    if s.got ≠ count then
      match read buf (count - s.got) rs s with
      | none => none
      | some (rc, s, rest) =>
        if 0 < rc then
          readvLoop count n (buf + rc.toNat) { s with got := s.got + rc.toNat } rest
        else if rc = 0 then some (if 0 < s.got then s.got else 0, s, rest)
        else if rc = -1 then some (if s.got = 0 then -1 else s.got, s, rest)
        else readvLoop count n buf s rest
    else some (if s.got = 0 then -1 else s.got, s, rs)

/-- `zio::readv` into the memory at `buff`. -/
def readv (mem : Region) (buff count : ℕ) (stream : List UInt8) (rs : List Reply) :
    Option (Int × Fill × List Reply) :=
  readvLoop count (rs.length + 1) buff ⟨0, mem, stream, []⟩ rs

/-- What `readv` returns when its reading ends by `e` with `got` bytes; nothing while it goes on. -/
def readvResult (e : FillExit) (got : ℕ) : Option Int :=
  match e with
  | .full | .error => some (if got = 0 then -1 else got)
  | .closed => some got
  | .again | .starved => none

theorem readvLoop_of_eq {count n buf : ℕ} {s : Fill} (h : s.got = count) (rs : List Reply) :
    readvLoop count (n + 1) buf s rs = some (if s.got = 0 then -1 else (s.got : Int), s, rs) := by
  rw [readvLoop, if_neg (not_not.2 h)]

/-! A turn of the loop, by the reply it gets. -/

section Turn

variable {begin count n : ℕ} {s : Fill} {r : Reply} {rs : List Reply}

theorem readvLoop_bytes {bs : List UInt8} (hgot : s.got ≠ count) (hpos : 0 < bs.length)
    (hr : receive s.stream (count - s.got) r = .bytes bs) :
    readvLoop count (n + 1) (begin + s.got) s (r :: rs) =
      readvLoop count n (begin + ((s.call begin count).take begin bs).got)
        ((s.call begin count).take begin bs) rs := by
  rw [readvLoop, if_pos hgot, read, hr]
  dsimp only
  rw [if_pos (by omega), Int.toNat_natCast, Nat.add_assoc]
  rfl

theorem readvLoop_again (hgot : s.got ≠ count)
    (hr : receive s.stream (count - s.got) r = .again) :
    readvLoop count (n + 1) (begin + s.got) s (r :: rs) =
      readvLoop count n (begin + s.got) (s.call begin count) rs := by
  rw [readvLoop, if_pos hgot, read, hr]
  rfl

/-- An interrupted call is made again inside `read`, in the same turn. -/
theorem readvLoop_intr (hgot : s.got ≠ count)
    (hr : receive s.stream (count - s.got) r = .intr) :
    readvLoop count (n + 1) (begin + s.got) s (r :: rs) =
      readvLoop count (n + 1) (begin + s.got) (s.call begin count) rs := by
  rw [readvLoop, readvLoop, if_pos hgot, read, hr]
  exact (if_pos hgot).symm

theorem readvLoop_closed (hgot : s.got ≠ count)
    (hr : receive s.stream (count - s.got) r = .closed) :
    readvLoop count (n + 1) (begin + s.got) s (r :: rs) =
      some ((s.got : Int), s.call begin count, rs) := by
  rw [readvLoop, if_pos hgot, read, hr]
  dsimp only
  rw [if_neg (by decide), if_pos rfl]
  refine congrArg (fun x : Int ↦ some (x, s.call begin count, rs)) ?_
  split
  · rfl
  · exact (congrArg Nat.cast (Nat.eq_zero_of_not_pos ‹_›)).symm

theorem readvLoop_error (hgot : s.got ≠ count)
    (hr : receive s.stream (count - s.got) r = .error) :
    readvLoop count (n + 1) (begin + s.got) s (r :: rs) =
      some (if s.got = 0 then -1 else (s.got : Int), s.call begin count, rs) := by
  rw [readvLoop, if_pos hgot, read, hr]
  rfl

end Turn

/-- **The loops of `readv` are one reading.** The induction is on the replies: an interrupted call
is made again by `read`, a call that would block by `readv`. -/
theorem readvLoop_spec {begin count n : ℕ} {s : Fill} {rs : List Reply} (hn : rs.length < n)
    (hle : s.got ≤ count) :
    ∃ e t rest, e ≠ .again ∧ FillSpec begin count rs s e t rest ∧
      readvLoop count n (begin + s.got) s rs =
        (readvResult e t.got).map fun r ↦ (r, t, rest) := by
  induction rs generalizing n s with
  | nil =>
    obtain ⟨n, rfl⟩ := Nat.exists_eq_add_one_of_ne_zero (Nat.ne_zero_of_lt hn)
    by_cases hgot : s.got = count
    · exact ⟨.full, s, [], by simp, .stop (.inl ⟨rfl, Nat.le_of_eq hgot.symm⟩),
        readvLoop_of_eq hgot []⟩
    · refine ⟨.starved, s, [], by simp, .stop (.inr ⟨rfl, by omega, rfl⟩), ?_⟩
      rw [readvLoop, if_pos hgot]
      rfl
  | cons r rs ih =>
    rw [List.length_cons] at hn
    obtain ⟨n, rfl⟩ := Nat.exists_eq_add_one_of_ne_zero (Nat.ne_zero_of_lt hn)
    by_cases hgot : s.got = count
    · exact ⟨.full, s, r :: rs, by simp, .stop (.inl ⟨rfl, Nat.le_of_eq hgot.symm⟩),
        readvLoop_of_eq hgot _⟩
    have hlt : s.got < count := by omega
    rcases hr : receive s.stream (count - s.got) r with bs | - | - | - | -
    · have hle' : s.got + bs.length ≤ count := by
        have := (receive_bytes hr).2.1
        omega
      have hpos := length_pos_of_receive (Nat.sub_pos_of_lt hlt) hr
      obtain ⟨e, t, rest, hne, hspec, hout⟩ :=
        ih (n := n) (s := (s.call begin count).take begin bs) (by omega) hle'
      exact ⟨e, t, rest, hne, hspec.bytes hlt hr, (readvLoop_bytes hgot hpos hr).trans hout⟩
    -- the call would block: `readv` goes round, and uses a unit of its bound
    · obtain ⟨e, t, rest, hne, hspec, hout⟩ :=
        ih (n := n) (s := s.call begin count) (by omega) hle
      exact ⟨e, t, rest, hne, (FillSpec.blocked hlt hr).again_trans hspec,
        (readvLoop_again hgot hr).trans hout⟩
    -- interrupted: `read` calls again by itself
    · obtain ⟨e, t, rest, hne, hspec, hout⟩ :=
        ih (n := n + 1) (s := s.call begin count) (by omega) hle
      exact ⟨e, t, rest, hne, hspec.interrupted hlt hr, (readvLoop_intr hgot hr).trans hout⟩
    · exact ⟨.closed, s.call begin count, rs, by simp, .ended hlt hr, readvLoop_closed hgot hr⟩
    · exact ⟨.error, s.call begin count, rs, by simp, .failed hlt hr, readvLoop_error hgot hr⟩

/-- What a `readv` of `count` bytes into the memory at `buff` has to do, for its outcome. -/
def ReadvExact (mem : Region) (buff count : ℕ) (stream : List UInt8) (rs : List Reply) :
    Option (Int × Fill × List Reply) → Prop
  | none => .closed ∉ rs ∧ .error ∉ rs
  | some (r, s, rest) => ∃ used, rs = used ++ rest ∧
    (0 < r → r ≤ count ∧ s.mem.read buff r.toNat = stream.take r.toNat ∧
      s.stream = stream.drop r.toNat ∧ r.toNat ≤ stream.length ∧
      (r < count → .closed ∈ used ∨ .error ∈ used)) ∧
    (r = 0 → .closed ∈ used ∧ s.stream = stream) ∧
    (r = -1 → .error ∈ used ∧ s.stream = stream) ∧ -1 ≤ r ∧
    ∀ i, i < buff ∨ buff + count ≤ i → s.mem.cell i = mem.cell i

/-- The results of `readv` tell the ends of a reading apart. -/
theorem readvResult_eq_some {e : FillExit} {got : ℕ} {r : Int} (h : readvResult e got = some r)
    (hfull : e = .full → 0 < got) :
    -1 ≤ r ∧ (0 < r → r = got) ∧ (r = 0 → e = .closed ∧ got = 0) ∧
      (r = -1 → e = .error ∧ got = 0) := by
  cases e with
  | full =>
    have := hfull rfl
    obtain rfl := Option.some.inj h
    split <;> omega
  | closed =>
    obtain rfl := Option.some.inj h
    exact ⟨by omega, fun _ ↦ rfl, fun _ ↦ ⟨rfl, by omega⟩, by omega⟩
  | error =>
    obtain rfl := Option.some.inj h
    by_cases hgot : got = 0
    · rw [if_pos hgot]
      exact ⟨by omega, by omega, by omega, fun _ ↦ ⟨rfl, hgot⟩⟩
    · rw [if_neg hgot]
      omega
  | again | starved => exact absurd h (by simp [readvResult])

theorem readvExact {mem : Region} {buff count : ℕ} (hpos : 1 ≤ count)
    (hroom : buff + count ≤ mem.cap) (stream : List UInt8) (rs : List Reply) :
    ReadvExact mem buff count stream rs (readv mem buff count stream rs) := by
  obtain ⟨e, s, rest, hne, hspec, hout⟩ := @readvLoop_spec buff count _ ⟨0, mem, stream, []⟩ rs
    (Nat.lt_succ_self rs.length) (Nat.zero_le _)
  have hread : readv mem buff count stream rs = (readvResult e s.got).map fun r ↦ (r, s, rest) :=
    hout
  have hheld := hspec.holdsPrefix hroom
  have hfull := hspec.full_iff
  obtain ⟨used, hused, hclosed, herror, -⟩ := hspec.used.split
  rcases hres : readvResult e s.got with - | r
  · -- the replies ended inside the loop
    obtain rfl : e = .starved := by
      cases e <;> first | rfl | exact absurd rfl hne | exact absurd hres (by simp [readvResult])
    obtain rfl := hspec.used.starved rfl
    rw [List.append_nil] at hused
    rw [hread, hres]
    exact ⟨by rw [hused, hclosed]; simp, by rw [hused, herror]; simp⟩
  · obtain ⟨hge, hprop, hzero, hneg⟩ := readvResult_eq_some hres fun he ↦
      Nat.lt_of_lt_of_le hpos (hfull.1 he)
    have hnothing : s.got = 0 → s.stream = stream := fun h ↦ by
      rw [hheld.consumed, h, List.drop_zero]
    rw [hread, hres]
    refine ⟨used, hused, fun hr ↦ ?_, fun hr ↦ ?_, fun hr ↦ ?_, hge, hheld.outside⟩
    · obtain rfl := hprop hr
      have hgot := hheld.got_le
      refine ⟨by omega, hheld.stored, hheld.consumed, hgot.2, fun hlt ↦ ?_⟩
      -- a short count is returned only after the end of the stream or an error
      have hnot : e ≠ .full := fun he ↦ by
        have := hfull.1 he
        omega
      cases e with
      | full => exact absurd rfl hnot
      | closed => exact .inl (hclosed.2 rfl)
      | error => exact .inr (herror.2 rfl)
      | again | starved => exact absurd hres (by simp [readvResult])
    · exact ⟨hclosed.2 (hzero hr).1, hnothing (hzero hr).2⟩
    · exact ⟨herror.2 (hneg hr).1, hnothing (hneg hr).2⟩

/-! ### Writing -/

/-- `zio::write` of the `count` bytes at `buf` of the caller's memory. -/
def write (mem : List UInt8) (buf count : ℕ) : List Reply → Wire → Option (Int × Wire × List Reply)
  | [], _ => none
  | r :: rs, w =>
    match w.send mem buf count r with
    | (.bytes k, w) => some (k, w, rs)
    | (.zero, w) => some (0, w, rs)
    | (.intr, w) => write mem buf count rs w
    | (.again, w) => some (-2, w, rs)
    | (.error, w) => some (-1, w, rs)

/-- The loop of `zio::writev`. -/
def writevLoop (mem : List UInt8) (count : ℕ) :
    ℕ → ℕ → ℕ → Wire → List Reply → Option (Int × Wire × List Reply)
  | 0, _, _, _, _ => none
  | n + 1, buf, pos, w, rs =>
    if pos ≠ count then
      match write mem buf (count - pos) rs w with
      | none => none
      | some (rc, w, rest) =>
        if 0 < rc then writevLoop mem count n (buf + rc.toNat) (pos + rc.toNat) w rest
        else if rc = -1 then some (if pos = 0 then -1 else pos, w, rest)
        else writevLoop mem count n buf pos w rest
    else some (if pos = 0 then -1 else pos, w, rs)

/-- `zio::writev` of a buffer. -/
def writev (buff : List UInt8) (rs : List Reply) : Option (Int × Wire × List Reply) :=
  writevLoop buff buff.length (rs.length + 1) 0 0 {} rs

/-- What a `writev` of a buffer has to do, for its outcome. -/
def WritevExact (buff : List UInt8) (rs : List Reply) :
    Option (Int × Wire × List Reply) → Prop
  | none => .error ∉ rs
  | some (r, w, rest) => ∃ used, rs = used ++ rest ∧
    (0 < r → r ≤ buff.length ∧ w.accepted = buff.take r.toNat ∧
      (r < buff.length → .error ∈ used)) ∧
    (r = -1 → .error ∈ used ∧ w.accepted = []) ∧ (r = -1 ∨ 0 < r) ∧
    ∀ c ∈ w.calls, c.1 + c.2 ≤ buff.length

/-- The outcome of the loop of `writev` on some replies: the wire is in order up to a position, and
that is what is returned. -/
def WritevSpec (buff : List UInt8) (rs : List Reply) : Option (Int × Wire × List Reply) → Prop
  | none => .error ∉ rs
  | some (r, w, rest) => ∃ used pos, rs = used ++ rest ∧ w.SentInOrder buff pos ∧
    pos ≤ buff.length ∧ (pos < buff.length → .error ∈ used) ∧
    r = if pos = 0 then -1 else (pos : Int)

theorem WritevSpec.cons {buff : List UInt8} {rs : List Reply} {r : Reply}
    {out : Option (Int × Wire × List Reply)} (hr : r ≠ .error) (h : WritevSpec buff rs out) :
    WritevSpec buff (r :: rs) out := by
  rcases out with - | ⟨rc, w, rest⟩
  · exact List.not_mem_cons_of_ne_of_not_mem hr.symm h
  · obtain ⟨used, pos, hused, hsent, hle, herror, hrc⟩ := h
    exact ⟨r :: used, pos, by rw [hused]; rfl, hsent, hle,
      fun hlt ↦ List.mem_cons_of_mem _ (herror hlt), hrc⟩

/-- **The loops of `writev` keep the wire in order.** The induction is on the replies. -/
theorem writevLoop_spec {buff : List UInt8} {n pos : ℕ} {w : Wire} {rs : List Reply}
    (hn : rs.length < n) (hw : w.SentInOrder buff pos) (hle : pos ≤ buff.length) :
    WritevSpec buff rs (writevLoop buff buff.length n pos pos w rs) := by
  induction rs generalizing n pos w with
  | nil =>
    obtain ⟨n, rfl⟩ := Nat.exists_eq_add_one_of_ne_zero (Nat.ne_zero_of_lt hn)
    rw [writevLoop]
    split
    · exact List.not_mem_nil
    · exact ⟨[], pos, rfl, hw, hle, by omega, rfl⟩
  | cons r rs ih =>
    rw [List.length_cons] at hn
    obtain ⟨n, rfl⟩ := Nat.exists_eq_add_one_of_ne_zero (Nat.ne_zero_of_lt hn)
    by_cases hpos : pos ≠ buff.length
    · have hrange : pos + (buff.length - pos) ≤ buff.length := by omega
      rcases hsend : w.send buff pos (buff.length - pos) r with ⟨out, w'⟩
      have hstay : (∀ k, out ≠ .bytes k) → w'.SentInOrder buff pos := hw.stay hrange hsend
      have hnot : out ≠ .error → r ≠ .error := by
        rintro hout rfl
        exact hout (Prod.mk.inj hsend).1.symm
      cases out with
      | bytes k =>
        obtain ⟨hsent, hk, j, -, hmin⟩ := hw.advance hrange hsend
        rw [writevLoop, if_pos hpos, write, hsend]
        dsimp only
        rw [if_pos (by omega), Int.toNat_natCast]
        exact (ih (by omega) hsent (by omega)).cons (hnot (by simp))
      | again =>
        rw [writevLoop, if_pos hpos, write, hsend]
        exact (ih (by omega) (hstay (by simp)) hle).cons (hnot (by simp))
      | zero =>
        rw [writevLoop, if_pos hpos, write, hsend]
        exact (ih (by omega) (hstay (by simp)) hle).cons (hnot (by simp))
      -- `write` calls again by itself, inside the same round
      | intr =>
        have hagain := ih (n := n + 1) (by omega) (hstay (by simp)) hle
        rw [writevLoop, if_pos hpos] at hagain ⊢
        rw [write, hsend]
        exact hagain.cons (hnot (by simp))
      | error =>
        obtain rfl := Wire.reply_of_send_error hsend
        rw [writevLoop, if_pos hpos, write, hsend]
        exact ⟨[.error], pos, rfl, hstay (by simp), hle, fun _ ↦ List.mem_singleton_self _, rfl⟩
    · rw [writevLoop, if_neg hpos]
      exact ⟨[], pos, rfl, hw, hle, by omega, rfl⟩

theorem writevExact {buff : List UInt8} (hpos : 1 ≤ buff.length) (rs : List Reply) :
    WritevExact buff rs (writev buff rs) := by
  have hspec := writevLoop_spec (Nat.lt_succ_self rs.length) (Wire.sentInOrder_empty buff)
    (Nat.zero_le _)
  rw [writev]
  rcases hout : writevLoop buff buff.length (rs.length + 1) 0 0 {} rs with - | ⟨r, w, rest⟩
  · rw [hout] at hspec
    exact hspec
  · rw [hout] at hspec
    obtain ⟨used, pos, hused, hsent, hle, herror, rfl⟩ := hspec
    refine ⟨used, hused, ?_, ?_, ?_, hsent.inside⟩
    · intro hr
      split at hr
      · exact absurd hr (by decide)
      · rw [if_neg ‹_›, Int.toNat_natCast]
        exact ⟨by omega, hsent.accepted_eq, fun hlt ↦ herror (by omega)⟩
    · intro hr
      split at hr
      · rename_i hzero
        refine ⟨herror (by omega), ?_⟩
        rw [hsent.accepted_eq, hzero, List.take_zero]
      · omega
    · split
      · exact .inl rfl
      · exact .inr (by omega)

end Nsio.Zio

namespace Nsio

/-- **`readv` and `writev` transfer an exact prefix**, for every count and every list of replies. A
`readv` returns at the latest when it meets the end of the file or an error, a `writev` at the
latest when it meets an error; and what they return says how much was transferred and why not
more. -/
theorem zio_transfers_prefix :
    (∀ (mem : Region) (buff count : ℕ) (stream : List UInt8) (rs : List Reply), 1 ≤ count →
      buff + count ≤ mem.cap →
      Zio.ReadvExact mem buff count stream rs (Zio.readv mem buff count stream rs)) ∧
    (∀ (buff : List UInt8) (rs : List Reply), 1 ≤ buff.length →
      Zio.WritevExact buff rs (Zio.writev buff rs)) :=
  ⟨fun _ _ _ stream rs hpos hroom ↦ Zio.readvExact hpos hroom stream rs,
    fun _ rs hpos ↦ Zio.writevExact hpos rs⟩

/-- Four bytes are read, with a blocked and an interrupted call between them, up to the end of the
file after three; and three bytes are written up to an error after two. -/
theorem zio_transfers_prefix_cut_short :
    (∃ s, Zio.readv ⟨8, fun _ ↦ 0⟩ 2 4 [10, 11, 12] [.chunk 0, .again, .intr, .chunk 5, .closed] =
        some (3, s, []) ∧ s.mem.read 2 3 = [10, 11, 12]) ∧
      ∃ w, Zio.writev [20, 21, 22] [.intr, .chunk 1, .again, .error] = some (2, w, []) ∧
        w.accepted = [20, 21] := by
  obtain ⟨hread, hwrite⟩ := zio_transfers_prefix
  obtain ⟨_, -, hheld, -⟩ := hread ⟨8, fun _ ↦ 0⟩ 2 4 [10, 11, 12]
    [.chunk 0, .again, .intr, .chunk 5, .closed] (by decide) (by decide)
  obtain ⟨_, -, haccepted, -⟩ := hwrite [20, 21, 22] [.intr, .chunk 1, .again, .error] (by decide)
  exact ⟨⟨_, rfl, (hheld (by decide)).2.1⟩, ⟨_, rfl, (haccepted (by decide)).2.1⟩⟩

end Nsio
