import Nsio.Coio.BufferCache
import Nsio.Foundations.Ledger

/-!
# Who owns a chunk of the buffer pool

Chunk descriptors are copied by value: from the cache into a buffer, from a buffer into the cache.
This module follows every chunk from `aligned_alloc` to `free`, over the whole life of a pool:
`malloc` calls and buffer destructions in any order, and then `~buffer_pool`, which frees what is
cached.

`PoolLife` adds to the pool a ledger with one record per chunk. The ledger is a log: the pool never
reads it. All the proofs need to know of a step is what it does to the descriptors that are
**held**, by a live buffer or by the cache, and to the ledger (`PoolWorld.held_cases`): a
descriptor moves, or a new one appears with a new chunk, or one disappears with a `free`.

## The count

`_cache_bytes` is a `size_t`, and as a `size_t` it is the sum of the cached lengths whatever the
allocator does. That it is the sum as a number needs the chunks to fit beside each other in the
address space, which is what `RegionsApart` says of `aligned_alloc`.
-/

namespace Nsio

/-! ### The life of a pool -/

/-- `~buffer_pool`: every cached chunk is freed. -/
def BufferPool.destructor (s : BufferPool) (ledger : List (Ledger.Chunk ℕ)) :
    List (Ledger.Chunk ℕ) :=
  s.cache.foldl (fun l bb ↦ Ledger.free bb.2.data l) ledger

namespace PoolWorld

/-- What a use of the pool adds to the ledger: a miss takes a chunk from `aligned_alloc`, and a
release may free one. -/
def record (w : PoolWorld) (ledger : List (Ledger.Chunk ℕ)) : PoolAction → List (Ledger.Chunk ℕ)
  | .malloc r pick p =>
    if w.pool.find r.key pick = none then Ledger.handOut p ledger else ledger
  | .destroy i =>
    match (w.live[i]?).bind fun b ↦ (w.pool.release b.d).2 with
    | some p => Ledger.free p ledger
    | none => ledger

end PoolWorld

/-- A pool with the ledger of its chunks. -/
structure PoolLife where
  /-- The pool and its buffers, until the pool is destroyed. -/
  world : Option PoolWorld
  ledger : List (Ledger.Chunk ℕ) := []
  deriving Repr

/-- A use of the pool, or its destruction. -/
inductive LifeAction
  | use (a : PoolAction)
  | teardown
  deriving Repr

/-- One step; the pool is destroyed after its buffers. -/
def PoolLife.step : PoolLife → LifeAction → Option PoolLife
  | ⟨some w, l⟩, .use a => (w.step a).map fun t ↦ ⟨some t, w.record l a⟩
  | ⟨some w, l⟩, .teardown =>
    if w.live.isEmpty then some ⟨none, w.pool.destructor l⟩ else none
  | ⟨none, _⟩, _ => none

/-- The life of a pool made by `new_inst`. -/
def PoolLife.machine (limitCacheBytes : UInt64) : Machine PoolLife LifeAction where
  init := ⟨some { pool := .newInst limitCacheBytes }, []⟩
  step := PoolLife.step

/-- What a step of the life can do. -/
theorem PoolLife.step_cases {s t : PoolLife} {a : LifeAction} (h : s.step a = some t) :
    (∃ w b u, s.world = some w ∧ a = .use b ∧ w.step b = some u ∧
      t = ⟨some u, w.record s.ledger b⟩) ∨
    (∃ w, s.world = some w ∧ a = .teardown ∧ w.live = [] ∧
      t = ⟨none, w.pool.destructor s.ledger⟩) := by
  obtain ⟨- | w, l⟩ := s
  · exact absurd h (by simp [step])
  cases a with
  | use b =>
    obtain ⟨u, hu, rfl⟩ := Option.map_eq_some_iff.1 h
    exact .inl ⟨w, b, u, rfl, rfl, hu, rfl⟩
  | teardown =>
    by_cases hlive : w.live.isEmpty
    · rw [step, if_pos hlive] at h
      exact .inr ⟨w, rfl, rfl, List.isEmpty_iff.1 hlive, (Option.some.inj h).symm⟩
    · rw [step, if_neg hlive] at h
      exact absurd h (by simp)

/-! ### The descriptors that are held -/

namespace PoolWorld

/-- The descriptors in the live buffers and in the cache. -/
def held (w : PoolWorld) : List ByteBufferData :=
  w.live.map ByteBufferImpl.d ++ w.pool.cache.map Prod.snd

/-- The number of live buffers over the address `p`. -/
def inLive (w : PoolWorld) (p : ℕ) : ℕ := (w.live.map fun b ↦ b.d.data).count p

/-- The number of cached descriptors of the address `p`. -/
def inCache (w : PoolWorld) (p : ℕ) : ℕ := (w.pool.cache.map fun e ↦ e.2.data).count p

/-- The number of places that hold the address `p`. -/
def holders (w : PoolWorld) (p : ℕ) : ℕ := (w.held.map ByteBufferData.data).count p

theorem holders_eq (w : PoolWorld) (p : ℕ) : w.holders p = w.inLive p + w.inCache p := by
  rw [holders, held, List.map_append, List.count_append, List.map_map, List.map_map]
  rfl

theorem holders_congr {w t : PoolWorld} (h : t.held.Perm w.held) : t.holders = w.holders :=
  funext fun p ↦ (h.map _).count_eq p

theorem holders_of_held_cons {w t : PoolWorld} {d : ByteBufferData}
    (h : t.held.Perm (d :: w.held)) (hd : w.holders d.data = 0) :
    t.holders = Function.update w.holders d.data 1 := by
  funext p
  rw [holders, (h.map _).count_eq, List.map_cons]
  by_cases hp : p = d.data
  · rw [hp, Function.update_self, List.count_cons_self]
    exact congrArg (· + 1) hd
  · rw [Function.update_of_ne hp, List.count_cons_of_ne (Ne.symm hp), holders]

/-- **What a step does to the descriptors that are held.** They are the same ones in other places,
or there is one more and the ledger has a new chunk, or one is gone and its chunk is freed. -/
theorem held_cases {w t : PoolWorld} {a : PoolAction} (h : w.step a = some t)
    (l : List (Ledger.Chunk ℕ)) :
    (t.held.Perm w.held ∧ w.record l a = l) ∨
    (∃ r pick p, a = .malloc r pick p ∧ w.pool.find r.key pick = none ∧
      t.held.Perm (⟨p, r.total, r.alignBit⟩ :: w.held) ∧ w.record l a = Ledger.handOut p l) ∨
    (∃ d, w.held.Perm (d :: t.held) ∧ w.record l a = Ledger.free d.data l) := by
  obtain ⟨r, pick, p, rfl, -, hpool, hlive⟩ | ⟨i, b, rfl, hb, rfl⟩ := step_cases h
  · obtain ⟨it, hfind, hm⟩ | ⟨hfind, hm⟩ := w.pool.malloc_cases r pick p
    · rw [hm] at hpool hlive
      refine .inl ⟨?_, by rw [record, if_neg (by rw [hfind]; simp)]⟩
      -- the chunk moves from the cache to the live buffers
      have hcache := (List.perm_cons_erase (BufferPool.mem_of_find hfind).1).map Prod.snd
      rw [held, held, hlive, hpool]
      refine List.Perm.trans ?_ (hcache.append_left _).symm
      exact List.perm_middle.symm
    · rw [hm] at hpool hlive
      refine .inr (.inl ⟨r, pick, p, rfl, hfind, ?_, by rw [record, if_pos hfind]⟩)
      rw [held, held, hlive, hpool]
      exact List.Perm.refl _
  · have hlive : (w.live.map ByteBufferImpl.d).Perm
        (b.d :: (w.live.eraseIdx i).map ByteBufferImpl.d) := by
      obtain ⟨hi, hget⟩ := List.getElem?_eq_some_iff.1 hb
      exact hget ▸ (List.getElem_cons_eraseIdx_perm hi).symm.map ByteBufferImpl.d
    by_cases hlt : w.pool.cacheBytes + b.d.len.toUInt64 < w.pool.limitCacheBytes
    · have hrel : w.pool.release b.d = (w.pool, some b.d.data) := by
        rw [BufferPool.release, if_pos hlt]
      -- below the limit the destructor frees the chunk
      refine .inr (.inr ⟨b.d, ?_, ?_⟩)
      · rw [held, held, destroy, hrel]
        exact hlive.append_right _
      · simp only [record, hb, Option.bind_some, hrel]
    · have hrel : w.pool.release b.d = ({ w.pool with
          cacheBytes := w.pool.cacheBytes + b.d.len.toUInt64
          cache := (b.d.key, b.d) :: w.pool.cache }, none) := by
        rw [BufferPool.release, if_neg hlt]
      -- from the limit on it goes to the cache, and stays held
      refine .inl ⟨?_, ?_⟩
      · rw [held, held, destroy, hrel]
        exact List.perm_middle.trans (hlive.append_right _).symm
      · simp only [record, hb, Option.bind_some, hrel]

end PoolWorld

/-! ### The count of the cached bytes -/

/-- `_cache_bytes` is the sum of the cached lengths, in the arithmetic of `size_t`. -/
theorem PoolWorld.cacheBytes_step {w t : PoolWorld} {a : PoolAction} (h : w.step a = some t)
    (hw : w.pool.cacheBytes.toNat = w.pool.chunkBytes % 2 ^ 64) :
    t.pool.cacheBytes.toNat = t.pool.chunkBytes % 2 ^ 64 := by
  obtain ⟨r, pick, p, rfl, -, hpool, -⟩ | ⟨i, b, rfl, -, rfl⟩ := step_cases h
  · obtain ⟨it, hfind, hm⟩ | ⟨-, hm⟩ := w.pool.malloc_cases r pick p
    · have hsum := BufferPool.chunkBytes_erase (BufferPool.mem_of_find hfind).1
      have hchunk : t.pool.chunkBytes =
          ((w.pool.cache.erase it).map fun e ↦ e.2.len.toNat).sum := by rw [hpool, hm]; rfl
      have hbytes : t.pool.cacheBytes = w.pool.cacheBytes - it.2.len.toUInt64 := by rw [hpool, hm]
      have hlen := it.2.len.toNat_lt
      rw [hbytes, hchunk, UInt64.toNat_sub, UInt32.toNat_toUInt64]
      omega
    · rw [hpool, hm]
      exact hw
  · by_cases hlt : w.pool.cacheBytes + b.d.len.toUInt64 < w.pool.limitCacheBytes
    · rw [destroy, BufferPool.release, if_pos hlt]
      exact hw
    · rw [destroy, BufferPool.release, if_neg hlt]
      show (w.pool.cacheBytes + b.d.len.toUInt64).toNat =
        (b.d.len.toNat + w.pool.chunkBytes) % 2 ^ 64
      rw [UInt64.toNat_add, UInt32.toNat_toUInt64, hw]
      omega

/-- The address and the length of a chunk. -/
def ByteBufferData.region (d : ByteBufferData) : ℕ × ℕ := (d.data, d.len.toNat)

/-- The chunks that are held lie in the address space and do not overlap. -/
structure PoolWorld.InSpace (w : PoolWorld) : Prop where
  apart : (w.held.map ByteBufferData.region).Pairwise Intervals.Apart
  within : ∀ x ∈ w.held.map ByteBufferData.region, 1 ≤ x.1 ∧ x.1 + x.2 ≤ 2 ^ 64

theorem PoolWorld.InSpace.congr {w t : PoolWorld} (h : t.held.Perm w.held) (hw : w.InSpace) :
    t.InSpace where
  apart := ((h.map _).pairwise_iff Intervals.Apart.symm).2 hw.apart
  within x hx := hw.within x ((h.map _).mem_iff.1 hx)

theorem PoolWorld.InSpace.of_cons {w t : PoolWorld} {d : ByteBufferData}
    (h : w.held.Perm (d :: t.held)) (hw : w.InSpace) : t.InSpace where
  apart :=
    (List.pairwise_cons.1 (((h.map _).pairwise_iff Intervals.Apart.symm).1 hw.apart)).2
  within x hx := hw.within x ((h.map _).mem_iff.2 (List.mem_cons_of_mem _ hx))

theorem PoolWorld.InSpace.chunkBytes_lt {w : PoolWorld} (hw : w.InSpace) :
    w.pool.chunkBytes < 2 ^ 64 := by
  have hsum := Intervals.sum_le_of_pairwise_apart hw.apart hw.within
  have hcache : w.pool.chunkBytes ≤
      ((w.held.map ByteBufferData.region).map Prod.snd).sum := by
    have hmap : ((w.pool.cache.map Prod.snd).map ByteBufferData.region).map Prod.snd =
        w.pool.cache.map fun e ↦ e.2.len.toNat := by
      rw [List.map_map, List.map_map]
      rfl
    rw [held, List.map_append, List.map_append, List.sum_append, hmap]
    exact Nat.le_add_left _ _
  omega

/-! ### What is assumed of `aligned_alloc` -/

/-- The address of a fresh chunk is not that of a chunk that was not freed. -/
def DistinctAddress (s : PoolLife) (a : LifeAction) : Prop :=
  ∀ w r pick p, s.world = some w → a = .use (.malloc r pick p) →
    w.pool.find r.key pick = none → ∀ c ∈ s.ledger, c.frees = 0 → c.addr ≠ p

/-- A fresh chunk lies in the address space, above the null address, and overlaps no chunk that is
held. -/
def RegionsApart (s : PoolLife) (a : LifeAction) : Prop :=
  ∀ w r pick p, s.world = some w → a = .use (.malloc r pick p) →
    w.pool.find r.key pick = none → 1 ≤ p ∧ p + r.total.toNat ≤ 2 ^ 64 ∧
      ∀ d ∈ w.held, Intervals.Apart (p, r.total.toNat) d.region

/-! ### The invariants of a life -/

namespace PoolLife

/-- The ledger is balanced by what the pool holds, or by nothing once the pool is gone. -/
structure Inv (s : PoolLife) : Prop where
  balanced : Ledger.Balanced (s.world.elim (fun _ ↦ 0) PoolWorld.holders) s.ledger
  wellKeyed : ∀ w, s.world = some w → w.WellKeyed
  bytes_eq : ∀ w, s.world = some w → w.pool.cacheBytes.toNat = w.pool.chunkBytes % 2 ^ 64

theorem Inv.init (limit : UInt64) : (PoolLife.machine limit).init.Inv := by
  refine ⟨fun _ ↦ rfl, ?_, ?_⟩ <;> rintro w ⟨⟩
  · exact ⟨by simp [BufferPool.newInst], by simp [BufferPool.newInst], by simp⟩
  · rfl

/-- The ledger stays balanced: a moved descriptor keeps the holders, a fresh address had none, and
a freed chunk had one. -/
theorem balanced_use {w t : PoolWorld} {l : List (Ledger.Chunk ℕ)} {a : PoolAction}
    (h : w.step a = some t) (hdistinct : DistinctAddress ⟨some w, l⟩ (.use a))
    (hl : Ledger.Balanced w.holders l) : Ledger.Balanced t.holders (w.record l a) := by
  obtain ⟨hheld, hrec⟩ | ⟨r, pick, p, rfl, hfind, hheld, hrec⟩ | ⟨d, hheld, hrec⟩ :=
    PoolWorld.held_cases h l
  · rwa [hrec, PoolWorld.holders_congr hheld]
  · have hzero : w.holders p = 0 := by
      by_contra hp
      obtain ⟨c, hc, hcp, hfrees⟩ := hl.exists_unfreed hp
      exact hdistinct w r pick p rfl rfl hfind c hc hfrees hcp
    rw [hrec, PoolWorld.holders_of_held_cons hheld hzero]
    exact hl.handOut hzero
  · have hcount : w.holders d.data = t.holders d.data + 1 := by
      rw [PoolWorld.holders, (hheld.map _).count_eq, List.map_cons, List.count_cons_self]
      rfl
    have hzero : t.holders d.data = 0 := by
      have := hl.held_le_one d.data
      omega
    have hfree := hl.free (hcount.trans (congrArg (· + 1) hzero))
    rwa [PoolWorld.holders_of_held_cons hheld hzero, Function.update_idem,
      Function.update_eq_self_iff.2 hzero.symm, ← hrec] at hfree

/-- `~buffer_pool` frees every chunk that is left, each once. -/
theorem balanced_destructor {w : PoolWorld} {l : List (Ledger.Chunk ℕ)} (hlive : w.live = [])
    (hl : Ledger.Balanced w.holders l) :
    Ledger.Balanced (fun _ ↦ 0) (w.pool.destructor l) := by
  have hholders : ∀ p, w.holders p = (w.pool.cache.map fun e ↦ e.2.data).count p := by
    intro p
    rw [PoolWorld.holders_eq, PoolWorld.inLive, hlive]
    exact Nat.zero_add _
  have hnodup : (w.pool.cache.map fun e ↦ e.2.data).Nodup :=
    List.nodup_iff_count_le_one.2 fun p ↦ (hholders p).symm.trans_le (hl.held_le_one p)
  have hfold := hl.foldl_free hnodup hholders
  rwa [List.foldl_map] at hfold

theorem Inv.step {s t : PoolLife} {a : LifeAction} (h : s.step a = some t)
    (hdistinct : DistinctAddress s a) (hs : s.Inv) : t.Inv := by
  obtain ⟨world, l⟩ := s
  obtain ⟨w, b, u, hw, rfl, hu, rfl⟩ | ⟨w, hw, rfl, hlive, rfl⟩ := step_cases h
  · obtain rfl : world = some w := hw
    refine ⟨balanced_use hu hdistinct hs.balanced, ?_, ?_⟩ <;> rintro _ ⟨⟩
    · exact (hs.wellKeyed w rfl).step hu
    · exact PoolWorld.cacheBytes_step hu (hs.bytes_eq w rfl)
  · obtain rfl : world = some w := hw
    refine ⟨balanced_destructor hlive hs.balanced, ?_, ?_⟩ <;> rintro _ ⟨⟩

theorem inSpace_step {s t : PoolLife} {a : LifeAction} (h : s.step a = some t)
    (hapart : RegionsApart s a) (hs : ∀ w, s.world = some w → w.InSpace) :
    ∀ u, t.world = some u → u.InSpace := by
  obtain ⟨w, b, u, hw, rfl, hu, rfl⟩ | ⟨w, -, -, -, rfl⟩ := step_cases h
  · rintro _ ⟨⟩
    obtain ⟨hheld, -⟩ | ⟨r, pick, p, rfl, hfind, hheld, -⟩ | ⟨d, hheld, -⟩ :=
      PoolWorld.held_cases hu s.ledger
    · exact (hs w hw).congr hheld
    · obtain ⟨hp, hend, hnew⟩ := hapart w r pick p hw rfl hfind
      refine ⟨((hheld.map _).pairwise_iff Intervals.Apart.symm).2 ?_, fun x hx ↦ ?_⟩
      · refine List.pairwise_cons.2 ⟨fun x hx ↦ ?_, (hs w hw).apart⟩
        obtain ⟨d, hd, rfl⟩ := List.mem_map.1 hx
        exact hnew d hd
      · rcases List.mem_cons.1 ((hheld.map _).mem_iff.1 hx) with rfl | hx
        · exact ⟨hp, hend⟩
        · exact (hs w hw).within x hx
    · exact (hs w hw).of_cons hheld
  · rintro _ ⟨⟩

end PoolLife

/-! ### The accounts of a pool -/

/-- Where a chunk is: in one live buffer, in the cache once, or freed once; and in exactly one of
these. `k` is its place in the ledger. The places that hold an address hold the newest chunk
there. -/
inductive ChunkFate (w : PoolWorld) (l : List (Ledger.Chunk ℕ)) (k : ℕ) (c : Ledger.Chunk ℕ) :
    Prop
  | owned (newest : Ledger.Newest l k c.addr) (live : w.inLive c.addr = 1)
      (cache : w.inCache c.addr = 0) (frees : c.frees = 0)
  | cached (newest : Ledger.Newest l k c.addr) (live : w.inLive c.addr = 0)
      (cache : w.inCache c.addr = 1) (frees : c.frees = 0)
  | freed (unheld : Ledger.Newest l k c.addr → w.inLive c.addr = 0 ∧ w.inCache c.addr = 0)
      (frees : c.frees = 1)

/-- The accounts of a state: the count, as a `size_t`, and the keys of the cache; the fate of every
chunk; and, once the pool is destroyed, one `free` for every chunk. -/
structure PoolLife.Accounted (s : PoolLife) : Prop where
  bytes_eq : ∀ w, s.world = some w → w.pool.cacheBytes.toNat = w.pool.chunkBytes % 2 ^ 64
  keyed : ∀ w, s.world = some w → ∀ e ∈ w.pool.cache, e.1 = e.2.key
  fate : ∀ w, s.world = some w → ∀ k c, s.ledger[k]? = some c → ChunkFate w s.ledger k c
  freed : s.world = none → ∀ c ∈ s.ledger, c.frees = 1

/-- The count is the sum of the cached lengths, and the subtraction of a hit does not underflow. -/
structure PoolLife.CountExact (s : PoolLife) : Prop where
  bytes_eq : ∀ w, s.world = some w → w.pool.cacheBytes.toNat = w.pool.chunkBytes
  hit_le : ∀ w, s.world = some w → ∀ k pick it, w.pool.find k pick = some it →
    it.2.len.toUInt64 ≤ w.pool.cacheBytes

theorem PoolLife.Inv.accounted {s : PoolLife} (hs : s.Inv) : s.Accounted where
  bytes_eq := hs.bytes_eq
  keyed w hw := (hs.wellKeyed w hw).cache_key
  fate w hw k c hk := by
    have hsum := hs.balanced.frees_add_held hk
    rw [hw, Option.elim_some, PoolWorld.holders_eq] at hsum
    by_cases hnew : Ledger.Newest s.ledger k c.addr
    · rw [if_pos hnew] at hsum
      rcases Nat.eq_zero_or_pos c.frees with hfrees | hfrees
      · rcases Nat.eq_zero_or_pos (w.inLive c.addr) with hlive | hlive
        · exact .cached hnew hlive (by omega) hfrees
        · exact .owned hnew (by omega) (by omega) hfrees
      · exact .freed (fun _ ↦ by omega) (by omega)
    · rw [if_neg hnew] at hsum
      exact .freed (fun h ↦ absurd h hnew) (by omega)
  freed hnone c hc := by
    obtain ⟨k, hk⟩ := List.mem_iff_getElem?.1 hc
    have hsum := hs.balanced.frees_add_held hk
    rwa [hnone, Option.elim_none, ite_self] at hsum

theorem PoolLife.Inv.countExact {s : PoolLife} (hs : s.Inv)
    (hspace : ∀ w, s.world = some w → w.InSpace) : s.CountExact := by
  have hbytes : ∀ w, s.world = some w → w.pool.cacheBytes.toNat = w.pool.chunkBytes :=
    fun w hw ↦ (hs.bytes_eq w hw).trans (Nat.mod_eq_of_lt (hspace w hw).chunkBytes_lt)
  refine ⟨hbytes, fun w hw k pick it hfind ↦ ?_⟩
  have hsum := BufferPool.chunkBytes_erase (BufferPool.mem_of_find hfind).1
  have := hbytes w hw
  rw [UInt64.le_iff_toNat_le, UInt32.toNat_toUInt64]
  omega

/-- **Every chunk has one owner, and every chunk is freed once.** With an allocator that hands out
no address twice before it is freed, the accounts hold in every state of the life of a pool; and
when its chunks lie in the address space without overlap, the count of the cached bytes is exact. -/
theorem pool_accounted {limit : UInt64} {as : List LifeAction}
    (hdistinct : (PoolLife.machine limit).StepsMeet DistinctAddress as) :
    (PoolLife.machine limit).Throughout PoolLife.Accounted as ∧
      ((PoolLife.machine limit).StepsMeet RegionsApart as →
        (PoolLife.machine limit).Throughout PoolLife.CountExact as) := by
  have hinv : (PoolLife.machine limit).Throughout PoolLife.Inv as :=
    Machine.throughout_of_stepsMeet (.init limit) (fun _ _ _ h hd hs ↦ hs.step h hd) hdistinct
  refine ⟨hinv.mono fun s hs ↦ hs.accounted, fun hapart ↦ ?_⟩
  have hspace : (PoolLife.machine limit).Throughout
      (fun s ↦ ∀ w, s.world = some w → w.InSpace) as := by
    refine Machine.throughout_of_stepsMeet ?_ (fun _ _ _ h ha hs ↦ PoolLife.inSpace_step h ha hs)
      hapart
    rintro w ⟨⟩
    exact ⟨List.Pairwise.nil, by simp [PoolWorld.held, BufferPool.newInst]⟩
  exact (hinv.and hspace).mono fun s hs ↦ hs.1.countExact hs.2

/-- A life in which `aligned_alloc` hands out one address twice: a small chunk is freed on release,
a large one at the same address is cached, handed out again, and freed with the pool. -/
def addressReused : List LifeAction :=
  [.use (.malloc ⟨1000, 6, 0⟩ 0 4096), .use (.destroy 0), .use (.malloc ⟨2097152, 6, 0⟩ 0 4096),
    .use (.destroy 0), .use (.malloc ⟨2097152, 6, 0⟩ 0 8192), .use (.destroy 0), .teardown]

theorem pool_accounted_addressReused :
    (∃ s, (PoolLife.machine 1048576).run addressReused = some s ∧ s.world = none ∧
      s.ledger = [⟨4096, 1⟩, ⟨4096, 1⟩]) ∧
    (PoolLife.machine 1048576).Throughout PoolLife.Accounted addressReused ∧
      (PoolLife.machine 1048576).Throughout PoolLife.CountExact addressReused := by
  have hdistinct : (PoolLife.machine 1048576).StepsMeet DistinctAddress addressReused := by
    refine .cons rfl ?_ (.cons rfl ?_ (.cons rfl ?_ (.cons rfl ?_ (.cons rfl ?_ (.cons rfl ?_
      (.cons rfl ?_ trivial)))))) <;> rintro w r pick p ⟨⟩ ⟨⟩
    · exact fun _ ↦ by decide
    · exact fun _ ↦ by decide
    · exact fun hmiss ↦ absurd hmiss (by decide)
  refine ⟨⟨_, rfl, rfl, rfl⟩, (pool_accounted hdistinct).1, (pool_accounted hdistinct).2 ?_⟩
  refine .cons rfl ?_ (.cons rfl ?_ (.cons rfl ?_ (.cons rfl ?_ (.cons rfl ?_ (.cons rfl ?_
    (.cons rfl ?_ trivial)))))) <;> rintro w r pick p ⟨⟩ ⟨⟩
  · exact fun _ ↦ by decide
  · exact fun _ ↦ by decide
  · exact fun hmiss ↦ absurd hmiss (by decide)

end Nsio
