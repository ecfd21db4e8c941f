/-
The chunks of a shared memory segment.

A segment that two processes share is divided into chunks.  A bitmap in its
header says which of them are free.  Buffers of consecutive chunks are allocated
from it, grown, sent in part to the other process as messages, and freed chunk
by chunk by whoever has them: the sender what it did not send, the receiver the
rest.  All of this runs concurrently, one atomic operation on a word of the
bitmap at a time.

* `Inv`, `Inv.step` — every chunk is in exactly one place;
* `run_contract` — the contract of the allocator in every interleaving.
-/
import FreeUnit.Placement

namespace FreeUnit.ShmChunks

open List Function

/-! ### Buffers and messages -/

/-- The geometry of a segment: `MAX_FREE_IDX` words of 64 bits, and the size of
a chunk. -/
structure Params where
  words : ℕ
  chunkSize : ℕ
  chunkSize_pos : 0 < chunkSize

def Params.count (P : Params) : ℕ := 64 * P.words

/-- A buffer in shared memory: its chunks, the bytes used, and, once it was
sent (`is_port_mmap_sent`), the bytes sent, `mem.pos - mem.start`. -/
structure Buf where
  first : ℕ
  count : ℕ
  used : ℕ
  pos : ℕ
  sent : Bool
  deriving Repr, DecidableEq

/-- `nxt_port_mmap_msg_t`. -/
structure Msg where
  chunkId : ℕ
  size : ℕ
  deriving Repr, DecidableEq

def Buf.stop (b : Buf) : ℕ := b.first + b.count

/-- The first chunk that `nxt_port_mmap_buf_completion` frees. -/
def Buf.firstUnsent (P : Params) (b : Buf) : ℕ :=
  if b.sent ∧ 0 < b.pos then b.first + (b.pos - 1) / P.chunkSize + 1 else b.first

def Buf.chunks (P : Params) (b : Buf) : List ℕ :=
  List.range' (b.firstUnsent P) (b.stop - b.firstUnsent P)

/-- The chunks of an incoming buffer, `nxt_port_mmap_chunk_range_valid`. -/
def Msg.nchunks (P : Params) (m : Msg) : ℕ :=
  m.size / P.chunkSize + if m.size % P.chunkSize ≠ 0 then 1 else 0

def Msg.chunks (P : Params) (m : Msg) : List ℕ := List.range' m.chunkId (m.nchunks P)

/-! ### Operations -/

/-- A request of `nxt_port_mmap_get` or `nxt_unit_mmap_get`: `n` chunks, or
fewer if the application library asks for a minimum.  Only the router stops
before the sentinel bit after the last chunk. -/
structure Req where
  n : ℕ
  min : ℕ
  bounded : Bool
  pos : 1 ≤ n
  min_le : min ≤ n

/-- What `nxt_port_mmap_chk_set_chunk_busy` was called for: the chunk found in
word `i`, one more after the `k` chunks from `c` on, or one more to grow buffer
`id` by, with `left` still wanted. -/
inductive Task
  | first (r : Req) (i : ℕ)
  | more (r : Req) (c k : ℕ)
  | grow (id : ℕ) (b : Buf) (k left minSize : ℕ)

/-- What follows when the chunks in hand are free: the scan goes on after a
failed attempt, a buffer that could not grow is given back, or nothing. -/
inductive After
  | scan (r : Req) (c : ℕ)
  | giveBack (id : ℕ) (b : Buf)
  | done

/-- Where a thread is: about to load a word in `nxt_port_mmap_get_free_chunk`,
to load one for a chunk, to compare-and-set it, or to set chunks free. -/
inductive Pc
  | idle
  | scan (r : Req) (i off : ℕ)
  | load (c : ℕ) (t : Task)
  | cas (c : ℕ) (w : List Bool) (t : Task)
  | free (l : List ℕ) (a : After)

/-- The segment with its users.  `returned` records the answers of
allocations. -/
structure State (ι : Type) where
  free : ℕ → Bool
  threads : ι → Pc
  bufs : ℕ → Option Buf
  nextBuf : ℕ
  msgs : ℕ → Option Msg
  nextMsg : ℕ
  returned : List (Req × Option Buf)

def word (free : ℕ → Bool) (i : ℕ) : List Bool := (List.range 64).map fun j => free (64 * i + j)

/-- `__builtin_ffsll` of a word under a mask: the first bit set from `off` on. -/
def ffs (w : List Bool) (off : ℕ) : Option ℕ :=
  (List.range 64).find? fun j => decide (off ≤ j) && w.getD j false

variable {ι : Type} [DecidableEq ι]

namespace State

variable (s : State ι)

def setPc (i : ι) (pc : Pc) : State ι := { s with threads := Function.update s.threads i pc }

/-- An allocation answers with the `k` chunks from `c` on. -/
def allocated (i : ι) (r : Req) (c k : ℕ) : State ι :=
  let b : Buf := ⟨c, k, 0, 0, false⟩
  { s with
    threads := Function.update s.threads i .idle
    bufs := Function.update s.bufs s.nextBuf (some b)
    nextBuf := s.nextBuf + 1
    returned := s.returned ++ [(r, some b)] }

def putBuf (i : ι) (id : ℕ) (b : Buf) : State ι :=
  { s with
    threads := Function.update s.threads i .idle
    bufs := Function.update s.bufs id (some b) }

end State

variable (P : Params) (s : State ι) (i : ι)

/-- The end of `nxt_port_mmap_increase_buf`: with too few chunks they are freed,
the last one first. -/
def growEnd (id : ℕ) (b : Buf) (k left minSize : ℕ) : State ι :=
  if left ≠ 0 ∧ b.count * P.chunkSize - b.used + P.chunkSize * k < minSize then
    s.setPc i (.free (List.range' b.stop k).reverse (.giveBack id b))
  else s.putBuf i id { b with count := b.count + k }

/-- The loop of `nxt_port_mmap_increase_buf`. -/
def growNext (id : ℕ) (b : Buf) (k left minSize : ℕ) : State ι :=
  if 0 < left ∧ b.stop + k < P.count then
    s.setPc i (.load (b.stop + k) (.grow id b k left minSize))
  else growEnd P s i id b k left minSize

def failed : Task → State ι
  | .first r j => s.setPc i (.scan r (j + 1) 0)
  | .more r c k =>
    if r.min ≤ k then s.allocated i r c k
    else s.setPc i (.free (List.range' c k) (.scan r (c + k + 1)))
  | .grow id b k left minSize => growEnd P s i id b k left minSize

/-- The allocation has `k` chunks from `c` on. -/
def allocNext (r : Req) (c k : ℕ) : State ι :=
  if k < r.n then
    if r.bounded = true ∧ ¬ c + k < P.count then failed P s i (.more r c k)
    else s.setPc i (.load (c + k) (.more r c k))
  else s.allocated i r c k

/-- A chunk that was asked for is busy now, and the thread's. -/
def claimed (c : ℕ) : Task → State ι
  | .first r _ => allocNext P s i r c 1
  | .more r c k => allocNext P s i r c (k + 1)
  | .grow id b k left minSize => growNext P s i id b (k + 1) (left - 1) minSize

def stepThread : State ι :=
  match s.threads i with
  | .idle => s
  | .scan r j off =>
    if j < P.words then
      match ffs (word s.free j) off with
      | none => s.setPc i (.scan r (j + 1) 0)
      | some b => s.setPc i (.load (64 * j + b) (.first r j))
    else
      { s with
        threads := Function.update s.threads i .idle
        returned := s.returned ++ [(r, none)] }
  | .load c t => if s.free c then s.setPc i (.cas c (word s.free (c / 64)) t) else failed P s i t
  | .cas c w t =>
    if word s.free (c / 64) = w then
      claimed P { s with free := Function.update s.free c false } i c t
    else s.setPc i (.load c t)
  | .free (c :: l) a =>
    { s with
      free := Function.update s.free c true
      threads := Function.update s.threads i (.free l a) }
  | .free [] (.scan r c) => s.setPc i (.scan r (c / 64) (c % 64))
  | .free [] (.giveBack id b) => s.putBuf i id b
  | .free [] .done => s.setPc i .idle

/-- What can happen next: an operation starts on an idle thread, the owner of a
buffer writes into it or sends what was written, or a thread goes on. -/
inductive Event (ι : Type)
  | alloc (i : ι) (r : Req)
  | grow (i : ι) (id size minSize : ℕ)
  | complete (i : ι) (id : ℕ)
  | release (i : ι) (id : ℕ)
  | fill (id used : ℕ)
  | send (id : ℕ)
  | thread (i : ι)

/-- The segment after an event; one that is not possible changes nothing. -/
def step : Event ι → State ι
  | .alloc i r =>
    match s.threads i with
    | .idle => s.setPc i (.scan r 0 0)
    | _ => s
  | .grow i id size minSize =>
    match s.threads i, s.bufs id with
    | .idle, some b =>
      let freeSize := b.count * P.chunkSize - b.used
      if size ≤ freeSize then s
      else
        growNext P { s with bufs := Function.update s.bufs id none } i id b 0
          ((size - freeSize + P.chunkSize - 1) / P.chunkSize) minSize
    | _, _ => s
  | .complete i id =>
    match s.threads i, s.bufs id with
    | .idle, some b =>
      State.setPc { s with bufs := Function.update s.bufs id none } i (.free (b.chunks P) .done)
    | _, _ => s
  | .release i id =>
    match s.threads i, s.msgs id with
    | .idle, some m =>
      State.setPc { s with msgs := Function.update s.msgs id none } i (.free (m.chunks P) .done)
    | _, _ => s
  | .fill id used =>
    match s.bufs id with
    | some b =>
      if b.sent = false ∧ used ≤ b.count * P.chunkSize then
        { s with bufs := Function.update s.bufs id (some { b with used := used }) }
      else s
    | none => s
  | .send id =>
    match s.bufs id with
    | some b =>
      if b.sent = false ∧ 0 < b.used then
        { s with
          bufs := Function.update s.bufs id (some { b with pos := b.used, sent := true })
          msgs := Function.update s.msgs s.nextMsg (some ⟨b.first, b.used⟩)
          nextMsg := s.nextMsg + 1 }
      else s
    | none => s
  | .thread i => stepThread P s i

def run (es : List (Event ι)) : State ι := es.foldl (step P) s

/-- A new segment, whose first `n` chunks are the buffer it was made for. -/
def init (n : ℕ) : State ι where
  free := fun c => decide (n ≤ c) && decide (c < P.count)
  threads := fun _ => .idle
  bufs := fun id => if id = 0 then some ⟨0, n, 0, 0, false⟩ else none
  nextBuf := 1
  msgs := fun _ => none
  nextMsg := 0
  returned := []

/-! ### Who has which chunk -/

section Books

omit s i

/-- The chunks that a task has claimed so far, with those of a buffer it
grows. -/
def Task.held : Task → List ℕ
  | .first _ _ => []
  | .more _ c k => List.range' c k
  | .grow _ b k _ _ => b.chunks P ++ List.range' b.stop k

def After.held : After → List ℕ
  | .giveBack _ b => b.chunks P
  | _ => []

def Pc.held : Pc → List ℕ
  | .load _ t => t.held P
  | .cas _ _ t => t.held P
  | .free l a => l ++ a.held P
  | _ => []

def Pc.growing : Pc → Option ℕ
  | .load _ (.grow id _ _ _ _) => some id
  | .cas _ _ (.grow id _ _ _ _) => some id
  | .free _ (.giveBack id _) => some id
  | _ => none

def bufChunks : Option Buf → List ℕ
  | some b => b.chunks P
  | none => []

def msgChunks : Option Msg → List ℕ
  | some m => m.chunks P
  | none => []

inductive Place (ι : Type)
  | free
  | thread (i : ι)
  | buf (id : ℕ)
  | msg (id : ℕ)

/-- The state without the program counters: what each thread has in hand. -/
structure Books (ι : Type) where
  free : ℕ → Bool
  held : ι → List ℕ
  growing : ι → Option ℕ
  bufs : ℕ → Option Buf
  nextBuf : ℕ
  msgs : ℕ → Option Msg
  nextMsg : ℕ

def Books.chunks (B : Books ι) : Place ι → List ℕ
  | .free => (List.range P.count).filter fun c => B.free c
  | .thread i => B.held i
  | .buf id => bufChunks P (B.bufs id)
  | .msg id => msgChunks P (B.msgs id)

/-- A buffer inside the segment; what was sent of it is what was used. -/
structure Buf.Valid (b : Buf) : Prop where
  stop_le : b.stop ≤ P.count
  used_le : b.used ≤ b.count * P.chunkSize
  pos_eq : b.pos = if b.sent then b.used else 0
  sent_pos : b.sent = true → 0 < b.used

/-- **Every chunk is in one place**, free chunks are inside the segment, and a
buffer that grows is out of the table. -/
structure Owned (B : Books ι) : Prop where
  exact : Exact P.count (B.chunks P)
  bits : ∀ c, B.free c = true → c < P.count
  valid : ∀ id b, B.bufs id = some b → b.Valid P
  freshBuf : ∀ id, B.nextBuf ≤ id → B.bufs id = none
  freshMsg : ∀ id, B.nextMsg ≤ id → B.msgs id = none
  taken : ∀ i id, B.growing i = some id → B.bufs id = none ∧ id < B.nextBuf
  unique : ∀ i j id, B.growing i = some id → B.growing j = some id → i = j

end Books

def State.books : Books ι where
  free := s.free
  held := Pc.held P ∘ s.threads
  growing := Pc.growing ∘ s.threads
  bufs := s.bufs
  nextBuf := s.nextBuf
  msgs := s.msgs
  nextMsg := s.nextMsg

/-! ### The geometry of buffers -/

variable {c : ℕ}

section Geometry

variable {P} {b : Buf}

omit s i

theorem Buf.firstUnsent_le (h : b.Valid P) : b.firstUnsent P ≤ b.stop := by
  unfold Buf.firstUnsent Buf.stop
  split
  · rename_i hs
    have hpos := h.pos_eq
    rw [if_pos hs.1] at hpos
    have hlt : (b.pos - 1) / P.chunkSize < b.count := by
      rw [Nat.div_lt_iff_lt_mul P.chunkSize_pos]
      have := h.used_le
      have := hs.2
      omega
    omega
  · exact Nat.le_add_right _ _

theorem Buf.chunks_unsent (h : b.sent = false) : b.chunks P = range' b.first b.count := by
  simp [Buf.chunks, Buf.firstUnsent, Buf.stop, h]

/-- A longer buffer has the chunks after it, too. -/
theorem Buf.chunks_grown (h : b.Valid P) (k : ℕ) :
    Buf.chunks P { b with count := b.count + k } = b.chunks P ++ range' b.stop k := by
  have hle := Buf.firstUnsent_le h
  have hfirst : Buf.firstUnsent P { b with count := b.count + k } = b.firstUnsent P := rfl
  have hstop : Buf.stop { b with count := b.count + k } = b.stop + k := by
    simp [Buf.stop, Nat.add_assoc]
  have hlen : b.stop + k - b.firstUnsent P = (b.stop - b.firstUnsent P) + k := by omega
  have hat : b.stop = b.firstUnsent P + (b.stop - b.firstUnsent P) := by omega
  rw [Buf.chunks, hfirst, hstop, hlen, ← range'_append_1, ← hat]
  rfl

/-- `size` bytes are in as many chunks from the sender's and from the receiver's
point of view. -/
theorem nchunks_eq (P : Params) {size : ℕ} (h : 0 < size) :
    Msg.nchunks P ⟨c, size⟩ = (size - 1) / P.chunkSize + 1 := by
  have hC := P.chunkSize_pos
  show size / P.chunkSize + (if size % P.chunkSize ≠ 0 then 1 else 0) = _
  have hdiv := Nat.div_add_mod size P.chunkSize
  have hmod := Nat.mod_lt size hC
  generalize size / P.chunkSize = q at hdiv
  generalize size % P.chunkSize = m at hdiv hmod
  split
  · rename_i hm
    have : (size - 1) / P.chunkSize = q := by
      rw [Nat.div_eq_iff hC]
      constructor
      · rw [Nat.mul_comm q]
        omega
      · rw [Nat.mul_comm q]
        omega
    omega
  rename_i hm
  have hm0 : m = 0 := not_not.mp hm
  have hq : 0 < q := by
    rcases Nat.eq_zero_or_pos q with hq | hq
    · simp [hq, hm0] at hdiv
      omega
    · exact hq
  have : (size - 1) / P.chunkSize = q - 1 := by
    rw [Nat.div_eq_iff hC, Nat.mul_comm (q - 1), Nat.mul_sub_one]
    have hle : P.chunkSize ≤ P.chunkSize * q := Nat.le_mul_of_pos_right _ hq
    omega
  omega

/-- **What was sent and what was not are the two parts of a buffer.** -/
theorem Buf.chunks_sent (h : b.Valid P) (hs : b.sent = false) (hu : 0 < b.used) :
    b.chunks P = Msg.chunks P ⟨b.first, b.used⟩ ++
      Buf.chunks P { b with pos := b.used, sent := true } := by
  have hlt : (b.used - 1) / P.chunkSize + 1 ≤ b.count := by
    rw [Nat.succ_le_iff, Nat.div_lt_iff_lt_mul P.chunkSize_pos]
    have := h.used_le
    omega
  have hfirst : Buf.firstUnsent P { b with pos := b.used, sent := true } =
      b.first + ((b.used - 1) / P.chunkSize + 1) := by
    simp [Buf.firstUnsent, hu, Nat.add_assoc]
  have hstop : Buf.stop { b with pos := b.used, sent := true } = b.stop := rfl
  rw [Buf.chunks_unsent hs, Msg.chunks, nchunks_eq P hu, Buf.chunks, hfirst, hstop]
  generalize (b.used - 1) / P.chunkSize + 1 = k at hlt
  have hcount : b.count = k + (b.count - k) := by omega
  have hrest : b.stop - (b.first + k) = b.count - k := by
    unfold Buf.stop
    omega
  rw [hrest, range'_append_1, ← hcount]

end Geometry

/-! ### How chunks change hands -/

variable {free : ℕ → Bool} {n : ℕ}

/-- Clearing a bit takes its chunk out of the free ones. -/
theorem filter_update_false (hc : c < n) (h : free c = true) :
    ((range n).filter fun x => free x).Perm
      (c :: (range n).filter fun x => update free c false x) := by
  have hnd : ((range n).filter fun x => update free c false x).Nodup := nodup_range.filter _
  have hni : c ∉ (range n).filter fun x => update free c false x := by simp
  refine (perm_ext_iff_of_nodup (nodup_range.filter _) (nodup_cons.mpr ⟨hni, hnd⟩)).mpr fun x => ?_
  rw [mem_cons, mem_filter, mem_filter, mem_range]
  by_cases hx : x = c
  · subst hx
    simp [hc, h]
  · simp [hx]

theorem filter_update_true (hc : c < n) (h : free c = false) :
    ((range n).filter fun x => update free c true x).Perm
      (c :: (range n).filter fun x => free x) := by
  have hself : update (update free c true) c false = free := by
    rw [update_idem, ← h, update_eq_self]
  have hset : update free c true c = true := by simp
  have hp := filter_update_false hc hset
  rwa [hself] at hp

/-! Facts about every entry of a table, after one entry is set. -/

theorem bits_update (hc : c < n) (h : ∀ x, free x = true → x < n) (v : Bool) :
    ∀ x, update free c v x = true → x < n :=
  (forall_update_iff free (p := fun x v => v = true → x < n)).mpr ⟨fun _ => hc, fun x _ => h x⟩

theorem valid_update {P} {bufs : ℕ → Option Buf} (h : ∀ id b, bufs id = some b → b.Valid P)
    {o : Option Buf} (ho : ∀ b, o = some b → b.Valid P) (id : ℕ) :
    ∀ id' b, update bufs id o id' = some b → b.Valid P :=
  (forall_update_iff bufs (p := fun _ o => ∀ b, o = some b → b.Valid P)).mpr
    ⟨ho, fun id' _ => h id'⟩

theorem update_none {β : Type*} {f : ℕ → Option β} {x : ℕ} (h : f x = none) (id : ℕ) :
    update f id none x = none := by
  rw [update_apply, h, ite_self]

theorem unique_update {g : ι → Option ℕ} {o : Option ℕ} {i : ι}
    (h : ∀ j k id, g j = some id → g k = some id → j = k)
    (ho : ∀ id, o = some id → ∀ j, g j ≠ some id) :
    ∀ j k id, update g i o j = some id → update g i o k = some id → j = k := by
  intro j k id hj hk
  by_cases hji : j = i <;> by_cases hki : k = i
  · rw [hji, hki]
  · rw [hji, update_self] at hj
    rw [update_of_ne hki] at hk
    exact absurd hk (ho id hj k)
  · rw [hki, update_self] at hk
    rw [update_of_ne hji] at hj
    exact absurd hj (ho id hk j)
  rw [update_of_ne hji] at hj
  rw [update_of_ne hki] at hk
  exact h j k id hj hk

namespace Owned

variable {P} {B : Books ι} {i}

omit s

omit [DecidableEq ι] in
theorem busy (h : Owned P B) (hc : c ∈ B.held i) : B.free c = false := by
  by_contra hf
  have hlt := h.exact.lt (.thread i) c hc
  have hfree : c ∈ B.chunks P .free := by
    simpa [Books.chunks, hlt] using hf
  have hheld : c ∈ B.chunks P (.thread i) := hc
  cases h.exact.unique hfree hheld

/-- **A compare-and-set that succeeds** takes the chunk. -/
theorem claim (h : Owned P B) (hf : B.free c = true) :
    Owned P { B with
      free := update B.free c false
      held := update B.held i (B.held i ++ [c]) } := by
  have hc := h.bits c hf
  refine ⟨?_, bits_update hc h.bits _, h.valid, h.freshBuf, h.freshMsg, h.taken, h.unique⟩
  refine h.exact.move (a := .free) (b := .thread i) (by simp) (filter_update_false hc hf) ?_ ?_
  · show (update B.held i (B.held i ++ [c]) i).Perm _
    rw [update_self]
    exact perm_append_singleton c _
  · rintro (_ | j | id | id) h1 h2
    · exact absurd rfl h1
    · exact update_of_ne (fun hj => h2 (congrArg Place.thread hj)) ..
    · rfl
    · rfl

/-- **Setting a chunk free** gives it back; it was in hand, and busy. -/
theorem unclaim (h : Owned P B) {l : List ℕ} (hl : B.held i = c :: l) :
    Owned P { B with
      free := update B.free c true
      held := update B.held i l } := by
  have hmem : c ∈ B.held i := by
    rw [hl]
    exact mem_cons_self
  have hc : c < P.count := h.exact.lt (.thread i) c hmem
  refine ⟨?_, bits_update hc h.bits _, h.valid, h.freshBuf, h.freshMsg, h.taken, h.unique⟩
  refine h.exact.move (a := .thread i) (b := .free) (i := c) (by simp) ?_
    (filter_update_true hc (h.busy hmem)) ?_
  · show (B.held i).Perm (c :: update B.held i l i)
    rw [update_self, hl]
  · rintro (_ | j | id | id) h1 h2
    · exact absurd rfl h2
    · exact update_of_ne (fun hj => h1 (congrArg Place.thread hj)) ..
    · rfl
    · rfl

variable {id : ℕ}

/-- A thread puts a buffer with the chunks in its hands into the table. -/
theorem putBuf (h : Owned P B) {b : Buf} (hb : b.chunks P = B.held i) (hv : b.Valid P)
    (hid : B.growing i = some id ∨ B.growing i = none ∧ id = B.nextBuf) :
    Owned P { B with
      held := update B.held i []
      growing := update B.growing i none
      bufs := update B.bufs id (some b)
      nextBuf := max B.nextBuf (id + 1) } := by
  have hnone : B.bufs id = none := by
    rcases hid with hg | ⟨-, rfl⟩
    · exact (h.taken i id hg).1
    · exact h.freshBuf _ (le_refl _)
  refine ⟨?_, h.bits, valid_update h.valid ?_ id, ?_, h.freshMsg, ?_,
    unique_update h.unique fun _ ho => by cases ho⟩
  · refine h.exact.moveAll (a := .thread i) (b := .buf id) (l := B.held i) (by simp) ?_ ?_ ?_
    · show (B.held i).Perm (B.held i ++ update B.held i [] i)
      rw [update_self, append_nil]
    · show (bufChunks P (update B.bufs id (some b) id)).Perm
        (B.held i ++ bufChunks P (B.bufs id))
      rw [update_self, hnone, ← hb]
      simp [bufChunks]
    · rintro (_ | j | id' | id') h1 h2
      · rfl
      · exact update_of_ne (fun hj => h1 (congrArg Place.thread hj)) ..
      · show bufChunks P (update B.bufs id (some b) id') = bufChunks P (B.bufs id')
        rw [update_of_ne fun he => h2 (congrArg Place.buf he)]
      · rfl
  · rintro _ ⟨⟩
    exact hv
  · intro id' hle
    have hle' : max B.nextBuf (id + 1) ≤ id' := hle
    show update B.bufs id (some b) id' = none
    rw [update_of_ne (by omega)]
    exact h.freshBuf id' (by omega)
  · intro j id' hg
    dsimp only at hg ⊢
    by_cases hj : j = i
    · subst hj
      rw [update_self] at hg
      cases hg
    rw [update_of_ne hj] at hg
    obtain ⟨hn, hlt⟩ := h.taken j id' hg
    have hne : id' ≠ id := by
      rintro rfl
      rcases hid with hg' | ⟨-, rfl⟩
      · exact hj (h.unique j i id' hg hg')
      · exact absurd hlt (lt_irrefl _)
    refine ⟨?_, lt_of_lt_of_le hlt (Nat.le_max_left _ _)⟩
    show update B.bufs id (some b) id' = none
    rw [update_of_ne hne]
    exact hn

/-- A thread takes a buffer out of the table, to grow it or to free it. -/
theorem takeBuf (h : Owned P B) {b : Buf} (hb : B.bufs id = some b) (hheld : B.held i = [])
    (hgrow : B.growing i = none) {g : Option ℕ} (hg : g = none ∨ g = some id) :
    Owned P { B with
      held := update B.held i (b.chunks P)
      growing := update B.growing i g
      bufs := update B.bufs id none } := by
  have hlt : id < B.nextBuf := by
    by_contra hc
    rw [h.freshBuf id (Nat.le_of_not_lt hc)] at hb
    cases hb
  refine ⟨?_, h.bits, valid_update h.valid (fun _ ho => by cases ho) id,
    fun id' hle => update_none (h.freshBuf id' hle) id, h.freshMsg, ?_, unique_update h.unique ?_⟩
  · refine h.exact.moveAll (a := .buf id) (b := .thread i) (l := b.chunks P) (by simp) ?_ ?_ ?_
    · show (bufChunks P (B.bufs id)).Perm
        (b.chunks P ++ bufChunks P (update B.bufs id none id))
      rw [update_self, hb]
      simp [bufChunks]
    · show (update B.held i (b.chunks P) i).Perm (b.chunks P ++ B.held i)
      rw [update_self, hheld, append_nil]
    · rintro (_ | j | id' | id') h1 h2
      · rfl
      · exact update_of_ne (fun hj => h2 (congrArg Place.thread hj)) ..
      · show bufChunks P (update B.bufs id none id') = bufChunks P (B.bufs id')
        rw [update_of_ne fun he => h1 (congrArg Place.buf he)]
      · rfl
  · intro j id' hj
    dsimp only at hj ⊢
    by_cases hji : j = i
    · subst hji
      rw [update_self] at hj
      rcases hg with rfl | rfl
      · cases hj
      · cases hj
        exact ⟨update_self .., hlt⟩
    · rw [update_of_ne hji] at hj
      obtain ⟨hn, hlt'⟩ := h.taken j id' hj
      exact ⟨update_none hn id, hlt'⟩
  -- The buffer was in the table, so no other thread grows it.
  intro id' ho j hj
  rcases hg with rfl | rfl
  · cases ho
  · cases ho
    rw [(h.taken j id hj).1] at hb
    cases hb

theorem takeMsg (h : Owned P B) {m : Msg} (hm : B.msgs id = some m) (hheld : B.held i = []) :
    Owned P { B with
      held := update B.held i (m.chunks P)
      msgs := update B.msgs id none } := by
  refine ⟨?_, h.bits, h.valid, h.freshBuf, fun id' hle => update_none (h.freshMsg id' hle) id,
    h.taken, h.unique⟩
  refine h.exact.moveAll (a := .msg id) (b := .thread i) (l := m.chunks P) (by simp) ?_ ?_ ?_
  · show (msgChunks P (B.msgs id)).Perm
      (m.chunks P ++ msgChunks P (update B.msgs id none id))
    rw [update_self, hm]
    simp [msgChunks]
  · show (update B.held i (m.chunks P) i).Perm (m.chunks P ++ B.held i)
    rw [update_self, hheld, append_nil]
  · rintro (_ | j | id' | id') h1 h2
    · rfl
    · exact update_of_ne (fun hj => h2 (congrArg Place.thread hj)) ..
    · rfl
    · show msgChunks P (update B.msgs id none id') = msgChunks P (B.msgs id')
      rw [update_of_ne fun he => h1 (congrArg Place.msg he)]

variable {b' : Buf}

omit [DecidableEq ι] in
/-- The table with a buffer written into or sent. -/
theorem bufs_update (h : Owned P B) {b : Buf} (hb : B.bufs id = some b) (hv : b'.Valid P) :
    (∀ id' x, update B.bufs id (some b') id' = some x → x.Valid P) ∧
    (∀ id', B.nextBuf ≤ id' → update B.bufs id (some b') id' = none) ∧
    ∀ i id', B.growing i = some id' → update B.bufs id (some b') id' = none ∧ id' < B.nextBuf := by
  have hne : ∀ id', B.bufs id' = none → id' ≠ id := by
    rintro id' hn rfl
    rw [hn] at hb
    cases hb
  refine ⟨valid_update h.valid ?_ id, fun id' hle => ?_, fun i id' hg => ?_⟩
  · rintro _ ⟨⟩
    exact hv
  · have hn := h.freshBuf id' hle
    rw [update_of_ne (hne id' hn)]
    exact hn
  · obtain ⟨hn, hlt⟩ := h.taken i id' hg
    rw [update_of_ne (hne id' hn)]
    exact ⟨hn, hlt⟩

omit [DecidableEq ι] in
theorem fill (h : Owned P B) {b : Buf} (hb : B.bufs id = some b) (hc : b'.chunks P = b.chunks P)
    (hv : b'.Valid P) : Owned P { B with bufs := update B.bufs id (some b') } := by
  obtain ⟨h1, h2, h3⟩ := h.bufs_update hb hv
  refine ⟨h.exact.congr ?_, h.bits, h1, h2, h.freshMsg, h3, h.unique⟩
  rintro (_ | j | id' | id')
  · rfl
  · rfl
  · show bufChunks P (update B.bufs id (some b') id') = bufChunks P (B.bufs id')
    by_cases he : id' = id
    · subst he
      rw [update_self, hb]
      exact hc
    · rw [update_of_ne he]
  · rfl

omit [DecidableEq ι] in
/-- **A buffer is sent**: its first chunks belong to the message now. -/
theorem send (h : Owned P B) {b : Buf} {m : Msg} (hb : B.bufs id = some b)
    (hc : b.chunks P = m.chunks P ++ b'.chunks P) (hv : b'.Valid P) :
    Owned P { B with
      bufs := update B.bufs id (some b')
      msgs := update B.msgs B.nextMsg (some m)
      nextMsg := B.nextMsg + 1 } := by
  obtain ⟨h1, h2, h3⟩ := h.bufs_update hb hv
  have hnone := h.freshMsg B.nextMsg (le_refl _)
  refine ⟨?_, h.bits, h1, h2, ?_, h3, h.unique⟩
  · refine h.exact.moveAll (a := .buf id) (b := .msg B.nextMsg) (l := m.chunks P) (by simp) ?_ ?_ ?_
    · show (bufChunks P (B.bufs id)).Perm
        (m.chunks P ++ bufChunks P (update B.bufs id (some b') id))
      rw [update_self, hb]
      exact .of_eq hc
    · show (msgChunks P (update B.msgs B.nextMsg (some m) B.nextMsg)).Perm
        (m.chunks P ++ msgChunks P (B.msgs B.nextMsg))
      rw [update_self, hnone]
      simp [msgChunks]
    · rintro (_ | j | id' | id') h4 h5
      · rfl
      · rfl
      · show bufChunks P (update B.bufs id (some b') id') = bufChunks P (B.bufs id')
        rw [update_of_ne fun he => h4 (congrArg Place.buf he)]
      · show msgChunks P (update B.msgs B.nextMsg (some m) id') = msgChunks P (B.msgs id')
        rw [update_of_ne fun he => h5 (congrArg Place.msg he)]
  · intro id' hle
    have hle' : B.nextMsg + 1 ≤ id' := hle
    show update B.msgs B.nextMsg (some m) id' = none
    rw [update_of_ne (by omega)]
    exact h.freshMsg id' (by omega)

end Owned

/-! ### Program counters -/

section Counters

variable {P} {s} {i}

def Task.Wf (P : Params) (c : ℕ) : Task → Prop
  | .first _ _ => True
  | .more r c₀ k => c = c₀ + k ∧ 1 ≤ k ∧ k < r.n
  | .grow _ b k _ _ => c = b.stop + k ∧ b.Valid P

/-- The locals of a thread fit together: a compare-and-set is for a bit that was
set in the word loaded. -/
def Pc.Wf (P : Params) : Pc → Prop
  | .load c t => t.Wf P c
  | .cas c w t => t.Wf P c ∧ w.getD (c % 64) false = true
  | .free _ (.giveBack _ b) => b.Valid P
  | _ => True

/-- An allocation answers with as many chunks as were asked for, or at least
the minimum, inside the segment. -/
def Answered (P : Params) (r : Req) (b : Buf) : Prop :=
  r.min ≤ b.count ∧ b.count ≤ r.n ∧ 1 ≤ b.count ∧ b.stop ≤ P.count

/-- **The invariant of a segment.** -/
structure Inv (P : Params) (s : State ι) : Prop where
  owned : Owned P (s.books P)
  wf : ∀ i, (s.threads i).Wf P
  returned : ∀ r b, (r, some b) ∈ s.returned → Answered P r b

/-- Thread `i` has the chunks `l` in hand, whatever its counter says, and grows
the buffer `g`. -/
structure Mid (P : Params) (s : State ι) (i : ι) (l : List ℕ) (g : Option ℕ) : Prop where
  owned : Owned P { s.books P with
    held := Function.update (Pc.held P ∘ s.threads) i l
    growing := Function.update (Pc.growing ∘ s.threads) i g }
  wf : ∀ j, j ≠ i → (s.threads j).Wf P
  returned : ∀ r b, (r, some b) ∈ s.returned → Answered P r b

theorem Inv.mid (h : Inv P s) (i : ι) : Mid P s i ((s.threads i).held P) (s.threads i).growing := by
  refine ⟨?_, fun j _ => h.wf j, h.returned⟩
  have h1 : update (Pc.held P ∘ s.threads) i ((s.threads i).held P) =
      Pc.held P ∘ s.threads := update_eq_self i (Pc.held P ∘ s.threads)
  have h2 : update (Pc.growing ∘ s.threads) i (s.threads i).growing =
      Pc.growing ∘ s.threads := update_eq_self i (Pc.growing ∘ s.threads)
  rw [h1, h2]
  exact h.owned

/-- The counters of all threads after one changed. -/
theorem wf_update {pc : Pc} (h : ∀ j, j ≠ i → (s.threads j).Wf P) (hpc : pc.Wf P) :
    ∀ j, (update s.threads i pc j).Wf P :=
  (forall_update_iff s.threads (p := fun _ pc => pc.Wf P)).mpr ⟨hpc, h⟩

theorem books_setPc (s : State ι) (i : ι) (pc : Pc) : (s.setPc i pc).books P = { s.books P with
      held := update (Pc.held P ∘ s.threads) i (pc.held P)
      growing := update (Pc.growing ∘ s.threads) i pc.growing } := by
  simp only [State.books, State.setPc, comp_update]

namespace Mid

variable {l : List ℕ} {g : Option ℕ}

theorem setPc {pc : Pc} (h : Mid P s i (pc.held P) pc.growing) (hpc : pc.Wf P) :
    Inv P (s.setPc i pc) := by
  refine ⟨?_, wf_update h.wf hpc, h.returned⟩
  rw [books_setPc]
  exact h.owned

variable {k : ℕ}

theorem allocated {r : Req} (h : Mid P s i (range' c k) none) (hk : 1 ≤ k) (hmin : r.min ≤ k)
    (hn : k ≤ r.n) : Inv P (s.allocated i r c k) := by
  have hlast : c + (k - 1) < P.count := by
    refine h.owned.exact.lt (.thread i) _ ?_
    show _ ∈ update (Pc.held P ∘ s.threads) i (range' c k) i
    rw [update_self, mem_range'_1]
    omega
  have hstop : c + k ≤ P.count := by omega
  have hv : Buf.Valid P ⟨c, k, 0, 0, false⟩ := ⟨hstop, Nat.zero_le _, rfl, by simp⟩
  refine ⟨?_, wf_update h.wf trivial, ?_⟩
  · have ho := h.owned.putBuf (i := i) (b := ⟨c, k, 0, 0, false⟩)
      (by simp [Buf.chunks_unsent]) hv (.inr ⟨by simp, rfl⟩)
    simpa [State.books, State.allocated, comp_update, Pc.held, Pc.growing] using ho
  · intro r' b' hmem
    rcases mem_append.mp hmem with hmem | hmem
    · exact h.returned r' b' hmem
    · obtain ⟨rfl, hb⟩ := Prod.mk.inj (mem_singleton.mp hmem)
      cases hb
      exact ⟨hmin, hn, hk, hstop⟩

theorem putBuf {id : ℕ} {b : Buf} (h : Mid P s i (b.chunks P) (some id)) (hv : b.Valid P) :
    Inv P (s.putBuf i id b) := by
  have hlt : id < s.nextBuf := (h.owned.taken i id (by simp)).2
  have hmax : max s.nextBuf (id + 1) = s.nextBuf := by omega
  refine ⟨?_, wf_update h.wf trivial, h.returned⟩
  have hgrow : update (Pc.growing ∘ s.threads) i (some id) i = some id := by simp
  have ho := h.owned.putBuf (i := i) (b := b) (by simp) hv (.inl hgrow)
  simpa [State.books, State.putBuf, comp_update, Pc.held, Pc.growing, hmax] using ho

/-- The chunks in hand may be listed in any order. -/
theorem perm {l' : List ℕ} (h : Mid P s i l g) (hl : l'.Perm l) : Mid P s i l' g := by
  refine ⟨?_, h.wf, h.returned⟩
  have ho := h.owned
  refine ⟨?_, ho.bits, ho.valid, ho.freshBuf, ho.freshMsg, ho.taken, ho.unique⟩
  have hp : ∀ p, (Books.chunks P { s.books P with
        held := update (Pc.held P ∘ s.threads) i l'
        growing := update (Pc.growing ∘ s.threads) i g } p).Perm
      (Books.chunks P { s.books P with
        held := update (Pc.held P ∘ s.threads) i l
        growing := update (Pc.growing ∘ s.threads) i g } p) := by
    rintro (_ | j | id | id)
    · exact .refl _
    · show (update (Pc.held P ∘ s.threads) i l' j).Perm
        (update (Pc.held P ∘ s.threads) i l j)
      by_cases hj : j = i
      · subst hj
        rwa [update_self, update_self]
      · rw [update_of_ne hj, update_of_ne hj]
    · exact .refl _
    · exact .refl _
  exact ho.exact.perm hp

/-- The end of growing a buffer, with too few chunks or enough. -/
theorem growEnd {id left minSize : ℕ} {b : Buf}
    (h : Mid P s i (b.chunks P ++ range' b.stop k) (some id)) (hv : b.Valid P) :
    Inv P (growEnd P s i id b k left minSize) := by
  unfold ShmChunks.growEnd
  split
  · -- the chunks claimed are in hand, in the order in which they are freed, and
    -- so is the buffer
    refine Mid.setPc (h.perm ?_) hv
    show ((range' b.stop k).reverse ++ b.chunks P).Perm _
    exact ((reverse_perm _).append_right _).trans perm_append_comm
  refine Mid.putBuf (by rwa [Buf.chunks_grown hv]) ?_
  have hcount : b.stop + k ≤ P.count := by
    rcases Nat.eq_zero_or_pos k with rfl | hk
    · exact hv.stop_le
    have hlt : b.stop + (k - 1) < P.count := by
      refine h.owned.exact.lt (.thread i) _ ?_
      show _ ∈ update (Pc.held P ∘ s.threads) i _ i
      rw [update_self, mem_append, mem_range'_1]
      omega
    omega
  refine ⟨?_, ?_, hv.pos_eq, hv.sent_pos⟩
  · show b.first + (b.count + k) ≤ P.count
    unfold Buf.stop at hcount
    omega
  · exact hv.used_le.trans (Nat.mul_le_mul_right _ (Nat.le_add_right _ _))

theorem growNext {id left minSize : ℕ} {b : Buf}
    (h : Mid P s i (b.chunks P ++ range' b.stop k) (some id)) (hv : b.Valid P) :
    Inv P (growNext P s i id b k left minSize) := by
  unfold ShmChunks.growNext
  split
  · exact Mid.setPc h ⟨rfl, hv⟩
  · exact Mid.growEnd h hv

/-- **A chunk that was asked for is busy**: what was claimed is enough, or it is
freed. -/
theorem failed {t : Task} (h : Mid P s i (t.held P) (Pc.load c t).growing) (ht : t.Wf P c) :
    Inv P (failed P s i t) := by
  cases t with
  | first r j => exact Mid.setPc h trivial
  | more r c₀ k =>
    obtain ⟨-, hk, hn⟩ := ht
    show Inv P (if r.min ≤ k then s.allocated i r c₀ k
      else s.setPc i (.free (range' c₀ k) (.scan r (c₀ + k + 1))))
    split
    · rename_i hmin
      exact Mid.allocated h hk hmin hn.le
    refine Mid.setPc (h.perm ?_) trivial
    show (range' c₀ k ++ []).Perm (range' c₀ k)
    rw [append_nil]
  | grow id b k left minSize => exact Mid.growEnd h ht.2

theorem allocNext {r : Req} (h : Mid P s i (range' c k) none) (hk : 1 ≤ k) (hn : k ≤ r.n) :
    Inv P (allocNext P s i r c k) := by
  unfold ShmChunks.allocNext
  split
  · rename_i hlt
    split
    · exact Mid.failed (c := c + k) h ⟨rfl, hk, hlt⟩
    · exact Mid.setPc h ⟨rfl, hk, hlt⟩
  · exact Mid.allocated h hk (by have := r.min_le; omega) hn

/-- **A chunk that was asked for is claimed.** -/
theorem claimed {t : Task} (h : Mid P s i (t.held P ++ [c]) (Pc.load c t).growing) (ht : t.Wf P c) :
    Inv P (claimed P s i c t) := by
  cases t with
  | first r j => exact Mid.allocNext h (le_refl 1) r.pos
  | more r c₀ k =>
    obtain ⟨rfl, -, hn⟩ := ht
    refine Mid.allocNext ?_ (Nat.le_add_left 1 k) hn
    have hcons : range' c₀ (k + 1) = range' c₀ k ++ [c₀ + k] := by
      rw [range'_concat, Nat.one_mul]
    rw [hcons]
    exact h
  | grow id b k left minSize => ?_
  obtain ⟨rfl, hv⟩ := ht
  refine Mid.growNext ?_ hv
  have hcons : range' b.stop (k + 1) = range' b.stop k ++ [b.stop + k] := by
    rw [range'_concat, Nat.one_mul]
  rw [hcons, ← append_assoc]
  exact h

end Mid

end Counters

/-! ### Runs -/

section Runs

variable {P} {s}

theorem word_getD (free : ℕ → Bool) (c : ℕ) : (word free (c / 64)).getD (c % 64) false = free c := by
  have hlt : c % 64 < 64 := Nat.mod_lt c (by decide)
  have hc : 64 * (c / 64) + c % 64 = c := Nat.div_add_mod c 64
  simp [word, getD, hlt, hc]

theorem Inv.stepThread (h : Inv P s) (i : ι) : Inv P (stepThread P s i) := by
  have hm := h.mid i
  have hwf := h.wf i
  unfold ShmChunks.stepThread
  generalize hpc : s.threads i = pc at hm hwf
  cases pc with
  | idle => exact h
  | scan r j off =>
    dsimp only
    split
    · split
      · exact Mid.setPc hm trivial
      · exact Mid.setPc hm trivial
    have hi : Inv P (s.setPc i .idle) := Mid.setPc hm trivial
    refine ⟨hi.owned, hi.wf, fun r' b' hmem => ?_⟩
    rcases mem_append.mp hmem with hmem | hmem
    · exact h.returned r' b' hmem
    · exact absurd (congrArg Prod.snd (mem_singleton.mp hmem)) (by simp)
  | load c t =>
    dsimp only
    split
    · rename_i hf
      have hbit : (word s.free (c / 64)).getD (c % 64) false = true := by rwa [word_getD]
      cases t <;> exact Mid.setPc hm ⟨hwf, hbit⟩
    · exact Mid.failed hm hwf
  | cas c w t =>
    obtain ⟨ht, hbit⟩ := hwf
    have hm : Mid P s i (t.held P) (Pc.load c t).growing := by
      cases t <;> exact hm
    dsimp only
    split
    · -- the word has not changed since it was loaded, so the bit is still set
      rename_i hw
      have hf : s.free c = true := by rwa [← hw, word_getD] at hbit
      refine Mid.claimed ⟨?_, hm.wf, hm.returned⟩ ht
      have ho := hm.owned.claim (i := i) hf
      simpa [State.books] using ho
    · exact Mid.setPc hm ht
  | free l a => ?_
  cases l with
  | cons c l =>
    have ho := hm.owned.unclaim (i := i) (c := c) (l := l ++ a.held P) (by simp [Pc.held])
    refine ⟨?_, wf_update hm.wf ?_, hm.returned⟩
    · have hg : (Pc.free (c :: l) a).growing = (Pc.free l a).growing := by cases a <;> rfl
      rw [hg] at ho
      simpa [State.books, comp_update, Pc.held] using ho
    · cases a with
      | giveBack id b => exact hwf
      | scan | done => trivial
  | nil => ?_
  cases a with
  | scan r c => exact Mid.setPc hm trivial
  | giveBack id b => exact Mid.putBuf hm hwf
  | done => exact Mid.setPc hm trivial

theorem Inv.step (h : Inv P s) (e : Event ι) : Inv P (step P s e) := by
  cases e with
  | alloc i r =>
    unfold ShmChunks.step
    dsimp only
    split
    · rename_i hpc
      have hm := h.mid i
      rw [hpc] at hm
      exact Mid.setPc hm trivial
    · exact h
  | grow i id size minSize =>
    unfold ShmChunks.step
    dsimp only
    split
    · rename_i b hpc hb
      split
      · exact h
      refine Mid.growNext ⟨?_, fun j _ => h.wf j, h.returned⟩ (h.owned.valid id b hb)
      have ho := h.owned.takeBuf (i := i) hb (by simp [State.books, hpc, Pc.held])
        (by simp [State.books, hpc, Pc.growing]) (.inr rfl)
      simpa [State.books] using ho
    · exact h
  | complete i id =>
    unfold ShmChunks.step
    dsimp only
    split
    · rename_i b hpc hb
      refine Mid.setPc ⟨?_, fun j _ => h.wf j, h.returned⟩ trivial
      have ho := h.owned.takeBuf (i := i) hb (by simp [State.books, hpc, Pc.held])
        (by simp [State.books, hpc, Pc.growing]) (.inl rfl)
      simpa [State.books, Pc.held, After.held, Pc.growing] using ho
    · exact h
  | release i id =>
    unfold ShmChunks.step
    dsimp only
    split
    · rename_i m hpc hb
      refine Mid.setPc ⟨?_, fun j _ => h.wf j, h.returned⟩ trivial
      have ho := h.owned.takeMsg (i := i) hb (by simp [State.books, hpc, Pc.held])
      have hg : update (Pc.growing ∘ s.threads) i none = Pc.growing ∘ s.threads := by
        rw [update_eq_self_iff]
        simp [hpc, Pc.growing]
      simpa [State.books, Pc.held, After.held, Pc.growing, hg] using ho
    · exact h
  | fill id used =>
    unfold ShmChunks.step
    dsimp only
    split
    · rename_i b hb
      split
      · rename_i hc
        have hv := h.owned.valid id b hb
        have hpos := hv.pos_eq
        refine ⟨h.owned.fill hb ?_ ⟨hv.stop_le, hc.2, ?_, ?_⟩, h.wf, h.returned⟩
        · rw [Buf.chunks_unsent hc.1]
          exact Buf.chunks_unsent hc.1
        · simpa [hc.1] using hpos
        · simp [hc.1]
      · exact h
    · exact h
  | send id =>
    unfold ShmChunks.step
    dsimp only
    split
    · rename_i b hb
      split
      · rename_i hc
        have hv := h.owned.valid id b hb
        exact ⟨h.owned.send hb (Buf.chunks_sent hv hc.1 hc.2)
          ⟨hv.stop_le, hv.used_le, rfl, fun _ => hc.2⟩, h.wf, h.returned⟩
      · exact h
    · exact h
  | thread i => exact h.stepThread i

/-- **Every run keeps the invariant.** -/
theorem Inv.run (h : Inv P s) (es : List (Event ι)) : Inv P (run P s es) := by
  induction es generalizing s with
  | nil => exact h
  | cons e es ih => exact ih (h.step e)

omit [DecidableEq ι] in
/-- A new segment is divided between its first buffer and the free chunks. -/
theorem exact_init (hle : n ≤ P.count) :
    Exact P.count (((init P n : State ι).books P).chunks P) := by
  have hbuf : Buf.chunks P ⟨0, n, 0, 0, false⟩ = range n := by
    rw [Buf.chunks_unsent rfl, range_eq_range']
  have hmem : ∀ c (p : Place ι), c ∈ ((init P n : State ι).books P).chunks P p ↔
      (p = .free ∧ n ≤ c ∧ c < P.count) ∨ (p = .buf 0 ∧ c < n) := by
    rintro c (_ | j | id | id)
    · simp [Books.chunks, State.books, init]
    · simp [Books.chunks, State.books, init, Pc.held]
    · by_cases hid : id = 0
      · simp [Books.chunks, State.books, init, hid, bufChunks, hbuf]
      · simp [Books.chunks, State.books, init, hid, bufChunks]
    · simp [Books.chunks, State.books, init, msgChunks]
  refine ⟨?_, fun p c hc => ?_, fun c hc => ?_, fun {c p q} hp hq => ?_⟩
  · rintro (_ | j | id | id)
    · exact nodup_range.filter _
    · exact nodup_nil
    · by_cases hid : id = 0
      · simpa [Books.chunks, State.books, init, hid, bufChunks, hbuf] using nodup_range
      · simp [Books.chunks, State.books, init, hid, bufChunks]
    · exact nodup_nil
  · rcases (hmem c p).mp hc with ⟨-, -, hc⟩ | ⟨-, hc⟩
    · exact hc
    · exact hc.trans_le hle
  · by_cases hcn : c < n
    · exact ⟨_, (hmem c _).mpr (.inr ⟨rfl, hcn⟩)⟩
    · exact ⟨_, (hmem c _).mpr (.inl ⟨rfl, not_lt.mp hcn, hc⟩)⟩
  · rcases (hmem c p).mp hp with ⟨rfl, hp, -⟩ | ⟨rfl, hp⟩ <;>
      rcases (hmem c q).mp hq with ⟨rfl, hq, -⟩ | ⟨rfl, hq⟩
    · rfl
    · omega
    · omega
    · rfl

omit [DecidableEq ι] in
theorem inv_init (hle : n ≤ P.count) : Inv P (init P n : State ι) := by
  refine ⟨⟨exact_init hle, ?_, ?_, ?_, ?_, ?_, ?_⟩, ?_, ?_⟩
  · intro c hc
    have hc' : (decide (n ≤ c) && decide (c < P.count)) = true := hc
    simp only [Bool.and_eq_true, decide_eq_true_eq] at hc'
    exact hc'.2
  · intro id b hb
    simp only [State.books, init] at hb
    split at hb
    · cases hb
      exact ⟨by simpa [Buf.stop] using hle, Nat.zero_le _, rfl, by simp⟩
    · cases hb
  · intro id hid
    have hid' : 1 ≤ id := hid
    exact if_neg (by omega)
  · intro id _
    rfl
  · intro i id hg
    cases hg
  · intro i j id hg
    cases hg
  · intro i
    trivial
  · intro r b hmem
    cases hmem

omit [DecidableEq ι] in
/-- **The map is determined by who has what**: with the same buffers, messages
and chunks in hand, the same chunks are free. -/
theorem Inv.free_eq {s s' : State ι} (h : Inv P s) (h' : Inv P s') (hbufs : s'.bufs = s.bufs)
    (hmsgs : s'.msgs = s.msgs) (hheld : ∀ j, (s'.threads j).held P = (s.threads j).held P) :
    s'.free = s.free := by
  have hsame : ∀ p : Place ι, p ≠ .free → (s'.books P).chunks P p = (s.books P).chunks P p := by
    rintro (_ | j | id | id) hp
    · exact absurd rfl hp
    · exact hheld j
    · exact congrArg (fun t => bufChunks P (t id)) hbufs
    · exact congrArg (fun t => msgChunks P (t id)) hmsgs
  have hfree : ∀ t : State ι, Inv P t → ∀ c, t.free c = true ↔
      c < P.count ∧ ∀ p : Place ι, p ≠ .free → c ∉ (t.books P).chunks P p := by
    intro t ht c
    have hmem : c ∈ (t.books P).chunks P .free ↔ c < P.count ∧ t.free c = true := by
      simp [Books.chunks, State.books]
    constructor
    · intro hc
      have hlt := ht.owned.bits c hc
      refine ⟨hlt, fun p hp hcp => hp ?_⟩
      exact ht.owned.exact.unique hcp (hmem.mpr ⟨hlt, hc⟩)
    · rintro ⟨hlt, hno⟩
      obtain ⟨p, hp⟩ := ht.owned.exact.place c hlt
      by_cases hpf : p = .free
      · subst hpf
        exact (hmem.mp hp).2
      · exact absurd hp (hno p hpf)
  funext c
  rw [Bool.eq_iff_iff, hfree s' h' c, hfree s h c]
  constructor
  · rintro ⟨hlt, hno⟩
    exact ⟨hlt, fun p hp => hsame p hp ▸ hno p hp⟩
  · rintro ⟨hlt, hno⟩
    exact ⟨hlt, fun p hp => (hsame p hp).symm ▸ hno p hp⟩

/-- Nothing but buffers, the map and thread `i` changed. -/
def Alone (i : ι) (s s' : State ι) : Prop :=
  s'.msgs = s.msgs ∧ ∀ j, j ≠ i → s'.threads j = s.threads j

section Alone

variable {i : ι} {t : State ι}

section

variable (h : Alone i s t)
include h

theorem Alone.setPc (pc : Pc) : Alone i s (t.setPc i pc) :=
  ⟨h.1, fun j hj => (update_of_ne hj ..).trans (h.2 j hj)⟩

theorem Alone.allocated (r : Req) (c k : ℕ) : Alone i s (t.allocated i r c k) :=
  ⟨h.1, fun j hj => (update_of_ne hj ..).trans (h.2 j hj)⟩

theorem Alone.putBuf (id : ℕ) (b : Buf) : Alone i s (t.putBuf i id b) :=
  ⟨h.1, fun j hj => (update_of_ne hj ..).trans (h.2 j hj)⟩

theorem Alone.growEnd (id : ℕ) (b : Buf) (k left minSize : ℕ) :
    Alone i s (growEnd P t i id b k left minSize) := by
  unfold ShmChunks.growEnd
  split
  · exact h.setPc _
  · exact h.putBuf _ _

theorem Alone.growNext (id : ℕ) (b : Buf) (k left minSize : ℕ) :
    Alone i s (growNext P t i id b k left minSize) := by
  unfold ShmChunks.growNext
  split
  · exact h.setPc _
  · exact h.growEnd _ _ _ _ _

theorem Alone.failed (x : Task) : Alone i s (failed P t i x) := by
  cases x with
  | first r j => exact h.setPc _
  | more r c k =>
    unfold ShmChunks.failed
    dsimp only
    split
    · exact h.allocated _ _ _
    · exact h.setPc _
  | grow id b k left minSize => exact h.growEnd _ _ _ _ _

theorem Alone.allocNext (r : Req) (c k : ℕ) : Alone i s (allocNext P t i r c k) := by
  unfold ShmChunks.allocNext
  split
  · split
    · exact h.failed _
    · exact h.setPc _
  · exact h.allocated _ _ _

theorem Alone.claimed (c : ℕ) (x : Task) : Alone i s (claimed P t i c x) := by
  cases x with
  | first | more => exact h.allocNext _ _ _
  | grow id b k left minSize => exact h.growNext _ _ _ _ _

theorem Alone.stepThread : Alone i s (stepThread P t i) := by
  unfold ShmChunks.stepThread
  split
  · exact h
  · split
    · split
      · exact h.setPc _
      · exact h.setPc _
    · exact h.setPc .idle
  · split
    · exact h.setPc _
    · exact h.failed _
  · split
    · exact Alone.claimed (t := { t with free := update t.free _ false }) h _ _
    · exact h.setPc _
  · exact h.setPc _
  · exact h.setPc _
  · exact h.putBuf _ _
  · exact h.setPc _

theorem Alone.threads (k : ℕ) : Alone i s (run P t (replicate k (.thread i))) := by
  induction k generalizing t with
  | zero => exact h
  | succ k ih => exact ih h.stepThread

end

end Alone

/-- The start of an allocation or of the growth of a buffer. -/
def Event.starts (i : ι) : Event ι → Prop
  | .alloc j _ => j = i
  | .grow j _ _ _ => j = i
  | _ => False

theorem Alone.starts {i : ι} {e : Event ι} (he : e.starts i) : Alone i s (step P s e) := by
  have hrefl : Alone i s s := ⟨rfl, fun _ _ => rfl⟩
  cases e with
  | alloc j r =>
    obtain rfl : j = i := he
    unfold ShmChunks.step
    dsimp only
    split
    · exact hrefl.setPc _
    · exact hrefl
  | grow j id size minSize =>
    obtain rfl : j = i := he
    unfold ShmChunks.step
    dsimp only
    split
    · split
      · exact hrefl
      · exact Alone.growNext (t := { s with bufs := update s.bufs id none }) hrefl ..
    · exact hrefl
  | _ => exact he.elim

/-- **An operation that fails puts the map back**: an allocation or a growth of
thread `i` that ends with the same buffers leaves the same chunks free. -/
theorem Inv.failed_free {i : ι} {e : Event ι} (h : Inv P s) (he : e.starts i) (k : ℕ) {s' : State ι}
    (hs : s' = ShmChunks.run P s (e :: replicate k (.thread i))) (hidle : s.threads i = .idle)
    (hidle' : s'.threads i = .idle) (hbufs : s'.bufs = s.bufs) : s'.free = s.free := by
  have halone : Alone i s s' := by
    rw [hs]
    exact (Alone.starts he).threads k
  have h' : Inv P s' := by
    rw [hs]
    exact h.run _
  refine h.free_eq h' hbufs halone.1 fun j => ?_
  by_cases hj : j = i
  · rw [hj, hidle, hidle']
  · rw [halone.2 j hj]

omit [DecidableEq ι] in
/-- When nobody has a chunk, every chunk is free. -/
theorem Inv.all_free (h : Inv P s) (hb : ∀ id, s.bufs id = none) (hm : ∀ id, s.msgs id = none)
    (ht : ∀ i, s.threads i = .idle) (hc : c < P.count) : s.free c = true := by
  obtain ⟨p, hp⟩ := h.owned.exact.place c hc
  rcases p with _ | j | id | id
  · simpa [Books.chunks, State.books, hc] using hp
  · simp [Books.chunks, State.books, ht, Pc.held] at hp
  · simp [Books.chunks, State.books, hb, bufChunks] at hp
  · simp [Books.chunks, State.books, hm, msgChunks] at hp

/-! ### The contract of a segment -/

structure Contract (P : Params) (s : State ι) : Prop where
  /-- Every chunk is free, in hand, or of one buffer or message. -/
  place : ∀ c < P.count, ∃! p : Place ι, c ∈ (s.books P).chunks P p
  /-- It is there once. -/
  nodup : ∀ p : Place ι, ((s.books P).chunks P p).Nodup
  /-- A buffer, a run of consecutive chunks by its form, is inside the segment. -/
  inside : ∀ id b, s.bufs id = some b → b.stop ≤ P.count
  /-- So is the answer of an allocation, with as many chunks as were asked for
  or at least the minimum. -/
  answers : ∀ r b, (r, some b) ∈ s.returned → Answered P r b
  /-- An allocation or a growth that fails leaves the map as it was. -/
  fails : ∀ i (e : Event ι) k s', e.starts i →
    s' = run P s (e :: List.replicate k (.thread i)) → s.threads i = .idle →
      s'.threads i = .idle → s'.bufs = s.bufs → s'.free = s.free
  /-- A thread between operations has given back what it claimed. -/
  idle : ∀ i, s.threads i = .idle → (s.books P).chunks P (.thread i) = []
  /-- A chunk is claimed only when it is free. -/
  claims : ∀ i c w t, s.threads i = .cas c w t → word s.free (c / 64) = w → s.free c = true
  /-- It is freed only when it is busy, and in the hands of who frees it. -/
  frees : ∀ i c l a, s.threads i = .free (c :: l) a →
    s.free c = false ∧ ∀ p : Place ι, c ∈ (s.books P).chunks P p → p = .thread i
  /-- What a sender has left to free and what the receiver will are the parts of
  the buffer. -/
  parts : ∀ id b, s.bufs id = some b → b.sent = false → 0 < b.used →
    b.chunks P = Msg.chunks P ⟨b.first, b.used⟩ ++
      Buf.chunks P { b with pos := b.used, sent := true }
  /-- When every buffer and message is complete, all chunks are free. -/
  complete : (∀ id, s.bufs id = none) → (∀ id, s.msgs id = none) →
    (∀ i, s.threads i = .idle) → ∀ c < P.count, s.free c = true

theorem Inv.contract (h : Inv P s) : Contract P s where
  place _ hc := h.owned.exact.existsUnique hc
  nodup := h.owned.exact.nodup
  inside id b hb := (h.owned.valid id b hb).stop_le
  answers := h.returned
  fails _ _ k _ he hs hidle hidle' hbufs := h.failed_free he k hs hidle hidle' hbufs
  idle i hi := by simp [Books.chunks, State.books, hi, Pc.held]
  claims i c w t hpc hw := by
    have hwf := h.wf i
    rw [hpc] at hwf
    rw [← word_getD s.free c, hw]
    exact hwf.2
  frees i c l a hpc := by
    have hmem : c ∈ (s.books P).held i := by simp [State.books, hpc, Pc.held]
    exact ⟨h.owned.busy hmem, fun p hp => h.owned.exact.unique hp hmem⟩
  parts id b hb hsent hu := Buf.chunks_sent (h.owned.valid id b hb) hsent hu
  complete hb hm ht _ hc := h.all_free hb hm ht hc

/-- **Every interleaving of the users of a segment keeps its contract**: chunks
are in one place, allocations answer with consecutive chunks inside the segment,
failed operations leave no trace in the map, and every chunk claimed is freed
once, by the sender or by the receiver. -/
theorem run_contract (P : Params) {n : ℕ} (hn : n ≤ P.count) (es : List (Event ι)) :
    Contract P (run P (init P n) es) :=
  ((inv_init hn).run es).contract

/-- The first chunk of two is sent; the sender frees the second and the receiver
the first. -/
theorem run_contract_sent :
    let P : Params := ⟨1, 4, by decide⟩
    let es : List (Event Bool) := [.fill 0 3, .send 0, .complete true 0, .release false 0,
      .thread false, .thread true, .thread true, .thread false]
    2 ≤ P.count ∧ Contract P (run P (init P 2) es) ∧
      (range 64).all (run P (init P 2) es).free = true :=
  ⟨by decide, run_contract _ (by decide) _, by decide⟩

end Runs

end FreeUnit.ShmChunks
