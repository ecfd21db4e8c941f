/-
Reassembly of fragmented port messages.

A port message that does not fit one datagram arrives in fragments.  The
receiving port keeps a stream for each message in progress: an object found by
its sender and stream number in a hash, linked by age in a queue, and charged
against counters whose limits hold off a peer that never ends its streams.

* `Consistent.remove`, `Consistent.insert`, `Consistent.grow` — the three ways
  the bookkeeping changes;
* `run_consistent` — it stays consistent under every sequence of datagrams.
-/
import FreeUnit.Bytes
import Mathlib.Algebra.BigOperators.Group.List.Basic
import Mathlib.Data.List.Perm.Basic

namespace FreeUnit.Port

open List Function

/-! ### Messages -/

/-- `nxt_port_msg_t`, the header of a port message.  The flags are bytes on the
wire and are only ever compared with zero. -/
structure PortMsg where
  stream : UInt32
  pid : UInt32
  replyPort : UInt16
  type : UInt8
  last : Bool
  mmap : Bool
  nf : Bool
  mf : Bool
  deriving Repr, DecidableEq

/-- `nxt_port_frag_key_t`. -/
def PortMsg.key (m : PortMsg) : UInt32 × UInt32 := (m.stream, m.pid)

/-- The two descriptors of a message; `none` is -1. -/
abbrev Fds := Option ℕ × Option ℕ

/-- What one `recvmsg` of a port returns, at least a header long. -/
structure Datagram where
  portMsg : PortMsg
  data : Bytes
  fd : Fds
  deriving Repr, DecidableEq

/-- A buffer of a received message: the buffer it was read into, or a part of a
shared memory segment. -/
inductive RecvBuf
  | read (data : Bytes)
  | mmap (data : Bytes)
  deriving Repr, DecidableEq

def RecvBuf.data : RecvBuf → Bytes
  | read d => d
  | mmap d => d

/-- `nxt_port_recv_msg_t`. -/
structure RecvMsg where
  portMsg : PortMsg
  buf : List RecvBuf
  size : ℕ
  fd : Fds
  cancelled : Bool
  fragHeld : ℕ
  deriving Repr, DecidableEq

/-- The message that `nxt_port_read_msg_process` starts with: the size without
the header. -/
def Datagram.recv (d : Datagram) : RecvMsg :=
  ⟨d.portMsg, [.read d.data], d.data.length, d.fd, false, 0⟩

/-- `nxt_port_mmap_msg_t`. -/
structure MmapMsg where
  mmapId : ℕ
  chunkId : ℕ
  size : ℕ
  deriving Repr, DecidableEq

/-- Four bytes as a `uint32_t`. -/
def uint32 (a b c d : UInt8) : ℕ :=
  a.toNat + b.toNat * 2 ^ 8 + c.toNat * 2 ^ 16 + d.toNat * 2 ^ 24

/-- `nxt_port_mmap_read`: the shared memory buffers that the records of a
fragment name, and their size.  It ends at a record that names none and at a
rest that is no whole record. -/
def mmapRead (incoming : MmapMsg → Option Bytes) : Bytes → List RecvBuf × ℕ
  | a₀ :: a₁ :: a₂ :: a₃ :: c₀ :: c₁ :: c₂ :: c₃ :: s₀ :: s₁ :: s₂ :: s₃ :: rest =>
    let m : MmapMsg := ⟨uint32 a₀ a₁ a₂ a₃, uint32 c₀ c₁ c₂ c₃, uint32 s₀ s₁ s₂ s₃⟩
    match incoming m with
    | none => ([], 0)
    | some data =>
      let r := mmapRead incoming rest
      (.mmap data :: r.1, m.size + r.2)
  | _ => ([], 0)

/-! ### The streams of a port -/

def fragStreamsMax : ℕ := 64

def fragSizeMax : ℕ := 128 * 1024 * 1024

def fragTotalMax : ℕ := 256 * 1024 * 1024

/-- What the reassembly reads of a port, with `NXT_PORT_FRAG_MMAP_BUF_COST` of
the platform. -/
structure Conf where
  maxSize : ℕ
  mmapBufCost : ℕ

/-- What else decides the outcome of one datagram: the segments known when it
arrives, and whether the allocations of a new stream fail. -/
structure Env where
  incoming : MmapMsg → Option Bytes
  allocFails : Bool
  insertFails : Bool

/-- A call of `port->handler`: with a message that came in one datagram, or
with one that was put together. -/
inductive Handled
  | whole (msg : RecvMsg)
  | assembled (msg : RecvMsg)
  deriving Repr, DecidableEq

/-- The reader's side of a port.  Streams are objects at addresses below `brk`;
the hash and the age queue hold their addresses. -/
structure State where
  obj : ℕ → RecvMsg
  brk : ℕ
  frags : List ℕ
  fragQueue : List ℕ
  fragStreams : ℕ
  fragSize : ℕ
  handled : List Handled

namespace State

variable (s : State)

/-- `nxt_lvlhsh_find` in `port->frags`. -/
def find (key : UInt32 × UInt32) : Option ℕ :=
  s.frags.find? fun p => decide ((s.obj p).portMsg.key = key)

/-- `nxt_port_frag_unaccount`; both counters are `uint32_t`. -/
def fragUnaccount (p : ℕ) : State :=
  { s with
    fragStreams := (s.fragStreams + 2 ^ 32 - 1) % 2 ^ 32
    fragSize := (s.fragSize + 2 ^ 64 - (s.obj p).fragHeld) % 2 ^ 32
    fragQueue := s.fragQueue.erase p }

/-- `nxt_lvlhsh_delete` in `port->frags`: the value and the hash without it. -/
def delete (key : UInt32 × UInt32) : Option (ℕ × State) :=
  (s.find key).map fun p => (p, { s with frags := s.frags.erase p })

/-- `nxt_port_frag_drop`, as far as the bookkeeping goes. -/
def fragDrop (p : ℕ) (inHash : Bool) : State :=
  if inHash then
    match s.delete (s.obj p).portMsg.key with
    | some (_, s') => s'.fragUnaccount p
    | none => s
  else s

def fragEvict : State :=
  match s.fragQueue with
  | old :: _ => s.fragDrop old true
  | [] => s

end State

def fragCost (conf : Conf) (msg : RecvMsg) : ℕ :=
  max msg.size conf.maxSize + if msg.portMsg.mmap then msg.buf.length * conf.mmapBufCost else 0

/-- What is left of the total, `NXT_PORT_FRAG_TOTAL_MAX - port->frag_size` in
`uint32_t`. -/
def State.fragRoom (s : State) : ℕ := (fragTotalMax + 2 ^ 32 - s.fragSize) % 2 ^ 32

/-- `nxt_port_frag_start`: the new stream, if there is one. -/
def fragStart (conf : Conf) (env : Env) (msg : RecvMsg) (s : State) : State × Option ℕ :=
  let s := if fragStreamsMax ≤ s.fragStreams then s.fragEvict else s
  let cost := fragCost conf msg
  if fragSizeMax < msg.size ∨ s.fragRoom < cost then (s, none)
  else if env.allocFails then (s, none)
  else if (s.find msg.portMsg.key).isSome ∨ env.insertFails then (s, none)
  else
    ({ s with
       obj := Function.update s.obj s.brk { msg with fragHeld := cost }
       brk := s.brk + 1
       frags := s.brk :: s.frags
       fragQueue := s.fragQueue ++ [s.brk]
       fragStreams := (s.fragStreams + 1) % 2 ^ 32
       fragSize := (s.fragSize + cost) % 2 ^ 32 }, some s.brk)

/-- `nxt_port_frag_find`: the last fragment takes its stream out. -/
def fragFind (msg : RecvMsg) (s : State) : Option (ℕ × State) :=
  if msg.portMsg.mf then (s.find msg.portMsg.key).map fun p => (p, s)
  else (s.delete msg.portMsg.key).map fun r => (r.1, r.2.fragUnaccount r.1)

/-- `nxt_port_frag_fits`, with its subtractions in `size_t` and `uint32_t`. -/
def fragFits (s : State) (fmsg msg : RecvMsg) (cost : ℕ) : Bool :=
  !decide ((fragSizeMax + 2 ^ 64 - fmsg.size) % 2 ^ 64 < msg.size) &&
    !(msg.portMsg.mf && decide (s.fragRoom < cost))

/-- The fragment with its shared memory buffers in place, if it names any:
`nxt_port_mmap_read` and `nxt_port_frag_mmap_valid`. -/
def mmapFragment (env : Env) (data : Bytes) (msg : RecvMsg) : Option RecvMsg :=
  if msg.portMsg.mmap then
    let r := mmapRead env.incoming data
    if r.1 = [] then none else some { msg with buf := r.1, size := r.2 }
  else some msg

/-- A fragment that is not the first, for the stream at `p`. -/
def nextFragment (conf : Conf) (msg : RecvMsg) (p : ℕ) (s : State) : State :=
  let fmsg := s.obj p
  let cost := if msg.portMsg.mf then fragCost conf msg else 0
  if fragFits s fmsg msg cost then
    let fmsg := { fmsg with
      buf := fmsg.buf ++ msg.buf
      size := fmsg.size + msg.size
      fragHeld := fmsg.fragHeld + cost }
    let s := { s with
      obj := Function.update s.obj p fmsg
      fragSize := if msg.portMsg.mf then (s.fragSize + cost) % 2 ^ 32 else s.fragSize }
    if msg.portMsg.mf then s else { s with handled := s.handled ++ [.assembled fmsg] }
  else s.fragDrop p msg.portMsg.mf

/-- `nxt_port_read_msg_process` for a datagram that holds a header.
`msg->cancelled` is cleared at its start, so only the flag of a stream is
tested here. -/
def readMsgProcess (conf : Conf) (env : Env) (d : Datagram) (s : State) : State :=
  let msg := d.recv
  if msg.portMsg.nf then
    match fragFind msg s with
    | none => s
    | some (p, s) =>
      if (s.obj p).cancelled then s
      else
        match mmapFragment env d.data msg with
        | none => s.fragDrop p msg.portMsg.mf
        | some msg => nextFragment conf msg p s
  else if msg.portMsg.mf then
    match mmapFragment env d.data msg with
    | none => s
    | some msg =>
      match fragStart conf env msg s with
      | (s, none) => s
      | (s, some p) =>
        let fmsg := s.obj p
        let fmsg := { fmsg with portMsg := { fmsg.portMsg with nf := false, mf := false } }
        { s with obj := Function.update s.obj p fmsg }
  else
    let msg :=
      if msg.portMsg.mmap then
        let r := mmapRead env.incoming d.data
        -- Without one whole record the read buffer stays in place.
        { msg with buf := if d.data.length < 12 then msg.buf else r.1, size := r.2 }
      else msg
    { s with handled := s.handled ++ [.whole msg] }

/-- One message off the wire; one that is shorter than a header is refused
with an alert. -/
inductive Arrival
  | tooSmall (size : ℕ)
  | datagram (env : Env) (d : Datagram)

def step (conf : Conf) (s : State) : Arrival → State
  | .tooSmall _ => s
  | .datagram env d => readMsgProcess conf env d s

def run (conf : Conf) (s : State) (as : List Arrival) : State := as.foldl (step conf) s

/-- A port as `nxt_port_new` leaves it. -/
def init : State where
  obj := fun _ => ⟨⟨0, 0, 0, 0, false, false, false, false⟩, [], 0, (none, none), false, 0⟩
  brk := 0
  frags := []
  fragQueue := []
  fragStreams := 0
  fragSize := 0
  handled := []

/-! ### The bookkeeping -/

/-- The bytes that the streams in the hash are charged with. -/
def State.held (s : State) : ℕ := (s.frags.map fun p => (s.obj p).fragHeld).sum

/-- A stream within the limit of one message and charged with at least its
payload. -/
def RecvMsg.Bounded (m : RecvMsg) : Prop := m.size ≤ fragSizeMax ∧ m.size ≤ m.fragHeld

/-- The hash and the age queue hold the same streams, one for each key, the
counters are their number and the bytes charged to them, every stream is
charged with at least its payload, and all limits are kept, also by the
messages that were put together. -/
structure Consistent (s : State) : Prop where
  nodup : s.frags.Nodup
  queue : s.fragQueue.Perm s.frags
  keys : ∀ p ∈ s.frags, ∀ q ∈ s.frags, (s.obj p).portMsg.key = (s.obj q).portMsg.key → p = q
  addr : ∀ p ∈ s.frags, p < s.brk
  streams : s.fragStreams = s.frags.length
  streams_le : s.fragStreams ≤ fragStreamsMax
  size : s.fragSize = s.held
  size_le : s.fragSize ≤ fragTotalMax
  msgSize : ∀ p ∈ s.frags, (s.obj p).Bounded
  assembled : ∀ m, Handled.assembled m ∈ s.handled → m.size ≤ fragSizeMax

variable {s : State} {p : ℕ}

theorem update_eq_of_mem {α : Type} {f : ℕ → α} {l : List ℕ} (hp : p ∉ l) (x : α) :
    ∀ q ∈ l, update f p x q = f q := by
  intro q hq
  have hne : q ≠ p := fun he => hp (he ▸ hq)
  exact update_of_ne hne _ _

theorem State.mem_of_find {key : UInt32 × UInt32} (h : s.find key = some p) :
    p ∈ s.frags ∧ (s.obj p).portMsg.key = key := by
  refine ⟨mem_of_find?_eq_some h, ?_⟩
  simpa using find?_some h

theorem State.find_eq_none {key : UInt32 × UInt32} (h : s.find key = none) :
    ∀ p ∈ s.frags, (s.obj p).portMsg.key ≠ key := by
  simpa [State.find, find?_eq_none] using h

variable {msg : RecvMsg}

namespace Consistent

theorem find_self (h : Consistent s) (hp : p ∈ s.frags) :
    s.find (s.obj p).portMsg.key = some p := by
  cases hf : s.find (s.obj p).portMsg.key with
  | none => exact absurd rfl (State.find_eq_none hf p hp)
  | some q => ?_
  obtain ⟨hq, hk⟩ := State.mem_of_find hf
  rw [h.keys q hq p hp hk]

theorem held_erase (_ : Consistent s) (hp : p ∈ s.frags) :
    (s.obj p).fragHeld + ((s.frags.erase p).map fun q => (s.obj q).fragHeld).sum = s.held :=
  sum_map_erase (fun q => (s.obj q).fragHeld) hp

section

variable (h : Consistent s)
include h

theorem fragRoom_eq : s.fragRoom = fragTotalMax - s.fragSize := by
  have hle := h.size_le
  simp only [State.fragRoom, fragTotalMax] at hle ⊢
  omega

/-- **Taking a stream out** keeps the bookkeeping. -/
theorem remove (hp : p ∈ s.frags) :
    Consistent (State.fragUnaccount { s with frags := s.frags.erase p } p) := by
  have hlen := length_erase_of_mem hp
  have hpos := length_pos_of_mem hp
  have hheld := h.held_erase hp
  have hst := h.streams
  have hst' := h.streams_le
  have hsz := h.size
  have hsz' := h.size_le
  have hmem : ∀ q ∈ s.frags.erase p, q ∈ s.frags := fun q hq => mem_of_mem_erase hq
  simp only [fragStreamsMax] at hst'
  simp only [fragTotalMax] at hsz'
  -- Neither counter goes below what the stream was counted with.
  have hcount : (s.fragStreams + 2 ^ 32 - 1) % 2 ^ 32 = (s.frags.erase p).length := by omega
  have hbytes : (s.fragSize + 2 ^ 64 - (s.obj p).fragHeld) % 2 ^ 32 =
      ((s.frags.erase p).map fun q => (s.obj q).fragHeld).sum := by omega
  refine ⟨h.nodup.erase p, h.queue.erase p, fun q hq r hr => h.keys q (hmem q hq) r (hmem r hr),
    fun q hq => h.addr q (hmem q hq), hcount, ?_, hbytes, ?_, fun q hq => h.msgSize q (hmem q hq),
    h.assembled⟩
  · show (s.fragStreams + 2 ^ 32 - 1) % 2 ^ 32 ≤ fragStreamsMax
    simp only [fragStreamsMax]
    omega
  · show (s.fragSize + 2 ^ 64 - (s.obj p).fragHeld) % 2 ^ 32 ≤ fragTotalMax
    simp only [fragTotalMax]
    omega

/-- **A new stream** keeps the bookkeeping. -/
theorem insert (hkey : ∀ q ∈ s.frags, (s.obj q).portMsg.key ≠ msg.portMsg.key)
    (hroom : s.fragStreams < fragStreamsMax) (hmsg : msg.Bounded)
    (htotal : s.fragSize + msg.fragHeld ≤ fragTotalMax) :
    Consistent { s with
      obj := update s.obj s.brk msg
      brk := s.brk + 1
      frags := s.brk :: s.frags
      fragQueue := s.fragQueue ++ [s.brk]
      fragStreams := (s.fragStreams + 1) % 2 ^ 32
      fragSize := (s.fragSize + msg.fragHeld) % 2 ^ 32 } := by
  have hnew : s.brk ∉ s.frags := fun hmem => absurd (h.addr _ hmem) (lt_irrefl _)
  -- The streams already there are other objects.
  have hold := update_eq_of_mem (f := s.obj) hnew msg
  have hsum : (s.frags.map fun q => (update s.obj s.brk msg q).fragHeld).sum = s.held := by
    rw [State.held, map_congr_left fun q hq => congrArg RecvMsg.fragHeld (hold q hq)]
  have hst := h.streams
  have hsz := h.size
  simp only [fragStreamsMax] at hroom
  simp only [fragTotalMax] at htotal
  refine ⟨?nodup, ?queue, ?keys, ?addr, ?streams, ?streams_le, ?size, ?size_le, ?msgSize,
    h.assembled⟩
  case nodup => exact nodup_cons.mpr ⟨hnew, h.nodup⟩
  case queue => exact (perm_append_singleton _ _).trans (h.queue.cons _)
  case keys =>
    intro q hq r hr he
    rcases mem_cons.mp hq with rfl | hq <;> rcases mem_cons.mp hr with rfl | hr
    · rfl
    · simp only [update_self, hold r hr] at he
      exact absurd he.symm (hkey r hr)
    · simp only [update_self, hold q hq] at he
      exact absurd he (hkey q hq)
    · simp only [hold q hq, hold r hr] at he
      exact h.keys q hq r hr he
  case addr =>
    intro q hq
    rcases mem_cons.mp hq with rfl | hq
    · exact Nat.lt_succ_self _
    · exact Nat.lt_succ_of_lt (h.addr q hq)
  case streams =>
    show (s.fragStreams + 1) % 2 ^ 32 = s.frags.length + 1
    omega
  case streams_le =>
    show (s.fragStreams + 1) % 2 ^ 32 ≤ fragStreamsMax
    simp only [fragStreamsMax]
    omega
  case size =>
    show (s.fragSize + msg.fragHeld) % 2 ^ 32 =
      ((s.brk :: s.frags).map fun q => (update s.obj s.brk msg q).fragHeld).sum
    rw [map_cons, sum_cons, hsum, update_self]
    omega
  case size_le =>
    show (s.fragSize + msg.fragHeld) % 2 ^ 32 ≤ fragTotalMax
    simp only [fragTotalMax]
    omega
  case msgSize =>
    intro q hq
    rcases mem_cons.mp hq with rfl | hq
    · show (update s.obj s.brk msg s.brk).Bounded
      rw [update_self]
      exact hmsg
    · show (update s.obj s.brk msg q).Bounded
      rw [hold q hq]
      exact h.msgSize q hq

/-- **Growing a stream** by what its charge grows keeps the bookkeeping. -/
theorem grow (hp : p ∈ s.frags) (fmsg : RecvMsg) (cost : ℕ)
    (hkey : fmsg.portMsg.key = (s.obj p).portMsg.key)
    (hheld : fmsg.fragHeld = (s.obj p).fragHeld + cost) (hmsg : fmsg.Bounded)
    (htotal : s.fragSize + cost ≤ fragTotalMax) :
    Consistent { s with
      obj := update s.obj p fmsg
      fragSize := (s.fragSize + cost) % 2 ^ 32 } := by
  have hne : ∀ q ∈ s.frags.erase p, update s.obj p fmsg q = s.obj q := by
    intro q hq
    exact update_of_ne ((h.nodup.mem_erase_iff.mp hq).1) _ _
  have hkeys : ∀ q, (update s.obj p fmsg q).portMsg.key = (s.obj q).portMsg.key := by
    intro q
    by_cases hq : q = p
    · subst hq
      rw [update_self, hkey]
    · rw [update_of_ne hq]
  have hsz := h.size
  have hbefore := h.held_erase hp
  simp only [fragTotalMax] at htotal
  -- Only the summand of `p` changes.
  have hsum : (s.frags.map fun q => (update s.obj p fmsg q).fragHeld).sum =
      s.held + cost := by
    rw [← sum_map_erase (fun q => (update s.obj p fmsg q).fragHeld) hp,
      update_self, hheld,
      map_congr_left fun q hq => congrArg RecvMsg.fragHeld (hne q hq)]
    omega
  refine ⟨h.nodup, h.queue, ?keys, h.addr, h.streams, h.streams_le, ?size, ?size_le, ?msgSize,
    h.assembled⟩
  case keys =>
    intro q hq r hr he
    simp only [hkeys] at he
    exact h.keys q hq r hr he
  case size =>
    show (s.fragSize + cost) % 2 ^ 32 = _
    rw [State.held, hsum]
    omega
  case size_le =>
    show (s.fragSize + cost) % 2 ^ 32 ≤ fragTotalMax
    simp only [fragTotalMax]
    omega
  case msgSize =>
    intro q hq
    show (update s.obj p fmsg q).Bounded
    by_cases he : q = p
    · subst he
      rw [update_self]
      exact hmsg
    · rw [update_of_ne he]
      exact h.msgSize q hq

theorem detached (hp : p ∉ s.frags) (fmsg : RecvMsg) :
    Consistent { s with obj := update s.obj p fmsg } := by
  have hold := update_eq_of_mem (f := s.obj) hp fmsg
  refine ⟨h.nodup, h.queue, ?keys, h.addr, h.streams, h.streams_le, ?size, h.size_le, ?msgSize,
    h.assembled⟩
  case keys =>
    intro q hq r hr he
    simp only [hold q hq, hold r hr] at he
    exact h.keys q hq r hr he
  case size =>
    show s.fragSize = (s.frags.map fun q => (update s.obj p fmsg q).fragHeld).sum
    rw [map_congr_left fun q hq => congrArg RecvMsg.fragHeld (hold q hq)]
    exact h.size
  case msgSize =>
    intro q hq
    show (update s.obj p fmsg q).Bounded
    rw [hold q hq]
    exact h.msgSize q hq

theorem handle {x : Handled} (hx : ∀ m, x = .assembled m → m.size ≤ fragSizeMax) :
    Consistent { s with handled := s.handled ++ [x] } := by
  refine ⟨h.nodup, h.queue, h.keys, h.addr, h.streams, h.streams_le, h.size, h.size_le, h.msgSize,
    fun m hm => ?_⟩
  rcases mem_append.mp hm with hm | hm
  · exact h.assembled m hm
  · exact hx m (mem_singleton.mp hm).symm

end

end Consistent

/-! ### What one datagram does to it -/

/-- The checks of `nxt_port_frag_fits` without their wraps. -/
theorem Consistent.fragFits_iff (h : Consistent s) {fmsg : RecvMsg} {cost : ℕ}
    (hf : fmsg.size ≤ fragSizeMax) :
    fragFits s fmsg msg cost = true ↔ fmsg.size + msg.size ≤ fragSizeMax ∧
      (msg.portMsg.mf = true → s.fragSize + cost ≤ fragTotalMax) := by
  have hle := h.size_le
  have hsub : (fragSizeMax + 2 ^ 64 - fmsg.size) % 2 ^ 64 = fragSizeMax - fmsg.size := by
    simp only [fragSizeMax] at hf ⊢
    omega
  rw [fragFits, h.fragRoom_eq, hsub]
  cases msg.portMsg.mf <;> simp <;> omega

theorem mmapFragment_portMsg {env : Env} {data : Bytes} {msg' : RecvMsg}
    (h : mmapFragment env data msg = some msg') : msg'.portMsg = msg.portMsg := by
  unfold mmapFragment at h
  dsimp only at h
  split at h
  · split at h
    · cases h
    cases h
    rfl
  cases h
  rfl

theorem size_le_fragCost (conf : Conf) (msg : RecvMsg) : msg.size ≤ fragCost conf msg :=
  le_trans (Nat.le_max_left _ _) (Nat.le_add_right _ _)

namespace Consistent

section

variable (h : Consistent s)
include h

theorem fragDrop_eq (hp : p ∈ s.frags) :
    s.fragDrop p true = State.fragUnaccount { s with frags := s.frags.erase p } p := by
  simp [State.fragDrop, State.delete, h.find_self hp]

/-- The oldest stream makes room for a new one when there is none. -/
theorem room : Consistent (if fragStreamsMax ≤ s.fragStreams then s.fragEvict else s) ∧
      (if fragStreamsMax ≤ s.fragStreams then s.fragEvict else s).fragStreams <
        fragStreamsMax := by
  by_cases hfull : fragStreamsMax ≤ s.fragStreams
  · rw [if_pos hfull]
    have hlen := h.queue.length_eq
    have hst := h.streams
    have hst' := h.streams_le
    simp only [fragStreamsMax] at hfull hst' ⊢
    cases hq : s.fragQueue with
    | nil =>
      rw [hq] at hlen
      simp only [length_nil] at hlen
      omega
    | cons old rest => ?_
    have hold : old ∈ s.frags := h.queue.subset (by rw [hq]; exact mem_cons_self)
    have he : s.fragEvict = s.fragDrop old true := by simp only [State.fragEvict, hq]
    rw [he, h.fragDrop_eq hold]
    refine ⟨h.remove hold, ?_⟩
    show (s.fragStreams + 2 ^ 32 - 1) % 2 ^ 32 < 64
    omega
  rw [if_neg hfull]
  exact ⟨h, Nat.lt_of_not_le hfull⟩

/-- `nxt_port_frag_start` keeps the bookkeeping, and the stream it answers with
is in the hash. -/
theorem fragStart (conf : Conf) (env : Env) (msg : RecvMsg) :
    Consistent (fragStart conf env msg s).1 ∧
      ∀ p, (Port.fragStart conf env msg s).2 = some p →
        p ∈ (Port.fragStart conf env msg s).1.frags := by
  obtain ⟨hr, hroom⟩ := h.room
  unfold Port.fragStart
  generalize (if fragStreamsMax ≤ s.fragStreams then s.fragEvict else s) = t at hr hroom
  dsimp only
  split
  · exact ⟨hr, by simp⟩
  rename_i hfits
  split
  · exact ⟨hr, by simp⟩
  split
  · exact ⟨hr, by simp⟩
  rename_i hnew
  -- The stream is new and both limits hold.
  simp only [not_or, not_lt, hr.fragRoom_eq] at hfits
  have hkey : t.find msg.portMsg.key = none := by
    cases hf : t.find msg.portMsg.key with
    | none => rfl
    | some q => simp [hf] at hnew
  have hle := hr.size_le
  refine ⟨hr.insert (State.find_eq_none hkey) hroom ⟨hfits.1, size_le_fragCost conf msg⟩ ?_, ?_⟩
  · show t.fragSize + fragCost conf msg ≤ fragTotalMax
    omega
  · intro p hp
    cases hp
    exact mem_cons_self

theorem nextFragment_open (conf : Conf) (hp : p ∈ s.frags) (hmf : msg.portMsg.mf = true) :
    Consistent (nextFragment conf msg p s) := by
  have hb := h.msgSize p hp
  simp only [nextFragment, hmf, if_true]
  split
  · rename_i hfits
    obtain ⟨hsize, htotal⟩ := (h.fragFits_iff hb.1).mp hfits
    have hcost := size_le_fragCost conf msg
    have hcharged := hb.2
    refine h.grow hp _ _ rfl rfl ⟨hsize, ?_⟩ (htotal hmf)
    show (s.obj p).size + msg.size ≤ (s.obj p).fragHeld + fragCost conf msg
    omega
  · rw [h.fragDrop_eq hp]
    exact h.remove hp

/-- The last fragment of a stream that was taken out. -/
theorem nextFragment_last (conf : Conf) (hp : p ∉ s.frags) (hb : (s.obj p).Bounded)
    (hmf : msg.portMsg.mf = false) : Consistent (nextFragment conf msg p s) := by
  simp only [nextFragment, hmf, Bool.false_eq_true, if_false]
  split
  · rename_i hfits
    refine (h.detached hp _).handle ?_
    intro m hm
    cases hm
    exact ((h.fragFits_iff hb.1).mp hfits).1
  · exact h

/-- **One datagram keeps the bookkeeping consistent**, whatever it holds. -/
theorem readMsgProcess (conf : Conf) (env : Env) (d : Datagram) :
    Consistent (readMsgProcess conf env d s) := by
  unfold Port.readMsgProcess
  dsimp only
  split
  · -- A fragment that is not the first.
    cases hmf : d.recv.portMsg.mf with
    | true =>
      cases hfind : s.find d.recv.portMsg.key with
      | none => simpa [fragFind, hmf, hfind] using h
      | some p => ?_
      have hp := (State.mem_of_find hfind).1
      simp only [fragFind, hmf, hfind, if_true, Option.map_some]
      split
      · exact h
      split
      · rw [h.fragDrop_eq hp]
        exact h.remove hp
      rename_i msg hm
      have hmf' : msg.portMsg.mf = true := by
        rw [mmapFragment_portMsg hm]
        exact hmf
      exact h.nextFragment_open conf hp hmf'
    | false => ?_
    cases hfind : s.find d.recv.portMsg.key with
    | none => simpa [fragFind, State.delete, hmf, hfind] using h
    | some p => ?_
    have hp := (State.mem_of_find hfind).1
    have hr := h.remove hp
    have hout : p ∉ s.frags.erase p := h.nodup.not_mem_erase
    simp only [fragFind, State.delete, hmf, hfind, Option.map_some, Bool.false_eq_true, if_false]
    split
    · exact hr
    split
    · exact hr
    rename_i msg hm
    have hmf' : msg.portMsg.mf = false := by
      rw [mmapFragment_portMsg hm]
      exact hmf
    exact hr.nextFragment_last conf hout (h.msgSize p hp) hmf'
  split
  · -- The first of several fragments.
    split
    · exact h
    rename_i msg _
    obtain ⟨hs, hmem⟩ := h.fragStart conf env msg
    generalize hr : Port.fragStart conf env msg s = r at hs hmem
    obtain ⟨t, o⟩ := r
    cases o with
    | none => exact hs
    | some p => ?_
    have hp : p ∈ t.frags := hmem p rfl
    have hle := hs.size_le
    have hmod : (t.fragSize + 0) % 2 ^ 32 = t.fragSize := by
      simp only [fragTotalMax] at hle
      omega
    have hg := hs.grow hp
      { t.obj p with portMsg := { (t.obj p).portMsg with nf := false, mf := false } } 0
      rfl rfl (hs.msgSize p hp) hle
    rw [hmod] at hg
    exact hg
  · -- A message in one datagram.
    refine h.handle ?_
    intro m hm
    cases hm

end

end Consistent

theorem init_consistent : Consistent init := by
  refine ⟨nodup_nil, List.Perm.refl _, ?_, ?_, rfl, ?_, rfl, ?_, ?_, ?_⟩ <;>
    simp [init, fragStreamsMax]

/-- **Under every sequence of arriving messages the bookkeeping of the
reassembly is consistent.** -/
theorem run_consistent (conf : Conf) (as : List Arrival) : Consistent (run conf init as) := by
  have hrun : ∀ s, Consistent s → Consistent (run conf s as) := by
    induction as with
    | nil => exact fun s h => h
    | cons a as ih => ?_
    intro s h
    refine ih (step conf s a) ?_
    cases a with
    | tooSmall n => exact h
    | datagram env d => exact h.readMsgProcess conf env d
  exact hrun init init_consistent

end FreeUnit.Port
