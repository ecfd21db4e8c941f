/-
The order of messages on a port with a shared queue.

Messages reach such a port on two channels.  Those that need the socket leave a
READ_SOCKET marker in the shared queue first, and the receiver takes a message
from the socket when it comes to a marker.  Nothing says whose marker it is:
any sender can be between its marker and its datagram, which waits in the
sender's `port->messages` if the socket is full.

* `Inv`, `Inv.step` — what holds throughout;
* `run_ordered` — the receiver never has two suspended messages, and processes
  queue items and socket messages in one woven order, in which a sender's
  messages are in order if the socket takes messages in the order of their
  markers;
* `run_overtaken` — they are not if another sender's marker is still waiting.
-/
import FreeUnit.Weave

namespace FreeUnit.PortOrder

open List

/-! ### Senders and receiver -/

/-- The `seq`-th message of a sender. -/
structure Msg (ι : Type) where
  sender : ι
  seq : ℕ
  deriving Repr, DecidableEq

/-- An item of the shared queue: a message, or the marker of a message on the
socket.  `seen` is how many messages the socket had taken by then, and the
receiver reads neither it nor the message of a marker. -/
inductive QItem (ι : Type)
  | msg (m : Msg ι) (seen : ℕ)
  | marker (m : Msg ι)
  deriving Repr, DecidableEq

/-- A datagram on the socket: a READ_QUEUE wake-up or a message. -/
inductive Dgram (ι : Type)
  | readQueue
  | msg (m : Msg ι)
  deriving Repr, DecidableEq

variable {ι : Type}

/-- A message in the queue, or the gap that a marker leaves. -/
def QItem.slot : QItem ι → Option (Msg ι)
  | msg m _ => some m
  | marker _ => none

def QItem.own : QItem ι → Msg ι
  | msg m _ => m
  | marker m => m

def msgs (ds : List (Dgram ι)) : List (Msg ι) :=
  ds.filterMap fun d => match d with
    | .msg m => some m
    | .readQueue => none

def markers (q : List (QItem ι)) : List (Msg ι) :=
  (q.filter fun x => x.slot.isNone).map QItem.own

variable (m : Msg ι)

@[simp] theorem slot_msg (n : ℕ) : (QItem.msg m n).slot = some m := rfl

@[simp] theorem slot_marker : (QItem.marker m).slot = none := rfl

@[simp] theorem own_msg (n : ℕ) : (QItem.msg m n).own = m := rfl

@[simp] theorem own_marker : (QItem.marker m).own = m := rfl

@[simp] theorem msgs_append (ds es : List (Dgram ι)) : msgs (ds ++ es) = msgs ds ++ msgs es := by
  simp [msgs]

@[simp] theorem msgs_cons_msg (ds : List (Dgram ι)) : msgs (.msg m :: ds) = m :: msgs ds := rfl

@[simp] theorem msgs_cons_readQueue (ds : List (Dgram ι)) : msgs (.readQueue :: ds) = msgs ds := rfl

@[simp] theorem msgs_nil : msgs ([] : List (Dgram ι)) = [] := rfl

/-- Where the receiver is: about to look at the queue, or to read the socket. -/
inductive Pc
  | check
  | read
  deriving Repr, DecidableEq

/-- A port with its senders.  `waiting` are the messages whose marker is out and
whose datagram is not.  The last four fields record what happened: the items
taken from the queue and those ever put into it, and the messages that were
processed from the socket and those ever put on it. -/
structure State (ι : Type) where
  next : ι → ℕ
  waiting : List (Msg ι) := []
  queue : List (QItem ι) := []
  socket : List (Dgram ι) := []
  pc : Pc := .check
  fromSocket : ℕ := 0
  socketMsg : Option (Msg ι) := none
  tooMany : Bool := false
  processed : List (Msg ι) := []
  taken : List (QItem ι) := []
  queued : List (QItem ι) := []
  read : List (Msg ι) := []
  sent : List (Msg ι) := []

/-- A step.  `send` and `mark` are `nxt_port_queue_send` of the two branches of
`nxt_port_socket_send` and `nxt_unit_port_send_impl`, `datagram` is the moment
the socket takes the next waiting message of a sender, and `wake` any wake-up.
The receiver looks at the queue, reads the socket, or returns without reading:
the socket is not ready, or one was read in this call already. -/
inductive Event (ι : Type)
  | send (i : ι)
  | mark (i : ι)
  | datagram (i : ι)
  | wake
  | check
  | read
  | leave
  deriving Repr, DecidableEq

variable [DecidableEq ι]

/-- `nxt_port_queue_read_handler` and `nxt_unit_ctx_port_recv` at the queue. -/
def recvCheck (s : State ι) : State ι :=
  if s.fromSocket = 0 then
    match s.queue with
    | [] => { s with pc := .read }
    | .marker m :: q =>
      { s with queue := q, taken := s.taken ++ [.marker m], fromSocket := s.fromSocket + 1 }
    | .msg m n :: q =>
      { s with queue := q, taken := s.taken ++ [.msg m n], processed := s.processed ++ [m] }
  else
    match s.socketMsg with
    | some m =>
      { s with
        socketMsg := none
        fromSocket := s.fromSocket - 1
        processed := s.processed ++ [m]
        read := s.read ++ [m] }
    | none => { s with pc := .read }

def recvRead (s : State ι) : State ι :=
  match s.socket with
  | [] => { s with pc := .check }
  | .readQueue :: ds => { s with socket := ds, pc := .check }
  | .msg m :: ds =>
    if s.fromSocket = 0 then
      match s.socketMsg with
      | none => { s with socket := ds, socketMsg := some m, pc := .check }
      | some _ => { s with socket := ds, tooMany := true, pc := .check }
    else
      { s with
        socket := ds
        fromSocket := s.fromSocket - 1
        processed := s.processed ++ [m]
        read := s.read ++ [m]
        pc := .check }

/-- The port after a step; a step that is not possible changes nothing. -/
def step (s : State ι) : Event ι → State ι
  | .send i =>
    let item := .msg ⟨i, s.next i⟩ s.sent.length
    { s with
      next := Function.update s.next i (s.next i + 1)
      queue := s.queue ++ [item]
      queued := s.queued ++ [item] }
  | .mark i =>
    let m : Msg ι := ⟨i, s.next i⟩
    { s with
      next := Function.update s.next i (s.next i + 1)
      queue := s.queue ++ [.marker m]
      queued := s.queued ++ [.marker m]
      waiting := s.waiting ++ [m] }
  | .datagram i =>
    match s.waiting.find? fun m => decide (m.sender = i) with
    | none => s
    | some m =>
      { s with
        waiting := s.waiting.erase m
        socket := s.socket ++ [.msg m]
        sent := s.sent ++ [m] }
  | .wake => { s with socket := s.socket ++ [.readQueue] }
  | .check => if s.pc = .check then recvCheck s else s
  | .read => if s.pc = .read then recvRead s else s
  | .leave => { s with pc := .check }

def run (s : State ι) (es : List (Event ι)) : State ι := es.foldl step s

def init : State ι := { next := fun _ => 0 }

/-! ### What holds throughout -/

def sentBy (s : State ι) (i : ι) : List (Msg ι) := (List.range (s.next i)).map fun n => ⟨i, n⟩

structure Inv (s : State ι) : Prop where
  /-- Items leave the queue in order. -/
  queue : s.queued = s.taken ++ s.queue
  /-- Messages leave the socket in order. -/
  socket : s.sent = s.read ++ s.socketMsg.toList ++ msgs s.socket
  /-- A marker is out before its datagram. -/
  markers : gaps (s.queued.map QItem.slot) = s.sent.length + s.waiting.length
  /-- At most the marker taken last is open. -/
  fromSocket : s.fromSocket = 0 ∧ gaps (s.taken.map QItem.slot) = s.read.length ∨
    s.fromSocket = 1 ∧ ∃ t m, s.taken = t ++ [.marker m] ∧
      gaps (t.map QItem.slot) = s.read.length
  /-- The processed messages are the items taken, woven with those read. -/
  processed : s.processed = weave (s.taken.map QItem.slot) s.read
  /-- The socket is read only with nothing suspended. -/
  pc : s.pc = .read → s.socketMsg = none
  tooMany : s.tooMany = false
  /-- Whatever the socket had taken has its marker ahead of an item. -/
  seen : ∀ pre m n post, s.queued = pre ++ .msg m n :: post → n ≤ gaps (pre.map QItem.slot)
  /-- A sender's items are in the order it sent them. -/
  own : ∀ i, (s.queued.map QItem.own).filter (fun m => decide (m.sender = i)) = sentBy s i

theorem init_inv : Inv (init : State ι) := by
  refine ⟨rfl, rfl, rfl, .inl ⟨rfl, rfl⟩, rfl, fun _ => rfl, rfl, ?_, fun _ => rfl⟩
  intro pre m n post h
  simp [init] at h

theorem sentBy_next (s : State ι) (i j : ι) :
    (range (Function.update s.next i (s.next i + 1) j)).map (fun n => (⟨j, n⟩ : Msg ι)) =
      sentBy s j ++ if i = j then [⟨i, s.next i⟩] else [] := by
  by_cases h : j = i
  · subst h
    simp [sentBy, range_succ]
  have h' : ¬ i = j := fun he => h he.symm
  simp [sentBy, h, h']

namespace Inv

variable {s : State ι}

section

variable (h : Inv s)
include h

/-- A sender's list of items grows by its message. -/
theorem own_append (i : ι) {x : QItem ι} (hx : x.own = ⟨i, s.next i⟩) (j : ι) :
    ((s.queued ++ [x]).map QItem.own).filter (fun m => decide (m.sender = j)) =
      (range (Function.update s.next i (s.next i + 1) j)).map fun n => ⟨j, n⟩ := by
  rw [sentBy_next, ← h.own j]
  by_cases hij : i = j
  · simp [hx, hij]
  · simp [hx, hij]

theorem seen_append {x : QItem ι} (hx : ∀ m n, x = .msg m n → n ≤ gaps (s.queued.map QItem.slot)) :
    ∀ pre m n post, s.queued ++ [x] = pre ++ .msg m n :: post → n ≤ gaps (pre.map QItem.slot) := by
  intro pre m n post he
  rcases eq_nil_or_concat post with rfl | ⟨post', y, rfl⟩
  · obtain ⟨rfl, hlast⟩ := append_inj' he rfl
    exact hx m n (singleton_inj.mp hlast)
  have he' : s.queued ++ [x] = (pre ++ .msg m n :: post') ++ [y] := by simpa using he
  exact h.seen pre m n post' (append_inj' he' rfl).1

theorem send (i : ι) : Inv (PortOrder.step s (.send i)) := by
  refine ⟨?_, h.socket, ?_, h.fromSocket, h.processed, h.pc, h.tooMany, ?_, h.own_append i rfl⟩
  · show s.queued ++ _ = s.taken ++ (s.queue ++ _)
    rw [h.queue, append_assoc]
  · show gaps ((s.queued ++ [QItem.msg _ _]).map QItem.slot) = s.sent.length + s.waiting.length
    rw [map_append, gaps_append, h.markers]
    simp
  · refine h.seen_append ?_
    intro m n he
    cases he
    have := h.markers
    omega

theorem mark (i : ι) : Inv (PortOrder.step s (.mark i)) := by
  refine ⟨?_, h.socket, ?_, h.fromSocket, h.processed, h.pc, h.tooMany, ?_, h.own_append i rfl⟩
  · show s.queued ++ _ = s.taken ++ (s.queue ++ _)
    rw [h.queue, append_assoc]
  · show gaps ((s.queued ++ [QItem.marker _]).map QItem.slot) =
      s.sent.length + (s.waiting ++ [_]).length
    rw [map_append, gaps_append, h.markers]
    simp
    omega
  · refine h.seen_append ?_
    intro m n he
    cases he

theorem datagram (i : ι) : Inv (PortOrder.step s (.datagram i)) := by
  rw [PortOrder.step]
  split
  · exact h
  rename_i m hm
  have hmem := mem_of_find?_eq_some hm
  refine ⟨h.queue, ?_, ?_, h.fromSocket, h.processed, h.pc, h.tooMany, h.seen, h.own⟩
  · show s.sent ++ [m] = s.read ++ s.socketMsg.toList ++ msgs (s.socket ++ [.msg m])
    rw [h.socket]
    simp
  · show _ = (s.sent ++ [m]).length + (s.waiting.erase m).length
    have hlen := length_erase_of_mem hmem
    have hpos := length_pos_of_mem hmem
    rw [h.markers, length_append, length_singleton]
    omega

theorem wake : Inv (PortOrder.step s .wake) := by
  refine ⟨h.queue, ?_, h.markers, h.fromSocket, h.processed, h.pc, h.tooMany, h.seen, h.own⟩
  show s.sent = s.read ++ s.socketMsg.toList ++ msgs (s.socket ++ [.readQueue])
  rw [h.socket]
  simp

/-- With a message suspended and no marker open, the queue holds its marker. -/
theorem socketMsg_eq_none (hf : s.fromSocket = 0) (hq : s.queue = []) : s.socketMsg = none := by
  obtain ⟨-, hgaps⟩ := h.fromSocket.resolve_right (by omega)
  have hm := h.markers
  rw [h.queue, hq, append_nil, hgaps, h.socket] at hm
  cases hs : s.socketMsg with
  | none => rfl
  | some m => ?_
  simp [hs] at hm
  omega

/-- A message of the socket goes where the open marker stands. -/
theorem fill (hf : ¬ s.fromSocket = 0) (m : Msg ι) :
    s.fromSocket = 1 ∧ gaps (s.taken.map QItem.slot) = (s.read ++ [m]).length ∧
      s.processed ++ [m] = weave (s.taken.map QItem.slot) (s.read ++ [m]) := by
  obtain ⟨hone, t, m', ht, hgaps⟩ := h.fromSocket.resolve_left fun hc => hf hc.1
  refine ⟨hone, ?_, ?_⟩
  · rw [ht, map_append, gaps_append, hgaps]
    simp
  · rw [h.processed, ht, map_append, map_singleton, slot_marker,
      weave_fill hgaps, weave_concat_none hgaps]

theorem check (hpc : s.pc = .check) : Inv (recvCheck s) := by
  unfold recvCheck
  split
  · rename_i hf
    obtain ⟨-, hgaps⟩ := h.fromSocket.resolve_right (by omega)
    split
    · rename_i hq
      exact ⟨h.queue, h.socket, h.markers, h.fromSocket, h.processed,
        fun _ => h.socketMsg_eq_none hf hq, h.tooMany, h.seen, h.own⟩
    · -- A marker: the next message of the socket is due.
      rename_i m q hq
      refine ⟨?_, h.socket, h.markers, .inr ⟨by simp [hf], s.taken, m, rfl, hgaps⟩, ?_, ?_,
        h.tooMany, h.seen, h.own⟩
      · show s.queued = (s.taken ++ [.marker m]) ++ q
        rw [h.queue, hq]
        simp
      · show s.processed = weave ((s.taken ++ [QItem.marker m]).map QItem.slot) s.read
        rw [h.processed, map_append]
        exact (weave_concat_none hgaps).symm
      intro he
      rw [hpc] at he
      cases he
    -- A message of the queue.
    rename_i m n q hq
    refine ⟨?_, h.socket, h.markers, .inl ⟨hf, ?_⟩, ?_, ?_, h.tooMany, h.seen, h.own⟩
    · show s.queued = (s.taken ++ [.msg m n]) ++ q
      rw [h.queue, hq]
      simp
    · show gaps ((s.taken ++ [QItem.msg m n]).map QItem.slot) = _
      rw [map_append, gaps_append, hgaps]
      simp
    · show s.processed ++ [m] = weave ((s.taken ++ [QItem.msg m n]).map QItem.slot) s.read
      rw [h.processed, map_append]
      exact (weave_concat_some hgaps m).symm
    · intro he
      rw [hpc] at he
      cases he
  · rename_i hf
    split
    · -- The suspended message is due.
      rename_i m hm
      obtain ⟨hone, hgaps, hwoven⟩ := h.fill hf m
      refine ⟨h.queue, ?_, h.markers, .inl ⟨by simp [hone], hgaps⟩, hwoven, fun _ => rfl, h.tooMany,
        h.seen, h.own⟩
      show s.sent = (s.read ++ [m]) ++ [] ++ msgs s.socket
      rw [h.socket, hm]
      simp
    rename_i hm
    exact ⟨h.queue, h.socket, h.markers, h.fromSocket, h.processed, fun _ => hm, h.tooMany,
      h.seen, h.own⟩

theorem read (hpc : s.pc = .read) : Inv (recvRead s) := by
  have hnone := h.pc hpc
  have hsock := h.socket
  rw [hnone] at hsock
  unfold recvRead
  split
  · exact ⟨h.queue, h.socket, h.markers, h.fromSocket, h.processed, fun _ => hnone, h.tooMany,
      h.seen, h.own⟩
  · rename_i ds hd
    rw [hd] at hsock
    refine ⟨h.queue, ?_, h.markers, h.fromSocket, h.processed, fun _ => hnone, h.tooMany, h.seen,
      h.own⟩
    show s.sent = s.read ++ s.socketMsg.toList ++ msgs ds
    rw [hsock, hnone]
    rfl
  rename_i m ds hd
  rw [hd] at hsock
  split
  · -- No marker is open: the message is suspended.
    split
    · refine ⟨h.queue, ?_, h.markers, h.fromSocket, h.processed, fun he => ?_, h.tooMany, h.seen,
        h.own⟩
      · show s.sent = s.read ++ [m] ++ msgs ds
        rw [hsock]
        simp
      · cases he
    rename_i x hx
    rw [hnone] at hx
    cases hx
  rename_i hf
  obtain ⟨hone, hgaps, hwoven⟩ := h.fill hf m
  refine ⟨h.queue, ?_, h.markers, .inl ⟨by simp [hone], hgaps⟩, hwoven, fun _ => hnone, h.tooMany,
    h.seen, h.own⟩
  show s.sent = (s.read ++ [m]) ++ s.socketMsg.toList ++ msgs ds
  rw [hsock, hnone]
  simp

/-- **Every step keeps the invariant.** -/
theorem step (e : Event ι) : Inv (PortOrder.step s e) := by
  cases e with
  | send i => exact h.send i
  | mark i => exact h.mark i
  | datagram i => exact h.datagram i
  | wake => exact h.wake
  | check =>
    rw [PortOrder.step]
    split
    · exact h.check ‹_›
    · exact h
  | read =>
    rw [PortOrder.step]
    split
    · exact h.read ‹_›
    · exact h
  | leave => ?_
  refine ⟨h.queue, h.socket, h.markers, h.fromSocket, h.processed, fun he => ?_, h.tooMany,
    h.seen, h.own⟩
  cases he

theorem run (es : List (Event ι)) : Inv (PortOrder.run s es) := by
  induction es generalizing s with
  | nil => exact h
  | cons e es ih => exact ih (h.step e)

/-- The processed messages are the first of the woven order. -/
theorem processed_prefix : s.processed <+: weave (s.queued.map QItem.slot) s.sent := by
  rw [h.processed, h.queue, h.socket, map_append]
  refine weave_mono (prefix_append _ _) ?_
  rw [append_assoc]
  exact prefix_append _ _

end

end Inv

/-! ### Order -/

/-- **The order of processing.**  In every run of senders that publish a marker
before each of their datagrams, the receiver never has two suspended messages.
It processes the first of the woven order: queue items in the order of the
queue, and at each marker the next message of the socket.  A message that the
socket took before an item was enqueued comes before that item.  If the socket
takes the messages in the order of their markers, each is processed in the
place of its own marker, and those of one sender in the order it sent them. -/
theorem run_ordered (es : List (Event ι)) :
    (run init es).tooMany = false ∧
    (run init es).processed <+:
      weave ((run init es).queued.map QItem.slot) (run init es).sent ∧
    (∀ pre m n post, (run init es).queued = pre ++ .msg m n :: post →
      ∀ x ∈ (run init es).sent.take n, x ∈ weave (pre.map QItem.slot) (run init es).sent) ∧
    ((run init es).sent <+: markers (run init es).queued →
      (run init es).processed <+: (run init es).queued.map QItem.own ∧
      ∀ i, ((run init es).processed.filter fun m => decide (m.sender = i)) <+:
        sentBy (run init es) i) := by
  have h : Inv (run (init : State ι) es) := init_inv.run es
  refine ⟨h.tooMany, h.processed_prefix, ?_, ?_⟩
  · intro pre m n post hq x hx
    exact mem_weave_of_mem_take (h.seen pre m n post hq) hx
  · intro hsent
    have hown : ∀ (b : QItem ι) a, b.slot = some a → b.own = a := by
      intro b a hb
      cases b <;> cases hb
      rfl
    have hp := h.processed_prefix.trans (weave_prefix_map hown hsent)
    refine ⟨hp, fun i => ?_⟩
    rw [← h.own i]
    exact hp.filter _

/-- **A sender overtakes itself.**  Sender 0 publishes a marker; before its
datagram is out, sender 1 enqueues a message and sends the next one on the
socket.  The receiver takes the second for sender 0's marker and processes it
before the first. -/
theorem run_overtaken :
    (run init [.mark 0, .send 1, .mark 1, .datagram 1, .check, .check, .read, .check]
      : State (Fin 2)).processed = [⟨1, 1⟩, ⟨1, 0⟩] := by
  decide

end FreeUnit.PortOrder
