/-
Wake-ups on a port with a shared queue.

A sender puts an item into the queue, adds one to `nitems` and writes to the
socket if the counter was zero; the reader keeps one in the counter while it
runs.  A step is what happens up to an atomic operation.

* `step` — the steps of the senders and of the reader;
* `Inv.step` — what the counter is, and what a taken marker is waiting for;
* `awake_of_run` — no item is left to an idle reader, if none of its
  allocations fails and no datagram is refused;
* `asleep_without_memory` — one is left if the first suspended message fails.
-/
import FreeUnit.Bytes

namespace FreeUnit.QueueWakeup

/-- An item of the queue: a message, or the marker of one on the socket. -/
inductive Item
  | msg
  | readSocket
  deriving DecidableEq

inductive Dgram
  | readQueue
  | msg
  deriving DecidableEq

/-- Where `nxt_port_queue_read_handler` is: it waits for the socket, is at the
head of the loop, has taken an item that still counts, has given its own one
back, has taken an item after that, or is about to read the socket. -/
inductive Reader
  | idle
  | check
  | taken (x : Item) (held : Bool)
  | again
  | retaken (x : Item)
  | read
  deriving DecidableEq

/-- The senders are numbers: of those that have yet to count a message or a
marker, to write a READ_QUEUE (`port->announce` included), and to write the
message of a marker.  `suspended` is `port->socket_msg->size != 0`. -/
structure State where
  nitems : ℤ := 0
  queue : List Item := []
  socket : List Dgram := []
  counting : ℕ := 0
  marking : ℕ := 0
  notifying : ℕ := 0
  sending : ℕ := 0
  reader : Reader := .idle
  readReady : Bool := false
  fromSocket : ℕ := 0
  socketMsg : Bool := false
  suspended : Bool := false

/-- A step.  `wake` is the read event of the socket; `read` is a step of the reader,
with the answer of `nxt_mp_alloc` and that of `nxt_socket_msg_oob_get`. -/
inductive Event
  | enqueue (x : Item)
  | count
  | mark
  | notify
  | write
  | wake
  | read (memory oob : Bool)

@[simp] def Item.marks : Item → ℕ
  | .msg => 0
  | .readSocket => 1

/-- One step of `nxt_port_queue_read_handler`; errors that end the port are left out. -/
def readStep (memory oob : Bool) (s : State) : State :=
  match s.reader with
  | .idle => s
  | .check =>
    if s.fromSocket = 0 then
      match s.queue with
      | x :: q => { s with queue := q, reader := .taken x true }
      | [] =>
        if s.readReady then { s with reader := .read }
        else { s with nitems := s.nitems - 1, reader := .again }
    else if s.suspended then { s with suspended := false, fromSocket := s.fromSocket - 1 }
    else if s.readReady then { s with reader := .read }
    else { s with nitems := s.nitems - 1, reader := .idle }
  | .taken x true =>
    { s with nitems := s.nitems - 1, reader := .check, fromSocket := s.fromSocket + x.marks }
  | .taken x false => { s with nitems := s.nitems - 1, reader := .retaken x }
  | .again =>
    match s.queue with
    | x :: q => { s with queue := q, reader := .taken x false }
    | [] => { s with reader := .idle }
  | .retaken x =>
    { s with nitems := s.nitems + 1, reader := .check, fromSocket := s.fromSocket + x.marks }
  | .read =>
    match s.socket with
    | [] => { s with readReady := false, reader := .check }
    | d :: ds =>
      let s := { s with socket := ds, reader := .check }
      if !oob then { s with fromSocket := s.fromSocket - 1 }
      else if d = .readQueue then s
      else if s.fromSocket ≠ 0 then { s with fromSocket := s.fromSocket - 1 }
      else if s.suspended || !(memory || s.socketMsg) then
        -- it returns with its own one in the counter
        { s with reader := .idle }
      else { s with socketMsg := true, suspended := true }

/-- The port after a step; one that is not possible changes nothing. -/
def step (s : State) : Event → State
  | .enqueue .msg => { s with queue := s.queue ++ [.msg], counting := s.counting + 1 }
  | .enqueue .readSocket => { s with queue := s.queue ++ [.readSocket], marking := s.marking + 1 }
  | .count =>
    if s.counting = 0 then s
    else { s with
      nitems := s.nitems + 1
      counting := s.counting - 1
      notifying := if s.nitems = 0 then s.notifying + 1 else s.notifying }
  | .mark =>
    if s.marking = 0 then s
    else { s with nitems := s.nitems + 1, marking := s.marking - 1, sending := s.sending + 1 }
  | .notify =>
    if s.notifying = 0 then s
    else { s with notifying := s.notifying - 1, socket := s.socket ++ [.readQueue] }
  | .write =>
    if s.sending = 0 then s
    else { s with sending := s.sending - 1, socket := s.socket ++ [.msg] }
  | .wake =>
    if s.reader = .idle ∧ s.socket ≠ [] then
      { s with nitems := s.nitems + 1, reader := .check, readReady := true }
    else s
  | .read memory oob => readStep memory oob s

def run (es : List Event) : State := es.foldl step {}

/-- What the reader adds to the counter: its own one, and an item just taken. -/
@[simp] def Reader.credit : Reader → ℕ
  | .idle | .again | .retaken _ => 0
  | .check | .read | .taken _ false => 1
  | .taken _ true => 2

@[simp] def Reader.marks : Reader → ℕ
  | .taken x _ | .retaken x => x.marks
  | _ => 0

structure Inv (s : State) : Prop where
  count : s.nitems = s.queue.length - (s.counting + s.marking : ℤ) + s.reader.credit
  /-- A marker is in the queue, or taken, for each message not yet processed. -/
  markers : s.queue.count .readSocket + s.reader.marks + s.fromSocket =
    s.marking + s.sending + s.socket.count .msg + s.suspended.toNat
  suspended : s.reader = .idle ∨ s.reader = .again ∨ s.reader = .read → s.suspended = false
  wake : s.reader = .idle → s.fromSocket = 0 → 0 < s.nitems →
    0 < s.notifying + s.sending ∨ s.socket ≠ []

variable {s : State}

@[simp] theorem count_readSocket (x : Item) (q : List Item) :
    (x :: q).count .readSocket = q.count .readSocket + x.marks := by
  cases x <;> simp

theorem Inv.readStep (h : Inv s) : Inv (readStep true true s) := by
  obtain ⟨nitems, queue, socket, counting, marking, notifying, sending, reader, readReady,
    fromSocket, socketMsg, suspended⟩ := s
  obtain ⟨hcount, hmarkers, hsuspended, hwake⟩ := h
  dsimp only at hcount hmarkers hsuspended hwake
  unfold QueueWakeup.readStep
  cases reader with
  | idle => exact ⟨hcount, hmarkers, hsuspended, hwake⟩
  | check =>
    cases fromSocket with
    | zero =>
      cases queue with
      | cons x q => refine ⟨?_, ?_, nofun, nofun⟩ <;> simp at hcount hmarkers ⊢ <;> omega
      | nil => ?_
      -- no marker is there, so that no message is suspended
      have hnone : suspended = false := by
        cases suspended with
        | false => rfl
        | true => simp at hmarkers
      cases readReady with
      | true => exact ⟨hcount, hmarkers, fun _ => hnone, nofun⟩
      | false => ?_
      refine ⟨?_, hmarkers, fun _ => hnone, nofun⟩
      simp at hcount ⊢
      omega
    | succ n => ?_
    cases suspended with
    | true =>
      refine ⟨hcount, ?_, nofun, nofun⟩
      simp at hmarkers ⊢
      omega
    | false => ?_
    cases readReady with
    | true => exact ⟨hcount, hmarkers, fun _ => rfl, nofun⟩
    | false => ?_
    refine ⟨?_, hmarkers, fun _ => rfl, nofun⟩
    simp at hcount ⊢
    omega
  | taken x held =>
    cases held <;> refine ⟨?_, ?_, nofun, nofun⟩ <;> simp at hcount hmarkers ⊢ <;> omega
  | again =>
    cases queue with
    | cons x q => refine ⟨?_, ?_, nofun, nofun⟩ <;> simp at hcount hmarkers ⊢ <;> omega
    | nil => ?_
    -- every item that was counted is taken
    refine ⟨hcount, hmarkers, fun _ => hsuspended (.inr (.inl rfl)), fun _ _ hpos => ?_⟩
    simp at hcount hpos
    omega
  | retaken x => refine ⟨?_, ?_, nofun, nofun⟩ <;> simp at hcount hmarkers ⊢ <;> omega
  | read => ?_
  obtain rfl := hsuspended (.inr (.inr rfl))
  cases socket with
  | nil => exact ⟨hcount, hmarkers, nofun, nofun⟩
  | cons d ds => ?_
  cases d with
  | readQueue => exact ⟨hcount, by simpa using hmarkers, nofun, nofun⟩
  | msg => ?_
  cases fromSocket with
  | zero | succ n =>
    refine ⟨hcount, ?_, nofun, nofun⟩
    simp at hmarkers ⊢
    omega

/-- No allocation fails, and the control data of the datagram is read. -/
def Event.Fine : Event → Prop
  | .read memory oob => memory = true ∧ oob = true
  | _ => True

theorem Inv.step (h : Inv s) {e : Event} (he : e.Fine) : Inv (step s e) := by
  cases e with
  | enqueue x =>
    have hcount := h.count
    have hmarkers := h.markers
    cases x <;> refine ⟨?_, ?_, h.suspended, h.wake⟩ <;>
      simp [QueueWakeup.step] at hcount hmarkers ⊢ <;> omega
  | count =>
    rw [QueueWakeup.step]
    split
    · exact h
    refine ⟨?_, h.markers, h.suspended, fun hidle hzero hpos => ?_⟩
    · have hcount := h.count
      dsimp only
      omega
    · dsimp only at hpos ⊢
      split
      · omega
      · exact h.wake hidle hzero (by omega)
  | mark =>
    rw [QueueWakeup.step]
    split
    · exact h
    refine ⟨?_, ?_, h.suspended, fun _ _ _ => .inl ?_⟩
    · have hcount := h.count
      dsimp only
      omega
    · have hmarkers := h.markers
      dsimp only
      omega
    · dsimp only
      omega
  | notify =>
    rw [QueueWakeup.step]
    split
    · exact h
    · exact ⟨h.count, by simpa using h.markers, h.suspended, fun _ _ _ => .inr (by simp)⟩
  | write =>
    rw [QueueWakeup.step]
    split
    · exact h
    refine ⟨h.count, ?_, h.suspended, fun _ _ _ => .inr (by simp)⟩
    have hmarkers := h.markers
    simp only [List.count_append, List.count_singleton_self]
    omega
  | wake =>
    rw [QueueWakeup.step]
    split
    · next hw =>
      have hcount := h.count
      have hmarkers := h.markers
      rw [hw.1] at hcount hmarkers
      refine ⟨?_, hmarkers, nofun, nofun⟩
      simp at hcount ⊢
      omega
    · exact h
  | read memory oob =>
    obtain ⟨rfl, rfl⟩ := he
    exact h.readStep

theorem inv_run {es : List Event} (h : ∀ e ∈ es, e.Fine) : Inv (run es) := by
  refine List.foldlRecOn es QueueWakeup.step ⟨rfl, rfl, fun _ => rfl, nofun⟩ fun s hs e he => ?_
  exact hs.step (h e he)

/-- No sender is between its item and what it writes to the socket. -/
def State.Settled (s : State) : Prop :=
  s.counting = 0 ∧ s.marking = 0 ∧ s.notifying = 0 ∧ s.sending = 0

/-- **No item is left to an idle reader.**  Whatever the order of the steps, while
the counter is positive and no sender has yet to write, the reader runs or a
datagram waits for it, if no allocation fails and no datagram is refused. -/
theorem awake_of_run (es : List Event) (h : ∀ e ∈ es, e.Fine) (hset : (run es).Settled)
    (hpos : 0 < (run es).nitems) : (run es).reader ≠ .idle ∨ (run es).socket ≠ [] := by
  obtain ⟨-, hmarkers, hsuspended, hwake⟩ := inv_run h
  obtain ⟨-, hmarking, hnotifying, hsending⟩ := hset
  refine or_iff_not_imp_left.mpr fun hidle => ?_
  rw [not_not] at hidle
  by_cases hzero : (run es).fromSocket = 0
  · obtain hsend | hsocket := hwake hidle hzero hpos
    · omega
    · exact hsocket
  -- the message of the marker that was taken is on the socket
  intro hnil
  rw [hidle, hnil, hsuspended (.inl hidle), hmarking, hsending] at hmarkers
  simp at hmarkers
  omega

theorem awake_of_send :
    (run [.enqueue .msg, .count, .notify]).reader ≠ .idle ∨
      (run [.enqueue .msg, .count, .notify]).socket ≠ [] :=
  awake_of_run _ (by simp [Event.Fine]) ⟨rfl, rfl, rfl, rfl⟩ (by decide)

/-- A marker and its message come between the look at the queue and the read of the
socket, and there is no memory to keep the message. -/
theorem asleep_without_memory : ∃ es, (run es).Settled ∧ 0 < (run es).nitems ∧
    (run es).reader = .idle ∧ (run es).socket = [] :=
  ⟨[.enqueue .msg, .count, .notify, .wake, .read true true, .read true true, .read true true,
    .read true true, .read true true, .enqueue .readSocket, .mark, .write, .read false true],
    ⟨rfl, rfl, rfl, rfl⟩, by decide, rfl, rfl⟩

end FreeUnit.QueueWakeup
