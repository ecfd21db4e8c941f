/-
Sending on a port that has a shared queue.

`nxt_port_socket_send` puts a message into the shared memory queue of the port,
or publishes a READ_SOCKET marker there and sends the message on the socket.
On the socket it goes out at once, or waits in `port->messages`, or is refused.
What the function reads of the port, of the queue and of the kernel on the way
is input here; other threads and the receiver run between those reads.

* `send_error_silent_iff` — a failed send leaves nothing behind, except for a
  marker whose message was refused;
* `send_error_marker` — such a send.
-/
import FreeUnit.PortWrite

namespace FreeUnit.Port

/-! ### What a send does -/

inductive Ret
  | ok
  | error
  | again
  | done
  deriving Repr, DecidableEq

/-- What a send leaves for the receiver: an item or a marker in the shared
queue, a datagram, a datagram cut short, a message that waits in
`port->messages`, or a wake-up that the port owes. -/
inductive Effect
  | item (portMsg : PortMsg) (data : Bytes)
  | marker
  | datagram (d : Datagram)
  | short (d : Datagram)
  | queued (msg : SendMsg)
  | announce
  deriving Repr, DecidableEq

/-- `nxt_port_queue_send`, with its `notify`. -/
inductive QueueSend
  | ok (notify : Bool)
  | again
  | error
  deriving Repr, DecidableEq

/-- `nxt_socketpair_send_ex`. -/
inductive SocketSend
  | full
  | short
  | again
  | error
  deriving Repr, DecidableEq

/-- What `nxt_port_msg_chk_insert` finds under `port->write_mutex`, and whether
`nxt_port_msg_alloc` succeeds. -/
structure Backlog where
  writeReady : Bool
  messagesEmpty : Bool
  fdMessages : ℕ
  alloc : Bool

/-- What `nxt_port_msg_insert_tail` finds under it. -/
structure Tail where
  fdMessages : ℕ
  alloc : Bool

/-- Everything a send reads: whether the port has a queue, what the queue
answers, the backlog, what the kernel says to each fragment, and the tail. -/
structure World where
  queue : Bool
  queueSend : QueueSend
  backlog : Backlog
  socketSend : ℕ → SocketSend
  tail : Tail

/-- The arguments of `nxt_port_socket_send`. -/
structure SendArgs where
  type : ℕ
  fd : Option ℕ
  fd2 : Option ℕ
  stream : UInt32
  replyPort : UInt16
  buf : List SendBuf
  skipBacklogged : Bool

/-- `_NXT_PORT_MSG_READ_QUEUE`. -/
def readQueue : ℕ := 32

def maxFdMsgs : ℕ := 128

def maxEnqueueBufSize : ℕ := 31 - portMsgSize

def SendMsg.hasFd (msg : SendMsg) : Bool := msg.fd.1.isSome || msg.fd.2.isSome

/-- Whether a message with descriptors or without may wait for the socket:
`NXT_PORT_MAX_FD_MSGS` and the allocation. -/
def mayWait (hasFd : Bool) (fdMessages : ℕ) (alloc : Bool) : Bool :=
  !(hasFd && decide (maxFdMsgs ≤ fdMessages)) && alloc

/-- `nxt_port_write_msgs` for a message that is not in `port->messages`: the
answer, `send_failed`, and the effects.  `k` counts the fragments. -/
def writeMsgs (conf : SendConf) (w : World) : ℕ → ℕ → SendMsg → Ret × Bool × List Effect
  | 0, _, _ => (.ok, false, [])
  | fuel + 1, k, msg =>
    let d := msg.fragment conf
    match w.socketSend k with
    | .full =>
      match msg.sent conf with
      | none => (.ok, false, [.datagram d])
      | some msg' =>
        if conf.maxShare ≤ msg'.share then
          -- The rest waits for the write handler, or is dropped.
          if mayWait msg'.hasFd w.tail.fdMessages w.tail.alloc then
            (.ok, false, [.datagram d, .queued { msg' with share := 0 }])
          else (.ok, false, [.datagram d])
        else
          let r := writeMsgs conf w fuel (k + 1) msg'
          (r.1, r.2.1, .datagram d :: r.2.2)
    | .short => (.ok, false, [.short d])
    | .again =>
      if mayWait msg.hasFd w.tail.fdMessages w.tail.alloc then (.ok, false, [.queued msg])
      else if msg.portMsg.nf then (.ok, false, [])
      else (.error, false, [])
    | .error => (if msg.portMsg.nf then .ok else .error, true, [])

/-- `nxt_port_msg_chk_insert`, and the inline write when it declines. -/
def insertOrWrite (conf : SendConf) (w : World) (skipBacklogged : Bool) (msg : SendMsg) :
    Ret × Bool × List Effect :=
  if w.backlog.writeReady && w.backlog.messagesEmpty then
    writeMsgs conf w ((payload msg.buf).length + 1) 0 msg
  else if skipBacklogged then (.done, false, [])
  else if mayWait msg.hasFd w.backlog.fdMessages w.backlog.alloc then (.ok, false, [.queued msg])
  else (.error, false, [])

/-- `can_enqueue`: no buffer, or one that fits an item or is shared memory. -/
def canEnqueue : List SendBuf → Bool
  | [] => true
  | [.mem _ data mmap] => decide (data.length ≤ maxEnqueueBufSize) || mmap
  | [.sync _] => true
  | _ => false

/-- The item of `nxt_port_enqueue_buf`: the bytes, or the record of a shared
memory buffer. -/
def enqueueBuf (conf : SendConf) (pm : PortMsg) : List SendBuf → Effect
  | .mem pos data _ :: _ =>
    if data.length ≤ maxEnqueueBufSize then .item pm data
    else .item { pm with mmap := true } (conf.record ⟨pos, data⟩)
  | _ => .item pm []

def SendArgs.portMsg (a : SendArgs) (pid : UInt32) : PortMsg where
  stream := a.stream
  pid := pid
  replyPort := a.replyPort
  type := UInt8.ofNat a.type
  last := a.type.testBit 8
  mmap := false
  nf := false
  mf := false

def SendArgs.msg (a : SendArgs) (pid : UInt32) : SendMsg := ⟨a.portMsg pid, a.buf, (a.fd, a.fd2), 0⟩

def SendArgs.byQueue (a : SendArgs) : Bool := a.fd.isNone && canEnqueue a.buf

/-- `nxt_port_socket_send`: the answer and the effects. -/
def send (conf : SendConf) (pid : UInt32) (w : World) (a : SendArgs) : Ret × List Effect :=
  let msg := a.msg pid
  if w.queue && decide (a.type ≠ readQueue) then
    if a.byQueue then
      match w.queueSend with
      | .error => (.error, [])
      | .again => (.again, [])
      | .ok false => (.ok, [enqueueBuf conf msg.portMsg a.buf])
      | .ok true =>
        -- The socket carries a wake-up; that it fails is not the caller's concern.
        let r := insertOrWrite conf w a.skipBacklogged
          { msg with portMsg := { msg.portMsg with type := UInt8.ofNat readQueue }, buf := [] }
        let owed := if r.1 ≠ .ok ∧ r.2.1 = false then [.announce] else []
        (.ok, enqueueBuf conf msg.portMsg a.buf :: r.2.2 ++ owed)
    else
      match w.queueSend with
      | .error => (.error, [])
      | .again => (.again, [])
      | .ok _ =>
        let r := insertOrWrite conf w a.skipBacklogged msg
        (r.1, .marker :: r.2.2)
  else
    let r := insertOrWrite conf w a.skipBacklogged msg
    (r.1, r.2.2)

/-! ### The inline write -/

variable {conf : SendConf} {w : World} {msg : SendMsg}

/-- One fragment for each byte and one more is enough. -/
theorem writeMsgs_fuel {n m k : ℕ} (hn : (payload msg.buf).length < n)
    (hm : (payload msg.buf).length < m) : writeMsgs conf w n k msg = writeMsgs conf w m k msg := by
  induction n generalizing m k msg with
  | zero => exact absurd hn (Nat.not_lt_zero _)
  | succ n ih => ?_
  obtain ⟨m, rfl⟩ : ∃ m', m = m' + 1 := ⟨m - 1, by omega⟩
  rw [writeMsgs, writeMsgs]
  cases w.socketSend k with
  | short | again | error => rfl
  | full => ?_
  cases hsent : msg.sent conf with
  | none => rfl
  | some msg' => ?_
  have hshort := SendMsg.sent_shorter hsent
  have hn : (payload msg'.buf).length < n := by omega
  have hm : (payload msg'.buf).length < m := by omega
  simp only [ih hn hm]

/-- Once a fragment went out the message is the port's: the answer is
`NXT_OK`. -/
theorem writeMsgs_started (n k : ℕ) (h : msg.portMsg.nf = true) :
    (writeMsgs conf w n k msg).1 = .ok := by
  induction n generalizing k msg with
  | zero => rfl
  | succ n ih => ?_
  rw [writeMsgs]
  cases w.socketSend k with
  | short => rfl
  | again =>
    simp only [h, if_true]
    split <;> rfl
  | error => simp [h]
  | full => ?_
  cases hsent : msg.sent conf with
  | none => rfl
  | some msg' => ?_
  have hnf := (SendMsg.sent_eq_some hsent).2.1
  dsimp only
  split
  · split <;> rfl
  · exact ih (k + 1) hnf

/-! ### Refused messages -/

/-- The port refuses a message for the socket: its first fragment fails, or it
would have to wait and may not. -/
def World.refuses (w : World) (skipBacklogged hasFd : Bool) : Bool :=
  if w.backlog.writeReady && w.backlog.messagesEmpty then
    decide (w.socketSend 0 = .error) ||
      decide (w.socketSend 0 = .again) && !mayWait hasFd w.tail.fdMessages w.tail.alloc
  else !skipBacklogged && !mayWait hasFd w.backlog.fdMessages w.backlog.alloc

/-- **A refused message leaves nothing on the socket**, and one that is not
refused is not answered with an error. -/
theorem insertOrWrite_error (conf : SendConf) (w : World) (skip : Bool) (h : msg.portMsg.nf = false) :
    (w.refuses skip msg.hasFd = true →
      (insertOrWrite conf w skip msg).1 = .error ∧ (insertOrWrite conf w skip msg).2.2 = []) ∧
    (w.refuses skip msg.hasFd = false →
      (insertOrWrite conf w skip msg).1 = .ok ∨ (insertOrWrite conf w skip msg).1 = .done) := by
  unfold insertOrWrite World.refuses
  cases w.backlog.writeReady && w.backlog.messagesEmpty with
  | true =>
    simp only [if_true, writeMsgs]
    cases w.socketSend 0 with
    | short => simp
    | error => simp [h]
    | again => cases mayWait msg.hasFd w.tail.fdMessages w.tail.alloc <;> simp [h]
    | full => ?_
    refine ⟨by simp, fun _ => .inl ?_⟩
    cases hsent : msg.sent conf with
    | none => rfl
    | some msg' => ?_
    have hnf := (SendMsg.sent_eq_some hsent).2.1
    dsimp only
    split
    · split <;> rfl
    · exact writeMsgs_started _ _ hnf
  | false =>
    cases skip <;> cases mayWait msg.hasFd w.backlog.fdMessages w.backlog.alloc <;> simp

/-- The message takes a marker in the queue and itself the socket. -/
def SendArgs.marked (a : SendArgs) : Bool := decide (a.type ≠ readQueue) && !a.byQueue

/-- **A send that fails leaves nothing for the receiver to see, except when the
queue took a marker and the port then refused the message.** -/
theorem send_error_silent_iff (conf : SendConf) (pid : UInt32) (w : World) (a : SendArgs) :
    ((send conf pid w a).1 = .error ∨ (send conf pid w a).1 = .again →
      (send conf pid w a).2 = []) ↔
    ¬ (w.queue = true ∧ a.marked = true ∧ (∃ notify, w.queueSend = .ok notify) ∧
      w.refuses a.skipBacklogged (a.msg pid).hasFd = true) := by
  have hfirst : (a.msg pid).portMsg.nf = false := rfl
  obtain ⟨hrefused, htaken⟩ := insertOrWrite_error conf w a.skipBacklogged hfirst
  have hsocket : ∀ r : Ret × Bool × List Effect,
      r = insertOrWrite conf w a.skipBacklogged (a.msg pid) →
      (r.1 = .error ∨ r.1 = .again) → r.2.2 = [] := by
    rintro r rfl herr
    cases hr : w.refuses a.skipBacklogged (a.msg pid).hasFd with
    | true => exact (hrefused hr).2
    | false => rcases htaken hr with hok | hok <;> simp [hok] at herr
  by_cases hq : w.queue = true ∧ a.type ≠ readQueue
  · have hcond : (w.queue && decide (a.type ≠ readQueue)) = true := by simp [hq]
    cases hby : a.byQueue with
    | true =>
      -- In the queue alone: an error comes before anything is published.
      have hm : a.marked = false := by simp [SendArgs.marked, hby]
      simp only [send, hcond, hby, hm, if_true]
      cases w.queueSend with
      | again | error => simp
      | ok notify => cases notify <;> simp
    | false => ?_
    have hm : a.marked = true := by simp [SendArgs.marked, hby, hq.2]
    simp only [send, hcond, hby, if_true, Bool.false_eq_true, if_false]
    simp only [hm, hq.1, true_and]
    cases hs : w.queueSend with
    | again | error => simp
    | ok notify =>
      cases hr : w.refuses a.skipBacklogged (a.msg pid).hasFd with
      | true => simp [(hrefused hr).1]
      | false => rcases htaken hr with hok | hok <;> simp [hok]
  · have hcond : (w.queue && decide (a.type ≠ readQueue)) = false := by
      by_contra hc
      exact hq (by simpa using hc)
    have hm : ¬ (w.queue = true ∧ a.marked = true) := by
      rintro ⟨hwq, hmk⟩
      exact hq ⟨hwq, by simpa using (Bool.and_eq_true_iff.mp hmk).1⟩
    have hlhs : (send conf pid w a).1 = .error ∨ (send conf pid w a).1 = .again →
        (send conf pid w a).2 = [] := by
      simp only [send, hcond, Bool.false_eq_true, if_false]
      exact hsocket _ rfl
    exact ⟨fun _ hc => hm ⟨hc.1, hc.2.1⟩, fun _ => hlhs⟩

/-- **A marker without a message.**  A NEW_PORT message with a descriptor, to a
peer that is gone: the queue takes the marker, the socket fails, and the caller
is told that nothing was sent. -/
theorem send_error_marker :
    send ⟨16384, 65536, fun _ => [], by decide⟩ 7
      ⟨true, .ok true, ⟨true, true, 0, true⟩, fun _ => .error, ⟨0, true⟩⟩
      ⟨0x10D, some 5, none, 0, 0, [], false⟩ = (.error, [.marker]) := by
  decide

end FreeUnit.Port
