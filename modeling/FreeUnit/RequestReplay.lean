/-
Requests on the shared queue of an application, and when the router sends one again,
`nxt_router.c`.

A message is taken back by a compare-and-swap on the tracking word of its slot, and a
worker claims it by the same one.  When the last process of an application dies, the
router tries to take back every request that was not acknowledged; those it gets are
parked and sent again to the next process, the others are answered with 503.

* `retract`, `unlink`, `requeueHandler`, `resend`, `appTimeout` — the source;
* `step` — one event of a worker, of the engine of a request, or of the main thread;
* `reachable_runOnce` — behind a claim of a request it is neither claimed nor sent.
-/
import Mathlib.Logic.Function.Basic
import Mathlib.Data.List.Pairwise
import Mathlib.Tactic.Common

namespace FreeUnit.Replay

open List Function

/-! ### The source -/

/-- A slot of the shared queue, the stream by which a request is known, a reader of the
queue. -/
abbrev Slot := ℕ
abbrev Stream := ℕ
abbrev Worker := ℕ

/-- `nxt_msg_cancel_t` -/
inductive MsgCancel where
  | queued
  | retracted
  | claimed
  deriving DecidableEq, Repr

/-- `req_rpc_data->app_port` -/
inductive AppPort where
  | null
  | shared
  | worker (w : Worker)
  deriving DecidableEq, Repr

/-- Who holds the link of a request, and with it a reference of its memory pool. -/
inductive Owner where
  | nobody
  /-- `app->ack_waiting_req` -/
  | ackWaiting
  /-- `requeue_work` with `nxt_router_app_requeue_handler` is posted -/
  | requeueWork
  /-- `app->requeue_req` -/
  | requeueReq
  /-- `requeue_work` with `nxt_router_app_resend_handler` is posted -/
  | resendWork
  /-- `requeue_timer` is armed -/
  | resendTimer
  /-- `err_work` is posted -/
  | errWork
  deriving DecidableEq, Repr

/-- Where the engine of a request is: between the park of a request and the end of
`nxt_router_app_queue_send`, for the first time or again. -/
inductive Phase where
  | idle
  | sending
  | resending
  deriving DecidableEq, Repr

/-- `nxt_request_rpc_data_t` -/
structure RpcData where
  /-- `r->req_rpc_data` is not null -/
  linked : Bool := true
  /-- `msg_info.buf` is not null -/
  buf : Bool := true
  cancel : MsgCancel := .queued
  trackingCookie : Slot := 0
  appPort : AppPort := .shared
  requeued : Bool := false
  resendRetries : ℕ := 0
  claimedExpired : Bool := false
  owner : Owner := .ackWaiting
  phase : Phase := .sending
  /-- the status of an error response -/
  error : Option ℕ := none
  deriving DecidableEq, Repr

inductive Act where
  /-- the message is put on the queue -/
  | sent (s : Stream)
  | claimed (s : Stream) (w : Worker)
  deriving DecidableEq, Repr

def Act.stream : Act → Stream
  | .sent s => s
  | .claimed s _ => s

/-- The application: its queue, the readers, the requests. -/
structure State where
  /-- the tracking words -/
  tracking : Slot → Stream := fun _ => 0
  /-- the messages on the queue -/
  entries : List (Slot × Stream) := []
  alive : Worker → Bool := fun _ => false
  /-- the message that a reader has taken off the queue and not claimed yet -/
  held : Worker → Option (Slot × Stream) := fun _ => none
  reqs : Stream → RpcData := fun _ => {}
  requests : List Stream := []
  processes : ℕ := 0
  pendingProcesses : ℕ := 0
  requeuePending : ℕ := 0
  unaccountedProcesses : ℕ := 0
  log : List Act := []

def State.set (st : State) (s : Stream) (q : RpcData) : State :=
  { st with reqs := Function.update st.reqs s q }

def State.setTracking (st : State) (i : Slot) (s : Stream) : State :=
  { st with tracking := Function.update st.tracking i s }

def retract (st : State) (s : Stream) : State × Bool :=
  let q := st.reqs s
  if !q.buf then (st, false)
  else if q.cancel = .queued then
    if q.appPort ≠ .shared then (st, false)
    else if st.tracking q.trackingCookie = s then
      ((st.setTracking q.trackingCookie 0).set s { q with cancel := .retracted }, true)
    else (st.set s { q with cancel := .claimed }, false)
  else (st, q.cancel = .retracted)

def msgQueued (st : State) (s : Stream) : Bool :=
  let q := st.reqs s
  q.buf && q.cancel = .queued && q.appPort = .shared && st.tracking q.trackingCookie = s

/-- What `nxt_request_rpc_data_unlink` does behind the retraction. -/
def RpcData.unlinked (q : RpcData) : RpcData :=
  { q with
    buf := false
    appPort := .null
    linked := false
    owner := if q.owner = .ackWaiting ∨ q.owner = .requeueReq then .nobody else q.owner }

def unlink (st : State) (s : Stream) : State :=
  let st := (retract st s).1
  st.set s (st.reqs s).unlinked

def State.error (st : State) (s : Stream) (status : ℕ) : State :=
  st.set s { st.reqs s with error := some status }

/-- `nxt_router_app_requeue_handler` for the request -/
def requeueRequest (st : State) (s : Stream) : State :=
  if (st.reqs s).linked ∧ (st.reqs s).buf then
    let (st, retracted) := retract st s
    if retracted then st.set s { st.reqs s with requeued := true, owner := .requeueReq }
    else
      let st := unlink (st.error s 503) s
      st.set s { st.reqs s with owner := .nobody }
  else st.set s { st.reqs s with owner := .nobody }

/-- `nxt_router_app_requeue_handler`: the last one starts a process. -/
def requeueHandler (st : State) (s : Stream) : State :=
  { requeueRequest st s with requeuePending := st.requeuePending - 1 }

/-- `nxt_router_app_resend` up to the send. -/
def resend (st : State) (s : Stream) : State :=
  let q := st.reqs s
  if !q.linked || q.appPort = .null || !q.buf then st.set s { q with owner := .nobody }
  else st.set s { q with cancel := .queued, requeued := false, owner := .ackWaiting, phase := .resending }

def resendRetries : ℕ := 500

/-- `nxt_router_app_resend` behind a send that failed; `again` is `NXT_AGAIN`. -/
def resendFailed (st : State) (s : Stream) (again : Bool) : State :=
  let q := st.reqs s
  if q.owner ≠ .ackWaiting then
    -- the sweep took the request meanwhile
    st.set s { q with cancel := .retracted, phase := .idle }
  else
    let q := { q with cancel := .retracted, phase := .idle, owner := .nobody }
    if again ∧ q.resendRetries < resendRetries then
      st.set s { q with resendRetries := q.resendRetries + 1, requeued := true, owner := .resendTimer }
    else unlink ((st.set s q).error s (if again then 503 else 500)) s

/-- `nxt_router_app_timeout`; `zero` says that the application has no timeout. -/
def appTimeout (st : State) (zero : Bool) (s : Stream) : State :=
  if zero ∧ ((st.reqs s).requeued ∨ msgQueued st s) then st
  else
    let st := if (st.reqs s).cancel = .queued then (retract st s).1 else st
    let q := st.reqs s
    if q.cancel = .claimed ∧ q.appPort = .shared ∧ !q.claimedExpired then
      st.set s { q with claimedExpired := true }
    else unlink (st.error s 503) s

/-- `nxt_router_req_headers_ack_handler`; `known` says that the port is found. -/
def ackHandler (st : State) (s : Stream) (w : Worker) (known : Bool) : State :=
  let q := st.reqs s
  let q : RpcData := { q with owner := if q.owner = .ackWaiting then .nobody else q.owner }
  if known then st.set s { q with appPort := .worker w }
  else st.set s { q with error := some 500 }

def State.ownedBy (st : State) (o : Owner) : List Stream :=
  st.requests.filter fun s => (st.reqs s).owner = o

/-- A process is gone, and perhaps a place for the next one is taken. -/
def processClosed (st : State) (start : Bool) : State :=
  { st with
    processes := st.processes - 1
    pendingProcesses := if start then st.pendingProcesses + 1 else st.pendingProcesses }

/-- Every request in `app->ack_waiting_req` is posted to its engine. -/
def sweep (st : State) : State :=
  { st with
    requeuePending := st.requeuePending + (st.ownedBy .ackWaiting).length
    reqs := fun s =>
      if (st.reqs s).owner = .ackWaiting then { st.reqs s with owner := .requeueWork }
      else st.reqs s }

/-- `nxt_router_app_port_close`; `start` says that a process may and has to be started. -/
def appPortClose (st : State) (start : Bool) : State :=
  let st := processClosed st start
  if start ∧ st.processes = 0 ∧ st.pendingProcesses = 1 ∧ st.requeuePending = 0 ∧
      st.unaccountedProcesses = 0 ∧ st.ownedBy .ackWaiting ≠ [] then sweep st
  else st

/-- A slot that is neither on the queue nor held by a reader, alive or dead. -/
def State.Free (st : State) (i : Slot) : Prop :=
  (∀ s, (i, s) ∉ st.entries) ∧ ∀ w s, st.held w ≠ some (i, s)

/-- The events.  Those of the engine of a request come one after another, those of
readers and of the main thread at any time in between. -/
inductive Event where
  /-- a request is parked; `prepared` says that its message was built -/
  | arrive (s : Stream) (prepared : Bool)
  /-- `nxt_app_queue_send_bound` puts the message into a free slot -/
  | send (s : Stream) (i : Slot)
  /-- it finds no free slot, or puts the slot back after it was written -/
  | sendFails (s : Stream) (written : Option Slot)
  | requeue (s : Stream)
  | resend (s : Stream)
  | timeout (s : Stream) (zero : Bool)
  | ack (s : Stream) (w : Worker) (known : Bool)
  /-- the response is complete or the client has gone -/
  | done (s : Stream)
  /-- `nxt_router_http_request_error`, posted by a failed start -/
  | startError (s : Stream)
  /-- a reader takes a message off the queue -/
  | take (w : Worker)
  /-- and runs the compare-and-swap -/
  | claim (w : Worker)
  | die (w : Worker)
  | portClose (start : Bool)
  /-- `nxt_router_app_port_ready` of a process with a reader -/
  | portReady (w : Worker)
  /-- `nxt_router_app_resend_post` takes a request out of the queue; here at any time -/
  | resendPost (s : Stream)
  /-- `nxt_router_app_start_failed` takes a request out of a queue -/
  | startFailed (s : Stream)
  /-- the deadline of a start gives up on a process -/
  | startExpired

def State.Runs (st : State) (s : Stream) : Prop := s ∈ st.requests ∧ (st.reqs s).phase = .idle

inductive Next (st : State) : Event → State → Prop where
  | arrive {s : Stream} (prepared : Bool) : s ≠ 0 → s ∉ st.requests →
      Next st (.arrive s prepared) ({ st with requests := s :: st.requests }.set s
        (if prepared then {} else { buf := false, phase := .idle, error := some 500 }))
  | send {s : Stream} {i : Slot} : s ∈ st.requests → (st.reqs s).phase ≠ .idle → st.Free i →
      Next st (.send s i)
        { ((st.setTracking i s).set s { st.reqs s with trackingCookie := i, phase := .idle }) with
          entries := st.entries ++ [(i, s)]
          log := st.log ++ [.sent s] }
  | sendAgain {s : Stream} : s ∈ st.requests → (st.reqs s).phase = .resending →
      Next st (.sendFails s none) (resendFailed st s true)
  | sendError {s : Stream} {i : Slot} : s ∈ st.requests → (st.reqs s).phase = .resending →
      st.Free i → Next st (.sendFails s (some i))
        (resendFailed ((st.setTracking i s).set s { st.reqs s with trackingCookie := i }) s false)
  | firstAgain {s : Stream} : s ∈ st.requests → (st.reqs s).phase = .sending →
      Next st (.sendFails s none)
        (st.set s { st.reqs s with phase := .idle, error := some 500 })
  | firstError {s : Stream} {i : Slot} : s ∈ st.requests → (st.reqs s).phase = .sending →
      st.Free i → Next st (.sendFails s (some i))
        ((st.setTracking i s).set s
          { st.reqs s with trackingCookie := i, phase := .idle, error := some 500 })
  | requeue {s : Stream} : st.Runs s → (st.reqs s).owner = .requeueWork →
      Next st (.requeue s) (requeueHandler st s)
  | resend {s : Stream} : st.Runs s →
      (st.reqs s).owner = .resendWork ∨ (st.reqs s).owner = .resendTimer →
      Next st (.resend s) (Replay.resend st s)
  | timeout {s : Stream} (zero : Bool) : st.Runs s → (st.reqs s).linked = true →
      Next st (.timeout s zero) (appTimeout st zero s)
  | ack {s : Stream} (w : Worker) (known : Bool) : st.Runs s → (st.reqs s).linked = true →
      Next st (.ack s w known) (ackHandler st s w known)
  | done {s : Stream} : st.Runs s → (st.reqs s).linked = true → Next st (.done s) (unlink st s)
  | startError {s : Stream} : st.Runs s → (st.reqs s).owner = .errWork →
      Next st (.startError s)
        (let st := if (st.reqs s).linked then unlink (st.error s 503) s else st.error s 503
         st.set s { st.reqs s with owner := .nobody })
  | take {w : Worker} {e : Slot × Stream} {entries : List (Slot × Stream)} : st.alive w = true →
      st.held w = none → st.entries = e :: entries →
      Next st (.take w)
        { st with entries := entries, held := Function.update st.held w (some e) }
  | claim {w : Worker} {i : Slot} {s : Stream} : st.alive w = true → st.held w = some (i, s) →
      st.tracking i = s → Next st (.claim w)
        { st.setTracking i 0 with
          held := Function.update st.held w none
          log := st.log ++ [.claimed s w] }
  | drop {w : Worker} {i : Slot} {s : Stream} : st.alive w = true → st.held w = some (i, s) →
      st.tracking i ≠ s → Next st (.claim w)
        { st with held := Function.update st.held w none }
  | die {w : Worker} : st.alive w = true →
      Next st (.die w) { st with alive := Function.update st.alive w false }
  | portClose (start : Bool) : 0 < st.processes → Next st (.portClose start) (appPortClose st start)
  | portReady {w : Worker} (expired : Bool) : st.alive w = false → st.held w = none →
      Next st (.portReady w)
        { st with
          alive := Function.update st.alive w true
          processes := st.processes + 1
          pendingProcesses := if expired then st.pendingProcesses else st.pendingProcesses - 1
          unaccountedProcesses :=
            if expired then st.unaccountedProcesses - 1 else st.unaccountedProcesses }
  | resendPost {s : Stream} : (st.reqs s).owner = .requeueReq →
      Next st (.resendPost s) (st.set s { st.reqs s with owner := .resendWork })
  | startFailed {s : Stream} :
      (st.reqs s).owner = .ackWaiting ∨ (st.reqs s).owner = .requeueReq →
      Next st (.startFailed s) (st.set s { st.reqs s with owner := .errWork })
  | startExpired : Next st .startExpired
      { st with
        pendingProcesses := st.pendingProcesses - 1
        unaccountedProcesses := st.unaccountedProcesses + 1 }

inductive Reachable : State → Prop where
  | init : Reachable {}
  | next {st st' : State} {e : Event} : Reachable st → Next st e st' → Reachable st'

/-! ### The invariant -/

/-- The message is on the queue or with a reader, and can be claimed. -/
def Live (st : State) (i : Slot) (s : Stream) : Prop :=
  ((i, s) ∈ st.entries ∨ ∃ w, st.held w = some (i, s)) ∧ st.tracking i = s

def Claimed (st : State) (s : Stream) : Prop := ∃ w, .claimed s w ∈ st.log

def RpcData.Sendable (q : RpcData) : Prop :=
  q.owner = .requeueReq ∨ q.owner = .resendWork ∨ q.owner = .resendTimer ∨ q.phase ≠ .idle

/-- While the engine sends a request, only the main thread can take its link. -/
def RpcData.Steady (q : RpcData) : Prop :=
  q.phase ≠ .idle → q.cancel = .queued ∧
    (q.owner = .ackWaiting ∨ q.owner = .requeueWork ∨ q.owner = .errWork)

/-- What a live message or a claim says about its request. -/
structure Sound (st : State) (s : Stream) (q : RpcData) : Prop where
  live : ∀ i, Live st i s →
    q.trackingCookie = i ∧ q.cancel = .queued ∧ ¬ q.Sendable ∧ ¬ Claimed st s
  claimed : Claimed st s → st.tracking q.trackingCookie ≠ s ∧ q.cancel ≠ .retracted ∧ ¬ q.Sendable
  steady : q.Steady

/-- Behind a claim of a request it is neither claimed nor sent. -/
def RunOnce (log : List Act) : Prop := log.Pairwise fun a b => ∀ w, a ≠ .claimed b.stream w

structure Inv (st : State) : Prop where
  sound : ∀ s, Sound st s (st.reqs s)
  known : ∀ i s, ((i, s) ∈ st.entries ∨ ∃ w, st.held w = some (i, s)) → s ∈ st.requests
  claimed : ∀ s, Claimed st s → s ∈ st.requests
  nonzero : 0 ∉ st.requests
  once : RunOnce st.log

variable {st : State} {s : Stream} {q q' : RpcData}

theorem Sound.congr (h : Sound st s q) (hcookie : q'.trackingCookie = q.trackingCookie)
    (hcancel : q'.cancel = q.cancel) (hsend : q'.Sendable → q.Sendable) (hsteady : q'.Steady) :
    Sound st s q' where
  live := by
    intro i hi
    obtain ⟨h1, h2, h3, h4⟩ := h.live i hi
    exact ⟨hcookie.trans h1, hcancel.trans h2, fun hq => h3 (hsend hq), h4⟩
  claimed := by
    intro hc
    obtain ⟨h1, h2, h3⟩ := h.claimed hc
    rw [hcookie, hcancel]
    exact ⟨h1, h2, fun hq => h3 (hsend hq)⟩
  steady := hsteady

/-- No message of the request can be claimed, and none was. -/
structure Quiet (st : State) (s : Stream) : Prop where
  live : ∀ i, ¬ Live st i s
  claimed : ¬ Claimed st s

theorem Quiet.sound (h : Quiet st s) (hsteady : q.Steady) : Sound st s q :=
  ⟨fun i hi => absurd hi (h.live i), fun hc => absurd hc h.claimed, hsteady⟩

theorem Sound.quiet_of_sendable (h : Sound st s q) (hq : q.Sendable) : Quiet st s :=
  ⟨fun i hi => (h.live i hi).2.2.1 hq, fun hc => (h.claimed hc).2.2 hq⟩

theorem Sound.quiet_of_retracted (h : Sound st s q) (hq : q.cancel = .retracted) : Quiet st s :=
  ⟨fun i hi => absurd ((h.live i hi).2.1.symm.trans hq) (by decide),
    fun hc => (h.claimed hc).2.1 hq⟩

theorem RpcData.steady_of_idle (h : q.phase = .idle) : q.Steady := fun hne => absurd h hne

variable {st' : State}

/-- A step that makes nothing of the request live and does not claim it. -/
theorem Sound.mono (h : Sound st s q) (hlive : ∀ i, Live st' i s → Live st i s)
    (hclaimed : Claimed st' s → Claimed st s)
    (htrack : Claimed st s → st.tracking q.trackingCookie ≠ s → st'.tracking q.trackingCookie ≠ s) :
    Sound st' s q where
  live := by
    intro i hi
    obtain ⟨h1, h2, h3, h4⟩ := h.live i (hlive i hi)
    exact ⟨h1, h2, h3, fun hc => h4 (hclaimed hc)⟩
  claimed := by
    intro hc
    obtain ⟨h1, h2, h3⟩ := h.claimed (hclaimed hc)
    exact ⟨htrack (hclaimed hc) h1, h2, h3⟩
  steady := h.steady

theorem State.set_reqs (st : State) (s s' : Stream) (q : RpcData) :
    (st.set s q).reqs s' = if s' = s then q else st.reqs s' := by
  simp [State.set, update_apply]

@[simp]
theorem State.set_reqs_self (st : State) (s : Stream) (q : RpcData) : (st.set s q).reqs s = q := by
  simp [State.set_reqs]

theorem Inv.set (h : Inv st) (hq : Sound st s q) : Inv (st.set s q) where
  sound := by
    intro s'
    rw [State.set_reqs]
    split
    · rename_i hs
      subst hs
      exact hq.mono (fun _ hl => hl) (fun hc => hc) (fun _ ht => ht)
    · exact (h.sound s').mono (fun _ hl => hl) (fun hc => hc) (fun _ ht => ht)
  known := h.known
  claimed := h.claimed
  nonzero := h.nonzero
  once := h.once

/-! ### The engine of a request -/

variable {i j : Slot}

theorem State.setTracking_of_ne (st : State) (s : Stream) (h : j ≠ i) :
    (st.setTracking i s).tracking j = st.tracking j := by
  simp [State.setTracking, h]

/-- A tracking word is cleared: what was live in its slot is not any more. -/
theorem Live.of_clear {s' : Stream} (h : Inv st) (hl : Live (st.setTracking i 0) j s') :
    Live st j s' ∧ j ≠ i := by
  obtain ⟨hmem, htrack⟩ := hl
  have hne : j ≠ i := by
    rintro rfl
    have hzero : s' = 0 := htrack.symm.trans (update_self ..)
    exact h.nonzero (hzero ▸ h.known _ _ hmem)
  exact ⟨⟨hmem, (State.setTracking_of_ne st 0 hne).symm.trans htrack⟩, hne⟩

theorem tracking_clear_ne (h : Inv st) (hs : s ∈ st.requests) (hj : st.tracking j ≠ s) :
    (st.setTracking i 0).tracking j ≠ s := by
  show update st.tracking i 0 j ≠ s
  by_cases hji : j = i
  · rw [hji, update_self]
    rintro rfl
    exact h.nonzero hs
  rw [update_of_ne hji]
  exact hj

theorem Inv.clear (h : Inv st) : Inv (st.setTracking i 0) where
  sound := by
    intro s'
    refine (h.sound s').mono (fun j hl => (hl.of_clear h).1) (fun hc => hc) ?_
    exact fun hc ht => tracking_clear_ne h (h.claimed s' hc) ht
  known := h.known
  claimed := h.claimed
  nonzero := h.nonzero
  once := h.once

/-- **The retraction.** -/
theorem Inv.retract (h : Inv st) (hidle : (st.reqs s).phase = .idle) : Inv (retract st s).1 := by
  unfold Replay.retract
  dsimp only
  split
  · exact h
  split
  · split
    · exact h
    split
    · -- the slot of a live message is the cookie, so that nothing is live behind it
      rename_i hwon
      refine h.clear.set (Quiet.sound ⟨?_, ?_⟩ (RpcData.steady_of_idle hidle))
      · intro i hl
        obtain ⟨hl, hne⟩ := hl.of_clear h
        exact hne ((h.sound s).live i hl).1.symm
      · exact fun hc => ((h.sound s).claimed hc).1 hwon
    rename_i hlost
    refine h.set ⟨?_, ?_, RpcData.steady_of_idle hidle⟩
    · intro i hl
      obtain rfl := ((h.sound s).live i hl).1
      exact absurd hl.2 hlost
    · intro hc
      obtain ⟨h1, _, h3⟩ := (h.sound s).claimed hc
      exact ⟨h1, by simp, h3⟩
  · exact h

/-- It changes `cancel` only. -/
theorem retract_reqs (st : State) (s : Stream) :
    ∃ c, (retract st s).1.reqs s = { st.reqs s with cancel := c } := by
  unfold retract
  dsimp only
  split
  · exact ⟨_, rfl⟩
  split
  · split
    · exact ⟨_, rfl⟩
    split
    · exact ⟨_, State.set_reqs_self _ _ _⟩
    · exact ⟨_, State.set_reqs_self _ _ _⟩
  · exact ⟨_, rfl⟩

theorem retract_phase (st : State) (s : Stream) :
    ((retract st s).1.reqs s).phase = (st.reqs s).phase := by
  obtain ⟨c, hc⟩ := retract_reqs st s
  rw [hc]

theorem retract_cancel (hwon : (retract st s).2 = true) :
    ((retract st s).1.reqs s).cancel = .retracted := by
  unfold retract at hwon ⊢
  dsimp only at hwon ⊢
  split at hwon
  · cases hwon
  rename_i hbuf
  rw [if_neg hbuf]
  split at hwon
  · rename_i hqueued
    rw [if_pos hqueued]
    split at hwon
    · cases hwon
    rename_i hport
    rw [if_neg hport]
    split at hwon
    · rename_i htrack
      rw [if_pos htrack]
      simp
    · cases hwon
  rename_i hqueued
  rw [if_neg hqueued]
  simpa using hwon

theorem RpcData.unlinked_sendable (h : q.unlinked.Sendable) : q.Sendable := by
  unfold RpcData.Sendable RpcData.unlinked at *
  dsimp only at h
  split at h
  · exact .inr (.inr (.inr (by simpa using h)))
  · exact h

theorem Inv.unlink (h : Inv st) (hidle : (st.reqs s).phase = .idle) : Inv (unlink st s) := by
  have hr := h.retract hidle
  have hphase := (retract_phase st s).trans hidle
  exact hr.set ((hr.sound s).congr rfl rfl RpcData.unlinked_sendable (RpcData.steady_of_idle hphase))

theorem unlink_phase (st : State) (s : Stream) :
    ((unlink st s).reqs s).phase = (st.reqs s).phase := by
  unfold unlink
  simp only [State.set_reqs_self]
  exact retract_phase st s

theorem Inv.error (h : Inv st) (status : ℕ) : Inv (st.error s status) :=
  h.set ((h.sound s).congr rfl rfl (fun hq => hq) (h.sound s).steady)

theorem error_phase (st : State) (s : Stream) (status : ℕ) :
    ((st.error s status).reqs s).phase = (st.reqs s).phase := by
  simp [State.error]

theorem Inv.release (h : Inv st) (hidle : (st.reqs s).phase = .idle) :
    Inv (st.set s { st.reqs s with owner := .nobody }) := by
  refine h.set ((h.sound s).congr rfl rfl ?_ (RpcData.steady_of_idle hidle))
  intro hq
  exact absurd hq (by simp [RpcData.Sendable, hidle])

/-- **The sweep**: a request is parked to be sent again only if it was taken back. -/
theorem Inv.requeueRequest (h : Inv st) (hidle : (st.reqs s).phase = .idle) :
    Inv (requeueRequest st s) := by
  unfold Replay.requeueRequest
  split
  · dsimp only
    have hr := h.retract hidle
    have hphase := (retract_phase st s).trans hidle
    split
    · rename_i hwon
      exact hr.set (((hr.sound s).quiet_of_retracted (retract_cancel hwon)).sound
        (RpcData.steady_of_idle hphase))
    have herror := (error_phase (Replay.retract st s).1 s 503).trans hphase
    exact ((hr.error 503).unlink herror).release ((unlink_phase _ s).trans herror)
  · exact h.release hidle

theorem Inv.resend (h : Inv st) (howner : (st.reqs s).owner = .resendWork ∨
    (st.reqs s).owner = .resendTimer) (hidle : (st.reqs s).phase = .idle) : Inv (resend st s) := by
  have hquiet : Quiet st s := by
    refine (h.sound s).quiet_of_sendable ?_
    rcases howner with ho | ho
    · exact .inr (.inl ho)
    · exact .inr (.inr (.inl ho))
  unfold Replay.resend
  dsimp only
  split
  · exact h.release hidle
  · exact h.set (hquiet.sound fun _ => ⟨rfl, .inl rfl⟩)

theorem Inv.resendFailed (h : Inv st) (hquiet : Quiet st s) (again : Bool) :
    Inv (resendFailed st s again) := by
  unfold Replay.resendFailed
  dsimp only
  split
  · exact h.set (hquiet.sound (RpcData.steady_of_idle rfl))
  split
  · exact h.set (hquiet.sound (RpcData.steady_of_idle rfl))
  have hset := h.set (q := { st.reqs s with
      cancel := .retracted, phase := .idle, owner := .nobody })
    (hquiet.sound (RpcData.steady_of_idle rfl))
  exact (hset.error _).unlink (by simp [State.error])

theorem Inv.appTimeout (h : Inv st) (hidle : (st.reqs s).phase = .idle) (zero : Bool) :
    Inv (appTimeout st zero s) := by
  unfold Replay.appTimeout
  split
  · exact h
  dsimp only
  have hmid : Inv (if (st.reqs s).cancel = .queued then (Replay.retract st s).1 else st) ∧
      ((if (st.reqs s).cancel = .queued then (Replay.retract st s).1 else st).reqs s).phase = .idle := by
    split
    · exact ⟨h.retract hidle, (retract_phase st s).trans hidle⟩
    · exact ⟨h, hidle⟩
  generalize (if (st.reqs s).cancel = .queued then (Replay.retract st s).1 else st) = mid at hmid ⊢
  obtain ⟨hinv, hphase⟩ := hmid
  split
  · exact hinv.set ((hinv.sound s).congr rfl rfl (fun hq => hq) (RpcData.steady_of_idle hphase))
  · exact (hinv.error 503).unlink ((error_phase mid s 503).trans hphase)

theorem Inv.ackHandler (h : Inv st) (hidle : (st.reqs s).phase = .idle) (w : Worker) (known : Bool) :
    Inv (ackHandler st s w known) := by
  have hsend (q : RpcData) (hphase : q.phase = .idle) (howner : q.owner =
      if (st.reqs s).owner = .ackWaiting then .nobody else (st.reqs s).owner)
      (hq : q.Sendable) : (st.reqs s).Sendable := by
    unfold RpcData.Sendable at *
    rw [howner] at hq
    split at hq
    · exact absurd hq (by simp [hphase])
    · simpa [hphase, hidle] using hq
  unfold Replay.ackHandler
  dsimp only
  split
  · exact h.set ((h.sound s).congr rfl rfl (hsend _ hidle rfl) (RpcData.steady_of_idle hidle))
  · exact h.set ((h.sound s).congr rfl rfl (hsend _ hidle rfl) (RpcData.steady_of_idle hidle))

/-! ### All events -/

theorem RunOnce.snoc {log : List Act} {a : Act} (h : RunOnce log)
    (ha : ∀ w, .claimed a.stream w ∉ log) : RunOnce (log ++ [a]) := by
  refine pairwise_append.mpr ⟨h, pairwise_singleton _ _, ?_⟩
  rintro b hb c hc w rfl
  rw [mem_singleton.mp hc] at hb
  exact ha w hb

theorem Inv.arrive (h : Inv st) (hs : s ≠ 0) (hnew : s ∉ st.requests) (hsteady : q.Steady) :
    Inv ({ st with requests := s :: st.requests }.set s q) := by
  have hquiet : Quiet st s := ⟨fun i hl => hnew (h.known i s hl.1), fun hc => hnew (h.claimed s hc)⟩
  have hinv : Inv { st with requests := s :: st.requests } :=
    ⟨fun s' => (h.sound s').mono (fun _ hl => hl) (fun hc => hc) (fun _ ht => ht),
      fun i s' hl => mem_cons_of_mem _ (h.known i s' hl),
      fun s' hc => mem_cons_of_mem _ (h.claimed s' hc),
      fun hz => (mem_cons.mp hz).elim (fun hz => hs hz.symm) h.nonzero, h.once⟩
  exact hinv.set (Quiet.sound ⟨fun i hl => hquiet.live i hl, fun hc => hquiet.claimed hc⟩ hsteady)

theorem State.Free.ne {s' : Stream} (h : st.Free i)
    (hj : (j, s') ∈ st.entries ∨ ∃ w, st.held w = some (j, s')) : j ≠ i := by
  rintro rfl
  rcases hj with hj | ⟨w, hj⟩
  · exact h.1 s' hj
  · exact h.2 w s' hj

/-- A free slot is written: nothing else becomes live, and no other word changes. -/
theorem Inv.write (h : Inv st) (hfree : st.Free i) (hquiet : Quiet st s) (hsteady : q.Steady) :
    Inv ((st.setTracking i s).set s q) ∧ Quiet ((st.setTracking i s).set s q) s := by
  have hlive (j : Slot) (s' : Stream) (hl : Live (st.setTracking i s) j s') : Live st j s' :=
    ⟨hl.1, (State.setTracking_of_ne st s (hfree.ne hl.1)).symm.trans hl.2⟩
  have hquiet' : Quiet (st.setTracking i s) s :=
    ⟨fun j hl => hquiet.live j (hlive j s hl), hquiet.claimed⟩
  have hinv : Inv (st.setTracking i s) := by
    refine ⟨fun s' => (h.sound s').mono (fun j hl => hlive j s' hl) (fun hc => hc) ?_, h.known,
      h.claimed, h.nonzero, h.once⟩
    intro hc ht
    show update st.tracking i s _ ≠ s'
    rw [update_apply]
    split
    · rintro rfl
      exact hquiet.claimed hc
    · exact ht
  exact ⟨hinv.set (hquiet'.sound hsteady), ⟨fun j hl => hquiet'.live j hl, hquiet'.claimed⟩⟩

/-- **A send.** -/
theorem Inv.send (h : Inv st) (hs : s ∈ st.requests) (hphase : (st.reqs s).phase ≠ .idle)
    (hfree : st.Free i) : Inv
      { ((st.setTracking i s).set s { st.reqs s with trackingCookie := i, phase := .idle }) with
        entries := st.entries ++ [(i, s)]
        log := st.log ++ [.sent s] } := by
  have hquiet : Quiet st s := (h.sound s).quiet_of_sendable (.inr (.inr (.inr hphase)))
  obtain ⟨hqueued, howner⟩ := (h.sound s).steady hphase
  obtain ⟨hinv, hquiet'⟩ := h.write (q := { st.reqs s with trackingCookie := i, phase := .idle })
    hfree hquiet (RpcData.steady_of_idle rfl)
  have hclaimed (s' : Stream) (hc : ∃ w, Act.claimed s' w ∈ st.log ++ [.sent s]) : Claimed st s' := by
    obtain ⟨w, hw⟩ := hc
    exact ⟨w, by simpa using hw⟩
  refine ⟨?_, ?_, fun s' hc => h.claimed s' (hclaimed s' hc), h.nonzero,
    h.once.snoc fun w hw => hquiet.claimed ⟨w, hw⟩⟩
  · intro s'
    by_cases hs' : s' = s
    · subst hs'
      simp only [State.set_reqs_self]
      refine ⟨?_, fun hc => absurd (hclaimed _ hc) hquiet.claimed, RpcData.steady_of_idle rfl⟩
      rintro j ⟨hmem, htrack⟩
      refine ⟨?_, hqueued, ?_, fun hc => hquiet.claimed (hclaimed _ hc)⟩
      · by_contra hne
        refine hquiet'.live j ⟨?_, htrack⟩
        rcases hmem with hmem | hmem
        · rcases mem_append.mp hmem with hmem | hmem
          · exact .inl hmem
          · exact absurd (Prod.mk.inj (mem_singleton.mp hmem)).1.symm hne
        · exact .inr hmem
      · rcases howner with ho | ho | ho <;> simp [RpcData.Sendable, ho]
    · refine (hinv.sound s').mono ?_ (hclaimed s') (fun _ ht => ht)
      rintro j ⟨hmem, htrack⟩
      refine ⟨?_, htrack⟩
      rcases hmem with hmem | hmem
      · rcases mem_append.mp hmem with hmem | hmem
        · exact .inl hmem
        · exact absurd (Prod.mk.inj (mem_singleton.mp hmem)).2 hs'
      · exact .inr hmem
  · rintro j s' (hmem | hmem)
    · rcases mem_append.mp hmem with hmem | hmem
      · exact h.known j s' (.inl hmem)
      · rw [(Prod.mk.inj (mem_singleton.mp hmem)).2]
        exact hs
    · exact h.known j s' (.inr hmem)

/-- A step in which no message appears, none is claimed, and every tracking word and
every request stays. -/
theorem Inv.of_fewer (h : Inv st)
    (hmem : ∀ i s, ((i, s) ∈ st'.entries ∨ ∃ w, st'.held w = some (i, s)) → (i, s) ∈ st.entries ∨ ∃ w, st.held w = some (i, s))
    (htrack : st'.tracking = st.tracking) (hreqs : st'.reqs = st.reqs)
    (hrequests : st'.requests = st.requests) (hlog : st'.log = st.log) : Inv st' := by
  have hclaimed (s : Stream) (hc : Claimed st' s) : Claimed st s := by
    rwa [Claimed, hlog] at hc
  refine ⟨fun s => ?_, fun i s hl => hrequests ▸ h.known i s (hmem i s hl),
    fun s hc => hrequests ▸ h.claimed s (hclaimed s hc), hrequests ▸ h.nonzero, hlog ▸ h.once⟩
  rw [hreqs]
  exact (h.sound s).mono (fun i hl => ⟨hmem i s hl.1, htrack ▸ hl.2⟩) (hclaimed s)
    (fun _ ht => htrack ▸ ht)

theorem mem_of_update_held {w w' : Worker} {e : Slot × Stream}
    (h : update st.held w none w' = some e) : st.held w' = some e := by
  by_cases hw : w' = w
  · simp [hw] at h
  · rwa [update_of_ne hw] at h

/-- **A claim.** -/
theorem Inv.claim {w : Worker} (h : Inv st) (hheld : st.held w = some (i, s))
    (htrack : st.tracking i = s) : Inv
      { st.setTracking i 0 with
        held := update st.held w none
        log := st.log ++ [.claimed s w] } := by
  have hlive : Live st i s := ⟨.inr ⟨w, hheld⟩, htrack⟩
  obtain ⟨hcookie, hqueued, hsend, hnot⟩ := (h.sound s).live i hlive
  have hclaimed (s' : Stream) (hs : s' ≠ s)
      (hc : ∃ w', Act.claimed s' w' ∈ st.log ++ [.claimed s w]) : Claimed st s' := by
    obtain ⟨w', hw'⟩ := hc
    rcases mem_append.mp hw' with hw' | hw'
    · exact ⟨w', hw'⟩
    · cases mem_singleton.mp hw'
      exact absurd rfl hs
  have hmem (j : Slot) (s' : Stream)
      (hl : (j, s') ∈ st.entries ∨ ∃ w', update st.held w none w' = some (j, s')) :
      (j, s') ∈ st.entries ∨ ∃ w', st.held w' = some (j, s') :=
    hl.imp_right fun ⟨w', hw'⟩ => ⟨w', mem_of_update_held hw'⟩
  refine ⟨?_, fun j s' hl => h.known j s' (hmem j s' hl), ?_, h.nonzero,
    h.once.snoc fun w' hw' => hnot ⟨w', hw'⟩⟩
  · intro s'
    by_cases hs : s' = s
    · subst hs
      refine ⟨?_, fun _ => ⟨?_, ?_, hsend⟩, (h.sound s').steady⟩
      · rintro j ⟨hl, ht⟩
        obtain ⟨hl', hne⟩ := Live.of_clear h ⟨hmem j s' hl, ht⟩
        exact absurd (((h.sound s').live j hl').1.symm.trans hcookie) hne
      · show (st.setTracking i 0).tracking (st.reqs s').trackingCookie ≠ s'
        rw [hcookie]
        show update st.tracking i 0 i ≠ s'
        rw [update_self]
        rintro rfl
        exact h.nonzero (h.known i 0 hlive.1)
      · show (st.reqs s').cancel ≠ .retracted
        rw [hqueued]
        decide
    · refine (h.sound s').mono ?_ (hclaimed s' hs) ?_
      · rintro j ⟨hl, ht⟩
        exact (Live.of_clear h ⟨hmem j s' hl, ht⟩).1
      · exact fun hc ht => tracking_clear_ne h (h.claimed s' hc) ht
  · intro s' hc
    by_cases hs : s' = s
    · subst hs
      exact h.known i s' hlive.1
    · exact h.claimed s' (hclaimed s' hs hc)

/-- The main thread gives the link of a request to a work or a queue. -/
theorem Sound.handOver {o : Owner} (h : Sound st s q)
    (hfrom : q.owner = .ackWaiting ∧ (o = .requeueWork ∨ o = .errWork) ∨
      q.owner = .requeueReq ∧ (o = .resendWork ∨ o = .errWork)) :
    Sound st s { q with owner := o } := by
  refine h.congr rfl rfl ?_ ?_
  · rintro (hq | hq | hq | hq)
    · rcases hfrom with ⟨_, rfl | rfl⟩ | ⟨_, rfl | rfl⟩ <;> cases hq
    · rcases hfrom with ⟨_, rfl | rfl⟩ | ⟨hf, rfl | rfl⟩
      · cases hq
      · cases hq
      · exact .inl hf
      · cases hq
    · rcases hfrom with ⟨_, rfl | rfl⟩ | ⟨_, rfl | rfl⟩ <;> cases hq
    · exact .inr (.inr (.inr hq))
  · intro hphase
    obtain ⟨hqueued, hold⟩ := h.steady hphase
    refine ⟨hqueued, ?_⟩
    rcases hfrom with ⟨_, rfl | rfl⟩ | ⟨hf, _⟩
    · exact .inr (.inl rfl)
    · exact .inr (.inr rfl)
    rw [hf] at hold
    exact absurd hold (by decide)

theorem Inv.sweep (h : Inv st) : Inv (sweep st) := by
  refine ⟨fun s => ?_, h.known, h.claimed, h.nonzero, h.once⟩
  have hsound : Sound st s ((Replay.sweep st).reqs s) := by
    unfold Replay.sweep
    dsimp only
    split
    · rename_i howner
      exact (h.sound s).handOver (.inl ⟨howner, .inl rfl⟩)
    · exact h.sound s
  exact hsound.mono (fun _ hl => hl) (fun hc => hc) (fun _ ht => ht)

theorem Inv.appPortClose (h : Inv st) (start : Bool) : Inv (appPortClose st start) := by
  have hclosed : Inv (processClosed st start) := h.of_fewer (fun _ _ hl => hl) rfl rfl rfl rfl
  unfold Replay.appPortClose
  dsimp only
  split
  · exact hclosed.sweep
  · exact hclosed

/-- **Every event.** -/
theorem Inv.next {e : Event} (h : Inv st) (hnext : Next st e st') : Inv st' := by
  cases hnext with
  | arrive prepared hs hnew =>
    refine h.arrive hs hnew ?_
    cases prepared with
    | true => exact fun _ => ⟨rfl, .inl rfl⟩
    | false => exact RpcData.steady_of_idle rfl
  | send hs hphase hfree => exact h.send hs hphase hfree
  | @sendAgain s hs hphase =>
    refine h.resendFailed ((h.sound s).quiet_of_sendable (.inr (.inr (.inr ?_)))) true
    simp [hphase]
  | @sendError s i hs hphase hfree =>
    have hphase' : (st.reqs s).phase ≠ .idle := by simp [hphase]
    have hquiet := (h.sound s).quiet_of_sendable (.inr (.inr (.inr hphase')))
    obtain ⟨hinv, hq⟩ := h.write (q := { st.reqs s with trackingCookie := i }) hfree hquiet
      (fun hne => (h.sound s).steady hne)
    exact hinv.resendFailed hq false
  | @firstAgain s hs hphase =>
    have hphase' : (st.reqs s).phase ≠ .idle := by simp [hphase]
    exact h.set (((h.sound s).quiet_of_sendable (.inr (.inr (.inr hphase')))).sound
      (RpcData.steady_of_idle rfl))
  | @firstError s i hs hphase hfree =>
    have hphase' : (st.reqs s).phase ≠ .idle := by simp [hphase]
    have hquiet := (h.sound s).quiet_of_sendable (.inr (.inr (.inr hphase')))
    exact (h.write hfree hquiet (RpcData.steady_of_idle rfl)).1
  | @requeue s hruns howner =>
    exact (h.requeueRequest hruns.2).of_fewer (fun _ _ hl => hl) rfl rfl rfl rfl
  | resend hruns howner => exact h.resend howner hruns.2
  | timeout zero hruns hlinked => exact h.appTimeout hruns.2 zero
  | ack w known hruns hlinked => exact h.ackHandler hruns.2 w known
  | done hruns hlinked => exact h.unlink hruns.2
  | @startError s hruns howner =>
    have herror := (error_phase st s 503).trans hruns.2
    dsimp only
    split
    · exact ((h.error 503).unlink herror).release ((unlink_phase _ s).trans herror)
    · exact (h.error 503).release herror
  | @take w e entries halive hheld hentries =>
    refine h.of_fewer ?_ rfl rfl rfl rfl
    rintro j s (hmem | ⟨w', hw'⟩)
    · exact .inl (hentries ▸ mem_cons_of_mem _ hmem)
    dsimp only at hw'
    rw [update_apply] at hw'
    split at hw'
    · rw [hentries, ← Option.some.inj hw']
      exact .inl mem_cons_self
    · exact .inr ⟨w', hw'⟩
  | claim halive hheld htrack => exact h.claim hheld htrack
  | drop halive hheld htrack =>
    refine h.of_fewer ?_ rfl rfl rfl rfl
    exact fun j s hl => hl.imp_right fun ⟨w', hw'⟩ => ⟨w', mem_of_update_held hw'⟩
  | die | portReady | startExpired => exact h.of_fewer (fun _ _ hl => hl) rfl rfl rfl rfl
  | portClose start hpos => exact h.appPortClose start
  | @resendPost s howner =>
    exact h.set ((h.sound s).handOver (.inr ⟨howner, .inl rfl⟩))
  | @startFailed s howner =>
    refine h.set ((h.sound s).handOver ?_)
    exact howner.imp (fun ho => ⟨ho, .inr rfl⟩) (fun ho => ⟨ho, .inr rfl⟩)

theorem Reachable.inv (h : Reachable st) : Inv st := by
  induction h with
  | init =>
    have hlive (i : Slot) (s : Stream) : ¬ Live {} i s := by
      rintro ⟨hmem | ⟨w, hw⟩, _⟩
      · exact absurd hmem not_mem_nil
      · cases hw
    have hclaimed (s : Stream) : ¬ Claimed {} s := by
      rintro ⟨w, hw⟩
      exact absurd hw not_mem_nil
    refine ⟨fun s => Quiet.sound ⟨fun i => hlive i s, hclaimed s⟩ fun _ => ⟨rfl, .inl rfl⟩, ?_,
      fun s hc => absurd hc (hclaimed s), not_mem_nil, .nil⟩
    rintro i s (hmem | ⟨w, hw⟩)
    · exact absurd hmem not_mem_nil
    · cases hw
  | next _ hnext ih => exact ih.next hnext

/-- **No request is run twice**: in every run of the readers, of the engines and of the
main thread, behind a claim of a request there is neither another claim of it nor
another send. -/
theorem reachable_runOnce (h : Reachable st) : RunOnce st.log := h.inv.once

/-- A request that was taken back and waits for the next process. -/
def takenBack : RpcData :=
  { cancel := .retracted, requeued := true, owner := .requeueReq, phase := .idle }

/-- The first reader dies with the message in its hands, and the router takes it back. -/
theorem reachable_takenBack : ∃ st, Reachable st ∧ st.requests = [7] ∧ st.reqs 7 = takenBack ∧
    st.entries = [] ∧ st.alive 1 = false ∧ (∀ w, st.held w = if w = 0 then some (0, 7) else none) ∧
    st.log = [.sent 7] := by
  have h1 := Reachable.init.next (.portReady (w := 0) false rfl rfl)
  have h2 := h1.next (.arrive (s := 7) true (by decide) not_mem_nil)
  have h3 := h2.next (.send (s := 7) (i := 0) mem_cons_self (by decide)
    ⟨fun _ => not_mem_nil, fun _ _ hw => nomatch hw⟩)
  have h4 := h3.next (.take (w := 0) rfl rfl rfl)
  have h5 := h4.next (.die (w := 0) rfl)
  have h6 := h5.next (.portClose true (by decide))
  have h7 := h6.next (.requeue (s := 7) ⟨mem_cons_self, rfl⟩ rfl)
  refine ⟨_, h7, rfl, rfl, rfl, rfl, fun w => ?_, rfl⟩
  match w with
  | 0 => rfl
  | _ + 1 => rfl

theorem reachable_runOnce_resent : ∃ st, Reachable st ∧
    st.log = [.sent 7, .sent 7, .claimed 7 1] ∧ RunOnce st.log := by
  obtain ⟨st, hst, hrequests, hreq, hentries, halive, hheld, hlog⟩ := reachable_takenBack
  have hslot (w : Worker) (s : Stream) : st.held w ≠ some (1, s) := by
    rw [hheld]
    split <;> simp
  have h1 := hst.next (.portReady (w := 1) false halive (hheld 1))
  have h2 := h1.next (.resendPost (s := 7) (congrArg RpcData.owner hreq))
  have h3 := h2.next (.resend (s := 7) ⟨by simp [State.set, hrequests],
    by simp [State.set, hreq, takenBack]⟩ (.inl (by simp [State.set])))
  have h4 := h3.next (.send (s := 7) (i := 1)
    (by simp [Replay.resend, State.set, hreq, takenBack, hrequests])
    (by simp [Replay.resend, State.set, hreq, takenBack])
    ⟨by simp [Replay.resend, State.set, hreq, takenBack, hentries],
      by simp [Replay.resend, State.set, hreq, takenBack, hslot]⟩)
  have h5 := h4.next (.take (w := 1) (e := (1, 7))
    (by simp [Replay.resend, State.set, State.setTracking, hreq, takenBack])
    (by simp [Replay.resend, State.set, State.setTracking, hreq, takenBack, hheld])
    (by simp [Replay.resend, State.set, hreq, takenBack, hentries]; rfl))
  have h6 := h5.next (.claim (w := 1) (i := 1) (s := 7)
    (by simp [Replay.resend, State.set, State.setTracking, hreq, takenBack])
    (by simp [Replay.resend, State.set, State.setTracking, hreq, takenBack])
    (by simp [Replay.resend, State.set, State.setTracking, hreq, takenBack]))
  refine ⟨_, h6, ?_, reachable_runOnce h6⟩
  simp [Replay.resend, State.set, hreq, takenBack, hlog]

end FreeUnit.Replay
