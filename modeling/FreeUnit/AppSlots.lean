/-
The process slots of an application.

The router counts the workers of an application in three counters: `processes`
that have registered, `pending_processes` that were asked for, and
`unaccounted_processes` that were asked for, did not come in time and may still
come.  A start passes through several callbacks — reserved under the mutex,
posted to the main thread, parked until a prototype is up, sent and armed as an
RPC — and each of its ends moves its slot.

* `run_counted_bounded` — in every history the counters count, and their sum is
  within the maximum as far as the configuration apply keeps it;
* `run_prefork_exceeds` — a history in which the configuration apply, which
  does not ask `nxt_router_app_can_start`, exceeds the maximum.
-/
import Mathlib.Data.List.Basic
import Mathlib.Data.Int.Order.Basic
import Mathlib.Tactic.Common

namespace FreeUnit.AppSlots

open List

/-! ### The application -/

/-- `processes` of the configuration; validation refuses more spare ones than
the maximum. -/
structure Conf where
  maxProcesses : ℕ
  spareProcesses : ℕ
  spare_le : spareProcesses ≤ maxProcesses

/-- `max_pending_processes`. -/
def Conf.maxPendingProcesses (conf : Conf) : ℕ :=
  if conf.spareProcesses = 0 then 1 else conf.spareProcesses

/-- The counters that `nxt_router_app_need_start` reads and that no callback of
a start changes. -/
structure Load where
  activeRequests : ℕ
  portHashCount : ℕ
  idleProcesses : ℕ

/-- The registration that `nxt_router_app_start_expired` leaves on the stream
of a start the deadline gave up on. -/
structure Reaper where
  proto : Bool
  generation : ℕ
  deriving Repr, DecidableEq

/-- How far the configuration apply has come with this application. -/
inductive Apply
  | applying
  | protoStart
  | workerStart
  | done
  | failed
  deriving Repr, DecidableEq

/-- `nxt_app_t` as far as starts go.  A start attempt is `reserved` until it is
posted, `posted` until its handler runs, `held` back by the sweep of the last
process, parked in `proto_port_requests`, or armed in `workerStarts` (with the
generation of its RPC); `protoStart` is the RPC of the prototype, and
`unwatched` counts expired starts whose reaper could not be registered. -/
structure App where
  conf : Conf
  processes : ℤ := 0
  pendingProcesses : ℤ := 0
  unaccountedProcesses : ℤ := 0
  requeuePending : ℤ := 0
  generation : ℕ := 0
  protoPort : Bool := false
  protoPortRequests : ℕ := 0
  protoStart : Option ℕ := none
  workerStarts : List ℕ := []
  reapers : List Reaper := []
  unwatched : ℕ := 0
  reserved : ℕ := 0
  posted : ℕ := 0
  held : ℕ := 0
  ports : List ℕ := []
  apply : Apply := .applying

namespace App

def sum (s : App) : ℤ := s.processes + s.pendingProcesses + s.unaccountedProcesses

def canStart (s : App) : Bool :=
  s.sum < s.conf.maxProcesses && s.pendingProcesses < s.conf.maxPendingProcesses &&
    s.requeuePending = 0

def needStart (s : App) (load : Load) : Bool :=
  load.portHashCount + s.pendingProcesses < load.activeRequests ||
    load.idleProcesses + s.pendingProcesses < s.conf.spareProcesses

/-- The start that a callback takes under the mutex: `nxt_router_app_start_reserve`
and its copies in the other callbacks. -/
def reserve (s : App) (shutdown : Bool) (load : Load) : App :=
  if !shutdown && s.canStart && s.needStart load then
    { s with pendingProcesses := s.pendingProcesses + 1, reserved := s.reserved + 1 }
  else s

/-- The counters of `nxt_router_app_start_failed`, with its clamp. -/
def startFailed (s : App) (count : ℕ) (unaccounted : Bool) : App :=
  let released := min (count : ℤ) s.pendingProcesses
  { s with
    pendingProcesses := s.pendingProcesses - released
    unaccountedProcesses :=
      if unaccounted then s.unaccountedProcesses + released else s.unaccountedProcesses }

/-- `nxt_router_app_start_expired`: the slot moves, and a reaper watches the
stream if it can be registered. -/
def startExpired (s : App) (r : Reaper) (watched : Bool) : App :=
  let s := s.startFailed 1 true
  if watched then { s with reapers := s.reapers ++ [r] } else { s with unwatched := s.unwatched + 1 }

/-- The guarded decrement of `unaccounted_processes`. -/
def unaccountedRelease (s : App) : App :=
  if s.unaccountedProcesses ≠ 0 then
    { s with unaccountedProcesses := s.unaccountedProcesses - 1 }
  else s

/-- The end of `nxt_router_app_port_ready` for a worker: a worker of an older
generation is told to quit, another one is registered. -/
def adopt (s : App) (generation port : ℕ) (shutdown : Bool) (load : Load) : App :=
  if generation ≠ s.generation then s.reserve shutdown load
  else { s with processes := s.processes + 1, ports := s.ports ++ [port] }

/-- A prototype that is ready becomes the application's, unless it has one or
was restarted. -/
def adoptProto (s : App) (generation : ℕ) : App :=
  if generation ≠ s.generation ∨ s.protoPort then s else { s with protoPort := true }

/-- `nxt_router_start_app_process_handler` of a posted start; `ok` is false
where an allocation, the registration or the write fails. -/
def startHandler (s : App) (ok : Bool) : App :=
  let s := { s with posted := s.posted - 1 }
  if s.protoPort then
    if ok then { s with workerStarts := s.workerStarts ++ [s.generation] } else s.startFailed 1 false
  else if s.protoPortRequests > 0 then { s with protoPortRequests := s.protoPortRequests + 1 }
  else if ok then { s with protoStart := some s.generation, protoPortRequests := 1 }
  else s.startFailed 1 false

/-- `nxt_router_app_port_error` of the prototype's RPC: the whole cohort ends,
and if the deadline ended it a prototype may still come. -/
def protoError (s : App) (generation : ℕ) (reap watched : Bool) : App :=
  let n := s.protoPortRequests
  let s := { s with protoStart := none, protoPortRequests := 0 }
  if reap then
    (if n > 1 then s.startFailed (n - 1) false else s).startExpired ⟨true, generation⟩ watched
  else s.startFailed n false

/-- `nxt_router_app_port_close` of a registered main port, with `waiting`
requests in `ack_waiting_req`. -/
def portClose (s : App) (port : ℕ) (shutdown : Bool) (load : Load) (waiting : ℕ) : App :=
  let s := { s with ports := s.ports.erase port, processes := s.processes - 1 }
  if !shutdown && s.canStart && s.needStart load then
    let s := { s with pendingProcesses := s.pendingProcesses + 1 }
    if s.processes = 0 ∧ s.pendingProcesses = 1 ∧ s.requeuePending = 0 ∧
        s.unaccountedProcesses = 0 ∧ waiting ≠ 0 then
      { s with requeuePending := s.requeuePending + waiting, held := s.held + 1 }
    else { s with reserved := s.reserved + 1 }
  else s

/-- The last handler of the sweep lets the held start go. -/
def requeueHandler (s : App) (shutdown : Bool) : App :=
  let s' := { s with requeuePending := s.requeuePending - 1 }
  if s.requeuePending = 1 then
    let s' := { s' with held := s'.held - 1 }
    if shutdown then s'.startFailed 1 false else { s' with reserved := s'.reserved + 1 }
  else s'

/-- `nxt_router_app_rpc_create` of a worker: the configuration apply. -/
def preforkWorker (s : App) (ok : Bool) : App :=
  if ok then { s with pendingProcesses := s.pendingProcesses + 1, apply := .workerStart }
  else { s with apply := .failed }

/-- `nxt_router_conf_apply` at this application. -/
def prefork (s : App) (load : Load) (ok : Bool) : App :=
  if s.needStart load then
    if s.protoPort then s.preforkWorker ok
    else { s with apply := if ok then .protoStart else .failed }
  else { s with apply := .done }

end App

/-- What can happen to the starts and ports of an application. -/
inductive Event
  /-- A request, or a worker that becomes busy, may need another process. -/
  | reserve (load : Load)
  /-- `nxt_router_start_app_process` posts a reserved start, or cannot. -/
  | post (ok : Bool)
  | startHandler (ok : Bool)
  | protoReady
  | protoError (expired unsent watched : Bool)
  | workerReady (generation port : ℕ) (shutdown : Bool) (load : Load)
  | workerError (generation : ℕ) (expired unsent watched : Bool)
  /-- The process of an expired start announces itself. -/
  | lateReady (r : Reaper) (port : ℕ) (shutdown : Bool) (load : Load)
  /-- The process of an expired start is gone. -/
  | lateError (r : Reaper)
  | protoClose
  | close (port : ℕ) (shutdown : Bool) (load : Load) (waiting : ℕ)
  | requeueHandler (shutdown : Bool)
  | restart
  | prefork (load : Load) (ok : Bool)
  | preforkReady (port : ℕ) (ok : Bool)
  | preforkError

/-- One callback.  An event that cannot happen in the state (no start was
posted, no such RPC is armed, the port is not new) changes nothing. -/
def step (s : App) : Event → App
  | .reserve load => s.reserve false load
  | .post ok =>
    if s.reserved = 0 then s
    else
      let s := { s with reserved := s.reserved - 1 }
      if ok then { s with posted := s.posted + 1 }
      else { s with pendingProcesses := s.pendingProcesses - 1 }
  | .startHandler ok => if s.posted = 0 then s else s.startHandler ok
  | .protoReady =>
    match s.protoStart with
    | none => s
    | some generation =>
      -- The cohort's starts are replayed: their handlers run again.
      { s.adoptProto generation with
        protoStart := none, protoPortRequests := 0, posted := s.posted + s.protoPortRequests }
  | .protoError expired unsent watched =>
    match s.protoStart with
    | none => s
    | some generation => s.protoError generation (expired && !unsent) watched
  | .workerReady generation port shutdown load =>
    if generation ∈ s.workerStarts ∧ port ∉ s.ports then
      { s with
        workerStarts := s.workerStarts.erase generation
        pendingProcesses := s.pendingProcesses - 1 }.adopt generation port shutdown load
    else s
  | .workerError generation expired unsent watched =>
    if generation ∈ s.workerStarts then
      let s := { s with workerStarts := s.workerStarts.erase generation }
      if expired && !unsent then s.startExpired ⟨false, generation⟩ watched
      else s.startFailed 1 false
    else s
  | .lateReady r port shutdown load =>
    if r ∈ s.reapers ∧ port ∉ s.ports then
      let s := { s with reapers := s.reapers.erase r }.unaccountedRelease
      if r.proto then s.adoptProto r.generation else s.adopt r.generation port shutdown load
    else s
  | .lateError r =>
    if r ∈ s.reapers then { s with reapers := s.reapers.erase r }.unaccountedRelease else s
  | .protoClose => { s with protoPort := false }
  | .close port shutdown load waiting =>
    if port ∈ s.ports then s.portClose port shutdown load waiting else s
  | .requeueHandler shutdown =>
    if 0 < s.requeuePending then s.requeueHandler shutdown else s
  | .restart => { s with generation := s.generation + 1, protoPort := false }
  | .prefork load ok => if s.apply = .applying then s.prefork load ok else s
  | .preforkReady port ok =>
    match s.apply with
    | .protoStart => { s with protoPort := true }.preforkWorker ok
    | .workerStart =>
      if port ∈ s.ports then s
      else
        { s with
          pendingProcesses := s.pendingProcesses - 1
          processes := s.processes + 1
          ports := s.ports ++ [port]
          apply := .applying }
    | .applying | .done | .failed => s
  | .preforkError =>
    match s.apply with
    | .protoStart => { s with apply := .failed }
    | .workerStart => { s with pendingProcesses := s.pendingProcesses - 1, apply := .failed }
    | .applying | .done | .failed => s

def run (s : App) (es : List Event) : App := es.foldl step s

def init (conf : Conf) : App := { conf }

/-! ### The counters count -/

/-- The start attempts without an outcome, wherever they are. -/
def openStarts (s : App) : ℕ :=
  s.reserved + s.posted + s.held + s.protoPortRequests + s.workerStarts.length +
    if s.apply = .workerStart then 1 else 0

/-- Every counter is the number of what it counts; a parked cohort has the RPC
of its prototype, and a start is held exactly while the sweep lasts. -/
structure Counted (s : App) : Prop where
  processes : s.processes = s.ports.length
  pending : s.pendingProcesses = openStarts s
  unaccounted : s.unaccountedProcesses = s.reapers.length + s.unwatched
  proto : s.protoStart = none ↔ s.protoPortRequests = 0
  held : s.held = if 0 < s.requeuePending then 1 else 0

def Bounded (s : App) : Prop := s.sum ≤ s.conf.maxProcesses

section

variable {s : App}

theorem startFailed_eq {count : ℕ} (h : (count : ℤ) ≤ s.pendingProcesses) (unaccounted : Bool) :
    s.startFailed count unaccounted = { s with
      pendingProcesses := s.pendingProcesses - count
      unaccountedProcesses :=
        if unaccounted then s.unaccountedProcesses + count else s.unaccountedProcesses } := by
  rw [App.startFailed, min_eq_left h]

theorem sum_startFailed_le {count : ℕ} (h : (count : ℤ) ≤ s.pendingProcesses)
    (unaccounted : Bool) : (s.startFailed count unaccounted).sum ≤ s.sum := by
  rw [startFailed_eq h]
  unfold App.sum
  cases unaccounted
  · show s.processes + (s.pendingProcesses - count) + s.unaccountedProcesses ≤ _
    omega
  · show s.processes + (s.pendingProcesses - count) + (s.unaccountedProcesses + count) ≤ _
    omega

theorem sum_startExpired_le (h : 1 ≤ s.pendingProcesses) (r : Reaper) (watched : Bool) :
    (s.startExpired r watched).sum ≤ s.sum := by
  have := sum_startFailed_le (show ((1 : ℕ) : ℤ) ≤ s.pendingProcesses by exact_mod_cast h) true
  unfold App.startExpired
  cases watched <;> exact this

theorem Counted.reserve (h : Counted s) (shutdown : Bool) (load : Load) :
    Counted (s.reserve shutdown load) := by
  unfold App.reserve
  split
  · refine ⟨h.processes, ?_, h.unaccounted, h.proto, h.held⟩
    have := h.pending
    simp only [openStarts] at this ⊢
    omega
  · exact h

theorem Bounded.reserve (h : Bounded s) (shutdown : Bool) (load : Load) :
    Bounded (s.reserve shutdown load) := by
  unfold App.reserve
  split
  · next hstart =>
    simp only [App.canStart, Bool.and_eq_true, decide_eq_true_eq] at hstart
    have hlt := hstart.1.2.1.1
    simp only [Bounded, App.sum] at hlt ⊢
    omega
  · exact h

theorem Counted.adopt (h : Counted s) (generation port : ℕ) (shutdown : Bool) (load : Load) :
    Counted (s.adopt generation port shutdown load) := by
  unfold App.adopt
  split
  · exact h.reserve shutdown load
  refine ⟨?_, h.pending, h.unaccounted, h.proto, h.held⟩
  have := h.processes
  simp only [length_append, length_singleton]
  omega

theorem Bounded.adopt (h : s.sum < s.conf.maxProcesses) (generation port : ℕ) (shutdown : Bool)
    (load : Load) : Bounded (s.adopt generation port shutdown load) := by
  unfold App.adopt
  split
  · exact Bounded.reserve (le_of_lt h) shutdown load
  simp only [Bounded, App.sum] at h ⊢
  omega

theorem Counted.adoptProto (h : Counted s) (generation : ℕ) : Counted (s.adoptProto generation) := by
  unfold App.adoptProto
  split
  · exact h
  · exact ⟨h.processes, h.pending, h.unaccounted, h.proto, h.held⟩

theorem sum_adoptProto (s : App) (generation : ℕ) : (s.adoptProto generation).sum = s.sum := by
  unfold App.adoptProto
  split <;> rfl

/-- Everything is counted but `n` attempts, which have left their place and
still hold their slots. -/
structure CountedBut (s : App) (n : ℕ) : Prop where
  processes : s.processes = s.ports.length
  pending : s.pendingProcesses = openStarts s + n
  unaccounted : s.unaccountedProcesses = s.reapers.length + s.unwatched
  proto : s.protoStart = none ↔ s.protoPortRequests = 0
  held : s.held = if 0 < s.requeuePending then 1 else 0

theorem CountedBut.startFailed {m n : ℕ} (h : CountedBut s (m + n)) :
    CountedBut (s.startFailed n false) m := by
  have hpending := h.pending
  rw [startFailed_eq (by omega)]
  refine ⟨h.processes, ?_, h.unaccounted, h.proto, h.held⟩
  simp only [openStarts] at hpending ⊢
  omega

theorem CountedBut.counted (h : CountedBut s 0) : Counted s :=
  ⟨h.processes, by simpa using h.pending, h.unaccounted, h.proto, h.held⟩

theorem CountedBut.startExpired (h : CountedBut s 1) (r : Reaper) (watched : Bool) :
    Counted (s.startExpired r watched) := by
  have hpending := h.pending
  have hunaccounted := h.unaccounted
  unfold App.startExpired
  rw [startFailed_eq (by omega)]
  simp only [openStarts] at hpending
  cases watched
  · refine ⟨h.processes, ?_, ?_, h.proto, h.held⟩
    · simp only [openStarts, Bool.false_eq_true, if_false]
      omega
    · simp only [if_true, Bool.false_eq_true, if_false]
      omega
  refine ⟨h.processes, ?_, ?_, h.proto, h.held⟩
  · simp only [openStarts, if_true]
    omega
  · simp only [if_true, length_append, length_singleton]
    omega

/-- The slot of an expired start that left its place is given back. -/
theorem Counted.unaccountedRelease (hp : s.processes = s.ports.length)
    (hpending : s.pendingProcesses = openStarts s)
    (hu : s.unaccountedProcesses = s.reapers.length + s.unwatched + 1)
    (hproto : s.protoStart = none ↔ s.protoPortRequests = 0)
    (hheld : s.held = if 0 < s.requeuePending then 1 else 0) :
    Counted s.unaccountedRelease ∧ s.unaccountedRelease.sum < s.sum := by
  unfold App.unaccountedRelease
  rw [if_pos (by omega)]
  refine ⟨⟨hp, hpending, ?_, hproto, hheld⟩, ?_⟩
  · show s.unaccountedProcesses - 1 = s.reapers.length + s.unwatched
    omega
  · simp only [App.sum]
    omega

theorem Counted.startHandler (h : Counted s) (hposted : s.posted ≠ 0) (ok : Bool) :
    Counted (s.startHandler ok) := by
  have hpending := h.pending
  simp only [openStarts] at hpending
  have hleft : CountedBut { s with posted := s.posted - 1 } (0 + 1) := by
    refine ⟨h.processes, ?_, h.unaccounted, h.proto, h.held⟩
    simp only [openStarts]
    omega
  unfold App.startHandler
  dsimp only
  split
  · split
    · refine ⟨h.processes, ?_, h.unaccounted, h.proto, h.held⟩
      simp only [openStarts, length_append, length_singleton]
      omega
    · exact hleft.startFailed.counted
  split
  · next hcohort =>
    refine ⟨h.processes, ?_, h.unaccounted, ?_, h.held⟩
    · simp only [openStarts]
      omega
    · simp only [h.proto]
      omega
  split
  · refine ⟨h.processes, ?_, h.unaccounted, by simp, h.held⟩
    simp only [openStarts]
    omega
  · exact hleft.startFailed.counted

variable {generation : ℕ}

section

variable (h : Counted s)
include h

theorem Counted.protoError (hproto : s.protoStart = some generation) (reap watched : Bool) :
    Counted (s.protoError generation reap watched) := by
  have hpending := h.pending
  have hpos : s.protoPortRequests ≠ 0 := by
    intro hzero
    rw [h.proto.mpr hzero] at hproto
    cases hproto
  simp only [openStarts] at hpending
  have hleft : ∀ m n, m + n = s.protoPortRequests →
      CountedBut { s with protoStart := none, protoPortRequests := 0 } (m + n) := by
    intro m n hmn
    refine ⟨h.processes, ?_, h.unaccounted, by simp, h.held⟩
    simp only [openStarts]
    omega
  unfold App.protoError
  dsimp only
  split
  · -- One slot stays with the prototype; the rest of the cohort, if any, goes back.
    split
    · exact (hleft 1 (s.protoPortRequests - 1) (by omega)).startFailed.startExpired _ watched
    · exact (hleft 1 0 (by omega)).startExpired _ watched
  · exact (hleft 0 s.protoPortRequests (by omega)).startFailed.counted

theorem Counted.portClose {port : ℕ} (hport : port ∈ s.ports) (shutdown : Bool) (load : Load)
    (waiting : ℕ) : Counted (s.portClose port shutdown load waiting) := by
  have hprocesses := h.processes
  have hpending := h.pending
  have hlen := length_erase_of_mem hport
  have hpos := length_pos_of_mem hport
  simp only [openStarts] at hpending
  have hclosed : s.processes - 1 = (s.ports.erase port).length := by omega
  unfold App.portClose
  dsimp only
  split
  · split
    · next hsweep =>
      -- The sweep starts with nothing held, and holds the start it reserved.
      obtain ⟨-, -, hzero, -, hwaiting⟩ := hsweep
      have hheld : s.held = 0 := by rw [h.held, hzero]; rfl
      refine ⟨hclosed, ?_, h.unaccounted, h.proto, ?_⟩
      · simp only [openStarts]
        omega
      · have : (0 : ℤ) < s.requeuePending + waiting := by omega
        simp only [this, if_true, hheld]
    refine ⟨hclosed, ?_, h.unaccounted, h.proto, h.held⟩
    simp only [openStarts]
    omega
  · exact ⟨hclosed, h.pending, h.unaccounted, h.proto, h.held⟩

theorem Counted.requeueHandler (hpos : 0 < s.requeuePending) (shutdown : Bool) :
    Counted (s.requeueHandler shutdown) := by
  have hpending := h.pending
  have hheld : s.held = 1 := by rw [h.held, if_pos hpos]
  simp only [openStarts] at hpending
  unfold App.requeueHandler
  dsimp only
  split
  · next hlast =>
    have hnone : ¬ 0 < s.requeuePending - 1 := by omega
    split
    · refine CountedBut.counted (CountedBut.startFailed ?_)
      refine ⟨h.processes, ?_, h.unaccounted, h.proto, ?_⟩
      · simp only [openStarts]
        omega
      · simp only [hnone, if_false, hheld]
    refine ⟨h.processes, ?_, h.unaccounted, h.proto, ?_⟩
    · simp only [openStarts]
      omega
    · simp only [hnone, if_false, hheld]
  next hmore =>
  have hstill : 0 < s.requeuePending - 1 := by omega
  refine ⟨h.processes, h.pending, h.unaccounted, h.proto, ?_⟩
  simp only [hstill, if_true, hheld]

/-- A worker's RPC is taken out, and its start is over. -/
theorem Counted.erase_workerStart (hmem : generation ∈ s.workerStarts) :
    CountedBut { s with workerStarts := s.workerStarts.erase generation } (0 + 1) := by
  have hpending := h.pending
  have hlen := length_erase_of_mem hmem
  have hpos := length_pos_of_mem hmem
  refine ⟨h.processes, ?_, h.unaccounted, h.proto, h.held⟩
  simp only [openStarts] at hpending ⊢
  omega

theorem Counted.workerStart_over (hmem : generation ∈ s.workerStarts) : Counted { s with
      workerStarts := s.workerStarts.erase generation
      pendingProcesses := s.pendingProcesses - 1 } ∧ 1 ≤ s.pendingProcesses := by
  have hleft := h.erase_workerStart hmem
  have hpending := hleft.pending
  simp only [openStarts] at hpending
  refine ⟨⟨h.processes, ?_, h.unaccounted, h.proto, h.held⟩, by omega⟩
  simp only [openStarts]
  omega

theorem Counted.release_reaper {r : Reaper} (hmem : r ∈ s.reapers) :
    Counted ({ s with reapers := s.reapers.erase r } : App).unaccountedRelease ∧
      ({ s with reapers := s.reapers.erase r } : App).unaccountedRelease.sum < s.sum := by
  have hlen := length_erase_of_mem hmem
  have hpos := length_pos_of_mem hmem
  have hunaccounted := h.unaccounted
  refine Counted.unaccountedRelease h.processes h.pending ?_ h.proto h.held
  show s.unaccountedProcesses = (s.reapers.erase r).length + s.unwatched + 1
  omega

end

theorem conf_unaccountedRelease (s : App) : s.unaccountedRelease.conf = s.conf := by
  unfold App.unaccountedRelease
  split <;> rfl

theorem Counted.preforkWorker (h : Counted s) (happly : s.apply ≠ .workerStart) (ok : Bool) :
    Counted (s.preforkWorker ok) := by
  have hpending := h.pending
  simp only [openStarts, happly, if_false] at hpending
  unfold App.preforkWorker
  split
  · refine ⟨h.processes, ?_, h.unaccounted, h.proto, h.held⟩
    simp only [openStarts, if_true]
    omega
  refine ⟨h.processes, ?_, h.unaccounted, h.proto, h.held⟩
  simp only [openStarts, reduceCtorEq, if_false]
  omega

/-- The apply goes on without a worker's start in flight. -/
theorem Counted.setApply (h : Counted s) (happly : s.apply ≠ .workerStart) {apply : Apply}
    (hnew : apply ≠ .workerStart) : Counted { s with apply := apply } := by
  have hpending := h.pending
  simp only [openStarts, happly, if_false] at hpending
  refine ⟨h.processes, ?_, h.unaccounted, h.proto, h.held⟩
  simp only [openStarts, hnew, if_false]
  omega

/-- **Every callback keeps the counters equal to what they count.** -/
theorem Counted.step (h : Counted s) (e : Event) : Counted (step s e) := by
  have hpending := h.pending
  simp only [openStarts] at hpending
  cases e with
  | reserve load => exact h.reserve false load
  | post ok =>
    simp only [AppSlots.step]
    split
    · exact h
    split
    · refine ⟨h.processes, ?_, h.unaccounted, h.proto, h.held⟩
      simp only [openStarts]
      omega
    refine ⟨h.processes, ?_, h.unaccounted, h.proto, h.held⟩
    simp only [openStarts]
    omega
  | startHandler ok =>
    simp only [AppSlots.step]
    split
    · exact h
    · next hposted => exact h.startHandler hposted ok
  | protoReady =>
    simp only [AppSlots.step]
    split
    · exact h
    next generation hproto =>
    have h' := h.adoptProto generation
    refine ⟨h'.processes, ?_, h'.unaccounted, by simp, h'.held⟩
    show (s.adoptProto generation).pendingProcesses = _
    unfold App.adoptProto
    split
    · simp only [openStarts]
      omega
    simp only [openStarts]
    omega
  | protoError expired unsent watched =>
    simp only [AppSlots.step]
    split
    · exact h
    · next generation hproto => exact h.protoError hproto _ watched
  | workerReady generation port shutdown load =>
    simp only [AppSlots.step]
    split
    · next hmem =>
      exact (h.workerStart_over hmem.1).1.adopt _ _ _ _
    · exact h
  | workerError generation expired unsent watched =>
    simp only [AppSlots.step]
    split
    · next hmem =>
      have hleft := h.erase_workerStart hmem
      split
      · exact hleft.startExpired _ watched
      · exact hleft.startFailed.counted
    · exact h
  | lateReady r port shutdown load =>
    simp only [AppSlots.step]
    split
    · next hmem =>
      have h' := (h.release_reaper hmem.1).1
      split
      · exact h'.adoptProto _
      · exact h'.adopt _ _ _ _
    · exact h
  | lateError r =>
    simp only [AppSlots.step]
    split
    · next hmem => exact (h.release_reaper hmem).1
    · exact h
  | protoClose => exact ⟨h.processes, h.pending, h.unaccounted, h.proto, h.held⟩
  | close port shutdown load waiting =>
    simp only [AppSlots.step]
    split
    · next hport => exact h.portClose hport shutdown load waiting
    · exact h
  | requeueHandler shutdown =>
    simp only [AppSlots.step]
    split
    · next hpos => exact h.requeueHandler hpos shutdown
    · exact h
  | restart => exact ⟨h.processes, h.pending, h.unaccounted, h.proto, h.held⟩
  | prefork load ok =>
    simp only [AppSlots.step]
    split
    · next happly =>
      have hnot : s.apply ≠ .workerStart := by simp [happly]
      unfold App.prefork
      split
      · split
        · exact h.preforkWorker hnot ok
        · exact h.setApply hnot (by cases ok <;> simp)
      · exact h.setApply hnot (by simp)
    · exact h
  | preforkReady port ok =>
    simp only [AppSlots.step]
    split
    · next happly =>
      have h' : Counted { s with protoPort := true } :=
        ⟨h.processes, h.pending, h.unaccounted, h.proto, h.held⟩
      exact h'.preforkWorker (by simp [happly]) ok
    · next happly =>
      split
      · exact h
      have hprocesses := h.processes
      refine ⟨?_, ?_, h.unaccounted, h.proto, h.held⟩
      · simp only [length_append, length_singleton]
        omega
      · simp only [openStarts, reduceCtorEq, if_false]
        simp only [happly, if_true] at hpending
        omega
    all_goals exact h
  | preforkError => ?_
  simp only [AppSlots.step]
  split
  · next happly => exact h.setApply (by simp [happly]) (by simp)
  · next happly =>
    refine ⟨h.processes, ?_, h.unaccounted, h.proto, h.held⟩
    simp only [openStarts, reduceCtorEq, if_false]
    simp only [happly, if_true] at hpending
    omega
  all_goals exact h

/-- The configuration apply starts a worker only while the counters leave a
slot: the first condition of `nxt_router_app_can_start`. -/
def Meets (s : App) : Event → Prop
  | .prefork load ok =>
    s.apply = .applying → s.needStart load = true → s.protoPort = true → ok = true →
      s.sum < s.conf.maxProcesses
  | .preforkReady _ ok => s.apply = .protoStart → ok = true → s.sum < s.conf.maxProcesses
  | _ => True

section

variable (h : Bounded s)
include h

theorem Bounded.of_le {t : App} (hsum : t.sum ≤ s.sum) (hconf : t.conf = s.conf) : Bounded t := by
  unfold Bounded at h ⊢
  rw [hconf]
  exact le_trans hsum h

theorem Bounded.startHandler (hc : Counted s) (hposted : s.posted ≠ 0) (ok : Bool) :
    Bounded (s.startHandler ok) := by
  have hpending := hc.pending
  simp only [openStarts] at hpending
  have hfail : Bounded (({ s with posted := s.posted - 1 } : App).startFailed 1 false) := by
    refine Bounded.of_le h (sum_startFailed_le ?_ false) rfl
    show ((1 : ℕ) : ℤ) ≤ s.pendingProcesses
    omega
  unfold App.startHandler
  dsimp only
  split
  · split
    · exact h
    · exact hfail
  split
  · exact h
  split
  · exact h
  · exact hfail

theorem Bounded.protoError (hc : Counted s) (hproto : s.protoStart = some generation)
    (reap watched : Bool) : Bounded (s.protoError generation reap watched) := by
  have hpending := hc.pending
  simp only [openStarts] at hpending
  have hpos : s.protoPortRequests ≠ 0 := by
    intro hzero
    rw [hc.proto.mpr hzero] at hproto
    cases hproto
  unfold App.protoError
  dsimp only
  set t : App := { s with protoStart := none, protoPortRequests := 0 }
  have ht : Bounded t := h
  have hpending' : t.pendingProcesses = s.pendingProcesses := rfl
  split
  · split
    · have hle : ((s.protoPortRequests - 1 : ℕ) : ℤ) ≤ t.pendingProcesses := by omega
      have hone : 1 ≤ (t.startFailed (s.protoPortRequests - 1) false).pendingProcesses := by
        rw [startFailed_eq hle]
        show 1 ≤ t.pendingProcesses - (s.protoPortRequests - 1 : ℕ)
        omega
      have hfirst : Bounded (t.startFailed (s.protoPortRequests - 1) false) :=
        ht.of_le (sum_startFailed_le hle false) rfl
      exact hfirst.of_le (sum_startExpired_le hone _ watched) (by cases watched <;> rfl)
    · exact ht.of_le (sum_startExpired_le (by omega) _ watched) (by cases watched <;> rfl)
  · exact ht.of_le (sum_startFailed_le (by omega) false) rfl

theorem Bounded.portClose (port : ℕ) (shutdown : Bool) (load : Load) (waiting : ℕ) :
    Bounded (s.portClose port shutdown load waiting) := by
  simp only [Bounded, App.sum] at h
  unfold App.portClose
  dsimp only
  split
  · -- The closed port has given its slot to the start.
    split
    · simp only [Bounded, App.sum]
      omega
    simp only [Bounded, App.sum]
    omega
  simp only [Bounded, App.sum]
  omega

theorem Bounded.requeueHandler (hc : Counted s) (hpos : 0 < s.requeuePending) (shutdown : Bool) :
    Bounded (s.requeueHandler shutdown) := by
  have hpending := hc.pending
  have hheld : s.held = 1 := by rw [hc.held, if_pos hpos]
  simp only [openStarts] at hpending
  unfold App.requeueHandler
  dsimp only
  split
  · split
    · refine Bounded.of_le h (sum_startFailed_le ?_ false) rfl
      show ((1 : ℕ) : ℤ) ≤ s.pendingProcesses
      omega
    · exact h
  · exact h

theorem Bounded.preforkWorker {ok : Bool} (hm : ok = true → s.sum < s.conf.maxProcesses) :
    Bounded (s.preforkWorker ok) := by
  unfold App.preforkWorker
  split
  · next hok =>
    have hlt := hm hok
    simp only [Bounded, App.sum] at hlt ⊢
    omega
  · exact h

/-- **Every callback that meets the condition keeps the slots bounded.** -/
theorem Bounded.step (hc : Counted s) {e : Event} (hm : Meets s e) : Bounded (step s e) := by
  cases e with
  | reserve load => exact h.reserve false load
  | post ok =>
    simp only [AppSlots.step]
    split
    · exact h
    split
    · exact h
    simp only [Bounded, App.sum] at h ⊢
    omega
  | startHandler ok =>
    simp only [AppSlots.step]
    split
    · exact h
    · next hposted => exact h.startHandler hc hposted ok
  | protoReady =>
    simp only [AppSlots.step]
    split
    · exact h
    next generation hproto =>
    refine Bounded.of_le h (le_of_eq (sum_adoptProto s generation)) ?_
    show (s.adoptProto generation).conf = s.conf
    unfold App.adoptProto
    split <;> rfl
  | protoError expired unsent watched =>
    simp only [AppSlots.step]
    split
    · exact h
    · next generation hproto => exact h.protoError hc hproto _ watched
  | workerReady generation port shutdown load =>
    simp only [AppSlots.step]
    split
    · -- The slot moves from the pending ones to the processes.
      refine Bounded.adopt ?_ _ _ _ _
      simp only [Bounded, App.sum] at h ⊢
      omega
    · exact h
  | workerError generation expired unsent watched =>
    simp only [AppSlots.step]
    split
    · next hmem =>
      set t : App := { s with workerStarts := s.workerStarts.erase generation }
      have ht : Bounded t := h
      have hone : 1 ≤ t.pendingProcesses := (hc.workerStart_over hmem).2
      split
      · exact ht.of_le (sum_startExpired_le hone _ watched) (by cases watched <;> rfl)
      · exact ht.of_le (sum_startFailed_le (by exact_mod_cast hone) false) rfl
    · exact h
  | lateReady r port shutdown load =>
    simp only [AppSlots.step]
    split
    · next hmem =>
      have hlt := (hc.release_reaper hmem.1).2
      have hconf := conf_unaccountedRelease { s with reapers := s.reapers.erase r }
      split
      · refine Bounded.of_le h (le_trans (le_of_eq (sum_adoptProto _ _)) (le_of_lt hlt)) ?_
        unfold App.adoptProto
        split <;> exact hconf
      refine Bounded.adopt ?_ _ _ _ _
      rw [hconf]
      exact lt_of_lt_of_le hlt h
    · exact h
  | lateError r =>
    simp only [AppSlots.step]
    split
    · next hmem =>
      exact Bounded.of_le h (le_of_lt (hc.release_reaper hmem).2) (conf_unaccountedRelease _)
    · exact h
  | protoClose => exact h
  | close port shutdown load waiting =>
    simp only [AppSlots.step]
    split
    · exact h.portClose port shutdown load waiting
    · exact h
  | requeueHandler shutdown =>
    simp only [AppSlots.step]
    split
    · next hpos => exact h.requeueHandler hc hpos shutdown
    · exact h
  | restart => exact h
  | prefork load ok =>
    simp only [AppSlots.step]
    split
    · next happly =>
      unfold App.prefork
      split
      · next hneed =>
        split
        · next hproto => exact h.preforkWorker (hm happly hneed hproto)
        · exact h
      · exact h
    · exact h
  | preforkReady port ok =>
    simp only [AppSlots.step]
    split
    · next happly => exact Bounded.preforkWorker (s := { s with protoPort := true }) h (hm happly)
    · split
      · exact h
      simp only [Bounded, App.sum] at h ⊢
      omega
    all_goals exact h
  | preforkError => ?_
  simp only [AppSlots.step]
  split
  · exact h
  · simp only [Bounded, App.sum] at h ⊢
    omega
  all_goals exact h

end

end

/-! ### Every history -/

def RunMeets (s : App) : List Event → Prop
  | [] => True
  | e :: es => Meets s e ∧ RunMeets (step s e) es

/-- The counters equal what they count, none is negative, and their sum is
within the maximum. -/
def SlotsCounted (s : App) : Prop :=
  s.processes = s.ports.length ∧ s.pendingProcesses = openStarts s ∧
    s.unaccountedProcesses = s.reapers.length + s.unwatched ∧
    0 ≤ s.processes ∧ 0 ≤ s.pendingProcesses ∧ 0 ≤ s.unaccountedProcesses ∧
    s.processes + s.pendingProcesses + s.unaccountedProcesses ≤ s.conf.maxProcesses

theorem counted_init (conf : Conf) : Counted (init conf) :=
  ⟨rfl, rfl, rfl, by simp [init], rfl⟩

/-- The counters count in every history, whatever its events. -/
theorem counted_run (conf : Conf) (es : List Event) : Counted (run (init conf) es) := by
  have key : ∀ (es : List Event) (s : App), Counted s → Counted (run s es) := by
    intro es
    induction es with
    | nil => exact fun _ h => h
    | cons e es ih => exact fun s h => ih _ (h.step e)
  exact key es _ (counted_init conf)

theorem Bounded.run {s : App} (h : Bounded s) (hc : Counted s) {es : List Event}
    (hm : RunMeets s es) : Bounded (run s es) := by
  induction es generalizing s with
  | nil => exact h
  | cons e es ih => exact ih (h.step hc hm.1) (hc.step e) hm.2

/-- **The slots are counted and bounded** after every history in which the
configuration apply starts workers only below the maximum. -/
theorem run_counted_bounded (conf : Conf) (es : List Event) (hm : RunMeets (init conf) es) :
    SlotsCounted (run (init conf) es) := by
  have hc := counted_run conf es
  have hb : Bounded (init conf) := by simp [Bounded, App.sum, init]
  have hconf : Bounded (run (init conf) es) := hb.run (counted_init conf) hm
  refine ⟨hc.processes, hc.pending, hc.unaccounted, ?_, ?_, ?_, hconf⟩
  · rw [hc.processes]
    omega
  · rw [hc.pending]
    omega
  · rw [hc.unaccounted]
    omega

def oneSpare : Conf := ⟨2, 1, by decide⟩

/-- The spare worker is started with the configuration, a second one on
demand; its start expires, and it registers late. -/
theorem run_counted_late :
    RunMeets (init oneSpare) [.prefork ⟨0, 0, 0⟩ true, .preforkReady 0 true, .preforkReady 1 true,
        .prefork ⟨0, 1, 1⟩ true, .reserve ⟨2, 1, 1⟩, .post true, .startHandler true,
        .workerError 0 true false true, .lateReady ⟨false, 0⟩ 2 false ⟨2, 1, 0⟩] ∧
      SlotsCounted (run (init oneSpare) [.prefork ⟨0, 0, 0⟩ true, .preforkReady 0 true,
        .preforkReady 1 true, .prefork ⟨0, 1, 1⟩ true, .reserve ⟨2, 1, 1⟩, .post true,
        .startHandler true, .workerError 0 true false true,
        .lateReady ⟨false, 0⟩ 2 false ⟨2, 1, 0⟩]) := by
  have hm : RunMeets (init oneSpare) [.prefork ⟨0, 0, 0⟩ true, .preforkReady 0 true,
      .preforkReady 1 true, .prefork ⟨0, 1, 1⟩ true, .reserve ⟨2, 1, 1⟩, .post true,
      .startHandler true, .workerError 0 true false true,
      .lateReady ⟨false, 0⟩ 2 false ⟨2, 1, 0⟩] := by
    refine ⟨fun _ _ h => ?_, fun _ _ => by decide, fun h => ?_, fun _ h => ?_, trivial, trivial,
      trivial, trivial, trivial, trivial⟩
    · exact absurd h (by decide)
    · exact absurd h (by decide)
    · exact absurd h (by decide)
  exact ⟨hm, run_counted_bounded oneSpare _ hm⟩

def threeSpare : Conf := ⟨3, 3, by decide⟩

/-- While the spare workers are started with the configuration, the first one
dies and its replacement does not come in time.  The apply counts idle and
pending workers only, and starts a fourth one: a worker starts, dies, and is
replaced; two more start; the replacement expires; one more is started. -/
theorem run_prefork_exceeds :
    ¬ SlotsCounted (run (init threeSpare) [.prefork ⟨0, 0, 0⟩ true, .preforkReady 0 true,
      .preforkReady 1 true, .prefork ⟨0, 1, 1⟩ true, .close 1 false ⟨0, 0, 0⟩ 0, .post true,
      .startHandler true, .preforkReady 2 true, .prefork ⟨0, 1, 1⟩ true,
      .workerError 0 true false true, .preforkReady 3 true, .prefork ⟨0, 2, 2⟩ true]) := by
  rintro ⟨-, -, -, -, -, -, h⟩
  revert h
  decide

end FreeUnit.AppSlots
