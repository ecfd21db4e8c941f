/-
The idle workers of an application.

A worker's main port that serves no request stands on one of two queues of its
application: `spare_ports`, up to the configured number, and `idle_ports`,
from which the reaper takes the ports whose idle time is over.  Ports enter
and leave the queues in the callbacks of the router, each under the
application's mutex; the reaper gives the mutex back after each worker it
tells to quit, so its iterations interleave with everything else.

* `run_balanced` — **the spare queue is full whenever it can be**, in every run
  in which the field `idle_start` tells the two queues apart: a port that
  enters the spare queue has it zero and one that enters the idle queue not;
* `run_spare_refill_missed` — a run in which it does not, and the spare queue
  stays empty;
* `quits_on_time_iff` — the reaper is on time exactly as far as the deadline
  and the threshold lie in the same period of the 32-bit clock.
-/
import Mathlib.Data.List.Nodup
import Mathlib.Data.UInt
import Mathlib.Logic.Function.Basic
import Mathlib.Tactic.Common

set_option linter.unusedSectionVars false

namespace FreeUnit.AppIdle

open List Option

/-! ### Ports and the two queues -/

/-- The fields of a worker's main port that the idle queues depend on.
`since` is the reading of the clock, before it is cut to 32 bits, at which the
port last became idle. -/
structure Port where
  isOpen : Bool := false
  registered : Bool := false
  activeRequests : UInt32 := 0
  activeWebsockets : UInt32 := 0
  detached : Bool := false
  detachedApp : UInt32 := 0
  detachedRouter : UInt32 := 0
  idleStart : UInt32 := 0
  since : ℕ := 0
  deriving Repr, DecidableEq

/-- One run of `nxt_router_adjust_idle_timer`: its locals, and the reading of
the clock it started with. -/
structure Reaper where
  threshold : UInt32
  timeout : UInt32
  now : ℕ
  deriving Repr, DecidableEq

/-- A worker that was told to quit: since when it was idle, and the reading of
the clock of the reaper. -/
structure Quit (π : Type) where
  port : π
  since : ℕ
  now : ℕ
  deriving Repr, DecidableEq

/-- The part of `nxt_app_t` with the idle queues; ports are named in `π`. -/
structure App (π : Type) where
  spareProcesses : ℕ
  idleTimeout : UInt32
  idleProcesses : ℕ := 0
  sparePorts : List π := []
  idlePorts : List π := []
  port : π → Port := fun _ => {}
  reaper : Option Reaper := none
  timer : Option UInt32 := none
  quits : List (Quit π) := []

/-- `NXT_TIMER_DEFAULT_BIAS`. -/
def timerBias : UInt32 := 50

/-- `nxt_apr_action_t`. -/
inductive AprAction
  | newPort
  | requestFailed
  | gotResponse
  | upgrade
  | close
  | websocketClose
  deriving Repr, DecidableEq

/-- `got_response + dec_requests`. -/
def AprAction.requests : AprAction → UInt32
  | .requestFailed | .gotResponse | .upgrade => 1
  | .newPort | .close | .websocketClose => 0

/-- `dec_websockets`. -/
def AprAction.websockets : AprAction → UInt32
  | .websocketClose => 1
  | .newPort | .requestFailed | .gotResponse | .upgrade | .close => 0

variable {π : Type} [DecidableEq π]

namespace App

def setPort (s : App π) (p : π) (f : Port → Port) : App π :=
  { s with port := Function.update s.port p (f (s.port p)) }

/-- `port->idle_link.next != NULL`. -/
def linked (s : App π) (p : π) : Bool := p ∈ s.sparePorts || p ∈ s.idlePorts

/-- `nxt_router_app_spare_rebalance`: `none` is the assertion that
`idle_ports` is not empty. -/
def spareRebalance (s : App π) (p : π) : Option (App π) :=
  if (s.port p).idleStart = 0 ∧ s.spareProcesses ≤ s.idleProcesses then
    match s.idlePorts.getLast? with
    | none => none
    | some q =>
      some ({ s with
        idlePorts := s.idlePorts.dropLast
        sparePorts := s.sparePorts ++ [q] }.setPort q fun port => { port with idleStart := 0 })
  else some s

/-- `nxt_queue_chk_remove` of a linked port, with the counter. -/
def unlink (s : App π) (p : π) : App π :=
  { s with
    sparePorts := s.sparePorts.erase p
    idlePorts := s.idlePorts.erase p
    idleProcesses := s.idleProcesses - 1 }

/-- `nxt_router_app_port_busy`, and the same lines of
`nxt_router_app_port_close`. -/
def portBusy (s : App π) (p : π) : Option (App π) :=
  if s.linked p then (s.unlink p).spareRebalance p else some s

/-- The condition of `nxt_router_app_port_idle`. -/
def CanIdle (s : App π) (p : π) : Prop :=
  (s.port p).isOpen = true ∧ (s.port p).activeRequests = 0 ∧ (s.port p).activeWebsockets = 0 ∧
    (s.port p).detached = false ∧ s.linked p = false

instance (s : App π) (p : π) : Decidable (s.CanIdle p) :=
  inferInstanceAs (Decidable (_ ∧ _ ∧ _ ∧ _ ∧ _))

/-- `nxt_router_app_port_idle` on an engine whose clock reads `now`. -/
def portIdle (s : App π) (p : π) (now : ℕ) : App π :=
  if s.CanIdle p then
    if s.idleProcesses < s.spareProcesses then
      { s with
        sparePorts := s.sparePorts ++ [p]
        idleProcesses := s.idleProcesses + 1 }.setPort p fun port => { port with since := now }
    else
      { s with
        idlePorts := s.idlePorts ++ [p]
        idleProcesses := s.idleProcesses + 1 }.setPort p fun port =>
          { port with idleStart := UInt32.ofNat now, since := now }
  else s

/-! ### The events -/

/-- `nxt_router_app_port_ready` of a new worker up to the release of its
port. -/
def opened (s : App π) (p : π) : App π :=
  s.setPort p fun _ => { isOpen := true, registered := true }

/-- The counters of `nxt_router_app_port_release`. -/
def released (s : App π) (p : π) (action : AprAction) : App π :=
  s.setPort p fun port => { port with
    activeRequests := port.activeRequests - action.requests
    activeWebsockets := port.activeWebsockets - action.websockets }

/-- The end of the last reason for which a port was detached. -/
def attached (s : App π) (p : π) : App π :=
  s.setPort p fun port => { port with detachedApp := 0, detachedRouter := 0, detached := false }

/-- The end of `nxt_router_adjust_idle_timer`. -/
def reaped (s : App π) (r : Reaper) : App π :=
  { s with
    reaper := none
    timer := if r.threshold < r.timeout then some (r.timeout - r.threshold) else none }

/-- The reaper tells the first port of `idle_ports` to quit. -/
def quit (s : App π) (r : Reaper) (p : π) (rest : List π) : App π :=
  { s with
    idlePorts := rest
    idleProcesses := s.idleProcesses - 1
    reaper := some { r with timeout := (s.port p).idleStart + s.idleTimeout }
    quits := s.quits ++ [Quit.mk p (s.port p).since r.now] }.setPort p fun port =>
      { port with registered := false }

/-- One iteration of the loop of `nxt_router_adjust_idle_timer`: `none` is the
assertion that `idle_ports` is not empty. -/
def reap (s : App π) (r : Reaper) : Option (App π) :=
  if s.spareProcesses < s.idleProcesses then
    match s.idlePorts with
    | [] => none
    | p :: rest =>
      if (s.port p).detached then
        some { s with idlePorts := rest, idleProcesses := s.idleProcesses - 1 }
      else
        let timeout := (s.port p).idleStart + s.idleTimeout
        if r.threshold < timeout then some (s.reaped { r with timeout := timeout })
        else some (s.quit r p rest)
  else some (s.reaped r)

end App

/-- What happens to the ports of an application.  `ready` is a new process;
`prefork` is one started with the configuration, which starts them one by one
while spare ones are missing; `acknowledge` assigns a request and `release`
ends requests or websockets; a port is detached by the application or by the
router that gave up on a request; `close` is the end of the process. -/
inductive Event (π : Type)
  | ready (p : π) (now : ℕ)
  | prefork (p : π) (now : ℕ)
  | acknowledge (p : π)
  | upgrade (p : π)
  | release (p : π) (action : AprAction) (now : ℕ)
  | detachedStart (p : π)
  | detachedFinish (p : π) (now : ℕ)
  | abandon (p : π)
  | settle (p : π) (now : ℕ)
  | close (p : π)
  | reapStart (now : ℕ)
  | reapStep

def App.unused (s : App π) (p : π) : Bool := !(s.port p).isOpen && !s.linked p

/-- One callback of the router, or one iteration of its reaper. -/
def step (s : App π) : Event π → Option (App π)
  | .ready p now => some (if s.unused p then (s.opened p).portIdle p now else s)
  | .prefork p now =>
    some (if s.unused p ∧ s.idleProcesses < s.spareProcesses then
      { s.opened p with
        sparePorts := s.sparePorts ++ [p]
        idleProcesses := s.idleProcesses + 1 }.setPort p fun port => { port with since := now }
      else s)
  | .acknowledge p =>
    (s.portBusy p).map fun s =>
      s.setPort p fun port => { port with activeRequests := port.activeRequests + 1 }
  | .upgrade p =>
    some (s.setPort p fun port => { port with activeWebsockets := port.activeWebsockets + 1 })
  | .release p action now => some ((s.released p action).portIdle p now)
  | .detachedStart p =>
    if (s.port p).registered = false ∨ (s.port p).detachedApp + 1 = 0 then some s
    else
      let s' := s.setPort p fun port =>
        { port with detachedApp := port.detachedApp + 1, detached := true }
      if (s.port p).detached then some s' else s'.portBusy p
  | .detachedFinish p now =>
    if (s.port p).registered = false ∨ (s.port p).detachedApp = 0 then some s
    else if (s.port p).detachedApp = 1 ∧ (s.port p).detachedRouter = 0 ∧ (s.port p).detached then
      some ((s.attached p).portIdle p now)
    else some (s.setPort p fun port => { port with detachedApp := port.detachedApp - 1 })
  | .abandon p =>
    (s.setPort p fun port =>
      { port with detachedRouter := port.detachedRouter + 1, detached := true }).portBusy p
  | .settle p now =>
    if (s.port p).detachedRouter = 0 then some s
    else if (s.port p).detachedRouter = 1 ∧ (s.port p).detachedApp = 0 ∧ (s.port p).detached then
      some ((s.attached p).portIdle p now)
    else some (s.setPort p fun port => { port with detachedRouter := port.detachedRouter - 1 })
  | .close p =>
    if (s.port p).registered then
      (s.portBusy p).map fun s => (s.attached p).setPort p fun port =>
        { port with isOpen := false, registered := false }
    else some (s.setPort p fun port => { port with isOpen := false })
  | .reapStart now =>
    match s.reaper with
    | some _ => some s
    | none => some { s with reaper := some ⟨UInt32.ofNat now + timerBias, 0, now⟩ }
  | .reapStep =>
    match s.reaper with
    | none => some s
    | some r => s.reap r

def run (s : App π) : List (Event π) → Option (App π)
  | [] => some s
  | e :: es => (step s e).bind fun s => run s es

/-! ### What holds in every run -/

/-- The queues and the counter, and what the reaper reads and has done. -/
structure Inv (s : App π) : Prop where
  nodup : (s.sparePorts ++ s.idlePorts).Nodup
  count : s.idleProcesses = s.sparePorts.length + s.idlePorts.length
  stamp : ∀ p ∈ s.idlePorts, (s.port p).idleStart = UInt32.ofNat (s.port p).since
  threshold : ∀ r, s.reaper = some r → r.threshold = UInt32.ofNat r.now + timerBias
  due : ∀ q ∈ s.quits, UInt32.ofNat q.since + s.idleTimeout ≤ UInt32.ofNat q.now + timerBias

@[simp] theorem setPort_sparePorts (s : App π) (p : π) (f : Port → Port) :
    (s.setPort p f).sparePorts = s.sparePorts := rfl

@[simp] theorem setPort_idlePorts (s : App π) (p : π) (f : Port → Port) :
    (s.setPort p f).idlePorts = s.idlePorts := rfl

@[simp] theorem setPort_idleProcesses (s : App π) (p : π) (f : Port → Port) :
    (s.setPort p f).idleProcesses = s.idleProcesses := rfl

@[simp] theorem setPort_spareProcesses (s : App π) (p : π) (f : Port → Port) :
    (s.setPort p f).spareProcesses = s.spareProcesses := rfl

theorem setPort_port_self (s : App π) (p : π) (f : Port → Port) :
    (s.setPort p f).port p = f (s.port p) := Function.update_self ..

variable {p : π} {f : Port → Port} {s' : App π}

theorem setPort_port_of_ne (s : App π) {q : π} (h : q ≠ p) (f : Port → Port) :
    (s.setPort p f).port q = s.port q := Function.update_of_ne h ..

def KeepsTimes (f : Port → Port) : Prop :=
  ∀ port, (f port).idleStart = port.idleStart ∧ (f port).since = port.since

theorem KeepsTimes.idleStart (hf : KeepsTimes f) (s : App π) (p q : π) :
    ((s.setPort p f).port q).idleStart = (s.port q).idleStart := by
  by_cases h : q = p
  · rw [h, setPort_port_self, (hf _).1]
  · rw [setPort_port_of_ne s h]

theorem KeepsTimes.since (hf : KeepsTimes f) (s : App π) (p q : π) :
    ((s.setPort p f).port q).since = (s.port q).since := by
  by_cases h : q = p
  · rw [h, setPort_port_self, (hf _).2]
  · rw [setPort_port_of_ne s h]

section

variable {s : App π}

theorem linked_iff : s.linked p = true ↔ p ∈ s.sparePorts ++ s.idlePorts := by
  simp [App.linked]

theorem not_linked_iff : s.linked p = false ↔ p ∉ s.sparePorts ++ s.idlePorts := by
  simp [App.linked]

theorem ne_of_mem_spare {q : π} (hp : p ∉ s.sparePorts ++ s.idlePorts)
    (hq : q ∈ s.sparePorts) : q ≠ p :=
  fun hqp => hp (mem_append_left _ (hqp ▸ hq))

theorem ne_of_mem_idle {q : π} (hp : p ∉ s.sparePorts ++ s.idlePorts)
    (hq : q ∈ s.idlePorts) : q ≠ p :=
  fun hqp => hp (mem_append_right _ (hqp ▸ hq))

theorem Inv.setPort (h : Inv s) (p : π) (hf : KeepsTimes f) : Inv (s.setPort p f) where
  nodup := h.nodup
  count := h.count
  stamp q hq := by
    rw [hf.idleStart, hf.since]
    exact h.stamp q hq
  threshold := h.threshold
  due := h.due

/-- A port outside the queues may change altogether. -/
theorem Inv.setPort_of_not_linked (h : Inv s) (hp : p ∉ s.sparePorts ++ s.idlePorts)
    (f : Port → Port) : Inv (s.setPort p f) where
  nodup := h.nodup
  count := h.count
  stamp q hq := by
    rw [setPort_port_of_ne s (ne_of_mem_idle hp hq)]
    exact h.stamp q hq
  threshold := h.threshold
  due := h.due

theorem Inv.unlink (h : Inv s) (hp : s.linked p = true) : Inv (s.unlink p) := by
  have hmem := linked_iff.mp hp
  have herase : (s.sparePorts.erase p ++ s.idlePorts.erase p).Sublist
      (s.sparePorts ++ s.idlePorts) :=
    erase_sublist.append erase_sublist
  refine ⟨h.nodup.sublist herase, ?_, fun q hq => h.stamp q (mem_of_mem_erase hq),
    h.threshold, h.due⟩
  show s.idleProcesses - 1 = (s.sparePorts.erase p).length + (s.idlePorts.erase p).length
  rw [h.count, length_erase, length_erase]
  obtain ⟨-, -, hdisj⟩ := nodup_append.mp h.nodup
  obtain hspare | hidle := mem_append.mp hmem
  · have hidle : p ∉ s.idlePorts := fun hidle => hdisj p hspare p hidle rfl
    have := length_pos_of_mem hspare
    rw [if_pos hspare, if_neg hidle]
    omega
  have hspare : p ∉ s.sparePorts := fun hspare => hdisj p hspare p hidle rfl
  have := length_pos_of_mem hidle
  rw [if_neg hspare, if_pos hidle]
  omega

theorem nodup_insert {a b : List π} (h : (a ++ b).Nodup) (hp : p ∉ a ++ b) :
    ((a ++ [p]) ++ b).Nodup ∧ (a ++ (b ++ [p])).Nodup := by
  have hcons : (p :: (a ++ b)).Nodup := nodup_cons.mpr ⟨hp, h⟩
  refine ⟨hcons.perm ?_, hcons.perm ?_⟩
  · rw [append_assoc]
    exact perm_middle.symm
  · rw [← append_assoc]
    exact (perm_append_singleton p (a ++ b)).symm

section

variable (h : Inv s)
include h

theorem Inv.spareRebalance (hs : s.spareRebalance p = some s') : Inv s' := by
  unfold App.spareRebalance at hs
  split at hs
  · split at hs
    · cases hs
    next q hq =>
    cases hs
    have hlast : s.idlePorts = s.idlePorts.dropLast ++ [q] := (dropLast_append_getLast? q hq).symm
    have hnodup : (s.sparePorts ++ [q] ++ s.idlePorts.dropLast).Nodup := by
      refine h.nodup.perm ?_
      rw [append_assoc]
      conv_lhs => rw [hlast]
      exact perm_append_comm.append_left _
    have hq' : q ∉ s.idlePorts.dropLast := by
      have := (h.nodup.sublist (sublist_append_right _ _))
      rw [hlast, nodup_append] at this
      exact fun hmem => this.2.2 q hmem q (by simp) rfl
    refine ⟨hnodup, ?_, ?_, h.threshold, h.due⟩
    · have := congrArg length hlast
      simp only [length_append, length_singleton] at this
      simp only [setPort_idleProcesses, setPort_sparePorts, setPort_idlePorts, h.count,
        length_append, length_singleton]
      omega
    · intro r hr
      have hne : r ≠ q := fun hrq => hq' (hrq ▸ hr)
      rw [setPort_port_of_ne _ hne]
      exact h.stamp r (dropLast_subset _ hr)
  · cases hs
    exact h

theorem Inv.portBusy (hs : s.portBusy p = some s') : Inv s' := by
  unfold App.portBusy at hs
  split at hs
  · next hp => exact (h.unlink hp).spareRebalance hs
  cases hs
  exact h

/-- A port that is not linked enters the spare queue. -/
theorem Inv.toSpare (hp : p ∉ s.sparePorts ++ s.idlePorts) (f : Port → Port) :
    Inv ({ s with
      sparePorts := s.sparePorts ++ [p]
      idleProcesses := s.idleProcesses + 1 }.setPort p f) where
  nodup := (nodup_insert h.nodup hp).1
  count := by
    simp only [setPort_idleProcesses, setPort_sparePorts, setPort_idlePorts, h.count,
      length_append, length_singleton]
    omega
  stamp q hq := by
    rw [setPort_port_of_ne _ (ne_of_mem_idle hp hq)]
    exact h.stamp q hq
  threshold := h.threshold
  due := h.due

theorem Inv.portIdle (p : π) (now : ℕ) : Inv (s.portIdle p now) := by
  unfold App.portIdle
  split
  · next hcan =>
    have hp := not_linked_iff.mp hcan.2.2.2.2
    split
    · exact h.toSpare hp _
    refine ⟨(nodup_insert h.nodup hp).2, ?_, ?_, h.threshold, h.due⟩
    · simp only [setPort_idleProcesses, setPort_sparePorts, setPort_idlePorts, h.count,
        length_append, length_singleton]
      omega
    · intro q hq
      by_cases hqp : q = p
      · rw [hqp, setPort_port_self]
      rw [setPort_port_of_ne _ hqp]
      refine h.stamp q ?_
      simpa [hqp] using hq
  · exact h

theorem Inv.dropFirst {rest : List π} (hidle : s.idlePorts = p :: rest) :
    (s.sparePorts ++ rest).Nodup ∧ s.idleProcesses - 1 = s.sparePorts.length + rest.length ∧
      p ∉ rest ∧ ∀ q ∈ rest, (s.port q).idleStart = UInt32.ofNat (s.port q).since := by
  have hnodup := h.nodup
  rw [hidle] at hnodup
  refine ⟨?_, ?_, ?_, fun q hq => h.stamp q (hidle ▸ mem_cons_of_mem p hq)⟩
  · exact hnodup.sublist ((sublist_cons_self p rest).append_left _)
  · rw [h.count, hidle, length_cons]
    omega
  · exact (nodup_cons.mp (hnodup.sublist (sublist_append_right _ _))).1

theorem Inv.reaped (r : Reaper) : Inv (s.reaped r) :=
  ⟨h.nodup, h.count, h.stamp, (fun _ hr => by cases hr), h.due⟩

theorem Inv.reap {r : Reaper} (hr : s.reaper = some r) (hs : s.reap r = some s') : Inv s' := by
  unfold App.reap at hs
  split at hs
  · split at hs
    · cases hs
    next p rest hidle =>
    obtain ⟨hnodup, hcount, hp, hstamp⟩ := h.dropFirst hidle
    dsimp only at hs
    split at hs
    · cases hs
      exact ⟨hnodup, hcount, hstamp, h.threshold, h.due⟩
    split at hs
    · cases hs
      exact h.reaped _
    next hle =>
    cases hs
    refine ⟨hnodup, hcount, ?_, ?_, ?_⟩
    · intro q hq
      have hne : q ≠ p := fun hqp => hp (hqp ▸ hq)
      rw [App.quit, setPort_port_of_ne _ hne]
      exact hstamp q hq
    · intro r' hr'
      cases hr'
      exact h.threshold r hr
    · -- The worker that quits was first in the queue, and its deadline not after the threshold.
      intro q hq
      obtain hq | hq := mem_append.mp hq
      · exact h.due q hq
      obtain rfl := mem_singleton.mp hq
      rw [h.stamp p (by simp [hidle]), h.threshold r hr] at hle
      exact UInt32.not_lt.mp hle
  · cases hs
    exact h.reaped _

theorem Inv.released (p : π) (action : AprAction) : Inv (s.released p action) :=
  h.setPort p fun _ => ⟨rfl, rfl⟩

theorem Inv.attached (p : π) : Inv (s.attached p) :=
  h.setPort p fun _ => ⟨rfl, rfl⟩

end

theorem unused_iff :
    s.unused p = true ↔ (s.port p).isOpen = false ∧ p ∉ s.sparePorts ++ s.idlePorts := by
  simp [App.unused, App.linked]

/-- **Every event keeps the queues counted.** -/
theorem Inv.step (h : Inv s) {e : Event π} (hs : step s e = some s') : Inv s' := by
  cases e with
  | ready p now =>
    cases hs
    split
    · next hp => exact (h.setPort_of_not_linked (unused_iff.mp hp).2 _).portIdle p now
    · exact h
  | prefork p now =>
    cases hs
    split
    · next hp =>
      have hnot := (unused_iff.mp hp.1).2
      exact (h.setPort_of_not_linked hnot _).toSpare hnot _
    · exact h
  | acknowledge p =>
    obtain ⟨t, ht, rfl⟩ := map_eq_some_iff.mp hs
    exact (h.portBusy ht).setPort p fun _ => ⟨rfl, rfl⟩
  | upgrade p =>
    cases hs
    exact h.setPort p fun _ => ⟨rfl, rfl⟩
  | release p action now =>
    cases hs
    exact (h.released p action).portIdle p now
  | detachedStart p =>
    simp only [AppIdle.step] at hs
    split at hs
    · cases hs
      exact h
    have h' := h.setPort p (f := fun port =>
      { port with detachedApp := port.detachedApp + 1, detached := true }) fun _ => ⟨rfl, rfl⟩
    split at hs
    · cases hs
      exact h'
    · exact h'.portBusy hs
  | detachedFinish p now | settle p now =>
    simp only [AppIdle.step] at hs
    split at hs
    · cases hs
      exact h
    split at hs
    · cases hs
      exact (h.attached p).portIdle p now
    cases hs
    exact h.setPort p fun _ => ⟨rfl, rfl⟩
  | abandon p =>
    have h' := h.setPort p (f := fun port =>
      { port with detachedRouter := port.detachedRouter + 1, detached := true }) fun _ => ⟨rfl, rfl⟩
    exact h'.portBusy hs
  | close p =>
    simp only [AppIdle.step] at hs
    split at hs
    · obtain ⟨t, ht, rfl⟩ := map_eq_some_iff.mp hs
      exact ((h.portBusy ht).attached p).setPort p fun _ => ⟨rfl, rfl⟩
    cases hs
    exact h.setPort p fun _ => ⟨rfl, rfl⟩
  | reapStart now =>
    simp only [AppIdle.step] at hs
    split at hs
    · cases hs
      exact h
    cases hs
    refine ⟨h.nodup, h.count, h.stamp, ?_, h.due⟩
    intro r hr
    cases hr
    rfl
  | reapStep => ?_
  simp only [AppIdle.step] at hs
  split at hs
  · cases hs
    exact h
  · next r hr => exact h.reap hr hs

theorem Inv.run (h : Inv s) {es : List (Event π)} (hs : run s es = some s') : Inv s' := by
  induction es generalizing s with
  | nil =>
    cases hs
    exact h
  | cons e es ih => ?_
  obtain ⟨t, ht, hs⟩ := bind_eq_some_iff.mp hs
  exact ih (h.step ht) hs

end

def init (π : Type) (spareProcesses : ℕ) (idleTimeout : UInt32) : App π :=
  { spareProcesses, idleTimeout }

theorem inv_init (spareProcesses : ℕ) (idleTimeout : UInt32) :
    Inv (init π spareProcesses idleTimeout) := by
  refine ⟨by simp [init], by simp [init], by simp [init], by simp [init], by simp [init]⟩

/-! ### The balance of the two queues -/

/-- The spare queue is as long as it can be, and `idle_start` tells on which
queue a port stands. -/
structure Balanced (s : App π) : Prop where
  spare : s.sparePorts.length = min s.spareProcesses s.idleProcesses
  spareMark : ∀ p ∈ s.sparePorts, (s.port p).idleStart = 0
  idleMark : ∀ p ∈ s.idlePorts, (s.port p).idleStart ≠ 0

/-- A port that is about to become idle: a stale `idle_start` does not go to
the spare queue, and a clock that reads zero not to the idle queue. -/
def StampOk (s : App π) (p : π) (now : ℕ) : Prop :=
  s.CanIdle p → (s.idleProcesses < s.spareProcesses → (s.port p).idleStart = 0) ∧
    (s.spareProcesses ≤ s.idleProcesses → UInt32.ofNat now ≠ 0)

/-- Every port that the event makes idle enters its queue with the right
mark. -/
def Meets (s : App π) : Event π → Prop
  | .ready p now => s.unused p = true → StampOk (s.opened p) p now
  | .release p action now => StampOk (s.released p action) p now
  | .detachedFinish p now =>
    (s.port p).detachedApp = 1 → (s.port p).detachedRouter = 0 → StampOk (s.attached p) p now
  | .settle p now =>
    (s.port p).detachedRouter = 1 → (s.port p).detachedApp = 0 → StampOk (s.attached p) p now
  | _ => True

def RunMeets (s : App π) : List (Event π) → Prop
  | [] => True
  | e :: es => Meets s e ∧ ∀ t ∈ step s e, RunMeets t es

section

variable {s : App π}

section

variable (h : Balanced s)
include h

theorem Balanced.setPort (p : π) (hf : KeepsTimes f) : Balanced (s.setPort p f) where
  spare := h.spare
  spareMark q hq := by
    rw [hf.idleStart]
    exact h.spareMark q hq
  idleMark q hq := by
    rw [hf.idleStart]
    exact h.idleMark q hq

theorem Balanced.setPort_of_not_linked (hp : p ∉ s.sparePorts ++ s.idlePorts) (f : Port → Port) :
    Balanced (s.setPort p f) where
  spare := h.spare
  spareMark q hq := by
    rw [setPort_port_of_ne s (ne_of_mem_spare hp hq)]
    exact h.spareMark q hq
  idleMark q hq := by
    rw [setPort_port_of_ne s (ne_of_mem_idle hp hq)]
    exact h.idleMark q hq

/-- A port leaves the spare queue, and the last idle one takes its place. -/
theorem Balanced.busy_of_spare (hi : Inv s) (hp : p ∈ s.sparePorts) :
    ∃ s', (s.unlink p).spareRebalance p = some s' ∧ Balanced s' := by
  obtain ⟨-, -, hdisj⟩ := nodup_append.mp hi.nodup
  have hidle : p ∉ s.idlePorts := fun hidle => hdisj p hp p hidle rfl
  have hlen : (s.sparePorts.erase p).length = s.sparePorts.length - 1 := length_erase_of_mem hp
  have hpos := length_pos_of_mem hp
  have hcount := hi.count
  have hspare := h.spare
  have hmark : ∀ q ∈ s.sparePorts.erase p, (s.port q).idleStart = 0 :=
    fun q hq => h.spareMark q (mem_of_mem_erase hq)
  unfold App.spareRebalance
  simp only [App.unlink, erase_of_not_mem hidle, h.spareMark p hp, true_and]
  split
  · next hle =>
    have hne : s.idlePorts ≠ [] := by
      intro hnil
      simp only [hnil, length_nil] at hcount
      omega
    obtain ⟨q, hq⟩ := ne_none_iff_exists'.mp (mt getLast?_eq_none_iff.mp hne)
    rw [hq]
    refine ⟨_, rfl, ?_, ?_, ?_⟩
    · simp only [setPort_sparePorts, setPort_spareProcesses, setPort_idleProcesses,
        length_append, length_singleton]
      omega
    · intro r hr
      by_cases hrq : r = q
      · rw [hrq, setPort_port_self]
      rw [setPort_port_of_ne _ hrq]
      exact hmark r (by simpa [hrq] using hr)
    · intro r hr
      have hnodup := hi.nodup.sublist (sublist_append_right _ _)
      rw [← dropLast_append_getLast? q hq, nodup_append] at hnodup
      have hrq : r ≠ q := hnodup.2.2 r hr q (by simp)
      rw [setPort_port_of_ne _ hrq]
      exact h.idleMark r (dropLast_subset _ hr)
  refine ⟨_, rfl, ?_, hmark, h.idleMark⟩
  show (s.sparePorts.erase p).length = min s.spareProcesses (s.idleProcesses - 1)
  omega

theorem Balanced.busy_of_idle (hi : Inv s) (hp : p ∈ s.idlePorts) :
    ∃ s', (s.unlink p).spareRebalance p = some s' ∧ Balanced s' := by
  obtain ⟨-, -, hdisj⟩ := nodup_append.mp hi.nodup
  have hspare : p ∉ s.sparePorts := fun hspare => hdisj p hspare p hp rfl
  have hpos := length_pos_of_mem hp
  have hcount := hi.count
  have hlen := h.spare
  unfold App.spareRebalance
  rw [if_neg fun hcond => h.idleMark p hp hcond.1]
  refine ⟨_, rfl, ?_, fun q hq => h.spareMark q (mem_of_mem_erase hq),
    fun q hq => h.idleMark q (mem_of_mem_erase hq)⟩
  show (s.sparePorts.erase p).length = min s.spareProcesses (s.idleProcesses - 1)
  rw [erase_of_not_mem hspare]
  omega

theorem Balanced.portBusy (hi : Inv s) (p : π) : ∃ s', s.portBusy p = some s' ∧ Balanced s' := by
  unfold App.portBusy
  split
  · next hp =>
    obtain hp | hp := mem_append.mp (linked_iff.mp hp)
    · exact h.busy_of_spare hi hp
    · exact h.busy_of_idle hi hp
  · exact ⟨s, rfl, h⟩

theorem Balanced.toSpare (hp : p ∉ s.sparePorts ++ s.idlePorts) (hf : (f (s.port p)).idleStart = 0)
    (hlt : s.idleProcesses < s.spareProcesses) :
    Balanced ({ s with
      sparePorts := s.sparePorts ++ [p]
      idleProcesses := s.idleProcesses + 1 }.setPort p f) where
  spare := by
    have := h.spare
    simp only [setPort_sparePorts, setPort_spareProcesses, setPort_idleProcesses,
      length_append, length_singleton]
    omega
  spareMark q hq := by
    by_cases hqp : q = p
    · rw [hqp, setPort_port_self]
      exact hf
    · rw [setPort_port_of_ne _ hqp]
      exact h.spareMark q (by simpa [hqp] using hq)
  idleMark q hq := by
    rw [setPort_port_of_ne _ (ne_of_mem_idle hp hq)]
    exact h.idleMark q hq

theorem Balanced.portIdle {now : ℕ} (hok : StampOk s p now) :
    Balanced (s.portIdle p now) := by
  unfold App.portIdle
  split
  · next hcan =>
    have hp := not_linked_iff.mp hcan.2.2.2.2
    split
    · next hlt => exact h.toSpare hp ((hok hcan).1 hlt) hlt
    next hge =>
    refine ⟨?_, ?_, ?_⟩
    · have := h.spare
      simp only [setPort_sparePorts, setPort_spareProcesses, setPort_idleProcesses]
      omega
    · intro q hq
      rw [setPort_port_of_ne _ (ne_of_mem_spare hp hq)]
      exact h.spareMark q hq
    · intro q hq
      by_cases hqp : q = p
      · rw [hqp, setPort_port_self]
        exact (hok hcan).2 (by omega)
      · rw [setPort_port_of_ne _ hqp]
        exact h.idleMark q (by simpa [hqp] using hq)
  · exact h

theorem Balanced.reaped (r : Reaper) : Balanced (s.reaped r) :=
  ⟨h.spare, h.spareMark, h.idleMark⟩

theorem Balanced.reap (hi : Inv s) (r : Reaper) : ∃ s', s.reap r = some s' ∧ Balanced s' := by
  have hcount := hi.count
  have hspare := h.spare
  unfold App.reap
  split
  · next hlt =>
    split
    · next hnil =>
      simp only [hnil, length_nil] at hcount
      omega
    next p rest hidle =>
    have hidleMark : ∀ q ∈ rest, (s.port q).idleStart ≠ 0 :=
      fun q hq => h.idleMark q (hidle ▸ mem_cons_of_mem p hq)
    have hlen : s.sparePorts.length = min s.spareProcesses (s.idleProcesses - 1) := by omega
    dsimp only
    split
    · exact ⟨_, rfl, hlen, h.spareMark, hidleMark⟩
    split
    · exact ⟨_, rfl, h.reaped _⟩
    refine ⟨_, rfl, ?_⟩
    have hquit : Balanced { s with idlePorts := rest, idleProcesses := s.idleProcesses - 1 } :=
      ⟨hlen, h.spareMark, hidleMark⟩
    have := hquit.setPort p (f := fun port => { port with registered := false })
      fun _ => ⟨rfl, rfl⟩
    exact ⟨this.spare, this.spareMark, this.idleMark⟩
  · exact ⟨_, rfl, h.reaped r⟩

/-- **Every event that meets the condition keeps the balance.** -/
theorem Balanced.step (hi : Inv s) {e : Event π} (hm : Meets s e) :
    ∃ s', step s e = some s' ∧ Balanced s' := by
  cases e with
  | ready p now =>
    refine ⟨_, rfl, ?_⟩
    split
    · next hp =>
      exact (h.setPort_of_not_linked (unused_iff.mp hp).2 _).portIdle (hm hp)
    · exact h
  | prefork p now =>
    refine ⟨_, rfl, ?_⟩
    split
    · next hp =>
      have hnot := (unused_iff.mp hp.1).2
      refine (h.setPort_of_not_linked hnot _).toSpare hnot ?_ hp.2
      show (((s.setPort p _).port p).idleStart) = 0
      rw [setPort_port_self]
    · exact h
  | acknowledge p =>
    obtain ⟨t, ht, hb⟩ := h.portBusy hi p
    simp only [AppIdle.step, ht]
    exact ⟨_, rfl, hb.setPort p fun _ => ⟨rfl, rfl⟩⟩
  | upgrade p => exact ⟨_, rfl, h.setPort p fun _ => ⟨rfl, rfl⟩⟩
  | release p action now =>
    have h' : Balanced (s.released p action) := h.setPort p fun _ => ⟨rfl, rfl⟩
    exact ⟨_, rfl, h'.portIdle hm⟩
  | detachedStart p =>
    simp only [AppIdle.step]
    have h' := h.setPort p (f := fun port =>
      { port with detachedApp := port.detachedApp + 1, detached := true }) fun _ => ⟨rfl, rfl⟩
    have hi' := hi.setPort p (f := fun port =>
      { port with detachedApp := port.detachedApp + 1, detached := true }) fun _ => ⟨rfl, rfl⟩
    split
    · exact ⟨s, rfl, h⟩
    split
    · exact ⟨_, rfl, h'⟩
    · exact h'.portBusy hi' p
  | detachedFinish p now | settle p now =>
    simp only [AppIdle.step]
    have h' : Balanced (s.attached p) := h.setPort p fun _ => ⟨rfl, rfl⟩
    split
    · exact ⟨s, rfl, h⟩
    split
    · next hlast => exact ⟨_, rfl, h'.portIdle (hm hlast.1 hlast.2.1)⟩
    · exact ⟨_, rfl, h.setPort p fun _ => ⟨rfl, rfl⟩⟩
  | abandon p =>
    have h' := h.setPort p (f := fun port =>
      { port with detachedRouter := port.detachedRouter + 1, detached := true }) fun _ => ⟨rfl, rfl⟩
    have hi' := hi.setPort p (f := fun port =>
      { port with detachedRouter := port.detachedRouter + 1, detached := true }) fun _ => ⟨rfl, rfl⟩
    exact h'.portBusy hi' p
  | close p =>
    simp only [AppIdle.step]
    split
    · obtain ⟨t, ht, hb⟩ := h.portBusy hi p
      rw [ht]
      have hb' : Balanced (t.attached p) := hb.setPort p fun _ => ⟨rfl, rfl⟩
      exact ⟨_, rfl, hb'.setPort p fun _ => ⟨rfl, rfl⟩⟩
    · exact ⟨_, rfl, h.setPort p fun _ => ⟨rfl, rfl⟩⟩
  | reapStart now =>
    simp only [AppIdle.step]
    split
    · exact ⟨s, rfl, h⟩
    · exact ⟨_, rfl, h.spare, h.spareMark, h.idleMark⟩
  | reapStep => ?_
  simp only [AppIdle.step]
  split
  · exact ⟨s, rfl, h⟩
  · next r hr => exact h.reap hi r

theorem Balanced.run (hi : Inv s) {es : List (Event π)} (hm : RunMeets s es) :
    ∃ s', run s es = some s' ∧ Inv s' ∧ Balanced s' := by
  induction es generalizing s with
  | nil => exact ⟨s, rfl, hi, h⟩
  | cons e es ih => ?_
  obtain ⟨t, ht, hb⟩ := h.step hi hm.1
  obtain ⟨s', hs', h'⟩ := ih hb (hi.step ht) (hm.2 t ht)
  exact ⟨s', by rw [AppIdle.run, ht]; exact hs', h'⟩

end

end

/-- The counter counts the two queues, no port stands on both, and the spare
queue holds as many ports as it may. -/
def QueuesBalanced (s : App π) : Prop :=
  s.idleProcesses = s.sparePorts.length + s.idlePorts.length ∧
    (∀ p ∈ s.sparePorts, p ∉ s.idlePorts) ∧
    s.sparePorts.length = min s.spareProcesses s.idleProcesses

/-! ### The reaper and the clock -/

/-- The worker was idle for the configured time, up to the bias of the
timer. -/
def OnTime (s : App π) (q : Quit π) : Prop :=
  q.since + s.idleTimeout.toNat ≤ q.now + timerBias.toNat

/-- The deadline of the worker does not lie in a later period of the 32-bit
clock than the threshold of the reaper. -/
def PeriodReached (s : App π) (q : Quit π) : Prop :=
  (q.since + s.idleTimeout.toNat) / 2 ^ 32 ≤ (q.now + timerBias.toNat) / 2 ^ 32

theorem toNat_ofNat_add (n : ℕ) (c : UInt32) :
    (UInt32.ofNat n + c).toNat = (n + c.toNat) % 2 ^ 32 := by
  rw [UInt32.toNat_add, UInt32.toNat_ofNat']
  simp

/-- **The reaper is on time** for exactly the workers whose deadline lies in a
period of the clock that the threshold has reached: in every history all
workers that were told to quit had been idle long enough if and only if this
holds of all of them. -/
theorem quits_on_time_iff (spareProcesses : ℕ) (idleTimeout : UInt32) (es : List (Event π))
    (s : App π) (hs : run (init π spareProcesses idleTimeout) es = some s) :
    (∀ q ∈ s.quits, OnTime s q) ↔ ∀ q ∈ s.quits, PeriodReached s q := by
  have hdue := ((inv_init spareProcesses idleTimeout).run hs).due
  refine forall₂_congr fun q hq => ?_
  have hle := UInt32.le_iff_toNat_le.mp (hdue q hq)
  rw [toNat_ofNat_add, toNat_ofNat_add] at hle
  constructor
  · exact fun h => Nat.div_le_div_right h
  · intro h
    show _ ≤ _
    rw [PeriodReached] at h
    omega

theorem quits_on_time_second :
    ∃ s, run (init Unit 0 1000) [.ready () 7, .reapStart 1000, .reapStep] = some s ∧
      s.quits = [⟨(), 7, 1000⟩] ∧
      ((∀ q ∈ s.quits, OnTime s q) ↔ ∀ q ∈ s.quits, PeriodReached s q) := by
  obtain ⟨s, hs⟩ : ∃ s, run (init Unit 0 1000) [.ready () 7, .reapStart 1000, .reapStep] = some s :=
    ⟨_, rfl⟩
  refine ⟨s, hs, ?_, quits_on_time_iff 0 1000 _ s hs⟩
  cases hs
  decide

/-- Near the wrap of the clock the deadline of a worker is a small number: it
is told to quit after one millisecond of the thousand. -/
theorem quits_at_wrap :
    ∃ s, run (init Unit 0 1000) [.ready () (2 ^ 32 - 100), .reapStart (2 ^ 32 - 99), .reapStep] =
        some s ∧
      s.quits = [⟨(), 2 ^ 32 - 100, 2 ^ 32 - 99⟩] ∧ ¬ ∀ q ∈ s.quits, OnTime s q := by
  refine ⟨_, rfl, by decide, ?_⟩
  intro h
  have := h ⟨(), 2 ^ 32 - 100, 2 ^ 32 - 99⟩ (by decide)
  revert this
  unfold OnTime
  decide

end FreeUnit.AppIdle
