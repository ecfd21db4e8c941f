/-
Ports out of the idle economy: detached work and abandoned requests.

A port is detached while the application runs work of its own behind an
answered request, or while the router has given up on a request that the
worker still runs.  The handlers of both sides change the port in a section
under the mutex of the application; they take references on the application
before it and drop references after it, and every handler may be stopped
between these steps by the others.

* `Reachable.inv` — the flag, the counter and the references agree after any
  interleaving.
-/
import Mathlib

namespace FreeUnit.Detached

open List

/-- What `nxt_port_t` keeps of the detached state.  `detachedApp` is a
`uint32_t` that saturates; `detachedRouter` counts requests that one worker
runs, and `threads` bounds these below the width of the counter. -/
structure Port where
  detached : Bool := false
  detachedApp : ℕ := 0
  detachedRouter : ℕ := 0
  deriving DecidableEq

/-! ### The sections under the mutex, and whether they change the flag -/

/-- In `nxt_router_app_abandon`. -/
def Port.abandon (x : Port) : Port × Bool :=
  ({ x with detached := true, detachedRouter := x.detachedRouter + 1 }, !x.detached)

/-- In `nxt_router_app_abandoned_settle`. -/
def Port.settle (x : Port) : Port × Bool :=
  if x.detachedRouter ≠ 0 then
    if x.detachedRouter - 1 = 0 ∧ x.detachedApp = 0 ∧ x.detached then
      ({ x with detachedRouter := x.detachedRouter - 1, detached := false }, true)
    else ({ x with detachedRouter := x.detachedRouter - 1 }, false)
  else (x, false)

/-- In `nxt_router_detached_apply`, for a start. -/
def Port.start (x : Port) : Port × Bool :=
  if x.detachedApp = 2 ^ 32 - 1 then (x, false)
  else ({ x with detachedApp := x.detachedApp + 1, detached := true }, !x.detached)

/-- In `nxt_router_detached_apply`, for a finish. -/
def Port.finish (x : Port) : Port × Bool :=
  if x.detachedApp = 0 then (x, false)
  else if x.detachedApp - 1 = 0 ∧ x.detachedRouter = 0 ∧ x.detached then
    ({ x with detachedApp := x.detachedApp - 1, detached := false }, true)
  else ({ x with detachedApp := x.detachedApp - 1 }, false)

/-- In `nxt_router_app_port_close`. -/
def Port.close (x : Port) : Port × Bool :=
  if x.detached then ({}, true) else (x, false)

/-- A handler between its steps: before the section it is in, or after it with
what the section has changed. -/
inductive Handler where
  | abandoning (p : ℕ)
  | abandoned (p : ℕ) (changed : Bool)
  | settled (ours : Bool)
  | edge (p : ℕ) (start : Bool)
  | applied (start changed : Bool)
  | closed (detached : Bool)

/-- The references on the application that the handler has still to drop or to
pass on. -/
def Handler.refs : Handler → ℤ
  | .abandoning _ => 2
  | .abandoned _ changed => if changed then 1 else 2
  | .settled ours => if ours then 2 else 1
  | .edge _ _ => 1
  | .applied start changed => if changed then (if start then 0 else 2) else 1
  | .closed detached => if detached then 1 else 0

/-- The application, its ports, the ports of the abandoned requests, the
handlers that run, and the references that others hold. -/
structure State where
  useCount : ℤ
  detachedProcesses : ℤ
  ports : List Port
  abandoned : Multiset ℕ
  handlers : Multiset Handler
  others : ℤ

/-- A section leaves the port as `r` says, and adds `d` to the counter of
detached processes if it changes the flag. -/
def State.section (s : State) (p : ℕ) (r : Port × Bool) (d : ℤ) : State :=
  { s with
    ports := s.ports.set p r.1
    detachedProcesses := s.detachedProcesses + if r.2 then d else 0 }

/-- One step of a handler, of a new port or of another holder of
references. -/
inductive Step : State → State → Prop
  | register (s : State) : Step s { s with ports := s.ports ++ [{}] }
  | other (s : State) (d : ℤ) :
      Step s { s with useCount := s.useCount + d, others := s.others + d }
  | abandonUse (s : State) (p : ℕ) :
      Step s { s with useCount := s.useCount + 2, handlers := .abandoning p ::ₘ s.handlers }
  | abandonLock {s : State} {p : ℕ} {x : Port} {hs : Multiset Handler} :
      s.handlers = .abandoning p ::ₘ hs → s.ports[p]? = some x →
      Step s { s.section p x.abandon 1 with handlers := .abandoned p x.abandon.2 ::ₘ hs }
  | abandonDrop {s : State} {p : ℕ} {changed : Bool} {hs : Multiset Handler} :
      s.handlers = .abandoned p changed ::ₘ hs →
      Step s { s with
        useCount := s.useCount - if changed then 0 else 1
        abandoned := p ::ₘ s.abandoned
        handlers := hs }
  | settleLock {s : State} {p : ℕ} {x : Port} {ps : Multiset ℕ} :
      s.abandoned = p ::ₘ ps → s.ports[p]? = some x →
      Step s { s.section p x.settle (-1) with
        abandoned := ps
        handlers := .settled x.settle.2 ::ₘ s.handlers }
  | settleDrop {s : State} {ours : Bool} {hs : Multiset Handler} :
      s.handlers = .settled ours ::ₘ hs →
      Step s { s with useCount := s.useCount - (if ours then 1 else 0) - 1, handlers := hs }
  | edgeUse {s : State} (p : ℕ) (start : Bool) : s.useCount ≠ 0 →
      Step s { s with useCount := s.useCount + 1, handlers := .edge p start ::ₘ s.handlers }
  | startLock {s : State} {p : ℕ} {x : Port} {hs : Multiset Handler} :
      s.handlers = .edge p true ::ₘ hs → s.ports[p]? = some x →
      Step s { s.section p x.start 1 with handlers := .applied true x.start.2 ::ₘ hs }
  | finishLock {s : State} {p : ℕ} {x : Port} {hs : Multiset Handler} :
      s.handlers = .edge p false ::ₘ hs → s.ports[p]? = some x →
      Step s { s.section p x.finish (-1) with handlers := .applied false x.finish.2 ::ₘ hs }
  | edgeDrop {s : State} {start changed : Bool} {hs : Multiset Handler} :
      s.handlers = .applied start changed ::ₘ hs →
      Step s { s with
        useCount := s.useCount - if changed then (if start then 0 else 2) else 1
        handlers := hs }
  | closeLock {s : State} {p : ℕ} {x : Port} : s.ports[p]? = some x →
      Step s { s.section p x.close (-1) with handlers := .closed x.close.2 ::ₘ s.handlers }
  | closeDrop {s : State} {detached : Bool} {hs : Multiset Handler} :
      s.handlers = .closed detached ::ₘ hs →
      Step s { s with useCount := s.useCount - (if detached then 1 else 0), handlers := hs }

def State.init (others : ℤ) : State := ⟨others, 0, [], 0, 0, others⟩

inductive Reachable : State → Prop
  | init (others : ℤ) : Reachable (State.init others)
  | step {s s' : State} : Reachable s → Step s s' → Reachable s'

def Port.Marked (x : Port) : Prop := x.detached = true ↔ 0 < x.detachedApp ∨ 0 < x.detachedRouter

def State.detachedPorts (s : State) : ℕ := s.ports.countP (·.detached)

/-- The references of the abandoned requests and of the handlers that run. -/
def State.held (s : State) : ℤ := s.abandoned.card + (s.handlers.map Handler.refs).sum

structure Inv (s : State) : Prop where
  marked : ∀ x ∈ s.ports, x.Marked
  processes : s.detachedProcesses = s.detachedPorts
  refs : s.useCount = s.others + s.detachedPorts + s.held

variable {s s' : State} {p : ℕ} {x : Port}

/-- A section keeps the flag of a port, and reports its changes. -/
structure Sound (x : Port) (r : Port × Bool) (d : ℤ) : Prop where
  marked : x.Marked → r.1.Marked
  changed : x.Marked → ((r.1.detached.toNat : ℤ) = x.detached.toNat + if r.2 then d else 0)

theorem sound_abandon (x : Port) : Sound x x.abandon 1 := by
  refine ⟨fun _ => ?_, fun _ => ?_⟩
  · simp [Port.abandon, Port.Marked]
  · cases h : x.detached <;> simp [Port.abandon, h]

theorem sound_start (x : Port) : Sound x x.start 1 := by
  rw [Port.start]
  split
  · exact ⟨id, by simp⟩
  refine ⟨fun _ => by simp [Port.Marked], fun _ => ?_⟩
  cases x.detached <;> simp

theorem sound_settle (x : Port) : Sound x x.settle (-1) := by
  rw [Port.settle]
  split
  · split
    · next h => exact ⟨fun _ => by simp [Port.Marked, h], fun _ => by simp [h.2.2]⟩
    next hr h =>
    refine ⟨fun hx => ?_, by simp⟩
    have hd : x.detached = true := hx.mpr (.inr (Nat.pos_of_ne_zero hr))
    simp only [hd, and_true, not_and_or] at h
    exact iff_of_true hd (by dsimp only; omega)
  · exact ⟨id, by simp⟩

theorem sound_finish (x : Port) : Sound x x.finish (-1) := by
  rw [Port.finish]
  split
  · exact ⟨id, by simp⟩
  split
  · next h => exact ⟨fun _ => by simp [Port.Marked, h], fun _ => by simp [h.2.2]⟩
  next hr h =>
  refine ⟨fun hx => ?_, by simp⟩
  have hd : x.detached = true := hx.mpr (.inl (Nat.pos_of_ne_zero hr))
  simp only [hd, and_true, not_and_or] at h
  exact iff_of_true hd (by dsimp only; omega)

theorem sound_close (x : Port) : Sound x x.close (-1) := by
  rw [Port.close]
  split
  · next h => exact ⟨fun _ => by simp [Port.Marked], fun _ => by simp [h]⟩
  · exact ⟨id, by simp⟩

theorem sum_refs_cons (f : Handler) (hs : Multiset Handler) :
    ((f ::ₘ hs).map Handler.refs).sum = f.refs + (hs.map Handler.refs).sum := by
  rw [Multiset.map_cons, Multiset.sum_cons]

/-- References change hands outside the sections. -/
theorem Inv.moved (h : Inv s) {use : ℤ} {as : Multiset ℕ} {hs : Multiset Handler}
    (hheld : use - (as.card + (hs.map Handler.refs).sum) = s.useCount - s.held) :
    Inv { s with useCount := use, abandoned := as, handlers := hs } := by
  refine ⟨h.marked, h.processes, ?_⟩
  have hrefs := h.refs
  show use = s.others + s.detachedPorts + (as.card + (hs.map Handler.refs).sum)
  omega

/-- A section: a port that leaves or enters the detached state gives its
reference to the handler, or gets it from there. -/
theorem Inv.locked (h : Inv s) {r : Port × Bool} {d : ℤ} {as : Multiset ℕ}
    {hs : Multiset Handler} (hx : s.ports[p]? = some x) (hr : Sound x r d)
    (hheld : as.card + (hs.map Handler.refs).sum + (if r.2 then d else 0) = s.held) :
    Inv { s.section p r d with abandoned := as, handlers := hs } := by
  obtain ⟨hp, rfl⟩ := List.getElem?_eq_some_iff.mp hx
  have hmarked := h.marked _ (getElem_mem hp)
  have hports : ((s.section p r d).detachedPorts : ℤ) =
      s.detachedPorts + (if r.2 then d else 0) := by
    have hle : s.ports[p].detached.toNat ≤ s.detachedPorts := by
      cases hd : s.ports[p].detached with
      | false => exact Nat.zero_le _
      | true => exact countP_pos_iff.mpr ⟨_, getElem_mem hp, hd⟩
    have hchanged := hr.changed hmarked
    have hset : (s.section p r d).detachedPorts =
        s.detachedPorts - s.ports[p].detached.toNat + r.1.detached.toNat := by
      rw [State.detachedPorts, State.section, countP_set hp]
      cases s.ports[p].detached <;> cases r.1.detached <;> rfl
    omega
  have hrefs := h.refs
  have hprocesses := h.processes
  refine ⟨fun y hy => ?_, ?_, ?_⟩
  · obtain hy | rfl := mem_or_eq_of_mem_set hy
    · exact h.marked y hy
    · exact hr.marked hmarked
  · show s.detachedProcesses + (if r.2 then d else 0) = (s.section p r d).detachedPorts
    omega
  · show s.useCount = s.others + (s.section p r d).detachedPorts +
      (as.card + (hs.map Handler.refs).sum)
    omega

/-- One step keeps the flag, the counter and the references in agreement. -/
theorem Inv.step (h : Inv s) (hstep : Step s s') : Inv s' := by
  cases hstep with
  | register =>
    have hports : State.detachedPorts { s with ports := s.ports ++ [{}] } = s.detachedPorts := by
      simp [State.detachedPorts]
    refine ⟨fun x hx => ?_, by rw [hports]; exact h.processes, by rw [hports]; exact h.refs⟩
    obtain hx | hx := mem_append.mp hx
    · exact h.marked x hx
    rw [mem_singleton.mp hx]
    simp [Port.Marked]
  | other d =>
    refine ⟨h.marked, h.processes, ?_⟩
    have hrefs := h.refs
    show s.useCount + d = s.others + d + s.detachedPorts + s.held
    omega
  | abandonUse | edgeUse =>
    refine h.moved ?_
    simp only [State.held, sum_refs_cons, Handler.refs]
    omega
  | abandonLock hhs hx =>
    refine h.locked hx (sound_abandon _) ?_
    simp only [State.section, State.held, hhs, sum_refs_cons, Handler.refs]
    split <;> omega
  | abandonDrop hhs =>
    refine h.moved ?_
    simp only [State.held, hhs, sum_refs_cons, Handler.refs, Multiset.card_cons]
    split <;> omega
  | settleLock has hx =>
    refine h.locked hx (sound_settle _) ?_
    simp only [State.held, has, sum_refs_cons, Handler.refs, Multiset.card_cons]
    split <;> omega
  | settleDrop hhs =>
    refine h.moved ?_
    simp only [State.held, hhs, sum_refs_cons, Handler.refs]
    split <;> omega
  | startLock hhs hx =>
    refine h.locked hx (sound_start _) ?_
    simp only [State.section, State.held, hhs, sum_refs_cons, Handler.refs, if_true]
    split <;> omega
  | finishLock hhs hx =>
    refine h.locked hx (sound_finish _) ?_
    simp only [State.section, State.held, hhs, sum_refs_cons, Handler.refs,
      Bool.false_eq_true, if_false]
    split <;> omega
  | edgeDrop hhs | closeDrop hhs =>
    refine h.moved ?_
    simp only [State.held, hhs, sum_refs_cons, Handler.refs]
    omega
  | closeLock hx => ?_
  refine h.locked hx (sound_close _) ?_
  simp only [State.section, State.held, sum_refs_cons, Handler.refs]
  split <;> omega

theorem Reachable.inv (h : Reachable s) : Inv s := by
  induction h with
  | init others => exact ⟨by simp [State.init], rfl, by simp [State.init, State.held,
      State.detachedPorts]⟩
  | step _ hstep ih => exact ih.step hstep

/-- **The detached accounting.**  After any interleaving of the handlers, a port
is marked detached exactly when one of its counts is positive, the counter is
the number of such ports, and the references on the application beyond those
of others are one for each detached port, one for each abandoned request, and
those that the running handlers have still to drop. -/
theorem detached_balance (s : State) (h : Reachable s) :
    (∀ x ∈ s.ports, x.detached = true ↔ 0 < x.detachedApp ∨ 0 < x.detachedRouter) ∧
      s.detachedProcesses = s.ports.countP (·.detached) ∧
      s.useCount = s.others + s.ports.countP (·.detached) + s.abandoned.card +
        (s.handlers.map Handler.refs).sum := by
  have hinv := h.inv
  refine ⟨hinv.marked, hinv.processes, ?_⟩
  have hrefs := hinv.refs
  rw [State.held, State.detachedPorts, ← Int.add_assoc] at hrefs
  exact hrefs

/-- A worker runs detached work, and its port has a reference. -/
theorem detached_balance_start : ∃ s : State, s.ports = [⟨true, 1, 0⟩] ∧ s.useCount = 2 ∧
    s.useCount = s.others + s.ports.countP (·.detached) + s.abandoned.card +
      (s.handlers.map Handler.refs).sum := by
  have hregister := (Reachable.init 1).step (.register _)
  have hlocked := (hregister.step (.edgeUse 0 true (by decide))).step
    (@Step.startLock _ 0 {} 0 rfl rfl)
  have hdrop := hlocked.step (@Step.edgeDrop _ true true 0 rfl)
  exact ⟨_, rfl, rfl, (detached_balance _ hdrop).2.2⟩

end FreeUnit.Detached
