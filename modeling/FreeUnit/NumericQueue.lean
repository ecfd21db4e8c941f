/-
The numeric circular queues, used by one process at a time.

Here the counters are words of 32 bits that wrap, and an enqueue or a dequeue
is a whole loop.  A queue of words is `Ring.wrap` of a ring whose counters do
not wrap, and the ring stays inside the invariant of the circular queues.

* `enqueue_wrap`, `dequeue_wrap` — what a whole operation does;
* `answers_eq_fifo` — any sequence of operations, from any value of the
  counters, is answered as by a list.
-/
import FreeUnit.CircularQueue

namespace FreeUnit.CircularQueue

open List

/-- `nxt_nncq.h`.  A cycle is truncated to 16 bits. -/
def nncq : Params where
  size := 16384
  cycles := 65536
  retries := 16384
  size_pos := by decide
  one_lt_cycles := by decide

/-- `nxt_app_nncq.h`.  The cycles are those of the counters. -/
def appNncq : Params where
  size := 131072
  cycles := 32768
  retries := 131072
  size_pos := by decide
  one_lt_cycles := by decide

section

variable (P : Params)

/-- One turn of the loop of an enqueue; nobody else writes, so a
compare-and-swap finds what has just been loaded. -/
def Ring.enqueueTurn (w : Ring) (val : ℕ) : Ring × Option ℕ :=
  let t := w.tail
  let e := w.entries (t % P.size)
  if P.cycle e = P.cycle t then ({ w with tail := (t + 1) % 2 ^ 32 }, none)
  else if P.nextCycle (P.cycle e) ≠ P.cycle t then (w, none)
  else
    ({ w with
      entries := Function.update w.entries (t % P.size) (P.newEntry (P.cycle t) val)
      tail := (t + 1) % 2 ^ 32 }, some t)

/-- The position of the item, or none after the last retry. -/
def Ring.enqueueLoop (val : ℕ) : ℕ → Ring → Ring × Option ℕ
  | 0, w => (w, none)
  | r + 1, w =>
    match w.enqueueTurn P val with
    | (w', some t) => (w', some t)
    | (w', none) => enqueueLoop val r w'

def Ring.enqueuePos (w : Ring) (val : ℕ) : Ring × Option ℕ := w.enqueueLoop P val P.retries

/-- One turn of the loop of a dequeue; `size` stands for the empty queue. -/
def Ring.dequeueTurn (w : Ring) : Ring × Option ℕ :=
  let h := w.head
  let e := w.entries (h % P.size)
  if P.cycle e ≠ P.cycle h then
    if P.nextCycle (P.cycle e) = P.cycle h then (w, some P.size) else (w, none)
  else ({ w with head := (h + 1) % 2 ^ 32 }, some (e % P.size))

def Ring.dequeueLoop : ℕ → Ring → Ring × ℕ
  | 0, w => (w, P.size)
  | r + 1, w =>
    match w.dequeueTurn P with
    | (w', some i) => (w', i)
    | (w', none) => dequeueLoop r w'

def Ring.dequeueWord (w : Ring) : Ring × ℕ := w.dequeueLoop P P.retries

inductive QueueOp where
  | enqueue (val : ℕ)
  | dequeue
  deriving DecidableEq, Repr

inductive QueueAnswer where
  | enqueued (ok : Bool)
  | dequeued (i : ℕ)
  deriving DecidableEq, Repr

def Ring.answers (w : Ring) : List QueueOp → List QueueAnswer
  | [] => []
  | .enqueue val :: ops =>
    .enqueued (w.enqueuePos P val).2.isSome :: answers (w.enqueuePos P val).1 ops
  | .dequeue :: ops => .dequeued (w.dequeueWord P).2 :: answers (w.dequeueWord P).1 ops

def fifoAnswers : List ℕ → List QueueOp → List QueueAnswer
  | _, [] => []
  | xs, .enqueue val :: ops => .enqueued true :: fifoAnswers (xs ++ [val % P.size]) ops
  | [], .dequeue :: ops => .dequeued P.size :: fifoAnswers [] ops
  | x :: xs, .dequeue :: ops => .dequeued x :: fifoAnswers xs ops

def HasRoom : List ℕ → List QueueOp → Prop
  | _, [] => True
  | xs, .enqueue val :: ops => xs.length < P.size ∧ HasRoom (xs ++ [val % P.size]) ops
  | xs, .dequeue :: ops => HasRoom xs.tail ops

/-- The entries of an empty queue with both counters at `c`: they hold the last
`size` positions before it, with any numbers. -/
def EmptyAt (c : ℕ) (entries : ℕ → ℕ) : Prop :=
  ∀ p, c + 2 ^ 32 ≤ p + P.size → p < c + 2 ^ 32 → P.cycle (entries (p % P.size)) = P.cycle p

def Ring.wrap (q : Ring) : Ring := { q with head := q.head % 2 ^ 32, tail := q.tail % 2 ^ 32 }

end

/-- Counters of 32 bits wrap with the cycles, and an operation is tried. -/
structure Words32 (P : Params) : Prop where
  words_dvd : P.words ∣ 2 ^ 32
  retries_pos : 0 < P.retries

theorem words32_of_mem {P : Params} (hP : P ∈ [nncq, appNncq]) : Words32 P := by
  rw [mem_pair] at hP
  obtain rfl | rfl := hP
  · exact ⟨by decide, by decide⟩
  · exact ⟨by decide, by decide⟩

variable {P : Params} (hP : Words32 P) {q w : Ring}

include hP

theorem Words32.size_dvd : P.size ∣ 2 ^ 32 := dvd_trans (Dvd.intro _ rfl) hP.words_dvd

theorem Words32.cycle_wrap (p : ℕ) : P.cycle (p % 2 ^ 32) = P.cycle p := by
  rw [P.cycle_eq, P.cycle_eq, Nat.mod_mod_of_dvd _ hP.words_dvd]

theorem Words32.index_wrap (p : ℕ) : p % 2 ^ 32 % P.size = p % P.size :=
  Nat.mod_mod_of_dvd _ hP.size_dvd

/-- A whole enqueue into a queue with room succeeds in its first turn. -/
theorem enqueue_wrap (hq : RingInv P q) (val : ℕ) :
    q.wrap.enqueuePos P val = ((q.push P val).wrap, some q.wrap.tail) := by
  obtain ⟨hnext, hne⟩ := hq.entry_tail
  have hturn : q.wrap.enqueueTurn P val = ((q.push P val).wrap, some q.wrap.tail) := by
    simp only [Ring.enqueueTurn, Ring.wrap, Ring.push, hP.cycle_wrap, hP.index_wrap,
      if_neg hne, hnext, ne_eq, not_true_eq_false, if_false, Nat.mod_add_mod]
  obtain ⟨r, hr⟩ := Nat.exists_eq_succ_of_ne_zero hP.retries_pos.ne'
  rw [Ring.enqueuePos, hr, Ring.enqueueLoop, hturn]

/-- A dequeue finds the queue empty only if it is. -/
theorem dequeue_wrap_nil (hq : RingInv P q) (hnil : q.contents P = []) :
    q.wrap.dequeueWord P = (q.wrap, P.size) := by
  have hhead : q.head = q.tail := by
    have hle := hq.head_le
    have hlen := congrArg length hnil
    rw [Ring.length_contents, length_nil] at hlen
    omega
  obtain ⟨hnext, hne⟩ := hq.entry_tail
  rw [← hhead] at hnext hne
  have hturn : q.wrap.dequeueTurn P = (q.wrap, some P.size) := by
    simp only [Ring.dequeueTurn, Ring.wrap, hP.cycle_wrap, hP.index_wrap, ne_eq, hne,
      not_false_eq_true, if_true, hnext]
  obtain ⟨r, hr⟩ := Nat.exists_eq_succ_of_ne_zero hP.retries_pos.ne'
  rw [Ring.dequeueWord, hr, Ring.dequeueLoop, hturn]

theorem dequeue_wrap_cons {x : ℕ} {xs : List ℕ} (hq : RingInv P q)
    (hcons : q.contents P = x :: xs) : q.wrap.dequeueWord P = (q.pop.wrap, x) ∧ RingInv P q.pop ∧
      q.pop.contents P = xs := by
  have hlt : q.head < q.tail := by
    have hlen := congrArg length hcons
    rw [Ring.length_contents, length_cons] at hlen
    omega
  obtain ⟨hq', hcontents⟩ := Ring.pop_spec hq hlt
  rw [hcons, cons.injEq] at hcontents
  -- the entry at the head is one of the last `size`
  have hcycle := hq.cycles q.head hq.tail_le hlt
  have hturn : q.wrap.dequeueTurn P = (q.pop.wrap, some x) := by
    simp only [Ring.dequeueTurn, Ring.wrap, Ring.pop, hP.cycle_wrap, hP.index_wrap, hcycle, ne_eq,
      not_true_eq_false, if_false, Nat.mod_add_mod, hcontents.1, Ring.slot]
  obtain ⟨r, hr⟩ := Nat.exists_eq_succ_of_ne_zero hP.retries_pos.ne'
  refine ⟨?_, hq', hcontents.2.symm⟩
  rw [Ring.dequeueWord, hr, Ring.dequeueLoop, hturn]

theorem answers_wrap {xs : List ℕ} {ops : List QueueOp} (hq : RingInv P q)
    (hxs : q.contents P = xs)
    (hroom : HasRoom P xs ops) : q.wrap.answers P ops = fifoAnswers P xs ops := by
  induction ops generalizing q xs with
  | nil => rfl
  | cons op ops ih => ?_
  cases op with
  | enqueue val =>
    obtain ⟨hlt, hroom⟩ := hroom
    obtain ⟨hq', hcontents⟩ := Ring.push_spec hq (hxs ▸ hlt) val
    rw [Ring.answers, enqueue_wrap hP hq, fifoAnswers, ih hq' (hcontents.trans (by rw [hxs])) hroom]
    rfl
  | dequeue => ?_
  cases xs with
  | nil =>
    rw [Ring.answers, dequeue_wrap_nil hP hq hxs, fifoAnswers, ih hq hxs hroom]
  | cons x xs =>
    obtain ⟨hdequeue, hq', hcontents⟩ := dequeue_wrap_cons hP hq hxs
    rw [Ring.answers, hdequeue, fifoAnswers, ih hq' hcontents hroom]

/-- An empty queue at any counters is inside the invariant: its ring has made
one whole turn of the counters. -/
theorem EmptyAt.exists_ring {c : ℕ} {entries : ℕ → ℕ} (h : EmptyAt P c entries)
    (hc : c < 2 ^ 32) :
    ∃ q : Ring, Ring.mk c c entries = q.wrap ∧ RingInv P q ∧ q.contents P = [] := by
  have hsize : P.size ≤ 2 ^ 32 := Nat.le_of_dvd (by decide) hP.size_dvd
  refine ⟨⟨c + 2 ^ 32, c + 2 ^ 32, entries⟩, ?_, ⟨?_, le_rfl, Nat.le_add_right .., h⟩, ?_⟩
  · simp only [Ring.wrap, Nat.add_mod_right, Nat.mod_eq_of_lt hc]
  · exact le_trans hsize (Nat.le_add_left ..)
  · rw [Ring.contents, Nat.sub_self]
    rfl

omit hP in
/-- **A queue of indices is first in, first out.**  Both counters may start at
any word; while every enqueue has a slot, each enqueue succeeds, and each
dequeue returns the oldest index, or reports empty exactly if there is none. -/
theorem answers_eq_fifo (P : Params) (hP : P ∈ [nncq, appNncq]) (c : ℕ) (hc : c < 2 ^ 32)
    (entries : ℕ → ℕ) (hempty : EmptyAt P c entries) (ops : List QueueOp)
    (hroom : HasRoom P [] ops) :
    Ring.answers P ⟨c, c, entries⟩ ops = fifoAnswers P [] ops := by
  have h32 := words32_of_mem hP
  obtain ⟨q, hwrap, hq, hnil⟩ := hempty.exists_ring h32 hc
  rw [hwrap]
  exact answers_wrap h32 hq hnil hroom

omit hP in
/-- The counters are at the last word, and wrap with the first enqueue. -/
theorem answers_eq_fifo_wrap :
    Ring.answers nncq
      ⟨2 ^ 32 - 1, 2 ^ 32 - 1, fun j => (if j = 16383 then 65534 else 65535) * 16384⟩
      [.enqueue 7, .enqueue 9, .dequeue, .dequeue, .dequeue] =
    [.enqueued true, .enqueued true, .dequeued 7, .dequeued 9, .dequeued 16384] := by
  refine answers_eq_fifo nncq (by simp) (2 ^ 32 - 1) (by decide) _ (fun p hle hlt => ?_) _ ?_
  · change 2 ^ 32 - 1 + 2 ^ 32 ≤ p + 16384 at hle
    show (if p % 16384 = 16383 then 65534 else 65535) * 16384 / 16384 % 65536 = p / 16384 % 65536
    split <;> omega
  · simp [HasRoom, nncq]

end FreeUnit.CircularQueue
