/-
Naive circular queues of numbers.

A queue of `size` entries has two counters.  A position `p` of the queue lives
in the entry `p % size`; the entry also holds the cycle `p / size` of the
position, and the cycle tells whether the position has been written.  Cycles
wrap around after `size * cycles` positions.

* `Ring.contents` — the queue as a list;
* `Ring.push_spec`, `Ring.pop_spec` — what the operations do to the list.
-/
import Mathlib

namespace FreeUnit.CircularQueue

open List

/-- The sizes of a queue: its entries, the cycles of its counters before they
wrap, and how often an operation is tried. -/
structure Params where
  size : ℕ
  cycles : ℕ
  retries : ℕ
  size_pos : 0 < size
  one_lt_cycles : 1 < cycles

namespace Params

variable (P : Params)

def words : ℕ := P.size * P.cycles

/-- The cycle of a word.  A counter is kept without the wrap, so this is
`(p % words) / size`. -/
def cycle (p : ℕ) : ℕ := p / P.size % P.cycles

def nextCycle (c : ℕ) : ℕ := (c + 1) % P.cycles

def newEntry (c i : ℕ) : ℕ := c * P.size + i % P.size

theorem cycle_eq (p : ℕ) : P.cycle p = p % P.words / P.size := by
  rw [cycle, words, Nat.mod_mul_right_div_self]

theorem cycle_add_mul (p k : ℕ) : P.cycle (p + k * P.size) = (p / P.size + k) % P.cycles := by
  rw [cycle, Nat.add_mul_div_right _ _ P.size_pos]

theorem nextCycle_cycle (p : ℕ) : P.nextCycle (P.cycle p) = P.cycle (p + P.size) := by
  have h := P.cycle_add_mul p 1
  rw [Nat.one_mul] at h
  rw [h, nextCycle, cycle, Nat.mod_add_mod]

/-- Positions of one entry have different cycles until the counters wrap. -/
theorem cycle_add_mul_ne (p : ℕ) {k : ℕ} (hpos : 0 < k) (hk : k < P.cycles) :
    P.cycle (p + k * P.size) ≠ P.cycle p := by
  rw [cycle_add_mul, cycle]
  intro h
  have hmod : (p / P.size + k) ≡ p / P.size + 0 [MOD P.cycles] := h
  have hzero := Nat.ModEq.add_left_cancel' _ hmod
  rw [Nat.ModEq, Nat.mod_eq_of_lt hk, Nat.zero_mod] at hzero
  omega

theorem cycle_add_size_ne (p : ℕ) : P.cycle (p + P.size) ≠ P.cycle p := by
  have h := P.cycle_add_mul_ne p Nat.one_pos P.one_lt_cycles
  rwa [Nat.one_mul] at h

theorem cycle_newEntry (p i : ℕ) : P.cycle (P.newEntry (P.cycle p) i) = P.cycle p := by
  have hi : i % P.size < P.size := Nat.mod_lt _ P.size_pos
  rw [newEntry, Nat.add_comm, cycle_add_mul, Nat.div_eq_of_lt hi, Nat.zero_add]
  exact Nat.mod_mod _ _

theorem newEntry_mod (c i : ℕ) : P.newEntry c i % P.size = i % P.size := by
  rw [newEntry, Nat.add_comm, Nat.add_mul_mod_self_right, Nat.mod_mod]

end Params

/-- A queue: its counters, without the wrap, and the words of its entries. -/
structure Ring where
  head : ℕ
  tail : ℕ
  entries : ℕ → ℕ

variable (P : Params)

def Ring.slot (q : Ring) (p : ℕ) : ℕ := q.entries (p % P.size) % P.size

def Ring.contents (q : Ring) : List ℕ := (List.range' q.head (q.tail - q.head)).map (q.slot P)

def Ring.push (q : Ring) (val : ℕ) : Ring :=
  { q with
    entries := Function.update q.entries (q.tail % P.size) (P.newEntry (P.cycle q.tail) val)
    tail := q.tail + 1 }

def Ring.pop (q : Ring) : Ring := { q with head := q.head + 1 }

/-- The entries hold the last `size` positions, and the queue is no longer
than that. -/
structure RingInv (q : Ring) : Prop where
  size_le : P.size ≤ q.tail
  head_le : q.head ≤ q.tail
  tail_le : q.tail ≤ q.head + P.size
  cycles : ∀ p, q.tail ≤ p + P.size → p < q.tail → P.cycle (q.entries (p % P.size)) = P.cycle p

variable {P} {q : Ring}

@[simp] theorem Ring.length_contents (q : Ring) : (q.contents P).length = q.tail - q.head := by
  rw [Ring.contents, length_map, length_range']

/-- The entry at the tail still holds the position one round before. -/
theorem RingInv.entry_tail (hq : RingInv P q) :
    P.nextCycle (P.cycle (q.entries (q.tail % P.size))) = P.cycle q.tail ∧
      P.cycle (q.entries (q.tail % P.size)) ≠ P.cycle q.tail := by
  have hsize := P.size_pos
  have hle := hq.size_le
  have hcycle := hq.cycles (q.tail - P.size) (by omega) (by omega)
  rw [← Nat.mod_eq_sub_mod hle] at hcycle
  have hback : q.tail - P.size + P.size = q.tail := by omega
  rw [hcycle, Params.nextCycle_cycle, hback]
  refine ⟨rfl, fun h => P.cycle_add_size_ne (q.tail - P.size) ?_⟩
  rw [hback, h]

theorem mod_ne_of_lt {n p t : ℕ} (hp : p < t) (ht : t < p + n) : p % n ≠ t % n := by
  intro h
  have hdvd : n ∣ t - p := (Nat.modEq_iff_dvd' hp.le).mp h
  have := Nat.le_of_dvd (by omega) hdvd
  omega

theorem Ring.push_spec (hq : RingInv P q) (hroom : (q.contents P).length < P.size) (val : ℕ) :
    RingInv P (q.push P val) ∧ (q.push P val).contents P = q.contents P ++ [val % P.size] := by
  rw [Ring.length_contents] at hroom
  have hsize := P.size_pos
  have hhead := hq.head_le
  -- the positions of the queue have other entries
  have hentry : ∀ p, p < q.tail → q.tail < p + P.size →
      (q.push P val).entries (p % P.size) = q.entries (p % P.size) := fun p hp hlt =>
    Function.update_of_ne (mod_ne_of_lt hp hlt) ..
  have hnew : (q.push P val).entries (q.tail % P.size) = P.newEntry (P.cycle q.tail) val :=
    Function.update_self ..
  refine ⟨⟨Nat.le_succ_of_le hq.size_le, Nat.le_succ_of_le hhead, ?_, ?_⟩, ?_⟩
  · show q.tail + 1 ≤ q.head + P.size
    omega
  · intro p hle hlt
    change q.tail + 1 ≤ p + P.size at hle
    obtain rfl | hlt := Nat.eq_or_lt_of_le (Nat.le_of_lt_succ hlt)
    · rw [hnew, Params.cycle_newEntry]
    rw [hentry p hlt (by omega)]
    exact hq.cycles p (by omega) hlt
  · have hlen : q.tail + 1 - q.head = (q.tail - q.head) + 1 := by omega
    show (range' q.head (q.tail + 1 - q.head)).map ((q.push P val).slot P) = _
    rw [hlen, range'_concat, map_append, Ring.contents]
    congr 1
    · refine map_congr_left fun p hp => ?_
      rw [mem_range'_1] at hp
      rw [Ring.slot, Ring.slot, hentry p (by omega) (by omega)]
    rw [Nat.one_mul, Nat.add_sub_cancel' hhead, map_singleton, Ring.slot, hnew, Params.newEntry_mod]

/-- A dequeue takes the first number off the list. -/
theorem Ring.pop_spec (hq : RingInv P q) (hlt : q.head < q.tail) :
    RingInv P q.pop ∧ q.contents P = q.slot P q.head :: q.pop.contents P := by
  refine ⟨⟨hq.size_le, hlt, ?_, hq.cycles⟩, ?_⟩
  · have := hq.tail_le
    show q.tail ≤ q.head + 1 + P.size
    omega
  · have hlen : q.tail - q.head = (q.tail - (q.head + 1)) + 1 := by omega
    rw [Ring.contents, hlen, range'_succ, map_cons]
    rfl

end FreeUnit.CircularQueue
