/-
Slices of a byte string and numbers in it.

`slice m a n` are the `n` elements of `m` from position `a` on, and `leBytes k v`
are the `k` bytes of a number, the lowest first.

* `slice_append_add`, `slice_flatMap` — slices of a string put together from
  parts, or from blocks of one size;
* `leAt_head`, `leAt_skip` — the numbers of a record, one after the other.
-/
import FreeUnit.Bytes

namespace FreeUnit

open List

section Slice

variable {α : Type*}

/-- The `n` elements from position `a` on, as far as there are any. -/
def slice (m : List α) (a n : ℕ) : List α := (m.drop a).take n

variable {a n k i : ℕ}

theorem length_slice {m : List α} (h : a + n ≤ m.length) : (slice m a n).length = n := by
  rw [slice, length_take, length_drop]
  omega

variable {l : List α}

theorem slice_append_left (h : a + n ≤ l.length) (r : List α) :
    slice (l ++ r) a n = slice l a n := by
  rw [slice, slice, drop_append_of_le_length (by omega), take_append_of_le_length]
  rw [length_drop]
  omega

theorem slice_append_add (l r : List α) (a n : ℕ) :
    slice (l ++ r) (l.length + a) n = slice r a n := by
  rw [slice, drop_length_add_append, slice]

theorem slice_append_right (hk : l.length = k) (r : List α) (a n : ℕ) :
    slice (l ++ r) (k + a) n = slice r a n := by
  rw [← hk, slice_append_add]

theorem slice_zero (h : l.length = n) (r : List α) : slice (l ++ r) 0 n = l := by
  rw [slice, drop_zero, ← h, take_left]

theorem slice_append_end (h : a + n = l.length) (r : List α) :
    slice (l ++ r) a (n + r.length) = slice l a n ++ r := by
  have hn : (l.drop a).length = n := by
    rw [length_drop]
    omega
  rw [slice, slice, drop_append_of_le_length (by omega), ← hn, take_length,
    take_length_add_append, take_length]

theorem slice_slice (m : List α) (h : i + k ≤ n) : slice (slice m a n) i k = slice m (a + i) k := by
  rw [slice, slice, slice, drop_take, drop_drop, take_take]
  congr 1
  omega

theorem slice_flatMap {β : Type*} {g : β → List α} (hg : ∀ x, (g x).length = k)
    {l : List β} {x : β} (h : l[i]? = some x) : slice (l.flatMap g) (k * i) k = g x := by
  induction l generalizing i with
  | nil => simp at h
  | cons y l ih => ?_
  rw [flatMap_cons]
  cases i with
  | zero =>
    rw [getElem?_cons_zero, Option.some.injEq] at h
    rw [h, Nat.mul_zero, slice_zero (hg x)]
  | succ i =>
    rw [Nat.mul_succ, Nat.add_comm, slice_append_right (hg y)]
    exact ih h

theorem length_flatMap_const {β : Type*} {g : β → List α} (hg : ∀ x, (g x).length = k)
    (l : List β) : (l.flatMap g).length = k * l.length := by
  induction l with
  | nil => simp
  | cons y l ih =>
    rw [flatMap_cons, length_append, hg, ih, length_cons, Nat.mul_succ, Nat.add_comm]

/-! ### Strings of a data area -/

/-- The string `s` is at position `pos` of an area that starts at `base`. -/
structure StringAt (base : ℕ) (data : List α) (pos : ℕ) (s : List α) : Prop where
  base_le : base ≤ pos
  le : pos + s.length ≤ base + data.length
  eq : slice data (pos - base) s.length = s

namespace StringAt

variable {base pos : ℕ} {data s : List α}

theorem extend (h : StringAt base data pos s) (more : List α) :
    StringAt base (data ++ more) pos s := by
  have hbase := h.base_le
  have hle := h.le
  refine ⟨hbase, ?_, ?_⟩
  · rw [length_append]
    omega
  · rw [slice_append_left (by omega)]
    exact h.eq

theorem put (base : ℕ) (data more s rest : List α) :
    StringAt base (data ++ (more ++ (s ++ rest))) (base + data.length + more.length) s := by
  have hpos : base + data.length + more.length - base = data.length + (more.length + 0) := by omega
  refine ⟨by omega, ?_, ?_⟩
  · simp only [length_append]
    omega
  · rw [hpos, slice_append_add, slice_append_add, slice_zero rfl]

theorem part (h : StringAt base data pos s) (han : a + n ≤ s.length) :
    StringAt base data (pos + a) (slice s a n) := by
  have hbase := h.base_le
  have hle := h.le
  have hlen := length_slice han
  have hpos : pos + a - base = pos - base + a := by omega
  refine ⟨by omega, by omega, ?_⟩
  rw [hlen, hpos, ← slice_slice data (by omega : a + n ≤ s.length), h.eq]

/-- A string in memory that the area is a part of. -/
theorem slice_memory (h : StringAt base data pos s) {front : List α} (hfront : front.length = base)
    (rest : List α) : slice (front ++ (data ++ rest)) pos s.length = s := by
  have hbase := h.base_le
  have hle := h.le
  have hpos : pos = base + (pos - base) := by omega
  rw [hpos, slice_append_right hfront, slice_append_left (by omega)]
  exact h.eq

end StringAt

end Slice

/-! ### Numbers -/

/-- A number in `k` bytes, the lowest first; what does not fit is cut off. -/
def leBytes : ℕ → ℕ → Bytes
  | 0, _ => []
  | k + 1, v => UInt8.ofNat v :: leBytes k (v / 256)

def ofLe : Bytes → ℕ
  | [] => 0
  | b :: bs => b.toNat + 256 * ofLe bs

@[simp] theorem length_leBytes (k v : ℕ) : (leBytes k v).length = k := by
  induction k generalizing v with
  | zero => rfl
  | succ k ih => rw [leBytes, length_cons, ih]

/-- **A number is read back** modulo what its bytes can hold. -/
theorem ofLe_leBytes (k v : ℕ) : ofLe (leBytes k v) = v % 256 ^ k := by
  induction k generalizing v with
  | zero => simp [leBytes, ofLe, Nat.mod_one]
  | succ k ih =>
    have hbyte : (UInt8.ofNat v).toNat = v % 256 := by simp
    rw [leBytes, ofLe, ih, hbyte, Nat.pow_succ, Nat.mul_comm (256 ^ k) 256, Nat.mod_mul]

/-- The number in the `k` bytes from position `a` on. -/
def leAt (m : Bytes) (a k : ℕ) : ℕ := ofLe (slice m a k)

/-- A number of a record, for a record at `a`. -/
theorem leAt_of_slice {m s : Bytes} (h : slice m a n = s) (hk : i + k ≤ n) :
    leAt m (a + i) k = leAt s i k := by
  rw [leAt, leAt, ← h, slice_slice m hk]

@[simp] theorem leAt_leBytes (k v : ℕ) : leAt (leBytes k v) 0 k = v % 256 ^ k := by
  have h := slice_zero (length_leBytes k v) []
  rw [append_nil] at h
  rw [leAt, h, ofLe_leBytes]

@[simp] theorem leAt_head (k v : ℕ) (r : Bytes) : leAt (leBytes k v ++ r) 0 k = v % 256 ^ k := by
  rw [leAt, slice_zero (length_leBytes k v), ofLe_leBytes]

theorem leAt_skip (j v : ℕ) (r : Bytes) (h : j ≤ i) :
    leAt (leBytes j v ++ r) i k = leAt r (i - j) k := by
  obtain ⟨d, rfl⟩ := Nat.exists_eq_add_of_le h
  rw [leAt, slice_append_right (length_leBytes j v), Nat.add_sub_cancel_left, leAt]

end FreeUnit
