/-
The records that the router and an application exchange in shared memory
(`nxt_unit_field_t`, `nxt_unit_sptr_t`, `nxt_unit_response_t`).

A string is named by its length and by its distance from the pointer itself, so
that a message can be read wherever the memory is mapped.

* `UnitField.read_bytes`, `ResponseHead.read_bytes` — a record is read back from
  its bytes;
* `sptrInBuf_eq_some` — a pointer that passes the check of the receiver stays
  inside the message, and when it does.
-/
import FreeUnit.ByteSlices

namespace FreeUnit

/-! ### Pointers -/

/-- `nxt_unit_sptr_set`: the distance of `ptr` from the pointer at `base`.  All
strings are behind the pointers to them. -/
def sptrSet (base ptr : ℕ) : UInt32 := UInt32.ofNat (ptr - base)

def sptrGet (base : ℕ) (offset : UInt32) : ℕ := base + offset.toNat

theorem sptrGet_sptrSet {base ptr : ℕ} (hle : base ≤ ptr) (hlt : ptr - base < 2 ^ 32) :
    sptrGet base (sptrSet base ptr) = ptr := by
  have hnat : (UInt32.ofNat (ptr - base)).toNat = ptr - base := by
    rw [UInt32.toNat_ofNat']
    exact Nat.mod_eq_of_lt hlt
  rw [sptrGet, sptrSet, hnat]
  omega

/-- `nxt_unit_sptr_in_buf`: the position of `length` bytes, if they and the
pointer at `base` are inside the message. -/
def sptrInBuf (msg : Bytes) (base length : ℕ) : Option ℕ :=
  if msg.length < 4 ∨ base > msg.length - 4 then none
  else
    let offset := leAt msg base 4
    if offset > msg.length - base ∨ length > msg.length - base - offset then none
    else some (base + offset)

theorem sptrInBuf_eq_some {msg : Bytes} {base length pos : ℕ} :
    sptrInBuf msg base length = some pos ↔
      base + 4 ≤ msg.length ∧ pos = base + leAt msg base 4 ∧ pos + length ≤ msg.length := by
  unfold sptrInBuf
  split
  · rename_i hout
    simp only [reduceCtorEq, false_iff]
    omega
  rename_i hin
  dsimp only
  split
  · rename_i hout
    simp only [reduceCtorEq, false_iff]
    omega
  rename_i hok
  rw [Option.some.injEq]
  omega

/-! ### Fields -/

/-- `nxt_unit_field_t`; the flags are the bits `skip` and `hopbyhop`. -/
structure UnitField where
  hash : UInt16
  flags : UInt8
  nameLength : UInt8
  valueLength : UInt32
  name : UInt32
  value : UInt32
  deriving DecidableEq, Repr

namespace UnitField

/-- `sizeof(nxt_unit_field_t)`. -/
def size : ℕ := 16

def skip (f : UnitField) : Bool := f.flags &&& 1 != 0

def bytes (f : UnitField) : Bytes :=
  leBytes 2 f.hash.toNat ++ (leBytes 1 f.flags.toNat ++ (leBytes 1 f.nameLength.toNat ++
    (leBytes 4 f.valueLength.toNat ++ (leBytes 4 f.name.toNat ++ leBytes 4 f.value.toNat))))

def read (m : Bytes) (a : ℕ) : UnitField where
  hash := UInt16.ofNat (leAt m a 2)
  flags := UInt8.ofNat (leAt m (a + 2) 1)
  nameLength := UInt8.ofNat (leAt m (a + 3) 1)
  valueLength := UInt32.ofNat (leAt m (a + 4) 4)
  name := UInt32.ofNat (leAt m (a + 8) 4)
  value := UInt32.ofNat (leAt m (a + 12) 4)

@[simp] theorem length_bytes (f : UnitField) : f.bytes.length = size := by
  simp [bytes, size]

/-- **A field is read back from its bytes.** -/
theorem read_bytes {m : Bytes} {a : ℕ} {f : UnitField} (h : slice m a size = f.bytes) :
    read m a = f := by
  have hash : leAt m (a + 0) 2 = leAt f.bytes 0 2 := leAt_of_slice h (by decide)
  have flags : leAt m (a + 2) 1 = leAt f.bytes 2 1 := leAt_of_slice h (by decide)
  have nameLength : leAt m (a + 3) 1 = leAt f.bytes 3 1 := leAt_of_slice h (by decide)
  have valueLength : leAt m (a + 4) 4 = leAt f.bytes 4 4 := leAt_of_slice h (by decide)
  have name : leAt m (a + 8) 4 = leAt f.bytes 8 4 := leAt_of_slice h (by decide)
  have value : leAt m (a + 12) 4 = leAt f.bytes 12 4 := leAt_of_slice h (by decide)
  rw [Nat.add_zero] at hash
  rw [read, hash, flags, nameLength, valueLength, name, value, bytes]
  cases f
  simp [leAt_skip]

theorem leAt_pointers {m : Bytes} {a : ℕ} {f : UnitField} (h : slice m a size = f.bytes) :
    leAt m (a + 8) 4 = f.name.toNat ∧ leAt m (a + 12) 4 = f.value.toNat := by
  have name : leAt m (a + 8) 4 = leAt f.bytes 8 4 := leAt_of_slice h (by decide)
  have value : leAt m (a + 12) 4 = leAt f.bytes 12 4 := leAt_of_slice h (by decide)
  rw [name, value, bytes]
  constructor
  · simp [leAt_skip, Nat.mod_eq_of_lt f.name.toNat_lt]
  · simp [leAt_skip, Nat.mod_eq_of_lt f.value.toNat_lt]

end UnitField

/-! ### The head of a response -/

/-- `nxt_unit_response_t` without the fields. -/
structure ResponseHead where
  contentLength : UInt64 := 0
  fieldsCount : UInt32 := 0
  piggybackContentLength : UInt32 := 0
  status : UInt16 := 0
  piggybackContent : UInt32 := 0
  deriving DecidableEq, Repr

namespace ResponseHead

/-- `sizeof(nxt_unit_response_t)`. -/
def size : ℕ := 24

def bytes (h : ResponseHead) : Bytes :=
  leBytes 8 h.contentLength.toNat ++ (leBytes 4 h.fieldsCount.toNat ++
    (leBytes 4 h.piggybackContentLength.toNat ++ (leBytes 2 h.status.toNat ++
      (leBytes 2 0 ++ leBytes 4 h.piggybackContent.toNat))))

@[simp] theorem length_bytes (h : ResponseHead) : h.bytes.length = size := by
  simp [bytes, size]

/-- **The head is read back from its bytes.** -/
theorem read_bytes {m : Bytes} {h : ResponseHead} (hm : slice m 0 size = h.bytes) :
    leAt m 8 4 = h.fieldsCount.toNat ∧ leAt m 12 4 = h.piggybackContentLength.toNat ∧
      leAt m 16 2 = h.status.toNat ∧ leAt m 20 4 = h.piggybackContent.toNat := by
  have count : leAt m (0 + 8) 4 = leAt h.bytes 8 4 := leAt_of_slice hm (by decide)
  have length : leAt m (0 + 12) 4 = leAt h.bytes 12 4 := leAt_of_slice hm (by decide)
  have status : leAt m (0 + 16) 2 = leAt h.bytes 16 2 := leAt_of_slice hm (by decide)
  have content : leAt m (0 + 20) 4 = leAt h.bytes 20 4 := leAt_of_slice hm (by decide)
  rw [Nat.zero_add] at count length status content
  have hcount := h.fieldsCount.toNat_lt
  have hlength := h.piggybackContentLength.toNat_lt
  have hstatus := h.status.toNat_lt
  have hcontent := h.piggybackContent.toNat_lt
  rw [count, length, status, content, bytes]
  refine ⟨?_, ?_, ?_, ?_⟩
  · simp [leAt_skip, Nat.mod_eq_of_lt hcount]
  · simp [leAt_skip, Nat.mod_eq_of_lt hlength]
  · simp [leAt_skip, Nat.mod_eq_of_lt hstatus]
  · simp [leAt_skip, Nat.mod_eq_of_lt hcontent]

end ResponseHead

end FreeUnit
